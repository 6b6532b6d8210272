import Mathlib.Data.List.Basic
import Mathlib.Tactic.Lemma
import Mathlib.Tactic.SplitIfs

/-!
# Lines of a text

A text is cut behind each of its line ends. The lines keep their ends, and the last one has none.
-/

namespace WitcherScriptLanguage.Library

variable {α : Type} (isEnd : α → Bool)

def lines : List α → List (List α)
  | [] => [[]]
  | a :: text =>
    if isEnd a then [a] :: lines text
    else (a :: (lines text).headD []) :: (lines text).tail

/-- No line end among the elements. -/
def Open (text : List α) : Prop := ∀ a ∈ text, isEnd a = false

/-- A line with its end. -/
def Complete (line : List α) : Prop := ∃ body a, line = body ++ [a] ∧ Open isEnd body ∧ isEnd a = true

variable {isEnd} {text line col : List α} {ls : List (List α)}

@[simp] lemma lines_nil : lines isEnd [] = [[]] := rfl

/-- What is in front of the first end becomes a part of the first line. -/
lemma lines_append_of_open (hcol : Open isEnd col) (text : List α) :
    lines isEnd (col ++ text) =
      (col ++ (lines isEnd text).headD []) :: (lines isEnd text).tail := by
  induction col with
  | nil =>
    cases text with
    | nil => rfl
    | cons a text =>
      rw [List.nil_append, lines]
      split_ifs <;> rfl
  | cons a col ih =>
    have ha : isEnd a = false := hcol a List.mem_cons_self
    have hrest : Open isEnd col := fun b hb => hcol b (List.mem_cons_of_mem a hb)
    rw [List.cons_append, lines, ha, if_neg Bool.false_ne_true, ih hrest]
    rfl

lemma lines_of_open (hcol : Open isEnd col) : lines isEnd col = [col] := by
  have h := lines_append_of_open hcol []
  rwa [List.append_nil, lines_nil, List.headD_cons, List.append_nil, List.tail_cons] at h

lemma Complete.lines_append (h : Complete isEnd line) (text : List α) :
    lines isEnd (line ++ text) = line :: lines isEnd text := by
  obtain ⟨body, a, rfl, hbody, ha⟩ := h
  have hcut : lines isEnd (a :: text) = [a] :: lines isEnd text := by
    rw [lines, if_pos ha]
  rw [List.append_assoc, List.singleton_append, lines_append_of_open hbody, hcut]
  rfl

/-- A text that begins with lines has them as its first lines. -/
lemma lines_flatten_append (h : ∀ line ∈ ls, Complete isEnd line) (text : List α) :
    lines isEnd (ls.flatten ++ text) = ls ++ lines isEnd text := by
  induction ls with
  | nil => rfl
  | cons line ls ih =>
    have hline : Complete isEnd line := h line List.mem_cons_self
    have hrest := ih fun l hl => h l (List.mem_cons_of_mem line hl)
    rw [List.flatten_cons, List.append_assoc, hline.lines_append, hrest]
    rfl

/-- Every text is complete lines and an open one. -/
lemma exists_lines (text : List α) : ∃ (ls : List (List α)) (col : List α),
    text = ls.flatten ++ col ∧ (∀ line ∈ ls, Complete isEnd line) ∧ Open isEnd col := by
  induction text with
  | nil => exact ⟨[], [], rfl, List.forall_mem_nil _, List.forall_mem_nil _⟩
  | cons a text ih =>
    obtain ⟨ls, col, rfl, hls, hcol⟩ := ih
    cases ha : isEnd a with
    | true =>
      have hline : Complete isEnd [a] := ⟨[], a, rfl, List.forall_mem_nil _, ha⟩
      refine ⟨[a] :: ls, col, rfl, ?_, hcol⟩
      intro line hline'
      rcases List.mem_cons.mp hline' with rfl | h
      · exact hline
      · exact hls line h
    | false =>
      cases ls with
      | nil =>
        refine ⟨[], a :: col, rfl, List.forall_mem_nil _, ?_⟩
        intro b hb
        rcases List.mem_cons.mp hb with rfl | h
        · exact ha
        · exact hcol b h
      | cons line ls =>
        obtain ⟨body, e, hline, hbody, he⟩ := hls line List.mem_cons_self
        refine ⟨(a :: line) :: ls, col, rfl, ?_, hcol⟩
        intro line' hline'
        rcases List.mem_cons.mp hline' with rfl | h
        · refine ⟨a :: body, e, by rw [hline]; rfl, ?_, he⟩
          intro b hb
          rcases List.mem_cons.mp hb with rfl | h
          · exact ha
          · exact hbody b h
        · exact hls line' (List.mem_cons_of_mem line h)

lemma lines_eq_concat (hls : ∀ line ∈ ls, Complete isEnd line) (hcol : Open isEnd col) :
    lines isEnd (ls.flatten ++ col) = ls ++ [col] := by
  rw [lines_flatten_append hls, lines_of_open hcol]

@[simp] lemma flatten_lines (text : List α) : (lines isEnd text).flatten = text := by
  obtain ⟨ls, col, rfl, hls, hcol⟩ := @exists_lines _ isEnd text
  rw [lines_eq_concat hls hcol, List.flatten_append, List.flatten_singleton]

lemma length_lines_pos (text : List α) : 0 < (lines isEnd text).length := by
  obtain ⟨ls, col, rfl, hls, hcol⟩ := @exists_lines _ isEnd text
  rw [lines_eq_concat hls hcol, List.length_append, List.length_singleton]
  omega

lemma length_lines_le (text : List α) : (lines isEnd text).length ≤ text.length + 1 := by
  induction text with
  | nil => exact Nat.le_refl 1
  | cons a text ih =>
    have hpos := @length_lines_pos _ isEnd text
    rw [lines]
    split_ifs
    · rw [List.length_cons, List.length_cons]
      omega
    · rw [List.length_cons, List.length_tail, List.length_cons]
      omega

/-- A line that another one follows is complete. -/
lemma complete_of_mem_take {k : Nat} (hk : k < (lines isEnd text).length) :
    ∀ line ∈ (lines isEnd text).take k, Complete isEnd line := by
  obtain ⟨ls, col, rfl, hls, hcol⟩ := @exists_lines _ isEnd text
  rw [lines_eq_concat hls hcol, List.length_append, List.length_singleton] at hk
  rw [lines_eq_concat hls hcol, List.take_append_of_le_length (by omega)]
  exact fun line hline => hls line (List.mem_of_mem_take hline)

/-- A line is complete or open. -/
lemma complete_or_open (h : line ∈ lines isEnd text) : Complete isEnd line ∨ Open isEnd line := by
  obtain ⟨ls, col, rfl, hls, hcol⟩ := @exists_lines _ isEnd text
  rw [lines_eq_concat hls hcol] at h
  rcases List.mem_append.mp h with h | h
  · exact .inl (hls line h)
  · rw [List.mem_singleton.mp h]
    exact .inr hcol

lemma Complete.not_open (h : Complete isEnd line) : ¬Open isEnd line := by
  obtain ⟨body, a, rfl, -, ha⟩ := h
  intro hopen
  rw [hopen a (List.mem_append_right body (List.mem_singleton_self a))] at ha
  exact Bool.false_ne_true ha

lemma Complete.append_left (h : Complete isEnd line) (hcol : Open isEnd col) :
    Complete isEnd (col ++ line) := by
  obtain ⟨body, a, rfl, hbody, ha⟩ := h
  refine ⟨col ++ body, a, (List.append_assoc _ _ _).symm, ?_, ha⟩
  intro b hb
  rcases List.mem_append.mp hb with hb | hb
  · exact hcol b hb
  · exact hbody b hb

/-- A proper part in front of a complete line is open. -/
lemma Complete.open_of_append {rest : List α} (h : Complete isEnd (col ++ rest)) (hrest : rest ≠ []) :
    Open isEnd col := by
  obtain ⟨body, a, hline, hbody, -⟩ := h
  have hlast : rest = rest.dropLast ++ [a] := by
    have hgetLast : rest.getLast hrest = a := by
      have heq : (col ++ rest).getLast (List.append_ne_nil_of_right_ne_nil col hrest) =
          (body ++ [a]).getLast (by simp) := by simp only [hline]
      rwa [List.getLast_append_of_ne_nil _ hrest, List.getLast_concat] at heq
    rw [← hgetLast, List.dropLast_append_getLast]
  have hcol : col ++ rest.dropLast = body := by
    rw [hlast, ← List.append_assoc] at hline
    exact List.append_cancel_right hline
  intro b hb
  apply hbody b
  rw [← hcol]
  exact List.mem_append_left _ hb

end WitcherScriptLanguage.Library
