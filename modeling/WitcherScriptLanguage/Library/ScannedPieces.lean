import Mathlib.Data.List.Basic
import Mathlib.Tactic.Lemma

/-!
# Splitting by a scanner

A scanner reads a text symbol by symbol in a state of its own, and may refuse a symbol; a refused
symbol ends the current piece and the scanner starts again behind it. The pieces of a text are
known from the scans of its parts, so a proof about a splitter looks at the scanner only.
-/

namespace WitcherScriptLanguage.Library.Scanner

variable {σ α : Type} (next : σ → α → Option σ) (start : σ)

/-- The state after a text, or `none` where a symbol is refused. -/
def scan : σ → List α → Option σ
  | s, [] => some s
  | s, c :: l => (next s c).bind fun s' => scan s' l

/-- The parts of a text between the refused symbols. -/
def pieces : σ → List α → List (List α)
  | _, [] => [[]]
  | s, c :: l => match next s c with
    | none => [] :: pieces start l
    | some s' => (pieces s' l).modifyHead (c :: ·)

variable {next start}

@[simp] lemma scan_nil (s : σ) : scan next s [] = some s := rfl

lemma scan_cons (s : σ) (c : α) (l : List α) :
    scan next s (c :: l) = (next s c).bind fun s' => scan next s' l := rfl

lemma scan_append (s : σ) (l l' : List α) :
    scan next s (l ++ l') = (scan next s l).bind fun s' => scan next s' l' := by
  induction l generalizing s with
  | nil => rfl
  | cons c l ih =>
    rw [List.cons_append, scan_cons, scan_cons, Option.bind_assoc]
    exact congrArg _ (funext ih)

/-- Symbols that never change the state can be left out. -/
lemma scan_of_neutral {l : List α} (h : ∀ c ∈ l, ∀ s, next s c = some s) (s : σ) :
    scan next s l = some s := by
  induction l with
  | nil => rfl
  | cons c l ih =>
    rw [scan_cons, h c (by simp) s]
    exact ih fun c' hc' => h c' (by simp [hc'])

lemma pieces_cons_of_some {s s' : σ} {c : α} (h : next s c = some s') (l : List α) :
    pieces next start s (c :: l) = (pieces next start s' l).modifyHead (c :: ·) := by
  rw [pieces, h]

lemma pieces_cons_of_none {s : σ} {c : α} (h : next s c = none) (l : List α) :
    pieces next start s (c :: l) = [] :: pieces next start start l := by
  rw [pieces, h]

lemma pieces_ne_nil (s : σ) (l : List α) : pieces next start s l ≠ [] := by
  induction l generalizing s with
  | nil => exact nofun
  | cons c l ih =>
    cases h : next s c with
    | none =>
      rw [pieces_cons_of_none h]
      exact nofun
    | some s' =>
      rw [pieces_cons_of_some h, ne_eq, List.modifyHead_eq_nil_iff]
      exact ih s'

/-- A text that is scanned to its end is one piece. -/
lemma pieces_of_scan {s s' : σ} {l : List α} (h : scan next s l = some s') :
    pieces next start s l = [l] := by
  induction l generalizing s with
  | nil => rfl
  | cons c l ih =>
    obtain ⟨mid, hmid, hrest⟩ := Option.bind_eq_some_iff.mp h
    rw [pieces_cons_of_some hmid, ih hrest]
    rfl

/-- A refused symbol ends the piece in front of it. -/
lemma pieces_append {s s' : σ} {a : List α} {c : α} (h : scan next s a = some s')
    (hc : next s' c = none) (b : List α) :
    pieces next start s (a ++ c :: b) = a :: pieces next start start b := by
  induction a generalizing s with
  | nil =>
    cases h
    exact pieces_cons_of_none hc b
  | cons c' a ih =>
    obtain ⟨mid, hmid, hrest⟩ := Option.bind_eq_some_iff.mp h
    rw [List.cons_append, pieces_cons_of_some hmid, ih hrest]
    rfl

/-- A text is scanned to its end, or up to the first symbol that is refused. -/
lemma scan_cases (next : σ → α → Option σ) (s : σ) (l : List α) :
    (∃ s', scan next s l = some s') ∨
      ∃ a c b s', l = a ++ c :: b ∧ scan next s a = some s' ∧ next s' c = none := by
  induction l generalizing s with
  | nil => exact .inl ⟨s, rfl⟩
  | cons c l ih =>
    cases hc : next s c with
    | none => exact .inr ⟨[], c, l, s, rfl, rfl, hc⟩
    | some mid =>
      obtain ⟨s', h⟩ | ⟨a, c', b, s', rfl, ha, hc'⟩ := ih mid
      · exact .inl ⟨s', by rw [scan_cons, hc]; exact h⟩
      · exact .inr ⟨c :: a, c', b, s', rfl, by rw [scan_cons, hc]; exact ha, hc'⟩

lemma eq_of_pieces_eq_singleton {s : σ} {l x : List α} (h : pieces next start s l = [x]) :
    x = l ∧ ∃ s', scan next s l = some s' := by
  obtain ⟨s', hs'⟩ | ⟨a, c, b, s', rfl, ha, hc⟩ := scan_cases next s l
  · rw [pieces_of_scan hs'] at h
    exact ⟨(List.singleton_inj.mp h).symm, s', hs'⟩
  · rw [pieces_append ha hc] at h
    exact absurd (List.cons.inj h).2 (pieces_ne_nil start b)

lemma eq_of_pieces_eq_pair {s : σ} {l x y : List α} (h : pieces next start s l = [x, y]) :
    ∃ c s', l = x ++ c :: y ∧ scan next s x = some s' ∧ next s' c = none ∧
      ∃ e, scan next start y = some e := by
  obtain ⟨s', hs'⟩ | ⟨a, c, b, s', rfl, ha, hc⟩ := scan_cases next s l
  · rw [pieces_of_scan hs'] at h
    cases h
  · rw [pieces_append ha hc] at h
    obtain ⟨rfl, hrest⟩ := List.cons.inj h
    obtain ⟨rfl, e, he⟩ := eq_of_pieces_eq_singleton hrest
    exact ⟨c, s', rfl, ha, hc, e, he⟩

end WitcherScriptLanguage.Library.Scanner
