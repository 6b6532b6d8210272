import Mathlib.Data.List.Basic
import Mathlib.Data.List.InsertIdx
import Mathlib.Tactic.Lemma
import Mathlib.Tactic.SplitIfs

/-!
# Dropping elements with a repeated key

A loop that keeps the first element of every key, in order of occurrence.
-/

namespace WitcherScriptLanguage.Library

variable {α κ : Type} [DecidableEq κ] (key : α → κ)

/-- The elements whose key is neither in `seen` nor that of an earlier element. -/
def dedupOnFrom (seen : List κ) : List α → List α
  | [] => []
  | a :: l =>
    if key a ∈ seen then dedupOnFrom seen l else a :: dedupOnFrom (key a :: seen) l

def dedupOn (l : List α) : List α := dedupOnFrom key [] l

variable {key}

lemma mem_keys_dedupOnFrom {seen : List κ} {l : List α} {k : κ} :
    k ∈ (dedupOnFrom key seen l).map key ↔ k ∈ l.map key ∧ k ∉ seen := by
  induction l generalizing seen with
  | nil => simp [dedupOnFrom]
  | cons a l ih =>
    rw [dedupOnFrom]
    split_ifs with hseen
    · rw [ih, List.map_cons, List.mem_cons]
      refine and_congr_left fun hk => ⟨.inr, fun h => h.resolve_left ?_⟩
      rintro rfl
      exact hk hseen
    · rw [List.map_cons, List.map_cons, List.mem_cons, List.mem_cons, ih, List.mem_cons, not_or]
      by_cases hk : k = key a
      · simp [hk, hseen]
      · simp [hk]

lemma nodup_keys_dedupOnFrom (seen : List κ) (l : List α) :
    ((dedupOnFrom key seen l).map key).Nodup := by
  induction l generalizing seen with
  | nil => exact List.nodup_nil
  | cons a l ih =>
    rw [dedupOnFrom]
    split_ifs with hseen
    · exact ih seen
    · rw [List.map_cons, List.nodup_cons]
      refine ⟨fun hmem => ?_, ih _⟩
      exact (mem_keys_dedupOnFrom.mp hmem).2 List.mem_cons_self

/-- No key is lost. -/
@[simp] lemma mem_keys_dedupOn {l : List α} {k : κ} :
    k ∈ (dedupOn key l).map key ↔ k ∈ l.map key := by
  rw [dedupOn, mem_keys_dedupOnFrom]
  exact and_iff_left List.not_mem_nil

lemma nodup_keys_dedupOn (l : List α) : ((dedupOn key l).map key).Nodup :=
  nodup_keys_dedupOnFrom [] l

/-- A list without repeated keys stays as it is. -/
lemma dedupOnFrom_of_nodup {seen : List κ} {l : List α} (hnodup : (l.map key).Nodup)
    (hseen : ∀ a ∈ l, key a ∉ seen) : dedupOnFrom key seen l = l := by
  induction l generalizing seen with
  | nil => rfl
  | cons a l ih =>
    rw [List.map_cons, List.nodup_cons] at hnodup
    rw [dedupOnFrom, if_neg (hseen a List.mem_cons_self), ih hnodup.2]
    intro b hb hmem
    rcases List.mem_cons.mp hmem with heq | hmem
    · exact hnodup.1 (heq ▸ List.mem_map_of_mem hb)
    · exact hseen b (List.mem_cons_of_mem a hb) hmem

lemma dedupOn_of_nodup {l : List α} (hnodup : (l.map key).Nodup) : dedupOn key l = l :=
  dedupOnFrom_of_nodup hnodup fun _ _ => List.not_mem_nil

variable (key)

/-- The elements by key, in order of the first element of every key. -/
def groupsOn (l : List α) : List (List α) :=
  (dedupOn key l).map fun a => l.filter fun b => key b = key a

/-- Every element with the others of its list. -/
def withOthers (l : List α) : List (α × List α) := l.zipIdx.map fun e => (e.1, l.eraseIdx e.2)

/-- The elements that share their key, each with those that it shares it with. -/
def clashes (l : List α) : List (α × List α) :=
  ((groupsOn key l).filter fun group => 2 ≤ group.length).flatMap withOthers

variable {key}

section Relabel

variable {β : Type} (key' : β → κ) {f : α → β} (hf : ∀ a, key' (f a) = key a)
include hf

lemma dedupOnFrom_map (seen : List κ) (l : List α) :
    dedupOnFrom key' seen (l.map f) = (dedupOnFrom key seen l).map f := by
  induction l generalizing seen with
  | nil => rfl
  | cons a l ih =>
    rw [List.map_cons, dedupOnFrom, dedupOnFrom, hf]
    split_ifs
    · exact ih seen
    · rw [ih, List.map_cons]

lemma groupsOn_map (l : List α) : groupsOn key' (l.map f) = (groupsOn key l).map (List.map f) := by
  have hfilter (a : α) : (l.map f).filter (fun b => decide (key' b = key a)) =
      (l.filter fun b => decide (key b = key a)).map f := by
    rw [List.filter_map]
    simp only [Function.comp_def, hf]
  simp only [groupsOn, dedupOn, dedupOnFrom_map key' hf, List.map_map, Function.comp_def, hf,
    hfilter]

omit hf in
lemma withOthers_map (f : α → β) (l : List α) :
    withOthers (l.map f) = (withOthers l).map fun e => (f e.1, e.2.map f) := by
  simp only [withOthers, List.zipIdx_map, List.map_map, Function.comp_def, Prod.map,
    List.eraseIdx_map, id_eq]

/-- Relabelling that keeps the keys relabels the clashes. -/
lemma clashes_map (l : List α) :
    clashes key' (l.map f) = (clashes key l).map fun e => (f e.1, e.2.map f) := by
  simp only [clashes, groupsOn_map key' hf, List.filter_map, List.flatMap_map, List.map_flatMap,
    withOthers_map, Function.comp_def, List.length_map]

end Relabel

section Restrict

variable (p : κ → Bool)

/-- Among the elements with certain keys it only matters which of these keys have been seen. -/
lemma dedupOnFrom_filter {seen seen' : List κ} (hseen : ∀ k, p k → (k ∈ seen ↔ k ∈ seen'))
    (l : List α) : dedupOnFrom key seen (l.filter fun a => p (key a)) =
      (dedupOnFrom key seen' l).filter fun a => p (key a) := by
  induction l generalizing seen seen' with
  | nil => rfl
  | cons a l ih =>
    rw [List.filter_cons]
    by_cases hp : p (key a)
    · rw [if_pos hp, dedupOnFrom, dedupOnFrom]
      by_cases ha : key a ∈ seen
      · rw [if_pos ha, if_pos ((hseen _ hp).mp ha), ih hseen]
      · have hboth : ∀ k, p k → (k ∈ key a :: seen ↔ k ∈ key a :: seen') := by
          intro k hk
          rw [List.mem_cons, List.mem_cons, hseen k hk]
        rw [if_neg ha, if_neg (mt (hseen _ hp).mpr ha), List.filter_cons, if_pos hp, ih hboth]
    · rw [if_neg hp, dedupOnFrom]
      have hskip : ∀ k, p k → (k ∈ seen ↔ k ∈ key a :: seen') := by
        intro k hk
        have hne : k ≠ key a := by
          rintro rfl
          exact hp hk
        rw [hseen k hk, List.mem_cons, or_iff_right hne]
      split_ifs
      · exact ih hseen
      · rw [List.filter_cons, if_neg hp, ih hskip]

omit [DecidableEq κ] in
lemma flatMap_filter_map {β γ : Type} (g : α → β) (q : β → Bool) (h : β → List γ) (l : List α) :
    ((l.map g).filter q).flatMap h = l.flatMap fun a => if q (g a) then h (g a) else [] := by
  induction l with
  | nil => rfl
  | cons a l ih =>
    rw [List.map_cons, List.filter_cons, List.flatMap_cons]
    split_ifs
    · rw [List.flatMap_cons, ih]
    · rw [ih, List.nil_append]

lemma clashes_eq (l : List α) : clashes key l = (dedupOn key l).flatMap fun a =>
    if 2 ≤ (l.filter fun b => key b = key a).length then
      withOthers (l.filter fun b => key b = key a) else [] := by
  rw [clashes, groupsOn, flatMap_filter_map]
  simp only [decide_eq_true_eq]

lemma mem_of_mem_withOthers {l : List α} {e : α × List α} (h : e ∈ withOthers l) : e.1 ∈ l := by
  obtain ⟨b, hb, rfl⟩ := List.mem_map.mp h
  exact List.fst_mem_of_mem_zipIdx hb

/-- The clashes on certain keys are those among the elements with these keys. -/
lemma clashes_filter (l : List α) :
    clashes key (l.filter fun a => p (key a)) = (clashes key l).filter fun e => p (key e.1) := by
  rw [clashes_eq, clashes_eq, dedupOn, dedupOnFrom_filter p (fun _ _ => Iff.rfl), ← dedupOn,
    List.filter_flatMap]
  have hmap := flatMap_filter_map id (fun a => p (key a))
    (fun a => if 2 ≤ ((l.filter fun b => p (key b)).filter fun b => key b = key a).length then
      withOthers ((l.filter fun b => p (key b)).filter fun b => key b = key a) else [])
    (dedupOn key l)
  rw [List.map_id] at hmap
  refine hmap.trans (List.flatMap_congr fun a _ => ?_)
  have hone : ∀ e ∈ withOthers (l.filter fun b => key b = key a), key e.1 = key a := fun e he =>
    of_decide_eq_true (List.mem_filter.mp (mem_of_mem_withOthers he)).2
  by_cases hp : p (key a)
  · have hgroup : (l.filter fun b => p (key b)).filter (fun b => key b = key a) =
        l.filter fun b => key b = key a := by
      rw [List.filter_filter]
      refine List.filter_congr fun b _ => ?_
      by_cases hb : key b = key a
      · simp [hb, hp]
      · simp [hb]
    simp only [id, hp, if_true, hgroup]
    split_ifs
    · exact (List.filter_eq_self.mpr fun e he => (hone e he).symm ▸ hp).symm
    · rfl
  · rw [id, if_neg hp]
    split_ifs
    · exact (List.filter_eq_nil_iff.mpr fun e he => (hone e he).symm ▸ hp).symm
    · rfl

end Restrict

lemma mem_of_mem_clashes {l : List α} {e : α × List α} (h : e ∈ clashes key l) :
    e.1 ∈ l ∧ ∀ a ∈ e.2, a ∈ l := by
  obtain ⟨group, hgroup, he⟩ := List.mem_flatMap.mp h
  obtain ⟨a, -, rfl⟩ := List.mem_map.mp (List.mem_filter.mp hgroup).1
  obtain ⟨b, hb, rfl⟩ := List.mem_map.mp he
  exact ⟨(List.mem_filter.mp (List.fst_mem_of_mem_zipIdx hb)).1,
    fun c hc => (List.mem_filter.mp (List.eraseIdx_subset hc)).1⟩

lemma mem_eraseIdx_of_ne {l : List α} {a b : α} {i : Nat} (ha : a ∈ l) (hb : l[i]? = some b)
    (hne : a ≠ b) : a ∈ l.eraseIdx i := by
  obtain ⟨j, hj⟩ := List.mem_iff_getElem?.mp ha
  refine List.mem_eraseIdx_iff_getElem?.mpr ⟨j, ?_, hj⟩
  rintro rfl
  exact hne (Option.some.inj (hj.symm.trans hb))

lemma mem_set_of_ne {l : List α} {a b : α} {i : Nat} (c : α) (ha : a ∈ l) (hb : l[i]? = some b)
    (hne : a ≠ b) : a ∈ l.set i c := by
  obtain ⟨j, hj⟩ := List.mem_iff_getElem?.mp ha
  have hij : i ≠ j := by
    rintro rfl
    exact hne (Option.some.inj (hj.symm.trans hb))
  exact List.mem_iff_getElem?.mpr ⟨j, by rw [List.getElem?_set_ne hij, hj]⟩

/-- Two different elements with one key clash. -/
lemma exists_clash {l : List α} {a b : α} (ha : a ∈ l) (hb : b ∈ l) (hne : a ≠ b)
    (hkey : key a = key b) : ∃ others, (b, others) ∈ clashes key l ∧ a ∈ others := by
  obtain ⟨c, hc, hcb⟩ := List.mem_map.mp
    (mem_keys_dedupOn.mpr (List.mem_map_of_mem hb : key b ∈ l.map key))
  let group := l.filter fun x => decide (key x = key c)
  have hgroup : group ∈ groupsOn key l := List.mem_map_of_mem hc
  have hag : a ∈ group := List.mem_filter.mpr ⟨ha, by simp [hkey, hcb]⟩
  have hbg : b ∈ group := List.mem_filter.mpr ⟨hb, by simp [hcb]⟩
  obtain ⟨i, hi⟩ := List.mem_iff_getElem?.mp hbg
  have hother : a ∈ group.eraseIdx i := mem_eraseIdx_of_ne hag hi hne
  have hlength : 2 ≤ group.length := by
    have hpos := List.length_pos_of_mem hother
    have hlt : i < group.length := (List.getElem?_eq_some_iff.mp hi).1
    rw [List.length_eraseIdx_of_lt hlt] at hpos
    omega
  refine ⟨group.eraseIdx i, List.mem_flatMap.mpr ⟨group, ?_, ?_⟩, hother⟩
  · exact List.mem_filter.mpr ⟨hgroup, decide_eq_true hlength⟩
  · exact List.mem_map.mpr ⟨(b, i), List.mem_zipIdx_iff_getElem?.mpr hi, rfl⟩

end WitcherScriptLanguage.Library
