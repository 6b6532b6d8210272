import Mathlib.Data.Finset.Insert
import Mathlib.Data.List.Nodup
import Mathlib.Data.List.Perm.Subperm
import Mathlib.Logic.Relation
import Mathlib.Tactic.Lemma

/-!
# Worklists

The search of a graph for everything behind a vertex, with a stack of the vertices whose
successors are still to be looked at. The start belongs to the result if a cycle leads back to it.
-/

namespace WitcherScriptLanguage.Library

open Relation

structure Search (α : Type) where
  /-- The top comes first. -/
  stack : List α
  seen : Finset α
  found : List α

variable {α : Type} [DecidableEq α]

def visit (s : Search α) (a : α) : Search α :=
  if a ∈ s.seen then s else ⟨a :: s.stack, insert a s.seen, s.found ++ [a]⟩

/-- Everything found once the stack is empty, or `none` if that takes more steps. -/
def search (next : α → List α) : Nat → Search α → Option (List α)
  | _, ⟨[], _, found⟩ => some found
  | 0, ⟨_ :: _, _, _⟩ => none
  | fuel + 1, ⟨base :: stack, seen, found⟩ =>
    search next fuel ((next base).foldl visit ⟨stack, seen, found⟩)

def searchFrom (next : α → List α) (fuel : Nat) (start : α) : Option (List α) :=
  search next fuel ⟨[start], ∅, []⟩

/-- What is found is what has been seen, each once. -/
structure Search.Consistent (s : Search α) : Prop where
  seen : ∀ a, a ∈ s.seen ↔ a ∈ s.found
  nodup : s.found.Nodup

/-- What a search knows after looking at the items. -/
structure Visited (s : Search α) (items : List α) (s' : Search α) : Prop where
  consistent : s'.Consistent
  found : ∀ a, a ∈ s'.found ↔ a ∈ s.found ∨ a ∈ items
  stack : ∀ a, a ∈ s'.stack ↔ a ∈ s.stack ∨ a ∈ items ∧ a ∉ s.found
  length : s'.stack.length + s.found.length = s.stack.length + s'.found.length

variable {s : Search α} {next : α → List α} {start : α}

lemma Search.Consistent.visited_one (h : s.Consistent) (a : α) : Visited s [a] (visit s a) := by
  unfold visit
  by_cases ha : a ∈ s.seen
  · have hfound := (h.seen a).mp ha
    rw [if_pos ha]
    refine ⟨h, fun b => ?_, fun b => ?_, rfl⟩
    · rw [List.mem_singleton]
      exact ⟨.inl, fun hb => hb.elim id fun hb => hb ▸ hfound⟩
    · rw [List.mem_singleton]
      exact ⟨.inl, fun hb => hb.elim id fun hb => absurd (hb.1 ▸ hfound) hb.2⟩
  · have hfound : a ∉ s.found := fun hmem => ha ((h.seen a).mpr hmem)
    rw [if_neg ha]
    refine ⟨⟨fun b => ?_, ?_⟩, fun b => ?_, fun b => ?_, ?_⟩
    · rw [Finset.mem_insert, List.mem_append, List.mem_singleton, h.seen b]
      exact or_comm
    · rw [List.nodup_append]
      refine ⟨h.nodup, List.nodup_singleton a, ?_⟩
      rintro b hb c hc rfl
      exact hfound (List.mem_singleton.mp hc ▸ hb)
    · rw [List.mem_append]
    · rw [List.mem_cons, List.mem_singleton]
      constructor
      · rintro (rfl | hb)
        · exact .inr ⟨rfl, hfound⟩
        · exact .inl hb
      · rintro (hb | ⟨rfl, -⟩)
        · exact .inr hb
        · exact .inl rfl
    · rw [List.length_cons, List.length_append, List.length_singleton]
      omega

lemma Visited.trans {s' s'' : Search α} {items items' : List α} (h : Visited s items s')
    (h' : Visited s' items' s'') : Visited s (items ++ items') s'' where
  consistent := h'.consistent
  found a := by rw [h'.found, h.found, List.mem_append, or_assoc]
  stack a := by
    rw [h'.stack, h.stack, h.found, List.mem_append]
    tauto
  length := by
    have hlength := h.length
    have hlength' := h'.length
    omega

lemma Search.Consistent.visited (h : s.Consistent) (items : List α) :
    Visited s items (items.foldl visit s) := by
  induction items generalizing s with
  | nil =>
    refine ⟨h, fun a => ?_, fun a => ?_, rfl⟩
    · simp
    · simp
  | cons a items ih =>
    have hfirst := h.visited_one a
    exact hfirst.trans (ih hfirst.consistent)

/-- Between two steps, the successors of what is off the stack have been found. -/
structure Searching (next : α → List α) (start : α) (s : Search α) : Prop where
  consistent : s.Consistent
  sound : ∀ a ∈ s.found, TransGen (fun a b => b ∈ next a) start a
  stacked : ∀ a ∈ s.stack, a = start ∨ a ∈ s.found
  closed : ∀ a, (a = start ∨ a ∈ s.found) → a ∉ s.stack → ∀ b ∈ next a, b ∈ s.found

omit [DecidableEq α] in
lemma searching_start (next : α → List α) (start : α) :
    Searching next start ⟨[start], ∅, []⟩ where
  consistent := ⟨fun a => by simp, List.nodup_nil⟩
  sound a ha := by cases ha
  stacked a ha := .inl (List.mem_singleton.mp ha)
  closed a ha hstack := by
    rcases ha with rfl | ha
    · exact absurd (List.mem_singleton_self _) hstack
    · cases ha

lemma Searching.step {base : α} {stack found : List α} {seen : Finset α}
    (h : Searching next start ⟨base :: stack, seen, found⟩) :
    Searching next start ((next base).foldl visit ⟨stack, seen, found⟩) := by
  have hvisited := Search.Consistent.visited (s := ⟨stack, seen, found⟩)
    ⟨h.consistent.seen, h.consistent.nodup⟩ (next base)
  have hbase : ReflTransGen (fun a b => b ∈ next a) start base := by
    rcases h.stacked base List.mem_cons_self with rfl | hfound
    · exact .refl
    · exact (h.sound base hfound).to_reflTransGen
  refine ⟨hvisited.consistent, fun a ha => ?_, fun a ha => ?_, fun a ha hstack b hb => ?_⟩
  · rcases (hvisited.found a).mp ha with hold | hnew
    · exact h.sound a hold
    · exact TransGen.tail' hbase hnew
  · rw [hvisited.found]
    rcases (hvisited.stack a).mp ha with hold | ⟨hnew, -⟩
    · rcases h.stacked a (List.mem_cons_of_mem base hold) with rfl | hfound
      · exact .inl rfl
      · exact .inr (.inl hfound)
    · exact .inr (.inr hnew)
  · rw [hvisited.found]
    by_cases hab : a = base
    · subst hab
      exact .inr hb
    · rw [hvisited.stack, not_or, not_and_not_right] at hstack
      refine .inl (h.closed a ?_ ?_ b hb)
      · rcases ha with rfl | ha
        · exact .inl rfl
        · rcases (hvisited.found a).mp ha with hold | hnew
          · exact .inr hold
          · exact .inr (hstack.2 hnew)
      · rw [List.mem_cons, not_or]
        exact ⟨hab, hstack.1⟩

omit [DecidableEq α] in
/-- With an empty stack all is found that can be reached. -/
lemma Searching.mem_iff {seen : Finset α} {found : List α}
    (h : Searching next start ⟨[], seen, found⟩) {a : α} :
    a ∈ found ↔ TransGen (fun a b => b ∈ next a) start a := by
  refine ⟨h.sound a, fun hpath => ?_⟩
  induction hpath with
  | single hedge => exact h.closed start (.inl rfl) List.not_mem_nil _ hedge
  | tail _ hedge ih => exact h.closed _ (.inr ih) List.not_mem_nil _ hedge

omit [DecidableEq α] in
lemma Searching.length_le (h : Searching next start s) {all : List α}
    (hall : ∀ a, ∀ b ∈ next a, b ∈ all) : s.found.length ≤ all.length := by
  have hsub : s.found ⊆ all := by
    intro a ha
    obtain ⟨b, -, hedge⟩ := TransGen.tail'_iff.mp (h.sound a ha)
    exact hall b a hedge
  exact (h.consistent.nodup.subperm hsub).length_le

lemma Searching.exists_search (h : Searching next start s) {all : List α}
    (hall : ∀ a, ∀ b ∈ next a, b ∈ all) {fuel : Nat}
    (hfuel : s.stack.length + all.length ≤ fuel + s.found.length) :
    ∃ found, search next fuel s = some found ∧ found.Nodup ∧
      ∀ a, a ∈ found ↔ TransGen (fun a b => b ∈ next a) start a := by
  induction fuel generalizing s with
  | zero =>
    obtain ⟨stack, seen, found⟩ := s
    have hle : found.length ≤ all.length := h.length_le hall
    dsimp only at hfuel
    have hempty : stack = [] := List.eq_nil_of_length_eq_zero (by omega)
    subst hempty
    exact ⟨found, by rw [search], h.consistent.nodup, fun a => h.mem_iff⟩
  | succ fuel ih =>
    obtain ⟨stack, seen, found⟩ := s
    cases stack with
    | nil => exact ⟨found, by rw [search], h.consistent.nodup, fun a => h.mem_iff⟩
    | cons base stack =>
      have hvisited := Search.Consistent.visited (s := ⟨stack, seen, found⟩)
        ⟨h.consistent.seen, h.consistent.nodup⟩ (next base)
      have hlength := hvisited.length
      dsimp only [List.length_cons] at hfuel hlength
      obtain ⟨found', hsearch, hrest⟩ := ih h.step (by omega)
      exact ⟨found', by rw [search, hsearch], hrest⟩

/-- A search in a graph with finitely many successors ends with everything behind the start, each
vertex once. -/
theorem exists_searchFrom {all : List α} (hall : ∀ a, ∀ b ∈ next a, b ∈ all) (start : α) {fuel : Nat}
    (hfuel : all.length < fuel) : ∃ found, searchFrom next fuel start = some found ∧ found.Nodup ∧
      ∀ a, a ∈ found ↔ TransGen (fun a b => b ∈ next a) start a := by
  refine (searching_start next start).exists_search hall ?_
  rw [List.length_singleton, List.length_nil]
  omega

/-- The first graph's edges to a vertex, and to what the second one leads there, are paths of the
second one. -/
def PathCovers {β : Type} (s r : β → β → Prop) (o : β) : Prop :=
  ∀ a b, r a b → ReflTransGen s b o → TransGen s a o

section Graphs

variable {β : Type} {r s : β → β → Prop} {o : β}

lemma PathCovers.transGen (h : PathCovers s r o) {a : β} (hpath : TransGen r a o) : TransGen s a o := by
  induction hpath using TransGen.head_induction_on with
  | single hedge => exact h _ _ hedge .refl
  | head hedge _ ih => exact h _ _ hedge ih.to_reflTransGen

lemma covers_of_forall (h : ∀ a, TransGen r a o ↔ TransGen s a o) : PathCovers s r o := by
  intro a b hedge hpath
  rw [← h a]
  rcases reflTransGen_iff_eq_or_transGen.mp hpath with heq | hpath
  · exact heq ▸ .single hedge
  · exact .head hedge ((h b).mpr hpath)

/-- The same vertices lead somewhere in both graphs exactly when each covers the other there. -/
theorem transGen_iff_iff_covers :
    (∀ a, TransGen r a o ↔ TransGen s a o) ↔ PathCovers s r o ∧ PathCovers r s o := by
  constructor
  · intro h
    exact ⟨covers_of_forall h, covers_of_forall fun a => (h a).symm⟩
  · rintro ⟨hr, hs⟩ a
    exact ⟨hr.transGen, hs.transGen⟩

/-- A graph covers its subgraphs. -/
lemma covers_of_le (h : ∀ a b, r a b → s a b) : PathCovers s r o :=
  fun a b hedge hpath => TransGen.head' (h a b hedge) hpath

end Graphs

end WitcherScriptLanguage.Library
