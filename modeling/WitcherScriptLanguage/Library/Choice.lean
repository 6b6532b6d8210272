import Mathlib.Data.List.Perm.Basic
import WitcherScriptLanguage.Library.BucketMap

/-!
# Choice functions on candidate lists

A lookup picks one entry of a bucket by a fixed rule: the first, the last, the first of a
preferred sort. All these rules share one property: dropping candidates that were not picked
does not change the pick. Filtering after the pick and picking after the filter then differ in
exactly one case.
-/

namespace WitcherScriptLanguage.Library

/-- A rule that picks an element of every nonempty list and keeps to its pick when other
candidates are dropped. -/
structure Choice (α : Type) where
  pick : List α → Option α
  mem_of_pick : ∀ {l a}, pick l = some a → a ∈ l
  nil_of_pick : ∀ {l}, pick l = none → l = []
  stable : ∀ {l a} (p : α → Bool), pick l = some a → p a = true → pick (l.filter p) = some a

namespace Choice

variable {α : Type} (c : Choice α)

def first : Choice α where
  pick := List.head?
  mem_of_pick := List.mem_of_head?
  nil_of_pick := List.head?_eq_none_iff.mp
  stable p h hp := by
    obtain ⟨rest, rfl⟩ := List.head?_eq_some_iff.mp h
    rw [List.filter_cons_of_pos hp, List.head?_cons]

def last : Choice α where
  pick := List.getLast?
  mem_of_pick := List.mem_of_getLast?
  nil_of_pick := List.getLast?_eq_none_iff.mp
  stable p h hp := by
    obtain ⟨pre, rfl⟩ := List.getLast?_eq_some_iff.mp h
    rw [List.filter_append, List.filter_singleton, hp]
    simp

@[simp] lemma pick_nil : c.pick [] = none := by
  cases h : c.pick [] with
  | none => rfl
  | some a => exact absurd (c.mem_of_pick h) List.not_mem_nil

/-- A visible pick survives the filter; behind a hidden one there must be no candidate that
passes both the filter and the guard. -/
theorem filter_pick_eq_iff (l : List α) (visible guard : α → Bool) :
    ((c.pick l).filter guard).filter visible = (c.pick (l.filter visible)).filter guard ↔
      ∀ a ∈ c.pick l, visible a = true ∨ ∀ b ∈ c.pick (l.filter visible), guard b = false := by
  cases hpick : c.pick l with
  | none => simp [c.nil_of_pick hpick]
  | some a =>
    cases hvis : visible a with
    | true =>
      rw [c.stable visible hpick hvis]
      cases hg : guard a <;> simp [Option.filter, hg, hvis]
    | false =>
      have hleft : ((some a).filter guard).filter visible = none := by
        cases hg : guard a <;> simp [Option.filter, hg, hvis]
      rw [hleft]
      cases hrest : c.pick (l.filter visible) with
      | none => simp
      | some b => cases hg : guard b <;> simp [Option.filter, hg, hvis]

end Choice

section Keyed

variable {K V W : Type} [DecidableEq K]

lemma perm_iff_filter_key [DecidableEq W] (key : W → K) (l l' : List W) :
    l.Perm l' ↔ ∀ k, (l.filter (fun w => key w = k)).Perm (l'.filter (fun w => key w = k)) := by
  constructor
  · exact fun h k => h.filter _
  · intro h
    rw [List.perm_iff_count]
    intro w
    have hw := (h (key w)).count_eq w
    rwa [List.count_filter (by simp), List.count_filter (by simp)] at hw

/-- What a map holds of one key after each bucket is mapped, when every value names its key. -/
lemma filter_key_flatMap_entries (m : BucketMap K V) (f : List V → List W) (hf : f [] = [])
    (key : W → K) (hkey : ∀ k, ∀ w ∈ f (m.bucket k), key w = k) (k : K) :
    (m.entries.flatMap (fun s => f s.2)).filter (fun w => key w = k) = f (m.bucket k) := by
  obtain ⟨entries, hnodup⟩ := m
  unfold BucketMap.bucket at hkey ⊢
  simp only [AList.lookup] at hkey ⊢
  induction entries with
  | nil => simp [hf]
  | cons s rest ih =>
    have hs : s.1 ∉ rest.keys := (List.nodupKeys_cons.mp hnodup).1
    have hrest : rest.dlookup s.1 = none := List.dlookup_eq_none.mpr hs
    have hkeyRest : ∀ k, ∀ w ∈ f ((rest.dlookup k).getD []), key w = k := by
      intro k w hw
      by_cases hk : k = s.1
      · subst hk
        rw [hrest] at hw
        simp [hf] at hw
      · exact hkey k w (by rwa [List.dlookup_cons_ne _ _ hk])
    have hkeyHead : ∀ w ∈ f s.2, key w = s.1 :=
      fun w hw => hkey s.1 w (by rwa [List.dlookup_cons_eq])
    rw [List.flatMap_cons, List.filter_append, ih (List.nodupKeys_cons.mp hnodup).2 hkeyRest]
    by_cases hk : k = s.1
    · subst hk
      rw [hrest, List.dlookup_cons_eq]
      simp only [Option.getD_none, Option.getD_some, hf, List.append_nil]
      exact List.filter_eq_self.mpr (fun w hw => by simp [hkeyHead w hw])
    · rw [List.dlookup_cons_ne _ _ hk]
      have hnone : (f s.2).filter (fun w => key w = k) = [] :=
        List.filter_eq_nil_iff.mpr (fun w hw => by simp [hkeyHead w hw, Ne.symm hk])
      rw [hnone, List.nil_append]

/-- Two maps list the same values when they hold the same values of every key. -/
theorem perm_flatMap_entries_iff [DecidableEq W] (m m' : BucketMap K V) (f f' : List V → List W)
    (hf : f [] = []) (hf' : f' [] = []) (key : W → K)
    (hkey : ∀ k, ∀ w ∈ f (m.bucket k), key w = k)
    (hkey' : ∀ k, ∀ w ∈ f' (m'.bucket k), key w = k) :
    (m.entries.flatMap (fun s => f s.2)).Perm (m'.entries.flatMap (fun s => f' s.2)) ↔
      ∀ k, (f (m.bucket k)).Perm (f' (m'.bucket k)) := by
  rw [perm_iff_filter_key key]
  refine forall_congr' fun k => ?_
  rw [filter_key_flatMap_entries m f hf key hkey, filter_key_flatMap_entries m' f' hf' key hkey']

end Keyed

end WitcherScriptLanguage.Library
