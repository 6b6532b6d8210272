import Mathlib.Data.List.AList
import Mathlib.Data.Finset.Basic

/-!
# Buckets of sets

An inverted index holds, for every key, the set of the users that hold it, and drops a set that
becomes empty. Next to it stands the table of the keys of every user. The two say the same when
the index is the inverse of the relation "user holds key"; giving up all the keys of a user and
taking new ones updates that relation at the user alone.
-/

namespace WitcherScriptLanguage.Library

/-- A hash map from keys to the sets of their users. -/
abbrev SetBuckets (K U : Type) := AList (fun _ : K => Finset U)

namespace SetBuckets

variable {K U : Type} [DecidableEq K]

/-- The users under a key; a missing key has none. -/
def holders (m : SetBuckets K U) (k : K) : Finset U := (m.lookup k).getD ∅

/-- No key is left with an empty set. -/
def Occupied (m : SetBuckets K U) : Prop := ∀ k, m.lookup k ≠ some ∅

/-- The index holds a user under a key just when the relation does. -/
def InverseOf (m : SetBuckets K U) (Holds : U → K → Prop) : Prop :=
  ∀ k u, u ∈ holders m k ↔ Holds u k

@[simp] lemma holders_empty (k : K) : holders (∅ : SetBuckets K U) k = ∅ := rfl

lemma holders_insert (m : SetBuckets K U) (k k' : K) (users : Finset U) :
    holders (m.insert k users) k' = if k' = k then users else holders m k' := by
  unfold holders
  split_ifs with h
  · subst h
    rw [AList.lookup_insert]
    rfl
  · rw [AList.lookup_insert_ne h]

lemma holders_erase (m : SetBuckets K U) (k k' : K) :
    holders (m.erase k) k' = if k' = k then ∅ else holders m k' := by
  unfold holders
  split_ifs with h
  · subst h
    rw [AList.lookup_erase]
    rfl
  · rw [AList.lookup_erase_ne h]

lemma occupied_empty : Occupied (∅ : SetBuckets K U) := by
  intro k
  simp

lemma Occupied.insert {m : SetBuckets K U} (h : Occupied m) (k : K) {users : Finset U}
    (hne : users ≠ ∅) : Occupied (m.insert k users) := by
  intro k'
  by_cases hk : k' = k
  · subst hk
    rw [AList.lookup_insert]
    exact fun he => hne (Option.some.inj he)
  · rw [AList.lookup_insert_ne hk]
    exact h k'

lemma Occupied.erase {m : SetBuckets K U} (h : Occupied m) (k : K) : Occupied (m.erase k) := by
  intro k'
  by_cases hk : k' = k
  · subst hk
    rw [AList.lookup_erase]
    exact nofun
  · rw [AList.lookup_erase_ne hk]
    exact h k'

lemma inverseOf_empty {Holds : U → K → Prop} (h : ∀ u k, ¬ Holds u k) :
    InverseOf (∅ : SetBuckets K U) Holds := by
  intro k u
  simp [h u k]

variable [DecidableEq U]

def add (m : SetBuckets K U) (k : K) (u : U) : SetBuckets K U :=
  m.insert k (insert u (holders m k))

/-- Removes a user from the set of a key, and the set with it when nobody is left. -/
def discard (m : SetBuckets K U) (k : K) (u : U) : SetBuckets K U :=
  match m.lookup k with
  | none => m
  | some users => if users.erase u = ∅ then m.erase k else m.insert k (users.erase u)

def addAll (m : SetBuckets K U) (ks : List K) (u : U) : SetBuckets K U :=
  ks.foldl (fun m k => add m k u) m

def discardAll (m : SetBuckets K U) (ks : List K) (u : U) : SetBuckets K U :=
  ks.foldl (fun m k => discard m k u) m

lemma mem_holders_add (m : SetBuckets K U) (k k' : K) (u u' : U) :
    u' ∈ holders (add m k u) k' ↔ k' = k ∧ u' = u ∨ u' ∈ holders m k' := by
  rw [add, holders_insert]
  by_cases hk : k' = k
  · simp [hk]
  · simp [hk]

/-- Discarding erases one user from the set of one key, whether or not the set survives. -/
lemma holders_discard (m : SetBuckets K U) (k k' : K) (u : U) :
    holders (discard m k u) k' = if k' = k then (holders m k).erase u else holders m k' := by
  have husers : ∀ users, m.lookup k = some users → holders m k = users := fun users h => by
    simp [holders, h]
  unfold discard
  cases h : m.lookup k with
  | none =>
    have hnone : holders m k = ∅ := by simp [holders, h]
    by_cases hk : k' = k
    · simp [hk, hnone]
    · simp [hk]
  | some users =>
    rw [husers users h]
    by_cases he : users.erase u = ∅
    · simp only [he, if_true]
      exact holders_erase m k k'
    · simp only [he, if_false]
      exact holders_insert m k k' _

lemma mem_holders_discard (m : SetBuckets K U) (k k' : K) (u u' : U) :
    u' ∈ holders (discard m k u) k' ↔ u' ∈ holders m k' ∧ ¬ (k' = k ∧ u' = u) := by
  rw [holders_discard]
  by_cases hk : k' = k
  · subst hk
    simp [and_comm]
  · simp [hk]

lemma Occupied.add {m : SetBuckets K U} (h : Occupied m) (k : K) (u : U) :
    Occupied (add m k u) :=
  h.insert k (Finset.insert_ne_empty u _)

lemma Occupied.discard {m : SetBuckets K U} (h : Occupied m) (k : K) (u : U) :
    Occupied (discard m k u) := by
  unfold SetBuckets.discard
  cases m.lookup k with
  | none => exact h
  | some users =>
    dsimp only
    split_ifs with he
    · exact h.erase k
    · exact h.insert k he

lemma mem_holders_addAll (ks : List K) (m : SetBuckets K U) (k : K) (u u' : U) :
    u' ∈ holders (addAll m ks u) k ↔ k ∈ ks ∧ u' = u ∨ u' ∈ holders m k := by
  induction ks generalizing m with
  | nil => simp [addAll]
  | cons k₁ ks ih =>
    have hstep := ih (add m k₁ u)
    rw [mem_holders_add] at hstep
    rw [addAll, List.foldl_cons, ← addAll, hstep, List.mem_cons]
    tauto

lemma mem_holders_discardAll (ks : List K) (m : SetBuckets K U) (k : K) (u u' : U) :
    u' ∈ holders (discardAll m ks u) k ↔ u' ∈ holders m k ∧ ¬ (k ∈ ks ∧ u' = u) := by
  induction ks generalizing m with
  | nil => simp [discardAll]
  | cons k₁ ks ih =>
    have hstep := ih (discard m k₁ u)
    rw [mem_holders_discard] at hstep
    rw [discardAll, List.foldl_cons, ← discardAll, hstep, List.mem_cons]
    tauto

lemma Occupied.addAll {m : SetBuckets K U} (h : Occupied m) (ks : List K) (u : U) :
    Occupied (addAll m ks u) := by
  induction ks generalizing m with
  | nil => exact h
  | cons k ks ih => exact ih (h.add k u)

lemma Occupied.discardAll {m : SetBuckets K U} (h : Occupied m) (ks : List K) (u : U) :
    Occupied (discardAll m ks u) := by
  induction ks generalizing m with
  | nil => exact h
  | cons k ks ih => exact ih (h.discard k u)

variable {m : SetBuckets K U} {Holds Holds' : U → K → Prop}

/-- A user that gives up at least the keys it holds is gone from the index. -/
theorem InverseOf.discardAll (h : InverseOf m Holds) {ks : List K} {u : U}
    (hall : ∀ k, Holds u k → k ∈ ks) (hnone : ∀ k, ¬ Holds' u k)
    (hother : ∀ u', u' ≠ u → ∀ k, Holds' u' k ↔ Holds u' k) :
    InverseOf (discardAll m ks u) Holds' := by
  intro k u'
  rw [mem_holders_discardAll, h k u']
  by_cases hu : u' = u
  · subst hu
    have hks := hall k
    have hgone := hnone k
    tauto
  · simp [hu, hother u' hu k]

/-- A user that holds nothing takes the keys that are added for it. -/
theorem InverseOf.addAll (h : InverseOf m Holds) {ks : List K} {u : U}
    (hnone : ∀ k, ¬ Holds u k) (hall : ∀ k, Holds' u k ↔ k ∈ ks)
    (hother : ∀ u', u' ≠ u → ∀ k, Holds' u' k ↔ Holds u' k) :
    InverseOf (addAll m ks u) Holds' := by
  intro k u'
  rw [mem_holders_addAll, h k u']
  by_cases hu : u' = u
  · subst hu
    simp [hall k, hnone k]
  · simp [hu, hother u' hu k]

end SetBuckets

end WitcherScriptLanguage.Library
