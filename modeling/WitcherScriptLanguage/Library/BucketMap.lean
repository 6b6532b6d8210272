import Mathlib.Data.List.AList
import Mathlib.Data.Multiset.Count
import Mathlib.Algebra.Order.Group.Multiset

/-!
# Bucket maps

A bucket map is a hash map from keys to lists of entries, as an inverted index keeps it. Every
operation is described by what it does to the bucket of each key, so that a proof about an
index never looks at the map itself.
-/

namespace WitcherScriptLanguage.Library

/-- A hash map whose values are buckets of entries, oldest entry first. -/
abbrev BucketMap (K V : Type) := AList (fun _ : K => List V)

/-- A hash map of bucket maps. -/
abbrev NestedBucketMap (K₁ K₂ V : Type) := AList (fun _ : K₁ => BucketMap K₂ V)

namespace BucketMap

variable {K V : Type} [DecidableEq K]

/-- The entries under a key; a missing key has none. -/
def bucket (m : BucketMap K V) (k : K) : List V := (m.lookup k).getD []

/-- Appends an entry to the bucket of a key, creating the bucket when it is missing. -/
def push (m : BucketMap K V) (k : K) (v : V) : BucketMap K V :=
  m.insert k (bucket m k ++ [v])

/-- Keeps the entries of one bucket that satisfy `keep`, and drops the bucket if none is left. -/
def retainAndPrune (m : BucketMap K V) (k : K) (keep : V → Bool) : BucketMap K V :=
  match m.lookup k with
  | none => m
  | some entries =>
    if (entries.filter keep).isEmpty then m.erase k else m.insert k (entries.filter keep)

/-- No key is left with an empty bucket. -/
def Pruned (m : BucketMap K V) : Prop := ∀ k, m.lookup k ≠ some []

@[simp] lemma bucket_empty (k : K) : bucket (∅ : BucketMap K V) k = [] := rfl

lemma bucket_insert (m : BucketMap K V) (k k' : K) (l : List V) :
    bucket (m.insert k l) k' = if k' = k then l else bucket m k' := by
  unfold bucket
  split_ifs with h
  · subst h
    rw [AList.lookup_insert]
    rfl
  · rw [AList.lookup_insert_ne h]

lemma bucket_erase (m : BucketMap K V) (k k' : K) :
    bucket (m.erase k) k' = if k' = k then [] else bucket m k' := by
  unfold bucket
  split_ifs with h
  · subst h
    rw [AList.lookup_erase]
    rfl
  · rw [AList.lookup_erase_ne h]

lemma bucket_push (m : BucketMap K V) (k k' : K) (v : V) :
    bucket (push m k v) k' = bucket m k' ++ if k' = k then [v] else [] := by
  rw [push, bucket_insert]
  split_ifs with h
  · rw [h]
  · rw [List.append_nil]

/-- Pruning filters one bucket and leaves every other one alone. -/
lemma bucket_retainAndPrune (m : BucketMap K V) (k k' : K) (keep : V → Bool) :
    bucket (retainAndPrune m k keep) k' =
      (bucket m k').filter (fun v => decide (k' ≠ k) || keep v) := by
  by_cases hk : k' = k
  · subst hk
    simp only [ne_eq, not_true_eq_false, decide_false, Bool.false_or]
    unfold retainAndPrune
    cases h : m.lookup k' with
    | none => simp [bucket, h]
    | some entries =>
      have hb : bucket m k' = entries := by simp [bucket, h]
      rw [hb]
      dsimp only
      split_ifs with he
      · rw [bucket_erase, if_pos rfl, List.isEmpty_iff.mp he]
      · rw [bucket_insert, if_pos rfl]
  · simp only [ne_eq, hk, not_false_eq_true, decide_true, Bool.true_or, List.filter_true]
    unfold retainAndPrune
    cases m.lookup k with
    | none => rfl
    | some entries =>
      dsimp only
      split_ifs
      · rw [bucket_erase, if_neg hk]
      · rw [bucket_insert, if_neg hk]

lemma pruned_empty : Pruned (∅ : BucketMap K V) := by
  intro k
  simp

lemma Pruned.insert {m : BucketMap K V} (h : Pruned m) (k : K) {l : List V} (hl : l ≠ []) :
    Pruned (m.insert k l) := by
  intro k'
  by_cases hk : k' = k
  · subst hk
    rw [AList.lookup_insert]
    exact fun he => hl (Option.some.inj he)
  · rw [AList.lookup_insert_ne hk]
    exact h k'

lemma Pruned.push {m : BucketMap K V} (h : Pruned m) (k : K) (v : V) :
    Pruned (push m k v) :=
  h.insert k (by simp)

lemma Pruned.retainAndPrune {m : BucketMap K V} (h : Pruned m) (k : K) (keep : V → Bool) :
    Pruned (retainAndPrune m k keep) := by
  unfold BucketMap.retainAndPrune
  cases m.lookup k with
  | none => exact h
  | some entries =>
    dsimp only
    split_ifs with he
    · intro k'
      by_cases hk : k' = k
      · subst hk
        rw [AList.lookup_erase]
        exact nofun
      · rw [AList.lookup_erase_ne hk]
        exact h k'
    · exact h.insert k (fun hn => he (by rw [hn]; rfl))

lemma push_ne_empty (m : BucketMap K V) (k : K) (v : V) : push m k v ≠ ∅ := by
  intro h
  have hb := bucket_push m k k v
  rw [h] at hb
  simp at hb

/-- The entries whose bucket holds something, under a function of the buckets. -/
def inhabited {W : Type} (g : List V → List W) (m : BucketMap K V) :
    List (Sigma fun _ : K => List W) :=
  (m.entries.map fun e => ⟨e.1, g e.2⟩).filter fun e => !e.2.isEmpty

lemma mem_inhabited {W : Type} {g : List V → List W} (hg : g [] = []) {m : BucketMap K V}
    {e : Sigma fun _ : K => List W} :
    e ∈ inhabited g m ↔ e.2 ≠ [] ∧ g (m.bucket e.1) = e.2 := by
  obtain ⟨k, l⟩ := e
  have hmem : ⟨k, l⟩ ∈ m.entries.map (fun e => (⟨e.1, g e.2⟩ : Sigma fun _ : K => List W)) ↔
      ∃ v, m.lookup k = some v ∧ g v = l := by
    rw [List.mem_map]
    constructor
    · rintro ⟨⟨k', v⟩, hentry, heq⟩
      cases heq
      exact ⟨v, AList.mem_lookup_iff.mpr hentry, rfl⟩
    · rintro ⟨v, hlookup, rfl⟩
      exact ⟨⟨k, v⟩, AList.mem_lookup_iff.mp hlookup, rfl⟩
  rw [inhabited, List.mem_filter, hmem, bucket]
  cases m.lookup k with
  | none =>
    simp only [Option.getD_none, hg]
    constructor
    · rintro ⟨⟨v, hv, -⟩, -⟩
      cases hv
    · rintro ⟨hne, rfl⟩
      exact absurd rfl hne
  | some v => simp [and_comm]

omit [DecidableEq K] in
lemma nodup_inhabited {W : Type} (g : List V → List W) (m : BucketMap K V) :
    (inhabited g m).Nodup := by
  have hkeys : (m.entries.map fun e => (⟨e.1, g e.2⟩ : Sigma fun _ : K => List W)).map Sigma.fst =
      m.keys := by
    rw [List.map_map]
    rfl
  have hnodup := hkeys ▸ m.keys_nodup
  exact hnodup.of_map.filter _

/-- Maps with the same buckets list the same, in the order of their hashes. -/
theorem flatMap_perm {W : Type} {g : List V → List W} (hg : g [] = []) {m m' : BucketMap K V}
    (h : ∀ k, g (m.bucket k) = g (m'.bucket k)) :
    (m.entries.flatMap fun e => g e.2).Perm (m'.entries.flatMap fun e => g e.2) := by
  have hlisted : ∀ m : BucketMap K V,
      (m.entries.flatMap fun e => g e.2) = (inhabited g m).flatMap Sigma.snd := by
    intro m
    unfold inhabited
    induction m.entries with
    | nil => rfl
    | cons e entries ih =>
      rw [List.flatMap_cons, ih, List.map_cons, List.filter_cons]
      cases hvalue : g e.2 with
      | nil => simp
      | cons v l => simp
  have hperm : (inhabited g m).Perm (inhabited g m') := by
    refine (List.perm_ext_iff_of_nodup (nodup_inhabited g m) (nodup_inhabited g m')).mpr ?_
    intro e
    rw [mem_inhabited hg, mem_inhabited hg, h]
  rw [hlisted, hlisted]
  exact hperm.flatMap_right _

end BucketMap

namespace NestedBucketMap

variable {K₁ K₂ V : Type} [DecidableEq K₁] [DecidableEq K₂]

/-- The inner map under an outer key; a missing key has an empty one. -/
def inner (m : NestedBucketMap K₁ K₂ V) (k₁ : K₁) : BucketMap K₂ V := (m.lookup k₁).getD ∅

/-- The entries under a pair of keys. -/
def bucket (m : NestedBucketMap K₁ K₂ V) (k₁ : K₁) (k₂ : K₂) : List V :=
  BucketMap.bucket (inner m k₁) k₂

def push (m : NestedBucketMap K₁ K₂ V) (k₁ : K₁) (k₂ : K₂) (v : V) : NestedBucketMap K₁ K₂ V :=
  m.insert k₁ (BucketMap.push (inner m k₁) k₂ v)

def retainAndPrune (m : NestedBucketMap K₁ K₂ V) (k₁ : K₁) (k₂ : K₂) (keep : V → Bool) :
    NestedBucketMap K₁ K₂ V :=
  match m.lookup k₁ with
  | none => m
  | some inner =>
    if (BucketMap.retainAndPrune inner k₂ keep).entries.isEmpty then m.erase k₁
    else m.insert k₁ (BucketMap.retainAndPrune inner k₂ keep)

/-- No outer key is left with an empty inner map, and no inner key with an empty bucket. -/
def Pruned (m : NestedBucketMap K₁ K₂ V) : Prop :=
  ∀ k₁ inner, m.lookup k₁ = some inner → inner ≠ ∅ ∧ BucketMap.Pruned inner

@[simp] lemma bucket_empty (k₁ : K₁) (k₂ : K₂) :
    bucket (∅ : NestedBucketMap K₁ K₂ V) k₁ k₂ = [] := rfl

omit [DecidableEq K₂] in
lemma inner_insert (m : NestedBucketMap K₁ K₂ V) (k₁ k₁' : K₁) (b : BucketMap K₂ V) :
    inner (m.insert k₁ b) k₁' = if k₁' = k₁ then b else inner m k₁' := by
  unfold inner
  split_ifs with h
  · subst h
    rw [AList.lookup_insert]
    rfl
  · rw [AList.lookup_insert_ne h]

omit [DecidableEq K₂] in
lemma inner_erase (m : NestedBucketMap K₁ K₂ V) (k₁ k₁' : K₁) :
    inner (m.erase k₁) k₁' = if k₁' = k₁ then ∅ else inner m k₁' := by
  unfold inner
  split_ifs with h
  · subst h
    rw [AList.lookup_erase]
    rfl
  · rw [AList.lookup_erase_ne h]

lemma bucket_push (m : NestedBucketMap K₁ K₂ V) (k₁ k₁' : K₁) (k₂ k₂' : K₂) (v : V) :
    bucket (push m k₁ k₂ v) k₁' k₂' =
      bucket m k₁' k₂' ++ if k₁' = k₁ ∧ k₂' = k₂ then [v] else [] := by
  unfold bucket push
  rw [inner_insert]
  by_cases h : k₁' = k₁
  · rw [if_pos h, BucketMap.bucket_push, h]
    simp
  · rw [if_neg h]
    simp [h]

lemma inner_retainAndPrune (m : NestedBucketMap K₁ K₂ V) (k₁ k₁' : K₁) (k₂ : K₂)
    (keep : V → Bool) :
    inner (retainAndPrune m k₁ k₂ keep) k₁' =
      if k₁' = k₁ then BucketMap.retainAndPrune (inner m k₁) k₂ keep else inner m k₁' := by
  unfold retainAndPrune
  cases h : m.lookup k₁ with
  | none =>
    have hi : inner m k₁ = ∅ := by simp [inner, h]
    dsimp only
    split_ifs with hk
    · rw [hk, hi]
      rfl
    · rfl
  | some b =>
    have hi : inner m k₁ = b := by simp [inner, h]
    rw [hi]
    dsimp only
    by_cases he : (BucketMap.retainAndPrune b k₂ keep).entries.isEmpty
    · rw [if_pos he, inner_erase]
      have hb : BucketMap.retainAndPrune b k₂ keep = ∅ := AList.ext (List.isEmpty_iff.mp he)
      rw [hb]
    · rw [if_neg he, inner_insert]

lemma bucket_retainAndPrune (m : NestedBucketMap K₁ K₂ V) (k₁ k₁' : K₁) (k₂ k₂' : K₂)
    (keep : V → Bool) :
    bucket (retainAndPrune m k₁ k₂ keep) k₁' k₂' =
      (bucket m k₁' k₂').filter (fun v => decide ¬(k₁' = k₁ ∧ k₂' = k₂) || keep v) := by
  unfold bucket
  rw [inner_retainAndPrune]
  by_cases h : k₁' = k₁
  · rw [if_pos h, BucketMap.bucket_retainAndPrune, h]
    simp
  · rw [if_neg h]
    simp [h]

lemma pruned_empty : Pruned (∅ : NestedBucketMap K₁ K₂ V) := by
  intro k₁ inner h
  simp at h

lemma Pruned.insert {m : NestedBucketMap K₁ K₂ V} (h : Pruned m) (k₁ : K₁)
    {b : BucketMap K₂ V} (hne : b ≠ ∅) (hb : BucketMap.Pruned b) : Pruned (m.insert k₁ b) := by
  intro k₁' inner hl
  by_cases hk : k₁' = k₁
  · subst hk
    rw [AList.lookup_insert] at hl
    cases hl
    exact ⟨hne, hb⟩
  · rw [AList.lookup_insert_ne hk] at hl
    exact h k₁' inner hl

lemma Pruned.inner {m : NestedBucketMap K₁ K₂ V} (h : Pruned m) (k₁ : K₁) :
    BucketMap.Pruned (inner m k₁) := by
  unfold NestedBucketMap.inner
  cases hl : m.lookup k₁ with
  | none => exact BucketMap.pruned_empty
  | some b => exact (h k₁ b hl).2

lemma Pruned.push {m : NestedBucketMap K₁ K₂ V} (h : Pruned m) (k₁ : K₁) (k₂ : K₂) (v : V) :
    Pruned (push m k₁ k₂ v) :=
  h.insert k₁ (BucketMap.push_ne_empty _ _ _) ((h.inner k₁).push k₂ v)

lemma Pruned.retainAndPrune {m : NestedBucketMap K₁ K₂ V} (h : Pruned m) (k₁ : K₁) (k₂ : K₂)
    (keep : V → Bool) : Pruned (retainAndPrune m k₁ k₂ keep) := by
  unfold NestedBucketMap.retainAndPrune
  cases hl : m.lookup k₁ with
  | none => exact h
  | some b =>
    dsimp only
    split_ifs with he
    · intro k₁' inner hi
      by_cases hk : k₁' = k₁
      · subst hk
        rw [AList.lookup_erase] at hi
        cases hi
      · rw [AList.lookup_erase_ne hk] at hi
        exact h k₁' inner hi
    · refine h.insert k₁ (fun hn => he ?_) ((h k₁ b hl).2.retainAndPrune k₂ keep)
      rw [hn]
      rfl

end NestedBucketMap

section Owned

variable {K D E : Type} [DecidableEq K]

lemma filter_split_perm (p : E → Prop) [DecidablePred p] (l : List E) :
    (l.filter (fun e => p e) ++ l.filter (fun e => ¬p e)).Perm l := by
  have h := List.filter_append_perm (fun e => decide (p e)) l
  simpa only [decide_not] using h

/-- A list whose entries of each owner are the contribution of that owner's current document
is, as a multiset, the sum of the contributions. -/
theorem coe_eq_sum_contributions (owner : E → K) (contribution : K → D → List E)
    (docs : AList (fun _ : K => D)) (l : List E)
    (h : ∀ k, l.filter (fun e => owner e = k) =
      ((docs.lookup k).map (contribution k)).getD []) :
    (l : Multiset E) = (docs.entries.map fun s => (contribution s.1 s.2 : Multiset E)).sum := by
  obtain ⟨entries, hnodup⟩ := docs
  simp only [AList.lookup] at h
  dsimp only
  induction entries generalizing l with
  | nil =>
    have hl : l = [] := by
      apply List.eq_nil_iff_forall_not_mem.mpr
      intro e he
      have hm : e ∈ l.filter (fun e' => owner e' = owner e) := by simp [he]
      rw [h (owner e)] at hm
      cases hm
    rw [hl]
    rfl
  | cons s rest ih =>
    have hkey : s.1 ∉ rest.keys := (List.nodupKeys_cons.mp hnodup).1
    have hrest : rest.dlookup s.1 = none := List.dlookup_eq_none.mpr hkey
    have hs : l.filter (fun e => owner e = s.1) = contribution s.1 s.2 := by
      rw [h s.1, List.dlookup_cons_eq]
      rfl
    -- What the remaining owners contribute is what `s.1` does not own.
    have hothers : ∀ k, (l.filter (fun e => ¬owner e = s.1)).filter (fun e => owner e = k) =
        ((rest.dlookup k).map (contribution k)).getD [] := by
      intro k
      rw [List.filter_filter]
      by_cases hk : k = s.1
      · subst hk
        rw [hrest]
        simp
      · have hne : ∀ e, (decide (owner e = k) && decide ¬owner e = s.1) = decide (owner e = k) := by
          intro e
          by_cases he : owner e = k <;> simp [he, hk]
        simp only [hne]
        rw [h k, List.dlookup_cons_ne _ _ hk]
    calc (l : Multiset E)
        = (l.filter (fun e => owner e = s.1) : Multiset E) +
          (l.filter (fun e => ¬owner e = s.1) : Multiset E) := by
          rw [Multiset.coe_add, Multiset.coe_eq_coe]
          exact (filter_split_perm (fun e => owner e = s.1) l).symm
      _ = _ := by
          rw [hs, ih _ (List.nodupKeys_cons.mp hnodup).2 hothers, List.map_cons, List.sum_cons]

end Owned

end WitcherScriptLanguage.Library
