import WitcherScriptLanguage.Library.SetBuckets
import WitcherScriptLanguage.Lsp.CstCache

/-!
# The subscription registry

`SubscriptionRegistry` (`resolve/subscription_registry.rs`) stores, for the subscribers of the
diagnostics cache, what each of them observed and, the other way round, who observed each key.
The two directions are kept inverse to each other by every call, so that a lookup by keys
answers from the last registration of every subscriber. The registry of the cache model, which
has the first direction only, is the abstract view of this one.
-/

namespace WitcherScriptLanguage.Subscriptions

open Library

/-- The sets of observed names, each in the order in which its iterator runs. -/
structure ObservationSet where
  topLevel : List String := []
  members : List (String × String) := []
  enumMembers : List String := []
  deriving DecidableEq, Repr

def ObservationSet.keys (observations : ObservationSet) : List ObservedKey :=
  observations.topLevel.map .topLevel ++
    (observations.members.map fun key => .member key.1 key.2) ++
    observations.enumMembers.map .enumMember

structure SubscriptionRegistry where
  topLevel : SetBuckets String String := ∅
  members : SetBuckets (String × String) String := ∅
  enumMembers : SetBuckets String String := ∅
  keysBySubscriber : AList (fun _ : String => ObservationSet) := ∅

namespace SubscriptionRegistry

def unregister (r : SubscriptionRegistry) (uri : String) : SubscriptionRegistry :=
  match r.keysBySubscriber.lookup uri with
  | none => r
  | some prev =>
    { topLevel := r.topLevel.discardAll prev.topLevel uri
      members := r.members.discardAll prev.members uri
      enumMembers := r.enumMembers.discardAll prev.enumMembers uri
      keysBySubscriber := r.keysBySubscriber.erase uri }

def register (r : SubscriptionRegistry) (uri : String) (observations : ObservationSet) :
    SubscriptionRegistry :=
  let r := r.unregister uri
  { topLevel := r.topLevel.addAll observations.topLevel uri
    members := r.members.addAll observations.members uri
    enumMembers := r.enumMembers.addAll observations.enumMembers uri
    keysBySubscriber := r.keysBySubscriber.insert uri observations }

def bucket (r : SubscriptionRegistry) : ObservedKey → Option (Finset String)
  | .topLevel n => r.topLevel.lookup n
  | .member c n => r.members.lookup (c, n)
  | .enumMember n => r.enumMembers.lookup n

def subscribersOf (r : SubscriptionRegistry) (keys : List ObservedKey) : Finset String :=
  keys.foldl (fun out key => match r.bucket key with
    | some set => out ∪ set
    | none => out) ∅

end SubscriptionRegistry

/-- A call that changes the registry. -/
inductive Call
  | register (uri : String) (observations : ObservationSet)
  | unregister (uri : String)

def Call.subscriber : Call → String
  | register uri _ => uri
  | unregister uri => uri

/-- What the subscriber of a call observes after it. -/
def Call.observations : Call → Option ObservationSet
  | register _ observations => some observations
  | unregister _ => none

def SubscriptionRegistry.apply (r : SubscriptionRegistry) : Call → SubscriptionRegistry
  | .register uri observations => r.register uri observations
  | .unregister uri => r.unregister uri

def SubscriptionRegistry.after (calls : List Call) : SubscriptionRegistry :=
  calls.foldl SubscriptionRegistry.apply {}

/-- What a subscriber registered last, unless it has been unregistered since. -/
def lastObservations (calls : List Call) (uri : String) : Option ObservationSet :=
  (calls.filter fun call => call.subscriber = uri).getLast?.bind Call.observations

namespace SubscriptionRegistry

/-- The two directions say the same. -/
def MutuallyInverse (r : SubscriptionRegistry) : Prop :=
  ∀ key uri, (∃ subscribers, r.bucket key = some subscribers ∧ uri ∈ subscribers) ↔
    ∃ observations, r.keysBySubscriber.lookup uri = some observations ∧ key ∈ observations.keys

def NoEmptyBucket (r : SubscriptionRegistry) : Prop := ∀ key, r.bucket key ≠ some ∅

/-- The subscriber has registered a set that holds a key, under one of the three maps. -/
def Holds {K : Type} (r : SubscriptionRegistry) (part : ObservationSet → List K) (uri : String)
    (k : K) : Prop :=
  ∃ observations, r.keysBySubscriber.lookup uri = some observations ∧ k ∈ part observations

/-- Every one of the three maps is the inverse of its part of the registered sets. -/
structure Exact (r : SubscriptionRegistry) : Prop where
  topLevel : r.topLevel.InverseOf (r.Holds ObservationSet.topLevel)
  members : r.members.InverseOf (r.Holds ObservationSet.members)
  enumMembers : r.enumMembers.InverseOf (r.Holds ObservationSet.enumMembers)
  topLevel_occupied : r.topLevel.Occupied
  members_occupied : r.members.Occupied
  enumMembers_occupied : r.enumMembers.Occupied

lemma lookup_unregister (r : SubscriptionRegistry) (uri uri' : String) :
    (r.unregister uri).keysBySubscriber.lookup uri' =
      if uri' = uri then none else r.keysBySubscriber.lookup uri' := by
  unfold unregister
  cases h : r.keysBySubscriber.lookup uri with
  | none =>
    dsimp only
    split_ifs with hu
    · rw [hu, h]
    · rfl
  | some prev =>
    dsimp only
    split_ifs with hu
    · rw [hu, AList.lookup_erase]
    · rw [AList.lookup_erase_ne hu]

lemma lookup_register (r : SubscriptionRegistry) (uri uri' : String)
    (observations : ObservationSet) :
    (r.register uri observations).keysBySubscriber.lookup uri' =
      if uri' = uri then some observations else r.keysBySubscriber.lookup uri' := by
  rw [register]
  dsimp only
  split_ifs with hu
  · rw [hu, AList.lookup_insert]
  · rw [AList.lookup_insert_ne hu, lookup_unregister, if_neg hu]

lemma not_holds_empty {K : Type} (part : ObservationSet → List K) (uri : String) (k : K) :
    ¬ Holds {} part uri k := by
  rintro ⟨observations, hlookup, -⟩
  simp at hlookup

lemma exact_empty : Exact {} where
  topLevel := SetBuckets.inverseOf_empty (not_holds_empty _)
  members := SetBuckets.inverseOf_empty (not_holds_empty _)
  enumMembers := SetBuckets.inverseOf_empty (not_holds_empty _)
  topLevel_occupied := SetBuckets.occupied_empty
  members_occupied := SetBuckets.occupied_empty
  enumMembers_occupied := SetBuckets.occupied_empty

section Part

variable {K : Type} [DecidableEq K] {r : SubscriptionRegistry} {m : SetBuckets K String}
  {part : ObservationSet → List K}

/-- Unregistering takes the subscriber out of one of the maps. -/
lemma inverseOf_unregister (h : m.InverseOf (r.Holds part)) {uri : String} {prev : ObservationSet}
    (hprev : r.keysBySubscriber.lookup uri = some prev) :
    (m.discardAll (part prev) uri).InverseOf ((r.unregister uri).Holds part) := by
  refine h.discardAll ?_ ?_ ?_
  · rintro k ⟨observations, hlookup, hk⟩
    obtain rfl := Option.some.inj (hprev.symm.trans hlookup)
    exact hk
  · rintro k ⟨observations, hlookup, -⟩
    rw [lookup_unregister, if_pos rfl] at hlookup
    cases hlookup
  · intro uri' hne k
    simp only [Holds, lookup_unregister, if_neg hne]

/-- Registering after that adds the subscriber under its new keys. -/
lemma inverseOf_register {uri : String} (h : m.InverseOf ((r.unregister uri).Holds part))
    (observations : ObservationSet) :
    (m.addAll (part observations) uri).InverseOf ((r.register uri observations).Holds part) := by
  refine h.addAll ?_ ?_ ?_
  · rintro k ⟨prev, hlookup, -⟩
    rw [lookup_unregister, if_pos rfl] at hlookup
    cases hlookup
  · intro k
    simp [Holds, lookup_register]
  · intro uri' hne k
    simp only [Holds, lookup_register, lookup_unregister, if_neg hne]

end Part

lemma Exact.unregister {r : SubscriptionRegistry} (h : r.Exact) (uri : String) :
    (r.unregister uri).Exact := by
  cases hprev : r.keysBySubscriber.lookup uri with
  | none =>
    have hsame : r.unregister uri = r := by rw [SubscriptionRegistry.unregister, hprev]
    rw [hsame]
    exact h
  | some prev =>
    have hparts : r.unregister uri =
        { topLevel := r.topLevel.discardAll prev.topLevel uri
          members := r.members.discardAll prev.members uri
          enumMembers := r.enumMembers.discardAll prev.enumMembers uri
          keysBySubscriber := r.keysBySubscriber.erase uri } := by
      rw [SubscriptionRegistry.unregister, hprev]
    constructor
    · rw [congrArg SubscriptionRegistry.topLevel hparts]
      exact inverseOf_unregister h.topLevel hprev
    · rw [congrArg SubscriptionRegistry.members hparts]
      exact inverseOf_unregister h.members hprev
    · rw [congrArg SubscriptionRegistry.enumMembers hparts]
      exact inverseOf_unregister h.enumMembers hprev
    · rw [hparts]
      exact h.topLevel_occupied.discardAll _ _
    · rw [hparts]
      exact h.members_occupied.discardAll _ _
    · rw [hparts]
      exact h.enumMembers_occupied.discardAll _ _

lemma Exact.register {r : SubscriptionRegistry} (h : r.Exact) (uri : String)
    (observations : ObservationSet) : (r.register uri observations).Exact where
  topLevel := inverseOf_register (h.unregister uri).topLevel observations
  members := inverseOf_register (h.unregister uri).members observations
  enumMembers := inverseOf_register (h.unregister uri).enumMembers observations
  topLevel_occupied := (h.unregister uri).topLevel_occupied.addAll _ _
  members_occupied := (h.unregister uri).members_occupied.addAll _ _
  enumMembers_occupied := (h.unregister uri).enumMembers_occupied.addAll _ _

lemma Exact.apply {r : SubscriptionRegistry} (h : r.Exact) (call : Call) : (r.apply call).Exact := by
  cases call with
  | register uri observations => exact h.register uri observations
  | unregister uri => exact h.unregister uri

lemma lookup_apply (r : SubscriptionRegistry) (call : Call) (uri : String) :
    (r.apply call).keysBySubscriber.lookup uri =
      if call.subscriber = uri then call.observations else r.keysBySubscriber.lookup uri := by
  by_cases hu : call.subscriber = uri
  · rw [if_pos hu, ← hu]
    cases call with
    | register uri' observations => exact (lookup_register r uri' uri' _).trans (if_pos rfl)
    | unregister uri' => exact (lookup_unregister r uri' uri').trans (if_pos rfl)
  · rw [if_neg hu]
    cases call with
    | register uri' observations =>
      exact (lookup_register r uri' uri _).trans (if_neg (Ne.symm hu))
    | unregister uri' => exact (lookup_unregister r uri' uri).trans (if_neg (Ne.symm hu))

lemma Exact.mem_bucket {r : SubscriptionRegistry} (h : r.Exact) (key : ObservedKey)
    (uri : String) :
    (∃ subscribers, r.bucket key = some subscribers ∧ uri ∈ subscribers) ↔
      ∃ observations, r.keysBySubscriber.lookup uri = some observations ∧
        key ∈ observations.keys := by
  have hmem : ∀ {K : Type} [DecidableEq K] (m : SetBuckets K String) (k : K),
      (∃ subscribers, m.lookup k = some subscribers ∧ uri ∈ subscribers) ↔
        uri ∈ m.holders k := by
    intro K _ m k
    cases hk : m.lookup k <;> simp [SetBuckets.holders, hk]
  cases key with
  | topLevel n =>
    rw [bucket, hmem, h.topLevel n uri]
    simp [Holds, ObservationSet.keys]
  | member c n =>
    rw [bucket, hmem, h.members (c, n) uri]
    simp [Holds, ObservationSet.keys]
  | enumMember n =>
    rw [bucket, hmem, h.enumMembers n uri]
    simp [Holds, ObservationSet.keys]

lemma Exact.noEmptyBucket {r : SubscriptionRegistry} (h : r.Exact) : r.NoEmptyBucket := by
  intro key
  cases key with
  | topLevel n => exact h.topLevel_occupied n
  | member c n => exact h.members_occupied (c, n)
  | enumMember n => exact h.enumMembers_occupied n

lemma mem_subscribersOf (r : SubscriptionRegistry) (keys : List ObservedKey) (uri : String) :
    uri ∈ r.subscribersOf keys ↔
      ∃ key ∈ keys, ∃ subscribers, r.bucket key = some subscribers ∧ uri ∈ subscribers := by
  have hfold : ∀ out : Finset String, uri ∈ keys.foldl (fun out key => match r.bucket key with
        | some set => out ∪ set
        | none => out) out ↔
      uri ∈ out ∨
        ∃ key ∈ keys, ∃ subscribers, r.bucket key = some subscribers ∧ uri ∈ subscribers := by
    induction keys with
    | nil => simp
    | cons key keys ih =>
      intro out
      rw [List.foldl_cons, ih]
      cases hkey : r.bucket key with
      | none => simp [hkey]
      | some set => simp [hkey, or_assoc]
  rw [subscribersOf, hfold]
  simp

lemma exact_after (calls : List Call) : (after calls).Exact := by
  induction calls using List.reverseRecOn with
  | nil => exact exact_empty
  | append_singleton calls call ih =>
    rw [after, List.foldl_append]
    exact ih.apply call

lemma lookup_after (calls : List Call) (uri : String) :
    (after calls).keysBySubscriber.lookup uri = lastObservations calls uri := by
  induction calls using List.reverseRecOn with
  | nil => rfl
  | append_singleton calls call ih =>
    have hstep : after (calls ++ [call]) = (after calls).apply call := by
      rw [after, List.foldl_append]
      rfl
    rw [hstep, lookup_apply, ih]
    unfold lastObservations
    by_cases hu : call.subscriber = uri
    · simp [hu]
    · simp [hu]

/-- After every sequence of calls a lookup returns just those subscribers whose last registered
observations meet the given keys, the two directions are inverse to each other, and no key is
left with an empty set. -/
theorem subscriptions_exact (calls : List Call) :
    (∀ (keys : List ObservedKey) (uri : String), uri ∈ (after calls).subscribersOf keys ↔
      ∃ observations, lastObservations calls uri = some observations ∧
        ∃ key ∈ keys, key ∈ observations.keys) ∧
    (∀ uri, (after calls).keysBySubscriber.lookup uri = lastObservations calls uri) ∧
    (after calls).MutuallyInverse ∧ (after calls).NoEmptyBucket := by
  have hexact := exact_after calls
  refine ⟨fun keys uri => ?_, lookup_after calls, hexact.mem_bucket, hexact.noEmptyBucket⟩
  rw [mem_subscribersOf]
  simp only [hexact.mem_bucket, lookup_after]
  constructor
  · rintro ⟨key, hkey, observations, hlast, hobserved⟩
    exact ⟨observations, hlast, key, hkey, hobserved⟩
  · rintro ⟨observations, hlast, key, hkey, hobserved⟩
    exact ⟨key, hkey, observations, hlast, hobserved⟩

/-- A subscriber that is registered again with fewer keys is gone from the others. -/
example : (after [.register "a" { topLevel := ["X", "Y"] }, .register "b" { topLevel := ["X"] },
    .register "a" { topLevel := ["Y"] }]).subscribersOf [.topLevel "X"] = {"b"} := by decide

/-- The registry of the cache model lists the same keys for every subscriber. -/
def Refines (r : SubscriptionRegistry) (view : WitcherScriptLanguage.SubscriptionRegistry) : Prop :=
  ∀ uri, view.lookup uri = (r.keysBySubscriber.lookup uri).map ObservationSet.keys

/-- What the calls do to the registry of the cache model. -/
def viewApply (view : WitcherScriptLanguage.SubscriptionRegistry) :
    Call → WitcherScriptLanguage.SubscriptionRegistry
  | .register uri observations => view.register uri observations.keys
  | .unregister uri => view.erase uri

def viewAfter (calls : List Call) : WitcherScriptLanguage.SubscriptionRegistry :=
  calls.foldl viewApply ∅

lemma lookup_viewApply (view : WitcherScriptLanguage.SubscriptionRegistry) (call : Call)
    (uri : String) : (viewApply view call).lookup uri =
      if call.subscriber = uri then call.observations.map ObservationSet.keys
      else view.lookup uri := by
  split_ifs with hu
  · rw [← hu]
    cases call with
    | register uri' observations => exact AList.lookup_insert view
    | unregister uri' => exact AList.lookup_erase uri' view
  · cases call with
    | register uri' observations => exact AList.lookup_insert_ne (Ne.symm hu)
    | unregister uri' => exact AList.lookup_erase_ne (Ne.symm hu)

lemma Refines.apply {r : SubscriptionRegistry} {view : WitcherScriptLanguage.SubscriptionRegistry}
    (h : r.Refines view) (call : Call) : (r.apply call).Refines (viewApply view call) := by
  intro uri
  rw [lookup_viewApply, lookup_apply, h uri]
  split_ifs <;> rfl

/-- Every sequence of calls keeps the two registries together. -/
lemma refines_after (calls : List Call) : (after calls).Refines (viewAfter calls) := by
  induction calls using List.reverseRecOn with
  | nil => exact fun _ => rfl
  | append_singleton calls call ih =>
    rw [after, viewAfter, List.foldl_append, List.foldl_append]
    exact ih.apply call

lemma mem_subscribersOf_view {r : SubscriptionRegistry}
    {view : WitcherScriptLanguage.SubscriptionRegistry} (hexact : r.Exact) (h : r.Refines view)
    (keys : List ObservedKey) (uri : String) :
    uri ∈ view.subscribersOf keys ↔ uri ∈ r.subscribersOf keys := by
  rw [mem_subscribersOf]
  simp only [hexact.mem_bucket]
  unfold WitcherScriptLanguage.SubscriptionRegistry.subscribersOf
  simp only [List.mem_map, List.mem_filter, List.any_eq_true, List.contains_iff_mem]
  constructor
  · rintro ⟨⟨uri', observed⟩, ⟨hentry, key, hobserved, hkey⟩, rfl⟩
    have hlookup : view.lookup uri' = some observed := AList.mem_lookup_iff.mpr hentry
    rw [h uri'] at hlookup
    obtain ⟨observations, hlast, rfl⟩ := Option.map_eq_some_iff.mp hlookup
    exact ⟨key, hkey, observations, hlast, hobserved⟩
  · rintro ⟨key, hkey, observations, hlast, hobserved⟩
    have hlookup : view.lookup uri = some observations.keys := by
      rw [h uri, hlast]
      rfl
    exact ⟨⟨uri, observations.keys⟩, ⟨AList.mem_lookup_iff.mp hlookup, key, hobserved, hkey⟩, rfl⟩

/-- After every sequence of calls the cache model evicts just the subscribers that the registry
returns. -/
theorem mem_subscribersOf_viewAfter (calls : List Call) (keys : List ObservedKey) (uri : String) :
    uri ∈ (viewAfter calls).subscribersOf keys ↔ uri ∈ (after calls).subscribersOf keys :=
  mem_subscribersOf_view (exact_after calls) (refines_after calls) keys uri

end SubscriptionRegistry

end WitcherScriptLanguage.Subscriptions
