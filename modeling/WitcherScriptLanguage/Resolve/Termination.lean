import Mathlib.Data.Finite.Defs
import Mathlib.Data.Set.Finite.Basic
import Mathlib.Logic.Relation
import Mathlib.Order.WellFounded
import WitcherScriptLanguage.Resolve.SymbolDb

/-!
# Termination of the chain lookups

`superclass_of` of a state without a declared base walks the superclasses of its owner, and the
depth bound counts the steps of one walk only. What a state's superclass is gets defined by
rules first; a state then needs every class at which its owner walk asks for a superclass. The
lookups terminate exactly when no state needs itself.
-/

namespace WitcherScriptLanguage

open Library

namespace SymbolDb

variable (db : SymbolDb)

/-- The owner and the base of a state whose superclass has to be searched for. -/
def searchedState (className : String) : Option (String × String) :=
  if (db.declaredSuperclass className).isSome then none
  else
    match db.topLevel className with
    | some d =>
      if d.symbol.kind = .state then d.symbol.ownerClass.bind fun owner =>
        d.symbol.baseClass.map fun base => (owner, base)
      else none
    | none => none

/-- The superclass of a class or state that needs no search. -/
def directSuperclass (className : String) : Option String :=
  (db.declaredSuperclass className).or
    ((db.topLevel className).bind fun d =>
      match d.symbol.kind with
      | .state => some stateBaseClass
      | .class => if objectRootChain.contains className then none else some objectBaseClass
      | _ => none)

inductive Judgment
  | superclass (className : String) (result : Option String)
  /-- The search for state `base` from `current` with `remaining` owners left to visit. -/
  | ownerWalk (base : String) (remaining : Nat) (current : String) (result : Option Definition)

/-- What the declarations say about superclasses, as rules. -/
inductive Derivable : Judgment → Prop
  | direct {c} : db.searchedState c = none → Derivable (.superclass c (db.directSuperclass c))
  | searched {c owner base found} : db.searchedState c = some (owner, base) →
      Derivable (.ownerWalk base (maxInheritanceDepth + 1) owner found) →
      Derivable (.superclass c (some ((found.map (·.symbol.typeName)).getD stateBaseClass)))
  | tooDeep {base current} : Derivable (.ownerWalk base 0 current none)
  | found {base n current d} : db.stateInOwner current base = some d →
      Derivable (.ownerWalk base (n + 1) current (some d))
  | root {base n current} : db.stateInOwner current base = none →
      Derivable (.superclass current none) → Derivable (.ownerWalk base (n + 1) current none)
  | parent {base n current p r} : db.stateInOwner current base = none →
      Derivable (.superclass current (some p)) → Derivable (.ownerWalk base n p r) →
      Derivable (.ownerWalk base (n + 1) current r)

/-- The owners that the search for state `base` of `owner` visits, with the visits left. -/
inductive OwnerVisits (base owner : String) : Nat → String → Prop
  | start : OwnerVisits base owner (maxInheritanceDepth + 1) owner
  | parent {n current p} : OwnerVisits base owner (n + 1) current →
      db.stateInOwner current base = none → db.Derivable (.superclass current (some p)) →
      OwnerVisits base owner n p

/-- Finding the superclass of the state `c` asks for the superclass of `x`: `x` is visited on
the owner walk of `c` and does not own the searched state. -/
def Needs (c x : String) : Prop :=
  ∃ owner base n, db.searchedState c = some (owner, base) ∧
    db.OwnerVisits base owner (n + 1) x ∧ db.stateInOwner x base = none

section Values

variable {db}

lemma value_walkChain_succ {T σ : Type} (superclass : String → Observed (Option String))
    (visit : String → Nat → σ → Observed (Option T × σ)) (n depth : Nat) (current : String)
    (acc : σ) : (walkChain superclass visit (n + 1) depth current acc).value =
      (visit current depth acc).value.bind fun r =>
        match r.1 with
        | some t => some (some t, r.2)
        | none => (superclass current).value.bind fun s =>
          match s with
          | none => some (none, r.2)
          | some p => (walkChain superclass visit n (depth + 1) p r.2).value := by
  rw [walkChain]
  simp only [Observed.value_bind, Observed.value_record, Option.bind_some]
  refine congrArg _ (funext fun r => ?_)
  obtain ⟨found, acc'⟩ := r
  cases found with
  | some t => rfl
  | none =>
    simp only [Observed.value_bind]
    refine congrArg _ (funext fun s => ?_)
    cases s <;> rfl

lemma value_tryInChain {T : Type} (superclass : String → Observed (Option String))
    (visit : String → Nat → Observed (Option T)) (start : String) :
    (tryInChain superclass visit start).value =
      (walkChain superclass (fun current depth (_ : Unit) => do
        return (← visit current depth, ())) (maxInheritanceDepth + 1) 0 start ()).value.map
        Prod.fst := by
  rw [tryInChain, Observed.value_bind]
  cases (walkChain superclass _ (maxInheritanceDepth + 1) 0 start ()).value <;> rfl

/-- The owner walk as a function of the visits left. -/
def ownerSearch (db : SymbolDb) (superclass : String → Observed (Option String))
    (base : String) : Nat → String → Option (Option Definition)
  | 0, _ => some none
  | n + 1, current =>
    match db.stateInOwner current base with
    | some d => some (some d)
    | none => (superclass current).value.bind fun s =>
      match s with
      | none => some none
      | some p => ownerSearch db superclass base n p

lemma value_findStateInOwnerChainWith (superclass : String → Observed (Option String))
    (owner base : String) : (db.findStateInOwnerChainWith superclass owner base).value =
      ownerSearch db superclass base (maxInheritanceDepth + 1) owner := by
  rw [findStateInOwnerChainWith, value_tryInChain]
  generalize maxInheritanceDepth + 1 = n
  generalize 0 = depth
  induction n generalizing owner depth with
  | zero => rfl
  | succ n ih =>
    rw [value_walkChain_succ, ownerSearch]
    simp only [Observed.value_bind, Observed.value_record, Observed.value_pure, Option.bind_some]
    cases db.stateInOwner owner base with
    | some d => rfl
    | none =>
      dsimp only
      cases (superclass owner).value with
      | none => rfl
      | some s =>
        cases s with
        | none => rfl
        | some p => exact ih p (depth + 1)

lemma value_superclassOf_direct {c : String} (h : db.searchedState c = none) (n : Nat) :
    (db.superclassOf (n + 1) c).value = some (db.directSuperclass c) := by
  unfold searchedState at h
  rw [superclassOf, directSuperclass]
  simp only [Observed.value_bind, Observed.value_record, Option.bind_some]
  cases hdeclared : db.declaredSuperclass c with
  | some base => rfl
  | none =>
    rw [hdeclared, if_neg (by simp)] at h
    simp only [implicitSuperclassWith, findTopLevel, Observed.value_bind, Observed.value_record,
      Observed.value_pure, Option.bind_some, Option.none_or]
    cases htop : db.topLevel c with
    | none => rfl
    | some d =>
      rw [htop] at h
      simp only [Option.bind_some]
      cases hkind : d.symbol.kind with
      | state =>
        simp only [hkind, if_true] at h
        simp only [stateSuperclassWith, Observed.value_bind]
        cases howner : d.symbol.ownerClass with
        | none => rfl
        | some owner =>
          cases hbase : d.symbol.baseClass with
          | none => rfl
          | some base => simp [howner, hbase] at h
      | _ => rfl

lemma value_superclassOf_searched {c owner base : String}
    (h : db.searchedState c = some (owner, base)) (n : Nat) :
    (db.superclassOf (n + 1) c).value =
      (ownerSearch db (db.superclassOf n) base (maxInheritanceDepth + 1) owner).map fun found =>
        some ((found.map (·.symbol.typeName)).getD stateBaseClass) := by
  unfold searchedState at h
  split_ifs at h with hdeclared
  cases htop : db.topLevel c with
  | none => simp [htop] at h
  | some d =>
    simp only [htop] at h
    split_ifs at h with hkind
    obtain ⟨owner', howner, hmap⟩ := Option.bind_eq_some_iff.mp h
    obtain ⟨base', hbase, hpair⟩ := Option.map_eq_some_iff.mp hmap
    cases hpair
    have hnone : db.declaredSuperclass c = none := by simpa using hdeclared
    rw [superclassOf]
    simp only [Observed.value_bind, Observed.value_record, Option.bind_some, hnone,
      implicitSuperclassWith, findTopLevel, Observed.value_pure, htop, hkind,
      stateSuperclassWith, howner, hbase, value_findStateInOwnerChainWith]
    cases ownerSearch db (db.superclassOf n) base (maxInheritanceDepth + 1) owner <;> rfl

@[simp] lemma value_superclassOf_zero (c : String) : (db.superclassOf 0 c).value = none := rfl

/-! ### The code against the rules -/

/-- What `superclass_of` returns is derivable. -/
theorem derivable_of_value (n : Nat) : ∀ {c : String} {r : Option String},
    (db.superclassOf n c).value = some r → db.Derivable (.superclass c r) := by
  induction n with
  | zero => intro c r h; cases h
  | succ n ih =>
    have hwalk : ∀ (m : Nat) (current base : String) (found : Option Definition),
        ownerSearch db (db.superclassOf n) base m current = some found →
        db.Derivable (.ownerWalk base m current found) := by
      intro m
      induction m with
      | zero =>
        intro current base found h
        cases h
        exact .tooDeep
      | succ m ihm =>
        intro current base found h
        rw [ownerSearch] at h
        cases hstate : db.stateInOwner current base with
        | some d =>
          rw [hstate] at h
          cases h
          exact .found hstate
        | none =>
          rw [hstate] at h
          obtain ⟨s, hs, h⟩ := Option.bind_eq_some_iff.mp h
          cases s with
          | none =>
            cases h
            exact .root hstate (ih hs)
          | some p => exact .parent hstate (ih hs) (ihm p base found h)
    intro c r h
    cases hsearched : db.searchedState c with
    | none =>
      rw [value_superclassOf_direct hsearched] at h
      cases h
      exact .direct hsearched
    | some ob =>
      rw [value_superclassOf_searched hsearched] at h
      obtain ⟨found, hfound, rfl⟩ := Option.map_eq_some_iff.mp h
      exact .searched hsearched (hwalk _ _ _ _ hfound)

/-- What a judgment says about the code at any call depth at which the code has a result. -/
def Judgment.Computed (db : SymbolDb) : Judgment → Prop
  | .superclass c r => ∀ n r', (db.superclassOf n c).value = some r' → r' = r
  | .ownerWalk base m current r => ∀ n r',
      ownerSearch db (db.superclassOf n) base m current = some r' → r' = r

/-- A derivable superclass is the only one that `superclass_of` returns. -/
theorem computed_of_derivable {j : Judgment} (h : db.Derivable j) : j.Computed db := by
  induction h with
  | direct hsearched =>
    intro n r' hr
    cases n with
    | zero => cases hr
    | succ n =>
      rw [value_superclassOf_direct hsearched] at hr
      exact (Option.some.inj hr).symm
  | searched hsearched _ ih =>
    intro n r' hr
    cases n with
    | zero => cases hr
    | succ n =>
      rw [value_superclassOf_searched hsearched] at hr
      obtain ⟨found, hfound, rfl⟩ := Option.map_eq_some_iff.mp hr
      rw [ih n found hfound]
  | tooDeep =>
    intro n r' hr
    exact (Option.some.inj hr).symm
  | found hstate =>
    intro n r' hr
    rw [ownerSearch, hstate] at hr
    exact (Option.some.inj hr).symm
  | root hstate _ ih =>
    intro n r' hr
    rw [ownerSearch, hstate] at hr
    obtain ⟨s, hs, hr⟩ := Option.bind_eq_some_iff.mp hr
    rw [ih n s hs] at hr
    exact (Option.some.inj hr).symm
  | parent hstate _ _ ihsuper ihwalk =>
    intro n r' hr
    rw [ownerSearch, hstate] at hr
    obtain ⟨s, hs, hr⟩ := Option.bind_eq_some_iff.mp hr
    rw [ihsuper n s hs] at hr
    exact ihwalk n r' hr

/-- `f` returns whatever `g` returns. -/
def Extends {α β : Type} (f g : α → Observed β) : Prop :=
  ∀ a r, (g a).value = some r → (f a).value = some r

lemma walkChain_extends {T σ : Type} {f g : String → Observed (Option String)}
    (h : Extends f g) (visit : String → Nat → σ → Observed (Option T × σ)) (n : Nat) :
    ∀ depth current acc r, (walkChain g visit n depth current acc).value = some r →
      (walkChain f visit n depth current acc).value = some r := by
  induction n with
  | zero => exact fun _ _ _ _ hr => hr
  | succ n ih =>
    intro depth current acc r hr
    rw [value_walkChain_succ] at hr ⊢
    obtain ⟨v, hv, hr⟩ := Option.bind_eq_some_iff.mp hr
    rw [hv, Option.bind_some]
    cases hfound : v.1 with
    | some t => simpa [hfound] using hr
    | none =>
      simp only [hfound] at hr ⊢
      obtain ⟨s, hs, hr⟩ := Option.bind_eq_some_iff.mp hr
      rw [h current s hs, Option.bind_some]
      cases s with
      | none => exact hr
      | some p => exact ih _ _ _ _ hr

lemma ownerSearch_extends {f g : String → Observed (Option String)} (h : Extends f g)
    (base : String) (n : Nat) : ∀ current r,
      ownerSearch db g base n current = some r → ownerSearch db f base n current = some r := by
  induction n with
  | zero => exact fun _ _ hr => hr
  | succ n ih =>
    intro current r hr
    rw [ownerSearch] at hr ⊢
    cases hstate : db.stateInOwner current base with
    | some d => simpa [hstate] using hr
    | none =>
      simp only [hstate] at hr ⊢
      obtain ⟨s, hs, hr⟩ := Option.bind_eq_some_iff.mp hr
      rw [h current s hs, Option.bind_some]
      cases s with
      | none => exact hr
      | some p => exact ih _ _ hr

lemma superclassOf_succ_extends (n : Nat) :
    Extends (db.superclassOf (n + 1)) (db.superclassOf n) := by
  induction n with
  | zero => intro c r h; cases h
  | succ n ih =>
    intro c r h
    cases hsearched : db.searchedState c with
    | none =>
      rw [value_superclassOf_direct hsearched] at h ⊢
      exact h
    | some ob =>
      rw [value_superclassOf_searched hsearched] at h ⊢
      obtain ⟨found, hfound, rfl⟩ := Option.map_eq_some_iff.mp h
      rw [ownerSearch_extends ih _ _ _ _ hfound, Option.map_some]

lemma superclassOf_extends {n m : Nat} (h : n ≤ m) :
    Extends (db.superclassOf m) (db.superclassOf n) := by
  induction m, h using Nat.le_induction with
  | base => exact fun _ _ hr => hr
  | succ m _ ih => exact fun c r hr => superclassOf_succ_extends m c r (ih c r hr)

/-- A search that has a result has one at every owner it visits. -/
lemma search_of_ownerVisits {base owner : String} {n m : Nat} {x : String}
    (h : db.OwnerVisits base owner m x)
    (hstart : (ownerSearch db (db.superclassOf n) base (maxInheritanceDepth + 1) owner).isSome) :
    (ownerSearch db (db.superclassOf n) base m x).isSome := by
  induction h with
  | start => exact hstart
  | parent _ hstate hsuper ih =>
    rw [ownerSearch, hstate] at ih
    dsimp only at ih
    cases hs : (db.superclassOf n _).value with
    | none => rw [hs] at ih; cases ih
    | some s =>
      rw [hs, computed_of_derivable hsuper n s hs] at ih
      exact ih

/-- The classes that a state needs have a result at one call less. -/
lemma isSome_of_needs {c x : String} {n : Nat} (h : db.Needs c x)
    (hc : (db.superclassOf (n + 1) c).value.isSome) : (db.superclassOf n x).value.isSome := by
  obtain ⟨owner, base, m, hsearched, hvisits, hstate⟩ := h
  rw [value_superclassOf_searched hsearched, Option.isSome_map] at hc
  have hx := search_of_ownerVisits hvisits hc
  rw [ownerSearch, hstate] at hx
  dsimp only at hx
  cases hs : (db.superclassOf n x).value with
  | none => rw [hs] at hx; cases hx
  | some s => rfl

/-- A state that needs itself, directly or through others, has no result at any call depth. -/
theorem not_isSome_of_cycle {c : String} (h : Relation.TransGen db.Needs c c) (n : Nat) :
    ¬(db.superclassOf n c).value.isSome := by
  have hdescend : ∀ {x y : String}, Relation.TransGen db.Needs x y → ∀ m,
      (db.superclassOf m x).value.isSome → ∃ k < m, (db.superclassOf k y).value.isSome := by
    intro x y hxy
    induction hxy with
    | single hstep =>
      intro m hm
      cases m with
      | zero => cases hm
      | succ m => exact ⟨m, by omega, isSome_of_needs hstep hm⟩
    | tail _ hstep ih =>
      intro m hm
      obtain ⟨k, hk, hy⟩ := ih m hm
      cases k with
      | zero => cases hy
      | succ k => exact ⟨k, by omega, isSome_of_needs hstep hy⟩
  induction n using Nat.strong_induction_on with
  | h n ih =>
    intro hn
    obtain ⟨k, hk, hc⟩ := hdescend h n hn
    exact ih k hk hc

/-! ### Without cycles every search ends -/

/-- Only indexed names can be searched states. -/
lemma finite_searchedStates : {c : String | (db.searchedState c).isSome}.Finite := by
  have hkeys : ∀ (ix : WorkspaceIndex) (c : String) (d : Definition),
      ix.findTopLevel c = some d → c ∈ ix.topLevelByName.keys := by
    intro ix c d h
    rw [← AList.mem_keys, ← AList.lookup_isSome]
    rw [WorkspaceIndex.findTopLevel, BucketMap.bucket] at h
    cases hl : ix.topLevelByName.lookup c with
    | none => rw [hl] at h; cases h
    | some l => rfl
  apply Set.Finite.subset (List.finite_toSet (db.workspace.topLevelByName.keys ++
    (db.base.topLevelByName.keys ++
      (db.builtins.map (fun b => b.topLevelByName.keys)).getD [])))
  intro c hc
  obtain ⟨ob, hob⟩ := Option.isSome_iff_exists.mp hc
  unfold searchedState at hob
  split_ifs at hob
  cases htop : db.topLevel c with
  | none => simp [htop] at hob
  | some d =>
    simp only [Set.mem_ofPred_eq, List.mem_append]
    simp only [topLevel, layered, Option.or_eq_some_iff] at htop
    rcases htop with hworkspace | ⟨-, hbase | ⟨-, hbuiltins⟩⟩
    · exact .inl (hkeys _ c d hworkspace)
    · exact .inr (.inl (hkeys _ c d (Option.filter_eq_some_iff.mp hbase).1))
    · obtain ⟨b, hb, hfind⟩ := Option.bind_eq_some_iff.mp hbuiltins
      rw [hb]
      exact .inr (.inr (hkeys b c d hfind))

lemma searchedState_of_needs {c x : String} (h : db.Needs c x) :
    (db.searchedState c).isSome := by
  obtain ⟨owner, base, n, hsearched, -⟩ := h
  rw [hsearched]
  rfl

theorem wellFounded_needs (h : ∀ c, ¬Relation.TransGen db.Needs c c) :
    WellFounded (fun x c => db.Needs c x) := by
  let States := {c : String | (db.searchedState c).isSome}
  have hfinite : Finite States := finite_searchedStates
  -- On the finitely many searched states the transitive closure is a strict order.
  have hstates : WellFounded (fun x c : States => Relation.TransGen db.Needs c.1 x.1) := by
    have : IsTrans States (fun x c => Relation.TransGen db.Needs c.1 x.1) :=
      ⟨fun _ _ _ hxy hyz => hyz.trans hxy⟩
    have : Std.Irrefl (fun x c : States => Relation.TransGen db.Needs c.1 x.1) :=
      ⟨fun c => h c.1⟩
    exact Finite.wellFounded_of_trans_of_irrefl _
  have hacc : ∀ c : States, Acc (fun x c => db.Needs c x) c.1 := by
    intro c
    refine hstates.induction (C := fun c => Acc (fun x c => db.Needs c x) c.1) c ?_
    intro c ih
    constructor
    intro x hx
    by_cases hsearched : (db.searchedState x).isSome
    · exact ih ⟨x, hsearched⟩ (.single hx)
    · exact ⟨_, fun y hy => absurd (searchedState_of_needs hy) hsearched⟩
  constructor
  intro c
  by_cases hsearched : (db.searchedState c).isSome
  · exact hacc ⟨c, hsearched⟩
  · exact ⟨_, fun y hy => absurd (searchedState_of_needs hy) hsearched⟩

/-- When no state needs itself, `superclass_of` has a result for every name. -/
theorem superclassOf_total (h : ∀ c, ¬Relation.TransGen db.Needs c c) (c : String) :
    ∃ n, (db.superclassOf n c).value.isSome := by
  refine (wellFounded_needs h).induction
    (C := fun c => ∃ n, (db.superclassOf n c).value.isSome) c ?_
  intro c ih
  cases hsearched : db.searchedState c with
  | none => exact ⟨1, by rw [value_superclassOf_direct hsearched]; rfl⟩
  | some ob =>
    obtain ⟨owner, base⟩ := ob
    have hwalk : ∀ (m : Nat) (x : String), db.OwnerVisits base owner m x →
        ∃ n, (ownerSearch db (db.superclassOf n) base m x).isSome := by
      intro m
      induction m with
      | zero => exact fun _ _ => ⟨0, rfl⟩
      | succ m ihm =>
        intro x hx
        cases hstate : db.stateInOwner x base with
        | some d => exact ⟨0, by rw [ownerSearch, hstate]; rfl⟩
        | none =>
          obtain ⟨n₁, h₁⟩ := ih x ⟨owner, base, m, hsearched, hx, hstate⟩
          obtain ⟨s, hs⟩ := Option.isSome_iff_exists.mp h₁
          cases s with
          | none => exact ⟨n₁, by rw [ownerSearch, hstate]; simp [hs]⟩
          | some p =>
            obtain ⟨n₂, h₂⟩ := ihm p (.parent hx hstate (derivable_of_value n₁ hs))
            obtain ⟨found, hfound⟩ := Option.isSome_iff_exists.mp h₂
            refine ⟨max n₁ n₂, ?_⟩
            rw [ownerSearch, hstate]
            simp only [superclassOf_extends (le_max_left n₁ n₂) x _ hs, Option.bind_some]
            rw [ownerSearch_extends (superclassOf_extends (le_max_right n₁ n₂)) base m p _ hfound]
            rfl
    obtain ⟨n, hn⟩ := hwalk (maxInheritanceDepth + 1) owner .start
    refine ⟨n + 1, ?_⟩
    rw [value_superclassOf_searched hsearched, Option.isSome_map]
    exact hn

/-- A walk whose visitor always returns ends when every superclass is known. -/
lemma walkChain_total {T σ : Type} (h : ∀ c, ∃ n, (db.superclassOf n c).value.isSome)
    (visit : String → Nat → σ → Observed (Option T × σ))
    (hvisit : ∀ c depth acc, (visit c depth acc).value.isSome) (m : Nat) :
    ∀ depth current acc,
      ∃ n, (walkChain (db.superclassOf n) visit m depth current acc).value.isSome := by
  induction m with
  | zero => exact fun _ _ _ => ⟨0, rfl⟩
  | succ m ih =>
    intro depth current acc
    obtain ⟨v, hv⟩ := Option.isSome_iff_exists.mp (hvisit current depth acc)
    cases hfound : v.1 with
    | some t => exact ⟨0, by simp [value_walkChain_succ, hv, hfound]⟩
    | none =>
      obtain ⟨n₁, h₁⟩ := h current
      obtain ⟨s, hs⟩ := Option.isSome_iff_exists.mp h₁
      cases s with
      | none => exact ⟨n₁, by simp [value_walkChain_succ, hv, hfound, hs]⟩
      | some p =>
        obtain ⟨n₂, h₂⟩ := ih (depth + 1) p v.2
        obtain ⟨r, hr⟩ := Option.isSome_iff_exists.mp h₂
        refine ⟨max n₁ n₂, ?_⟩
        rw [value_walkChain_succ, hv]
        simp only [Option.bind_some, hfound, superclassOf_extends (le_max_left n₁ n₂) current _ hs]
        rw [walkChain_extends (superclassOf_extends (le_max_right n₁ n₂)) visit m _ _ _ _ hr]
        rfl

lemma tryInChain_total {T : Type} (h : ∀ c, ∃ n, (db.superclassOf n c).value.isSome)
    (visit : String → Nat → Observed (Option T))
    (hvisit : ∀ c depth, (visit c depth).value.isSome) (start : String) :
    ∃ n, (tryInChain (db.superclassOf n) visit start).value.isSome := by
  obtain ⟨n, hn⟩ := walkChain_total h (fun current depth (_ : Unit) => do
    return (← visit current depth, ())) (by
      intro c depth acc
      obtain ⟨t, ht⟩ := Option.isSome_iff_exists.mp (hvisit c depth)
      simp [ht]) (maxInheritanceDepth + 1) 0 start ()
  exact ⟨n, by rw [value_tryInChain, Option.isSome_map]; exact hn⟩

end Values

end SymbolDb

/-- The lookups that call `superclass_of`. -/
inductive ChainLookup
  | superclassOf (className : String)
  | inheritsFrom (className ancestor : String)
  | findStateInOwnerChain (startOwner name : String)
  | findMember (container name : String) (minAccess : AccessLevel)
  | findClassBodyMember (container name : String)
  | findNativeMember (container name : String)
  | membersOfTiered (container : String) (minAccess : AccessLevel)
  | membersOf (container : String) (minAccess : AccessLevel)

/-- Some depth of nested `superclass_of` calls is enough for a result. -/
def ChainLookup.Terminates (db : SymbolDb) : ChainLookup → Prop
  | superclassOf c => ∃ n, (db.superclassOf n c).value.isSome
  | inheritsFrom c ancestor => ∃ n, (db.inheritsFrom n c ancestor).value.isSome
  | findStateInOwnerChain owner name => ∃ n, (db.findStateInOwnerChain n owner name).value.isSome
  | findMember c name minAccess => ∃ n, (db.findMember n c name minAccess).value.isSome
  | findClassBodyMember c name => ∃ n, (db.findClassBodyMember n c name).value.isSome
  | findNativeMember c name => ∃ n, (db.findNativeMember n c name).value.isSome
  | membersOfTiered c minAccess => ∃ n, (db.membersOfTiered n c minAccess).value.isSome
  | membersOf c minAccess => ∃ n, (db.membersOf n c minAccess).value.isSome

namespace SymbolDb

variable {db : SymbolDb}

lemma membersOfTiered_total (h : ∀ c, ∃ n, (db.superclassOf n c).value.isSome)
    (container : String) (minAccess : AccessLevel) :
    ∃ n, (db.membersOfTiered n container minAccess).value.isSome := by
  obtain ⟨n, hn⟩ := walkChain_total h (T := Unit) (fun current depth seen =>
    return (none, seeMembers (if depth ≠ 0 then 1 else 0) (db.membersAt current) seen))
    (fun _ _ _ => rfl) (maxInheritanceDepth + 1) 0 (lookupCtor container) ∅
  obtain ⟨r, hr⟩ := Option.isSome_iff_exists.mp hn
  refine ⟨n, ?_⟩
  rw [membersOfTiered, Observed.value_bind, hr]
  rfl

theorem terminates_of_superclassOf (h : ∀ c, ∃ n, (db.superclassOf n c).value.isSome)
    (q : ChainLookup) : q.Terminates db := by
  cases q with
  | superclassOf c => exact h c
  | inheritsFrom c ancestor =>
    obtain ⟨n, hn⟩ := tryInChain_total h
      (fun current _ => return if current = ancestor then some () else none)
      (fun _ _ => rfl) c
    obtain ⟨r, hr⟩ := Option.isSome_iff_exists.mp hn
    exact ⟨n, by simp [inheritsFrom, hr]⟩
  | findStateInOwnerChain owner name =>
    exact tryInChain_total h (fun current _ => do
      Observed.record (.topLevel (stateClassName current name))
      return db.stateInOwner current name) (fun _ _ => by simp) owner
  | findMember c name minAccess =>
    obtain ⟨n, hn⟩ := tryInChain_total h (fun current _ => do
      Observed.record (.member current name)
      return db.memberAt current name) (fun _ _ => by simp) (lookupCtor c)
    obtain ⟨r, hr⟩ := Option.isSome_iff_exists.mp hn
    exact ⟨n, by simp [findMember, hr]⟩
  | findClassBodyMember c name =>
    obtain ⟨n, hn⟩ := tryInChain_total h (fun current _ => return db.classBodyMemberAt current name)
      (fun _ _ => rfl) (lookupCtor c)
    obtain ⟨r, hr⟩ := Option.isSome_iff_exists.mp hn
    exact ⟨n, by simp [findClassBodyMember, hr]⟩
  | findNativeMember c name =>
    simp only [ChainLookup.Terminates, findNativeMember]
    cases db.builtins with
    | none => exact ⟨0, rfl⟩
    | some builtins =>
      exact tryInChain_total h (fun current _ => return builtins.directNativeMemberOf current name)
        (fun _ _ => rfl) c
  | membersOfTiered c minAccess => exact membersOfTiered_total h c minAccess
  | membersOf c minAccess =>
    obtain ⟨n, hn⟩ := membersOfTiered_total h c minAccess
    obtain ⟨r, hr⟩ := Option.isSome_iff_exists.mp hn
    exact ⟨n, by simp [membersOf, hr]⟩

end SymbolDb

/-- The lookups of a database all terminate exactly when no state needs itself: when no state's
superclass has to be known in order to search the superclass of that same state. -/
theorem chainLookups_terminate_iff_acyclic (db : SymbolDb) :
    (∀ q : ChainLookup, q.Terminates db) ↔ ∀ c, ¬Relation.TransGen db.Needs c c := by
  constructor
  · intro h c hcycle
    obtain ⟨n, hn⟩ := h (.superclassOf c)
    exact SymbolDb.not_isSome_of_cycle hcycle n hn
  · exact fun h => SymbolDb.terminates_of_superclassOf (SymbolDb.superclassOf_total h)

/-- The symbol table of a class whose base is its own state, under the state's class name:
`statemachine class Foo extends FooStateBar {} state Bar in Foo extends Nope {}`. -/
def stateBasedClassDocument : ParsedDocument where
  source := "statemachine class Foo extends FooStateBar {} state Bar in Foo extends Nope {}"
  symbols := [
    { id := ⟨0⟩, name := "Foo", kind := .class, byteRange := ⟨0, 45⟩,
      selectionByteRange := ⟨19, 22⟩, baseClass := some "FooStateBar",
      specifiers := Specifiers.empty.insert .statemachine },
    { id := ⟨1⟩, name := "Bar", kind := .state, byteRange := ⟨46, 78⟩,
      selectionByteRange := ⟨52, 55⟩, baseClass := some "Nope", ownerClass := some "Foo",
      stateClass := some "FooStateBar" }]
  identLeaves := [("Foo", ⟨19, 22⟩), ("FooStateBar", ⟨31, 42⟩), ("Bar", ⟨52, 55⟩),
    ("Foo", ⟨59, 62⟩), ("Nope", ⟨71, 75⟩)]

/-- On that document the superclass of the state is searched for in order to find itself. -/
theorem superclassOf_ownState_diverges :
    ¬∀ (db : SymbolDb) (q : ChainLookup), q.Terminates db := by
  intro h
  let H : Hasher := ⟨fun _ => 0, fun _ _ => 0, fun _ _ => 0⟩
  let db : SymbolDb :=
    { workspace := runIndex H [.update "file:///foo.ws" stateBasedClassDocument], base := {} }
  have hsearched : db.searchedState "FooStateBar" = some ("Foo", "Nope") := by decide
  have hfoo : db.stateInOwner "Foo" "Nope" = none := by decide
  have hstate : db.stateInOwner "FooStateBar" "Nope" = none := by decide
  have hdirect : db.Derivable (.superclass "Foo" (db.directSuperclass "Foo")) :=
    .direct (by decide)
  have hsuper : db.directSuperclass "Foo" = some "FooStateBar" := by decide
  rw [hsuper] at hdirect
  have hneeds : db.Needs "FooStateBar" "FooStateBar" :=
    ⟨"Foo", "Nope", 31, hsearched, .parent .start hfoo hdirect, hstate⟩
  obtain ⟨n, hn⟩ := h db (.superclassOf "FooStateBar")
  exact SymbolDb.not_isSome_of_cycle (.single hneeds) n hn

end WitcherScriptLanguage
