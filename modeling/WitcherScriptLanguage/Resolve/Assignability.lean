import WitcherScriptLanguage.Library.BoundedReach
import WitcherScriptLanguage.Resolve.Termination

/-!
# Assignability

`inherits_from` (`resolve/symbol_db/lookup.rs`) against the graph that `superclass_of` spans, and
the implicit casts of `resolve/assignability.rs` on top of it. An array is assignable to another
when its elements count as identical, and a derived class counts as identical to its base.
-/

namespace WitcherScriptLanguage

open Library

def SymbolKind.isClassLike (k : SymbolKind) : Bool := k = .class || k = .state

inductive CastKind
  | primitive
  | enumInt
  | nullToRef
  | toString
  | objectToBool
  deriving DecidableEq, Repr

inductive Assignability
  | identical
  | implicitCast (kind : CastKind)
  | incompatible
  deriving DecidableEq, Repr

def implicitPrimitiveCasts : List (Primitive × Primitive) :=
  [(.byte, .bool), (.int, .bool), (.float, .bool), (.string, .bool), (.int, .byte), (.byte, .int),
    (.byte, .float), (.int, .float), (.bool, .string), (.byte, .string), (.int, .string),
    (.float, .string), (.name, .string)]

def primitiveAssignability (source target : Primitive) : Assignability :=
  if implicitPrimitiveCasts.contains (source, target) then .implicitCast .primitive
  else .incompatible

namespace SymbolDb

variable (db : SymbolDb) (callDepth : Nat)

def isEnum (name : String) : Observed Bool := do
  return (← db.findTopLevel name).any fun d => d.symbol.kind = .enum

def isObjectType (name : String) : Observed Bool := do
  return (← db.findTopLevel name).any fun d => d.symbol.kind.isClassLike

def isStringifiable (name : String) : Observed Bool := do
  return (← db.findTopLevel name).any fun d => d.symbol.kind = .enum || d.symbol.kind.isClassLike

def namedAssignability (source target : String) : Observed Assignability := do
  if ← db.inheritsFrom callDepth source target then return .identical
  else return .incompatible

/-- An arm with a guard falls through to an incompatible pair. -/
def castIf (guard : Observed Bool) (kind : CastKind) : Observed Assignability := do
  if ← guard then return .implicitCast kind
  else return .incompatible

def assignability (source target : ScriptType) : Observed Assignability :=
  if source = target then return .identical
  else match source, target with
  | .unknown, _ | .void, _ | _, .unknown | _, .void => return .incompatible
  | .null, .named t => castIf (db.isObjectType t) .nullToRef
  | .null, _ => return .incompatible
  | .named f, .named t => db.namedAssignability callDepth f t
  | .array fe, .array te => do
    match ← assignability fe te with
    | .identical => return .identical
    | .implicitCast _ | .incompatible => return .incompatible
  | .array _, _ | _, .array _ => return .incompatible
  | .map .., _ | _, .map .. => return .incompatible
  | .named n, .primitive .int | .primitive .int, .named n => castIf (db.isEnum n) .enumInt
  | .named n, .primitive .string => castIf (db.isStringifiable n) .toString
  | .named n, .primitive .bool => castIf (db.isObjectType n) .objectToBool
  | .primitive f, .primitive t => return primitiveAssignability f t
  | _, _ => return .incompatible

/-- `superclass_of` returns this class. -/
def Superclass (className parent : String) : Prop :=
  ∃ n, (db.superclassOf n className).value = some (some parent)

/-- `inherits_from` returns `true`. -/
def InheritsFrom (className ancestor : String) : Prop :=
  ∃ n, (db.inheritsFrom n className ancestor).value = some true

/-- `assignability` returns something else than `Incompatible`. -/
def Assignable (source target : ScriptType) : Prop :=
  ∃ n r, (db.assignability n source target).value = some r ∧ r ≠ .incompatible

/-- `assignability` returns `Identical`. -/
def Identical (source target : ScriptType) : Prop :=
  ∃ n, (db.assignability n source target).value = some .identical

section Ancestors

variable {db}

/-- The walk that looks for an ancestor. -/
def ancestorWalk (n : Nat) (ancestor : String) (remaining depth : Nat) (current : String) :
    Observed (Option Unit × Unit) :=
  walkChain (db.superclassOf n) (fun current _ (_ : Unit) => do
    return (← (return if current = ancestor then some () else none : Observed (Option Unit)), ()))
    remaining depth current ()

lemma value_inheritsFrom (n : Nat) (className ancestor : String) :
    (db.inheritsFrom n className ancestor).value =
      (db.ancestorWalk n ancestor (maxInheritanceDepth + 1) 0 className).value.map
        fun r => r.1.isSome := by
  rw [inheritsFrom, Observed.value_bind, value_tryInChain]
  rw [ancestorWalk]
  cases (walkChain (db.superclassOf n) _ (maxInheritanceDepth + 1) 0 className ()).value <;> rfl

lemma value_ancestorWalk_succ (n remaining depth : Nat) (current ancestor : String) :
    (db.ancestorWalk n ancestor (remaining + 1) depth current).value =
      if current = ancestor then some (some (), ())
      else (db.superclassOf n current).value.bind fun s =>
        match s with
        | none => some (none, ())
        | some p => (db.ancestorWalk n ancestor remaining (depth + 1) p).value := by
  rw [ancestorWalk, value_walkChain_succ]
  by_cases h : current = ancestor
  · simp [h]
  · simp only [h, if_false]
    rfl

/-- What the walk finds is reached in less steps than the walk may take. -/
lemma reachIn_of_ancestorWalk {n : Nat} {ancestor : String} (remaining : Nat) :
    ∀ depth current,
      (db.ancestorWalk n ancestor remaining depth current).value = some (some (), ()) →
      ∃ k < remaining, ReachIn db.Superclass k current ancestor := by
  induction remaining with
  | zero =>
    intro depth current h
    cases h
  | succ remaining ih =>
    intro depth current h
    rw [value_ancestorWalk_succ] at h
    split_ifs at h with heq
    · exact ⟨0, Nat.succ_pos _, heq ▸ .refl current⟩
    · obtain ⟨s, hs, h⟩ := Option.bind_eq_some_iff.mp h
      cases s with
      | none => cases h
      | some p =>
        obtain ⟨k, hk, hreach⟩ := ih (depth + 1) p h
        exact ⟨k + 1, Nat.succ_lt_succ hk, .step ⟨n, hs⟩ hreach⟩

/-- What is reached in less steps is found, at some call depth. -/
lemma ancestorWalk_of_reachIn {k : Nat} {current ancestor : String}
    (h : ReachIn db.Superclass k current ancestor) : ∀ depth remaining, k < remaining →
      ∃ n, (db.ancestorWalk n ancestor remaining depth current).value = some (some (), ()) := by
  induction h with
  | refl a =>
    intro depth remaining hk
    obtain ⟨m, rfl⟩ := Nat.exists_eq_succ_of_ne_zero (Nat.ne_of_gt hk)
    exact ⟨0, by rw [value_ancestorWalk_succ, if_pos rfl]⟩
  | @step k c p a hp _ ih =>
    intro depth remaining hk
    obtain ⟨m, rfl⟩ := Nat.exists_eq_succ_of_ne_zero (Nat.ne_of_gt (Nat.zero_lt_of_lt hk))
    by_cases heq : c = a
    · exact ⟨0, by rw [value_ancestorWalk_succ, if_pos heq]⟩
    · obtain ⟨n₁, h₁⟩ := hp
      obtain ⟨n₂, h₂⟩ := ih (depth + 1) m (Nat.lt_of_succ_lt_succ hk)
      refine ⟨max n₁ n₂, ?_⟩
      rw [value_ancestorWalk_succ, if_neg heq,
        superclassOf_extends (le_max_left n₁ n₂) c _ h₁, Option.bind_some]
      exact walkChain_extends (superclassOf_extends (le_max_right n₁ n₂)) _ m _ _ _ _ h₂

/-- `inherits_from` returns `true` exactly for the classes reached within the depth bound. -/
lemma inheritsFrom_iff (className ancestor : String) :
    db.InheritsFrom className ancestor ↔
      ReachWithin db.Superclass maxInheritanceDepth className ancestor := by
  constructor
  · rintro ⟨n, h⟩
    rw [value_inheritsFrom] at h
    obtain ⟨⟨found, _⟩, hfound, hsome⟩ := Option.map_eq_some_iff.mp h
    obtain ⟨⟨⟩, rfl⟩ := Option.isSome_iff_exists.mp hsome
    obtain ⟨k, hk, hreach⟩ := reachIn_of_ancestorWalk _ _ _ hfound
    exact ⟨k, Nat.le_of_lt_succ hk, hreach⟩
  · rintro ⟨k, hk, hreach⟩
    obtain ⟨n, hn⟩ := ancestorWalk_of_reachIn hreach 0 _ (Nat.lt_succ_of_le hk)
    exact ⟨n, by rw [value_inheritsFrom, hn]; rfl⟩

end Ancestors

section Named

variable {db}

lemma value_assignability_self (n : Nat) (t : ScriptType) :
    (db.assignability n t t).value = some .identical := by
  rw [assignability.eq_def, if_pos rfl]
  rfl

lemma value_assignability_named {f t : String} (h : f ≠ t) (n : Nat) :
    (db.assignability n (.named f) (.named t)).value =
      (db.inheritsFrom n f t).value.map fun inherits =>
        if inherits then .identical else .incompatible := by
  rw [assignability.eq_def, if_neg (by simpa using h)]
  dsimp only
  rw [namedAssignability, Observed.value_bind]
  cases (db.inheritsFrom n f t).value with
  | none => rfl
  | some inherits => cases inherits <;> rfl

lemma assignable_named_iff (f t : String) :
    db.Assignable (.named f) (.named t) ↔
      ReachWithin db.Superclass maxInheritanceDepth f t := by
  by_cases heq : f = t
  · subst heq
    exact iff_of_true ⟨0, _, value_assignability_self 0 _, nofun⟩ (.refl _ f)
  · rw [← inheritsFrom_iff]
    constructor
    · rintro ⟨n, r, hr, hne⟩
      rw [value_assignability_named heq] at hr
      obtain ⟨inherits, hinherits, rfl⟩ := Option.map_eq_some_iff.mp hr
      cases inherits with
      | false => exact absurd rfl hne
      | true => exact ⟨n, hinherits⟩
    · rintro ⟨n, hn⟩
      refine ⟨n, .identical, ?_, nofun⟩
      rw [value_assignability_named heq, hn]
      rfl

end Named

/-- Two different names under the same number of arrays, the second an ancestor of the first. -/
inductive Upcast (db : SymbolDb) : ScriptType → ScriptType → Prop
  | named {f t : String} : f ≠ t → ReachWithin db.Superclass maxInheritanceDepth f t →
      Upcast db (.named f) (.named t)
  | array {a b : ScriptType} : Upcast db a b → Upcast db (.array a) (.array b)

section Containers

variable {db}

lemma Upcast.ne {a b : ScriptType} (h : db.Upcast a b) : a ≠ b := by
  induction h with
  | named hne _ => simpa using hne
  | array _ ih => simpa using ih

lemma value_castIf_ne (guard : Observed Bool) (kind : CastKind) :
    (castIf guard kind).value ≠ some .identical := by
  rw [castIf, Observed.value_bind]
  cases guard.value with
  | none => exact nofun
  | some holds => cases holds <;> exact nofun

lemma value_assignability_array {a b : ScriptType} (h : a ≠ b) (n : Nat) :
    (db.assignability n (.array a) (.array b)).value =
      (db.assignability n a b).value.map fun r =>
        if r = .identical then .identical else .incompatible := by
  rw [assignability.eq_def db n (.array a), if_neg (by simpa using h)]
  dsimp only
  rw [Observed.value_bind]
  cases (db.assignability n a b).value with
  | none => rfl
  | some r => cases r <;> rfl

lemma value_assignability_map {k v b : ScriptType} (h : .map k v ≠ b) (n : Nat) :
    (db.assignability n (.map k v) b).value = some .incompatible := by
  rw [assignability.eq_def, if_neg h]
  cases b <;> rfl

lemma value_assignability_to_map {a k v : ScriptType} (h : a ≠ .map k v) (n : Nat) :
    (db.assignability n a (.map k v)).value = some .incompatible := by
  rw [assignability.eq_def, if_neg h]
  cases a <;> rfl

lemma primitiveAssignability_ne (f t : Primitive) : primitiveAssignability f t ≠ .identical := by
  unfold primitiveAssignability
  split_ifs <;> exact nofun

/-- Only names and arrays are identical without being equal. -/
lemma not_identical_of_ne {a b : ScriptType} (h : a ≠ b)
    (hnamed : ∀ f t, ¬ (a = .named f ∧ b = .named t))
    (harray : ∀ fe te, ¬ (a = .array fe ∧ b = .array te)) : ¬ db.Identical a b := by
  rintro ⟨n, hn⟩
  rw [assignability.eq_def, if_neg h] at hn
  split at hn
  all_goals first
    | exact hnamed _ _ ⟨rfl, rfl⟩
    | exact harray _ _ ⟨rfl, rfl⟩
    | exact value_castIf_ne _ _ hn
    | exact primitiveAssignability_ne _ _ (Option.some.inj hn)
    | cases hn

lemma identical_named_iff {f t : String} (h : f ≠ t) :
    db.Identical (.named f) (.named t) ↔ db.Upcast (.named f) (.named t) := by
  constructor
  · rintro ⟨n, hn⟩
    exact .named h ((assignable_named_iff f t).mp ⟨n, _, hn, nofun⟩)
  · rintro (⟨-, hreach⟩ | _)
    obtain ⟨n, hn⟩ := (inheritsFrom_iff f t).mpr hreach
    refine ⟨n, ?_⟩
    rw [value_assignability_named h, hn]
    rfl

lemma identical_array_iff {a b : ScriptType} (h : a ≠ b) :
    db.Identical (.array a) (.array b) ↔ db.Identical a b := by
  constructor
  · rintro ⟨n, hn⟩
    rw [value_assignability_array h] at hn
    obtain ⟨r, hr, heq⟩ := Option.map_eq_some_iff.mp hn
    split_ifs at heq with hidentical
    exact ⟨n, hidentical ▸ hr⟩
  · rintro ⟨n, hn⟩
    exact ⟨n, by rw [value_assignability_array h, hn]; rfl⟩

/-- The code identifies two different types where one is an upcast of the other. -/
lemma identical_iff (a b : ScriptType) : db.Identical a b ↔ a = b ∨ db.Upcast a b := by
  by_cases heq : a = b
  · subst heq
    exact iff_of_true ⟨0, value_assignability_self 0 a⟩ (.inl rfl)
  simp only [heq, false_or]
  induction a generalizing b with
  | named f =>
    cases b with
    | named t => exact identical_named_iff (by simpa using heq)
    | _ => exact iff_of_false (not_identical_of_ne heq (by simp) (by simp)) (by rintro ⟨⟩)
  | array fe ih =>
    cases b with
    | array te =>
      have hne : fe ≠ te := by simpa using heq
      rw [identical_array_iff hne, ih te hne]
      constructor
      · exact .array
      · rintro (_ | h)
        exact h
    | _ => exact iff_of_false (not_identical_of_ne heq (by simp) (by simp)) (by rintro ⟨⟩)
  | _ => exact iff_of_false (not_identical_of_ne heq (by simp) (by simp)) (by rintro ⟨⟩)

/-- An array is assignable to an array just when their elements are identical. -/
lemma assignable_array_iff (a b : ScriptType) :
    db.Assignable (.array a) (.array b) ↔ db.Identical a b := by
  by_cases heq : a = b
  · subst heq
    exact iff_of_true ⟨0, _, value_assignability_self 0 _, nofun⟩ ⟨0, value_assignability_self 0 a⟩
  · constructor
    · rintro ⟨n, r, hr, hne⟩
      rw [value_assignability_array heq] at hr
      obtain ⟨e, he, rfl⟩ := Option.map_eq_some_iff.mp hr
      by_cases hidentical : e = .identical
      · exact ⟨n, hidentical ▸ he⟩
      · exact absurd (if_neg hidentical) hne
    · intro h
      obtain ⟨n, hn⟩ := (identical_array_iff heq).mpr h
      exact ⟨n, _, hn, nofun⟩

lemma eq_of_assignable_map {k v b : ScriptType} (h : db.Assignable (.map k v) b) :
    .map k v = b := by
  obtain ⟨n, r, hr, hne⟩ := h
  by_contra heq
  rw [value_assignability_map heq] at hr
  exact hne (Option.some.inj hr).symm

lemma eq_of_assignable_to_map {a k v : ScriptType} (h : db.Assignable a (.map k v)) :
    a = .map k v := by
  obtain ⟨n, r, hr, hne⟩ := h
  by_contra heq
  rw [value_assignability_to_map heq] at hr
  exact hne (Option.some.inj hr).symm

end Containers

end SymbolDb

/-- `inherits_from` is reachability within the bound; it makes names assignable reflexively, and
transitively where the hierarchy stays within the bound; maps are assignable to themselves only;
and arrays are so except where their elements are an upcast. -/
theorem assignability_iff_classGraph (db : SymbolDb) :
    (∀ a b, db.InheritsFrom a b ↔ ReachWithin db.Superclass maxInheritanceDepth a b) ∧
    (∀ a n, (db.assignability n (.named a) (.named a)).value = some .identical) ∧
    (∀ a b c, Bounded db.Superclass maxInheritanceDepth a →
      db.Assignable (.named a) (.named b) → db.Assignable (.named b) (.named c) →
      db.Assignable (.named a) (.named c)) ∧
    (∀ k v b, (db.Assignable (.map k v) b → .map k v = b) ∧
      (db.Assignable b (.map k v) → b = .map k v)) ∧
    ∀ a b, (db.Assignable (.array a) (.array b) → a = b) ↔ ¬ db.Upcast a b := by
  refine ⟨SymbolDb.inheritsFrom_iff, fun a n => SymbolDb.value_assignability_self n _,
    fun a b c hbounded hab hbc => ?_,
    fun k v b => ⟨SymbolDb.eq_of_assignable_map, SymbolDb.eq_of_assignable_to_map⟩,
    fun a b => ?_⟩
  · rw [SymbolDb.assignable_named_iff] at hab hbc ⊢
    exact hbounded.trans hab hbc
  · rw [SymbolDb.assignable_array_iff, SymbolDb.identical_iff]
    constructor
    · intro h hup
      exact hup.ne (h (.inr hup))
    · rintro h (heq | hup)
      · exact heq
      · exact absurd hup h

/-- The symbol table of `class Base {} class Derived extends Base {}`. -/
def derivedClassDocument : ParsedDocument where
  source := "class Base {} class Derived extends Base {}"
  symbols := [
    { id := ⟨0⟩, name := "Base", kind := .class, byteRange := ⟨0, 13⟩,
      selectionByteRange := ⟨6, 10⟩ },
    { id := ⟨1⟩, name := "Derived", kind := .class, byteRange := ⟨14, 43⟩,
      selectionByteRange := ⟨20, 27⟩, baseClass := some "Base" }]
  identLeaves := [("Base", ⟨6, 10⟩), ("Derived", ⟨20, 27⟩), ("Base", ⟨36, 40⟩)]

/-- An array of derived objects is assignable to an array of base objects. -/
theorem not_invariant_arrayOfDerived :
    ¬ ∀ (db : SymbolDb) (a b : ScriptType), db.Assignable (.array a) (.array b) → a = b := by
  intro h
  let H : Hasher := ⟨fun _ => 0, fun _ _ => 0, fun _ _ => 0⟩
  let db : SymbolDb :=
    { workspace := runIndex H [.update "file:///a.ws" derivedClassDocument], base := {} }
  have hassignable : (db.assignability 1 (.array (.named "Derived")) (.array (.named "Base"))).value =
      some .identical := by decide +kernel
  exact absurd (h db _ _ ⟨1, _, hassignable, nofun⟩) (by decide)

end WitcherScriptLanguage
