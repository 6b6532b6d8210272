import WitcherScriptLanguage.Resolve.ShadowedBase
import WitcherScriptLanguage.Types.Annotation

/-!
# The symbol database

Lookups over the workspace, the shadowed base and the builtins (`resolve/symbol_db/lookup.rs`).
A lookup records the keys it depends on. `superclass_of` and the walks over superclasses call
each other, so they take the depth of nested `superclass_of` calls that the stack allows; a
lookup that needs more has no result.
-/

namespace WitcherScriptLanguage

open Library

/-- A computation with the keys it records, or nothing when the call depth runs out. -/
def Observed (α : Type) : Type := Option (α × List ObservedKey)

namespace Observed

variable {α β : Type}

def pure (a : α) : Observed α := some (a, [])

def bind (x : Observed α) (f : α → Observed β) : Observed β :=
  Option.bind x fun r => Option.map (fun r' => (r'.1, r.2 ++ r'.2)) (f r.1)

instance : Monad Observed where
  pure := Observed.pure
  bind := Observed.bind

def record (k : ObservedKey) : Observed Unit := some ((), [k])

def outOfDepth : Observed α := none

/-- The result without the recorded keys. -/
def value (x : Observed α) : Option α := Option.map Prod.fst x

def keys (x : Observed α) : List ObservedKey := (Option.map Prod.snd x).getD []

@[simp] lemma value_pure (a : α) : value (Pure.pure a : Observed α) = some a := rfl

@[simp] lemma value_record (k : ObservedKey) : value (record k) = some () := rfl

@[simp] lemma value_outOfDepth : value (outOfDepth : Observed α) = none := rfl

@[simp] lemma value_bind (x : Observed α) (f : α → Observed β) :
    value (x >>= f) = (value x).bind (fun a => value (f a)) := by
  cases x with
  | none => rfl
  | some r =>
    change value (Option.map _ (f r.1)) = value (f r.1)
    cases f r.1 <;> rfl

end Observed

structure SymbolDb where
  workspace : WorkspaceIndex
  /-- The full base index, suppressed documents included. -/
  base : WorkspaceIndex
  builtins : Option WorkspaceIndex := none
  suppressedBaseUris : Option (Finset String) := none

def objectBaseClass : String := "CObject"

def stateBaseClass : String := "CScriptableState"

def objectRootChain : List String := ["CObject", "IScriptable", "ISerializable"]

def maxInheritanceDepth : Nat := 32

namespace SymbolDb

variable (db : SymbolDb)

def shadowedBase : ShadowedBase := ⟨db.base, db.suppressedBaseUris⟩

/-- The layers in order of precedence: workspace, base, builtins. -/
def layered {α : Type} (workspace : WorkspaceIndex → Option α) (base : ShadowedBase → Option α)
    (builtins : WorkspaceIndex → Option α) : Option α :=
  (workspace db.workspace).or ((base db.shadowedBase).or (db.builtins.bind builtins))

/-- The declaration that `find_top_level` returns. -/
def topLevel (name : String) : Option Definition :=
  db.layered (·.findTopLevel name) (·.findTopLevel name) (·.findTopLevel name)

/-- The state of one owner, without its ancestors. -/
def stateInOwner (owner name : String) : Option Definition :=
  db.layered (·.findStateInOwner owner name) (·.findStateInOwner owner name)
    (·.findStateInOwner owner name)

/-- The base that a class names itself. -/
def declaredSuperclass (className : String) : Option String :=
  db.layered (·.superclassOf className) (·.superclassOf className) (·.superclassOf className)

def findTopLevel (name : String) : Observed (Option Definition) := do
  Observed.record (.topLevel name)
  return db.topLevel name

def findTopLevelFiltered (name : String) (ctx : NameContext) : Observed (Option Definition) := do
  Observed.record (.topLevel name)
  return db.layered (·.findTopLevelFiltered name ctx) (·.findTopLevelFiltered name ctx)
    (·.findTopLevelFiltered name ctx)

def findEnumMember (name : String) : Observed (Option Definition) := do
  Observed.record (.enumMember name)
  return db.layered (·.findEnumMember name) (·.findEnumMember name) (·.findEnumMember name)

def fullParametersOf (uri : String) (callableId : SymbolId) : List Symbol :=
  let params := db.workspace.fullParametersOf uri callableId
  if !params.isEmpty then params
  else
    let params := db.shadowedBase.fullParametersOf uri callableId
    if !params.isEmpty then params
    else (db.builtins.map (fun b => b.fullParametersOf uri callableId)).getD []

section Chain

variable {T σ : Type} (superclass : String → Observed (Option String))

/-- The loop of `try_in_chain` with `remaining` iterations left; `acc` is the state that the
visitor mutates. -/
def walkChain (visit : String → Nat → σ → Observed (Option T × σ)) :
    Nat → Nat → String → σ → Observed (Option T × σ)
  | 0, _, _, acc => return (none, acc)
  | remaining + 1, depth, current, acc => do
    Observed.record (.topLevel current)
    let (found, acc) ← visit current depth acc
    match found with
    | some t => return (some t, acc)
    | none =>
      match ← superclass current with
      | none => return (none, acc)
      | some parent => walkChain visit remaining (depth + 1) parent acc

def tryInChain (visit : String → Nat → Observed (Option T)) (start : String) :
    Observed (Option T) := do
  let (found, _) ← walkChain superclass (fun current depth (_ : Unit) => do
    return (← visit current depth, ())) (maxInheritanceDepth + 1) 0 start ()
  return found

/-- The same loop with the state's class name recorded at every owner. -/
def findStateInOwnerChainWith (startOwner name : String) : Observed (Option Definition) :=
  tryInChain superclass (fun current _ => do
    Observed.record (.topLevel (stateClassName current name))
    return db.stateInOwner current name) startOwner

def stateSuperclassWith (state : Symbol) : Observed String := do
  match state.ownerClass, state.baseClass with
  | some owner, some base =>
    let found ← db.findStateInOwnerChainWith superclass owner base
    return (found.map (·.symbol.typeName)).getD stateBaseClass
  | _, _ => return stateBaseClass

def implicitSuperclassWith (className : String) : Observed (Option String) := do
  match ← db.findTopLevel className with
  | none => return none
  | some d =>
    match d.symbol.kind with
    | .state => return some (← db.stateSuperclassWith superclass d.symbol)
    | .class => return if objectRootChain.contains className then none else some objectBaseClass
    | _ => return none

end Chain

def superclassOf : Nat → String → Observed (Option String)
  | 0, _ => Observed.outOfDepth
  | callDepth + 1, className => do
    Observed.record (.topLevel className)
    match db.declaredSuperclass className with
    | some base => return some base
    | none => db.implicitSuperclassWith (superclassOf callDepth) className

variable (callDepth : Nat)

def findStateInOwnerChain (startOwner name : String) : Observed (Option Definition) :=
  db.findStateInOwnerChainWith (db.superclassOf callDepth) startOwner name

def inheritsFrom (className ancestor : String) : Observed Bool := do
  let found ← tryInChain (db.superclassOf callDepth)
    (fun current _ => return if current = ancestor then some () else none) className
  return found.isSome

/-- The member that one class declares or has injected, whatever its access. -/
def memberAt (container name : String) : Option Definition :=
  db.layered (·.directMemberOf container name .private) (·.directMemberOf container name .private)
    (·.directMemberOf container name .private)

def classBodyMemberAt (container name : String) : Option Definition :=
  db.layered (·.classBodyMemberOf container name) (·.classBodyMemberOf container name)
    (·.classBodyMemberOf container name)

/-- A member of a generic instance has the arguments in its type. -/
def instantiate (container : String) (d : Definition) : Definition :=
  match parseGenericInstance container with
  | some generic => substituteInDefinition d container generic
  | none => d

def findMember (container name : String) (minAccess : AccessLevel) :
    Observed (Option Definition) := do
  let found ← tryInChain (db.superclassOf callDepth) (fun current _ => do
    Observed.record (.member current name)
    return db.memberAt current name) (lookupCtor container)
  return (found.filter (fun d => minAccess ≤ d.symbol.access)).map (instantiate container)

def findClassBodyMember (container name : String) : Observed (Option Definition) := do
  let found ← tryInChain (db.superclassOf callDepth)
    (fun current _ => return db.classBodyMemberAt current name) (lookupCtor container)
  return found.map (instantiate container)

def findNativeMember (container name : String) : Observed (Option Definition) := do
  match db.builtins with
  | none => return none
  | some builtins =>
    tryInChain (db.superclassOf callDepth)
      (fun current _ => return builtins.directNativeMemberOf current name) container

/-- All layers' members of one class, workspace first. -/
def membersAt (container : String) : List Definition :=
  db.workspace.directMembersOf container .private ++
    db.shadowedBase.directMembersOf container .private ++
    (db.builtins.map (fun b => b.directMembersOf container .private)).getD []

/-- `seen.entry(name).or_insert((tier, def))` for every member of one class. -/
def seeMembers (tier : Nat) (defs : List Definition)
    (seen : AList (fun _ : String => Nat × Definition)) :
    AList (fun _ : String => Nat × Definition) :=
  defs.foldl (fun seen d =>
    if d.symbol.name ∈ seen then seen else seen.insert d.symbol.name (tier, d)) seen

/-- Members by name; the most derived declaration wins, tier 0 is the class itself. -/
def membersOfTiered (container : String) (minAccess : AccessLevel) :
    Observed (List (Nat × Definition)) := do
  let (_, seen) ← walkChain (T := Unit) (db.superclassOf callDepth) (fun current depth seen =>
    return (none, seeMembers (if depth ≠ 0 then 1 else 0) (db.membersAt current) seen))
    (maxInheritanceDepth + 1) 0 (lookupCtor container) ∅
  return ((seen.entries.map (·.2)).filter (fun e => minAccess ≤ e.2.symbol.access)).map
    (fun e => (e.1, instantiate container e.2))

def membersOf (container : String) (minAccess : AccessLevel) : Observed (List Definition) := do
  return (← db.membersOfTiered callDepth container minAccess).map (·.2)

/-- Only the names; suppressed files count. -/
def directSubclasses (base : String) : List String :=
  db.workspace.directSubclassesOf base ++ db.base.directSubclassesOf base ++
    (db.builtins.map fun b => b.directSubclassesOf base).getD []

def directMember (container name : String) : Option Definition :=
  db.layered (·.directMemberOf container name .public) (·.directMemberOf container name .public)
    (·.directMemberOf container name .public)

end SymbolDb

end WitcherScriptLanguage
