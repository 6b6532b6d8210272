import WitcherScriptLanguage.Resolve.WorkspaceIndex

/-!
# Lookups of one index

The queries of `resolve/workspace_index/lookup.rs`. Each picks from one bucket: type and
function names take the first declaration, members, states and enum members the last one.
-/

namespace WitcherScriptLanguage

open Library

/-- The syntactic position of an identifier (`resolve/name_context.rs`). -/
inductive NameContext
  | type
  | stateExtends (ownerClass : String)
  | callable
  | value
  deriving DecidableEq, Repr

def NameContext.accepts (ctx : NameContext) (kind : SymbolKind) : Bool :=
  match ctx with
  | .type => kind.isType
  | .stateExtends _ => kind = .state
  | .callable => kind = .function || kind = .event || kind = .struct
  | .value => true

/-- An explicit class named like `OwnerStateName` wins over the state. -/
def preferNonState (defs : List Definition) : Option Definition :=
  (defs.find? (fun d => d.symbol.kind ≠ .state)).or defs.head?

namespace WorkspaceIndex

variable (ix : WorkspaceIndex)

def allTopLevelWithName (name : String) : List Definition := ix.topLevelByName.bucket name

def findTopLevel (name : String) : Option Definition :=
  preferNonState (ix.topLevelByName.bucket name)

def findTopLevelFiltered (name : String) (ctx : NameContext) : Option Definition :=
  (ix.topLevelByName.bucket name).find? (fun d => ctx.accepts d.symbol.kind)

def findStateInOwner (owner name : String) : Option Definition :=
  (ix.statesByOwner.bucket owner name).getLast?

def findEnumMember (name : String) : Option Definition :=
  (ix.enumMemberByName.bucket name).getLast?

def directMemberOf (container name : String) (minAccess : AccessLevel) : Option Definition :=
  ((ix.memberByType.bucket container name).getLast?.or
    (ix.annotatedMembersByType.bucket container name).head?).filter
      (fun d => minAccess ≤ d.symbol.access)

/-- Class-body declarations only, never annotation overlays. -/
def classBodyMemberOf (container name : String) : Option Definition :=
  (ix.memberByType.bucket container name).getLast?

def classBodyMembersOf (container : String) : List Definition :=
  (ix.memberByType.inner container).entries.filterMap (fun s => s.2.getLast?)

def directMembersOf (container : String) (minAccess : AccessLevel) : List Definition :=
  ((ix.memberByType.inner container).entries.filterMap (fun s => s.2.getLast?) ++
    (ix.annotatedMembersByType.inner container).entries.flatMap (fun s => s.2)).filter
      (fun d => minAccess ≤ d.symbol.access)

def annotatedMembers (container name : String) : List Definition :=
  ix.annotatedMembersByType.bucket container name

def directNativeMemberOf (container name : String) : Option Definition :=
  (ix.nativeMemberByType.bucket container name).getLast?

def superclassOf (className : String) : Option String :=
  (ix.superclassByName.bucket className).getLast?.map Prod.snd

def directSubclassesOf (base : String) : List String :=
  (ix.subclassesByName.bucket base).map Prod.snd

def fullParametersOf (uri : String) (callableId : SymbolId) : List Symbol :=
  match ix.documents.lookup uri with
  | none => []
  | some symbols =>
    symbols.filter (fun s => s.kind = .parameter && s.container == some callableId)

end WorkspaceIndex

end WitcherScriptLanguage
