import WitcherScriptLanguage.Resolve.Inference
import WitcherScriptLanguage.Resolve.References

/-!
# The definition behind an identifier

`resolve_definition` (`resolve/definition.rs`). An identifier means what it wraps, what it declares,
the member of its receiver, or what its name means at its place.
-/

namespace WitcherScriptLanguage

inductive SelfKeyword
  | thisExpr | superExpr | parentExpr | virtualParentExpr
  deriving DecidableEq, Repr

/-- Where an identifier stands in its tree. The context is `none` at declarations and at the
members that a `default` or a `hint` names. -/
inductive IdentUse
  | member (receiver : Expr)
  | receiver (context : Option NameContext)
  | plain (context : Option NameContext)
  deriving Repr

/-- What name resolution reads of the tree of a document. -/
structure TreeView where
  selfKeywordAt : Nat → Option SelfKeyword
  useOf : ByteRange → IdentUse

def wrappedMethodMacro : String := "wrappedMethod"

/-- `this.wrappedMethod()` is an ordinary member call, not a macro. -/
def isWrappedMethodMacro (name : String) : IdentUse → Bool
  | .plain _ => name = wrappedMethodMacro
  | .member _ | .receiver _ => false

def wrapMethodTargetClass (symbol : Symbol) : Option String :=
  (symbol.annotations.find? fun a => a.name = "wrapMethod").bind (·.argument)

def resolveAtDefinitionSite (uri : String) (document : ParsedDocument) (offset : Nat)
    (name : String) : Option Definition :=
  (document.symbols.find? fun s => s.name = name && s.selectionByteRange.start ≤ offset &&
    offset < s.selectionByteRange.stop).map (⟨uri, ·⟩)

namespace SymbolDb

variable (db : SymbolDb) (callDepth : Nat) (globals : List ScriptGlobal)
  (trees : ParsedDocument → TreeView)

/-- `resolve_member_access` -/
def resolveMemberOf (uri : String) (document : ParsedDocument) (receiver : Expr) (name : String)
    (start : Nat) : Observed (Option Definition) := do
  let valueType ← match receiver.receiverKind with
    | .ident | .funcCallExpr | .memberAccessExpr | .arrayExpr =>
      db.inferType callDepth globals uri document receiver start
    | _ => pure .unknown
  let access ← db.accessAt callDepth document receiver.receiverKind valueType name start
  db.resolveMemberAccess callDepth uri document.symbols access

def resolveSelfKeyword (uri : String) (document : ParsedDocument) (offset : Nat) :
    Observed (Option Definition) := do
  match (trees document).selfKeywordAt offset with
  | none => return none
  | some keyword =>
    match ← db.enclosingTypeContext callDepth document offset with
    | none => return none
    | some context =>
      match match keyword with
        | .thisExpr => some context.name
        | .superExpr => context.baseClass
        | .parentExpr | .virtualParentExpr => context.ownerClass with
      | none => return none
      | some name =>
        Observed.orElse (return resolveDocumentTopLevel uri document name) (db.findTopLevel name)

/-- `wrappedMethod()` inside a `@wrapMethod(Class)` body means the method that it wraps. -/
def resolveWrappedMethod (document : ParsedDocument) (name : String) (use : IdentUse)
    (offset : Nat) : Observed (Option Definition) :=
  if !isWrappedMethodMacro name use then return none
  else match document.enclosingSymbolAt offset [.function] with
    | none => return none
    | some callable =>
      match wrapMethodTargetClass callable with
      | none => return none
      | some target => db.findClassBodyMember callDepth target callable.name

def resolveForIdentNoSiteFallback (uri : String) (document : ParsedDocument)
    (ident : String × ByteRange) (offset : Nat) : Observed (Option Definition) :=
  match (trees document).useOf ident.2 with
  | .member receiver => db.resolveMemberOf callDepth globals uri document receiver ident.1
      ident.2.start
  | .receiver (some context) | .plain (some context) =>
    db.resolveNameInContext callDepth globals uri document offset ident.1 context
  | .receiver none | .plain none => db.resolveName callDepth globals uri document offset ident.1

def resolveForIdent (uri : String) (document : ParsedDocument) (ident : String × ByteRange)
    (offset : Nat) : Observed (Option Definition) :=
  Observed.orElse
    (db.resolveWrappedMethod callDepth document ident.1 ((trees document).useOf ident.2) offset) <|
  Observed.orElse (return resolveAtDefinitionSite uri document offset ident.1)
    (db.resolveForIdentNoSiteFallback callDepth globals trees uri document ident offset)

def resolveDefinitionAtByte (uri : String) (document : ParsedDocument) (offset : Nat) :
    Observed (Option Definition) :=
  Observed.orElse (db.resolveSelfKeyword callDepth trees uri document offset) <|
    match document.identifierAt offset with
    | none => return none
    | some ident => db.resolveForIdent callDepth globals trees uri document ident offset

/-- The resolution that a search in this database uses. -/
def nameResolution : NameResolution where
  resolveDefinition uri document offset :=
    (db.resolveDefinitionAtByte callDepth globals trees uri document offset).value.join
  resolveLocalOrParameter uri document offset name :=
    resolveLocalOrParameter uri document offset name
  resolveName uri document offset name :=
    (db.resolveName callDepth globals uri document offset name).value.join

end SymbolDb

end WitcherScriptLanguage
