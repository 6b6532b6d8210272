import WitcherScriptLanguage.Resolve.MemberAccess

/-!
# Names and types at a position

What an identifier means where it stands (`resolve/inference.rs`): the callable and the type
around it, the declarations of its own document, and then the database. Types of expressions are
inferred as far as a member access needs them.
-/

namespace WitcherScriptLanguage

namespace ParsedDocument

variable (document : ParsedDocument)

/-- The symbols in the order of their starts. -/
def byStartByte : List Symbol :=
  document.symbols.insertionSort fun a b => a.byteRange.start ≤ b.byteRange.start

/-- From a symbol out to its containers; a container comes before its contents in the table. -/
def climb (accept : Symbol → Bool) : Nat → Symbol → Option Symbol
  | 0, _ => none
  | fuel + 1, symbol =>
    if accept symbol then some symbol
    else match containerOf document.symbols symbol with
      | none => none
      | some container => climb accept fuel container

def enclosingSymbolAt (offset : Nat) (kinds : List SymbolKind) : Option Symbol :=
  match (document.byStartByte.filter fun s => s.byteRange.start ≤ offset).getLast? with
  | none => none
  | some symbol =>
    document.climb (fun s => offset ≤ s.byteRange.stop && kinds.contains s.kind)
      (document.symbols.length + 1) symbol

def enclosingCallable (symbol : Symbol) : Option Symbol :=
  match containerOf document.symbols symbol with
  | none => none
  | some owner =>
    document.climb (fun s => s.kind.isCallable) (document.symbols.length + 1) owner

/-- The latest declaration of the name in the callable that starts before the byte. -/
def localAtByte (function : SymbolId) (name : String) (beforeByte : Nat) : Option Symbol :=
  let locals := document.symbols.filter fun s =>
    (s.kind = .variable || s.kind = .parameter) && s.name = name &&
      (document.enclosingCallable s).map (·.id) = some function
  (locals.insertionSort fun a b =>
      a.selectionByteRange.start ≤ b.selectionByteRange.start).reverse.find?
    fun s => s.selectionByteRange.start ≤ beforeByte

def topLevelNamed (name : String) : List Symbol :=
  document.symbols.filter fun s =>
    s.container.isNone && s.annotationTargetClassSafe.isNone && s.typeName = name

def topLevelByName (name : String) : Option Symbol :=
  ((document.topLevelNamed name).find? fun s => s.kind ≠ .state).or
    (document.topLevelNamed name).head?

def topLevelByNameFiltered (name : String) (ctx : NameContext) : Option Symbol :=
  (document.topLevelNamed name).find? fun s => ctx.accepts s.kind

end ParsedDocument

def callableKinds : List SymbolKind := [.function, .method, .event]

def typeBodyKinds : List SymbolKind := [.class, .struct, .state]

def resolveLocalOrParameter (uri : String) (document : ParsedDocument) (offset : Nat)
    (name : String) : Option Definition := do
  let callable ← document.enclosingSymbolAt offset callableKinds
  let symbol ← document.localAtByte callable.id name offset
  some ⟨uri, symbol⟩

def resolveDocumentTopLevel (uri : String) (document : ParsedDocument) (name : String) :
    Option Definition :=
  (document.topLevelByName name).map (⟨uri, ·⟩)

def resolveDocumentTopLevelFiltered (uri : String) (document : ParsedDocument) (name : String)
    (ctx : NameContext) : Option Definition :=
  (document.topLevelByNameFiltered name ctx).map (⟨uri, ·⟩)

inductive BinaryOp
  | and | or | eq | neq | gt | ge | lt | le | bitOr | bitAnd | bitXor | sum | diff | mult | div
  | mod
  deriving DecidableEq, Repr

inductive UnaryOp
  | not | bitNot | neg | plus
  deriving DecidableEq, Repr

/-- An expression with what inference reads of it. -/
inductive Expr
  /-- A part that the grammar requires and the text lacks. -/
  | missing
  | ident (name : String)
  | funcCall (callee : Expr)
  /-- With the identifier behind the dot and its first byte. -/
  | memberAccess (receiver : Expr) (member : Option (String × Nat))
  | thisExpr
  | superExpr
  | parentExpr
  | virtualParentExpr
  | literal (type : Primitive)
  | literalNull
  | newExpr (className : Option String)
  | castExpr (typeName : Option String)
  | nestedExpr (inner : Expr)
  | arrayExpr (accessor : Expr)
  | binaryOp (op : Option BinaryOp) (left right : Expr)
  | unaryOp (op : Option UnaryOp) (right : Expr)
  | other
  deriving Repr

def Expr.receiverKind : Expr → ReceiverKind
  | .thisExpr => .thisExpr
  | .superExpr => .superExpr
  | .parentExpr => .parentExpr
  | .virtualParentExpr => .virtualParentExpr
  | .ident _ => .ident
  | .funcCall _ => .funcCallExpr
  | .memberAccess _ _ => .memberAccessExpr
  | .arrayExpr _ => .arrayExpr
  | _ => .other

def isNumeric : Primitive → Bool
  | .byte | .int | .int16 | .int8 | .uint16 | .uint32 | .uint64 | .float => true
  | _ => false

def numericWiden (l r : Primitive) : ScriptType :=
  if !isNumeric l || !isNumeric r then .unknown
  else if l = r then .primitive l
  else if l = .float || r = .float then .primitive .float
  else if (l = .int || l = .byte) && (r = .int || r = .byte) then .primitive .int
  else .unknown

/-- `+` on a string or a name concatenates. -/
def isConcatOperand (type : ScriptType) : Bool :=
  type = .primitive .string || type = .primitive .name

def namedOrUnknown : Option String → ScriptType
  | some annotation => fromAnnotationText annotation.toList
  | none => .unknown

/-- A global of the script environment. -/
structure ScriptGlobal where
  name : String
  typeName : String
  iniUri : String
  symbol : Symbol

/-- The first answer; the second lookup is only made without it. -/
def Observed.orElse {α : Type} (x y : Observed (Option α)) : Observed (Option α) := do
  match ← x with
  | some a => return some a
  | none => y

def definitionType (d : Definition) : Option ScriptType :=
  d.symbol.typeAnnotation.or
    (if d.symbol.kind = .enumMember then
      d.symbol.containerName.map fun name => fromAnnotationText name.toList
    else none)

namespace SymbolDb

variable (db : SymbolDb) (callDepth : Nat) (globals : List ScriptGlobal)

def findScriptGlobal (name : String) : Observed (Option Definition) := do
  match globals.find? fun g => g.name = name with
  | none => return none
  | some g =>
    match ← db.findTopLevel g.typeName with
    | some classDef => return some classDef
    | none => return some ⟨g.iniUri, g.symbol⟩

def scriptGlobalType (globals : List ScriptGlobal) (name : String) : Option ScriptType :=
  (globals.find? fun g => g.name = name).bind fun g => g.symbol.typeAnnotation

/-- The type around the byte, or the one that its function is injected into. -/
def enclosingTypeContext (document : ParsedDocument) (offset : Nat) :
    Observed (Option TypeContext) :=
  match document.enclosingSymbolAt offset typeBodyKinds with
  | some symbol => do
    let baseClass ← db.superclassOf callDepth symbol.typeName
    return some ⟨symbol.typeName, baseClass, symbol.ownerClass⟩
  | none =>
    match document.enclosingSymbolAt offset callableKinds with
    | none => return none
    | some callable =>
      if callable.container.isSome || callable.kind ≠ .function then return none
      else match callable.annotationTargetClass with
        | none => return none
        | some target => do
          let baseClass ← db.superclassOf callDepth target
          let declaration ← db.findTopLevel target
          return some ⟨target, baseClass, declaration.bind fun d => d.symbol.ownerClass⟩

def resolveCurrentTypeMember (uri : String) (document : ParsedDocument) (offset : Nat)
    (name : String) : Observed (Option Definition) := do
  match ← db.enclosingTypeContext callDepth document offset with
  | none => return none
  | some context =>
    match resolveDocumentMember uri document.symbols context.name name .private with
    | some d => return some d
    | none => db.findMember callDepth context.name name .private

def resolveNameLocalToWorkspace (uri : String) (document : ParsedDocument) (offset : Nat)
    (name : String) : Observed (Option Definition) :=
  Observed.orElse (return resolveLocalOrParameter uri document offset name) <|
  Observed.orElse (db.resolveCurrentTypeMember callDepth uri document offset name) <|
  Observed.orElse (return resolveDocumentTopLevel uri document name) <|
  Observed.orElse (db.findTopLevel name) (db.findEnumMember name)

def resolveName (uri : String) (document : ParsedDocument) (offset : Nat) (name : String) :
    Observed (Option Definition) :=
  Observed.orElse (db.resolveNameLocalToWorkspace callDepth uri document offset name)
    (db.findScriptGlobal globals name)

def resolveNameInContext (uri : String) (document : ParsedDocument) (offset : Nat)
    (name : String) : NameContext → Observed (Option Definition)
  | .type =>
    Observed.orElse (return resolveDocumentTopLevelFiltered uri document name .type)
      (db.findTopLevelFiltered name .type)
  | .stateExtends ownerClass => db.findStateInOwnerChain callDepth ownerClass name
  | .callable =>
    Observed.orElse (return resolveLocalOrParameter uri document offset name) <|
    Observed.orElse (db.resolveCurrentTypeMember callDepth uri document offset name) <|
    Observed.orElse (return resolveDocumentTopLevelFiltered uri document name .callable) <|
    Observed.orElse (db.findTopLevelFiltered name .callable) (db.findScriptGlobal globals name)
  | .value =>
    Observed.orElse (return resolveLocalOrParameter uri document offset name) <|
    Observed.orElse (db.resolveCurrentTypeMember callDepth uri document offset name) <|
    Observed.orElse (return resolveDocumentTopLevelFiltered uri document name .value) <|
    Observed.orElse (db.findTopLevelFiltered name .value) <|
    Observed.orElse (db.findEnumMember name) (db.findScriptGlobal globals name)

def inferNameType (uri : String) (document : ParsedDocument) (offset : Nat) (name : String) :
    Observed (Option ScriptType) := do
  let found ← db.resolveNameInContext callDepth globals uri document offset name .value
  return (found.bind definitionType).or (scriptGlobalType globals name)

def isStruct (name : String) : Observed Bool := do
  let found ← db.findTopLevel name
  return found.any fun d => d.symbol.kind = .struct

/-- Only structs carry their type through arithmetic. -/
def arithmeticJoin : ScriptType → ScriptType → Observed ScriptType
  | .primitive l, .primitive r => return numericWiden l r
  | .named a, .named b => do
    if a = b then return if ← db.isStruct a then .named a else .unknown
    else return .unknown
  | .named n, .primitive p | .primitive p, .named n => do
    if isNumeric p then return if ← db.isStruct n then .named n else .unknown
    else return .unknown
  | _, _ => return .unknown

/-- The member access of a name at a byte, behind a receiver of this type. -/
def accessAt (document : ParsedDocument) (receiver : ReceiverKind) (valueType : ScriptType)
    (name : String) (start : Nat) : Observed MemberAccess := do
  match receiver with
  | .thisExpr | .superExpr | .parentExpr | .virtualParentExpr =>
    let context ← db.enclosingTypeContext callDepth document start
    return { receiver, context, name }
  | _ => return { receiver, valueType, name }

def inferType (uri : String) (document : ParsedDocument) : Expr → Nat → Observed ScriptType
  | .ident name, offset => do
    return (← db.inferNameType callDepth globals uri document offset name).getD .unknown
  | .funcCall callee, offset => inferType uri document callee offset
  | .memberAccess _ none, _ => return .unknown
  | .memberAccess receiver (some (name, start)), _ => do
    let valueType ← match receiver.receiverKind with
      | .ident | .funcCallExpr | .memberAccessExpr | .arrayExpr =>
        inferType uri document receiver start
      | _ => pure .unknown
    let access ← db.accessAt callDepth document receiver.receiverKind valueType name start
    let found ← db.resolveMemberAccess callDepth uri document.symbols access
    return (found.bind fun d => d.symbol.typeAnnotation).getD .unknown
  | .thisExpr, offset => do
    let context ← db.enclosingTypeContext callDepth document offset
    return namedOrUnknown (context.map (·.name))
  | .superExpr, offset => do
    let context ← db.enclosingTypeContext callDepth document offset
    return namedOrUnknown (context.bind (·.baseClass))
  | .parentExpr, offset | .virtualParentExpr, offset => do
    let context ← db.enclosingTypeContext callDepth document offset
    return namedOrUnknown (context.bind (·.ownerClass))
  | .literal type, _ => return .primitive type
  | .literalNull, _ => return .null
  | .newExpr name, _ | .castExpr name, _ => return namedOrUnknown name
  | .nestedExpr inner, offset => inferType uri document inner offset
  | .arrayExpr accessor, offset => do
    match ← inferType uri document accessor offset with
    | .array element => return element
    | .map _ value => return value
    | _ => return .unknown
  | .binaryOp none _ _, _ => return .unknown
  | .binaryOp (some op) left right, offset =>
    match op with
    | .and | .or | .eq | .neq | .gt | .ge | .lt | .le => return .primitive .bool
    | .bitOr | .bitAnd | .bitXor => return .primitive .int
    | .sum => do
      let l ← inferType uri document left offset
      let r ← inferType uri document right offset
      if isConcatOperand l || isConcatOperand r then return .primitive .string
      else db.arithmeticJoin l r
    | .diff | .mult | .div | .mod => do
      let l ← inferType uri document left offset
      let r ← inferType uri document right offset
      db.arithmeticJoin l r
  | .unaryOp none _, _ => return .unknown
  | .unaryOp (some op) right, offset =>
    match op with
    | .not => return .primitive .bool
    | .bitNot => return .primitive .int
    | .neg | .plus => inferType uri document right offset
  | .missing, _ | .other, _ => return .unknown

end SymbolDb

end WitcherScriptLanguage
