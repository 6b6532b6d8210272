import Mathlib.Tactic.Lemma

/-!
# Symbols

The symbol table entries that extraction makes of one document (`symbols/types.rs`), with the
fields and the predicates that the resolver reads.
-/

namespace WitcherScriptLanguage

/-- A half-open range of byte offsets. -/
structure ByteRange where
  start : Nat
  stop : Nat
  deriving DecidableEq, Repr, Inhabited

/-- A line and a character in it, both from zero (`line_index.rs`). -/
structure SourcePosition where
  line : Nat
  character : Nat
  deriving DecidableEq, Repr, Inhabited

structure SourceRange where
  start : SourcePosition
  stop : SourcePosition
  deriving DecidableEq, Repr, Inhabited

/-- The range of lines and characters of a range of bytes in an ASCII text of one line. -/
def ByteRange.inFirstLine (range : ByteRange) : SourceRange :=
  ⟨⟨0, range.start⟩, ⟨0, range.stop⟩⟩

/-- Index of a symbol in its document's table. -/
structure SymbolId where
  val : Nat
  deriving DecidableEq, Repr, Inhabited

/-- Declaration order is the order of visibility: `private < protected < public`. -/
inductive AccessLevel
  | «private» | «protected» | «public»
  deriving DecidableEq, Repr, Inhabited

def AccessLevel.rank : AccessLevel → Nat
  | .private => 0
  | .protected => 1
  | .public => 2

instance : LE AccessLevel := ⟨fun a b => a.rank ≤ b.rank⟩

instance (a b : AccessLevel) : Decidable (a ≤ b) := inferInstanceAs (Decidable (a.rank ≤ b.rank))

inductive FuncFlavour
  | cleanup | entry | exec | quest | reward | storyscene | timer
  deriving DecidableEq, Repr

inductive Specifier
  | «import» | final | latent | abstract | statemachine | editable | saved | const | inlined
  | optional | out
  deriving DecidableEq, Repr

/-- The discriminant of a specifier, its bit in `Specifiers`. -/
def Specifier.toNat : Specifier → Nat
  | .import => 0
  | .final => 1
  | .latent => 2
  | .abstract => 3
  | .statemachine => 4
  | .editable => 5
  | .saved => 6
  | .const => 7
  | .inlined => 8
  | .optional => 9
  | .out => 10

/-- The set of non-access specifiers on one declaration, as a bitset. -/
structure Specifiers where
  bits : BitVec 16
  deriving DecidableEq, Repr

namespace Specifiers

def empty : Specifiers := ⟨0⟩

def insert (s : Specifiers) (specifier : Specifier) : Specifiers :=
  ⟨s.bits ||| (1#16 <<< specifier.toNat)⟩

def contains (s : Specifiers) (specifier : Specifier) : Bool :=
  s.bits &&& (1#16 <<< specifier.toNat) != 0

def isOptional (s : Specifiers) : Bool := s.contains .optional

def isOut (s : Specifiers) : Bool := s.contains .out

end Specifiers

inductive SymbolKind
  | «class» | nativeType | struct | «enum» | enumMember | function | method | field | «variable»
  | parameter | state | event
  deriving DecidableEq, Repr

namespace SymbolKind

def isType : SymbolKind → Bool
  | .class | .nativeType | .struct | .state | .enum => true
  | _ => false

def extendsByTypeName : SymbolKind → Bool
  | .class | .nativeType | .struct => true
  | _ => false

def isCallable : SymbolKind → Bool
  | .function | .event | .method => true
  | _ => false

def isInstantiable : SymbolKind → Bool
  | .class | .struct | .state => true
  | _ => false

end SymbolKind

inductive SymbolOrigin
  | script | builtin | native
  deriving DecidableEq, Repr

structure Annotation where
  name : String
  argument : Option String
  deriving DecidableEq, Repr

inductive Primitive
  | bool | byte | int | int16 | int8 | uint16 | uint32 | uint64 | float | name | string
  | stringAnsi
  deriving DecidableEq, Repr

/-- The value model of a type annotation (`types/mod.rs`). -/
inductive ScriptType
  | void
  | primitive (p : Primitive)
  | named (name : String)
  | array (element : ScriptType)
  | map (key value : ScriptType)
  | null
  | unknown
  deriving DecidableEq, Repr

structure Symbol where
  id : SymbolId
  name : String
  kind : SymbolKind
  byteRange : ByteRange
  selectionByteRange : ByteRange
  selectionRange : SourceRange := selectionByteRange.inFirstLine
  container : Option SymbolId := none
  containerName : Option String := none
  typeAnnotation : Option ScriptType := none
  baseClass : Option String := none
  ownerClass : Option String := none
  stateClass : Option String := none
  flavour : Option FuncFlavour := none
  annotations : List Annotation := []
  access : AccessLevel := .public
  specifiers : Specifiers := .empty
  origin : SymbolOrigin := .script
  deriving DecidableEq, Repr

def memberInjectingAnnotations : List String :=
  ["addMethod", "wrapMethod", "replaceMethod", "addField"]

def stateClassInfix : String := "State"

/-- The engine's class name of a state: `OwnerStateName`. -/
def stateClassName (owner state : String) : String := owner ++ stateClassInfix ++ state

namespace Symbol

def typeName (s : Symbol) : String := s.stateClass.getD s.name

/-- Native callables and fields stay invisible to scripts until a script `import` declares them. -/
def requiresImport (s : Symbol) : Bool :=
  s.origin = .native && (match s.kind with
    | .function | .method | .field => true
    | _ => false)

def injectingAnnotation (s : Symbol) : Option Annotation :=
  s.annotations.find? (fun a => memberInjectingAnnotations.contains a.name)

def annotationTargetClass (s : Symbol) : Option String :=
  s.injectingAnnotation.bind (·.argument)

/-- Ignores annotations for invalid targets. -/
def annotationTargetClassSafe (s : Symbol) : Option String :=
  match s.kind with
  | .function | .field => s.annotationTargetClass
  | _ => none

end Symbol

/-- A symbol together with the document that declares it (`resolve/mod.rs`). -/
structure Definition where
  uri : String
  symbol : Symbol
  deriving DecidableEq, Repr

end WitcherScriptLanguage
