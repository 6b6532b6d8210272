import WitcherScriptLanguage.Formatter.SourceText

/-!
# Rendered widths

What the formatter measures of a member before it writes it (`formatter/core.rs`,
`formatter/declarations.rs`): nodes rendered on one line, with a blank where two of them need a gap.
-/

namespace WitcherScriptLanguage.Formatting

open Library

/-- The node kinds that the formatter tells apart on its way through a class body; `other` is that
of the remaining nodes, tokens included. -/
inductive Kind
  | error | comment | annotation | annotationIdent | ident | typeAnnot
  | script | classDecl | structDecl | stateDecl | enumDecl | classDef | structDef
  | memberVarDecl | memberDefaultVal | memberDefaultValBlock | autobindDecl | funcDecl | eventDecl
  | funcBlock
  | funcParams | funcParamGroup | localVarDeclStmt
  | ifStmt | whileStmt | doWhileStmt | forStmt | switchStmt | exprStmt
  | switchCaseLabel | switchDefaultLabel
  | ternaryCondExpr | funcCallExpr | funcCallArgs | castExpr | binaryOpExpr
  | unaryOpExpr | unaryOpNot | unaryOpNeg | unaryOpBitnot | unaryOpPlus
  | comma | semicolon | openParen | closeParen | openBracket | closeBracket | less | greater
  | dot | colon
  | other
  deriving DecidableEq, Repr

structure Label where
  kind : Kind
  /-- The source between the ends of the node. -/
  text : List Char
  startRow : Nat
  endRow : Nat
  /-- The parser has made the node up. -/
  missing : Bool := false
  deriving DecidableEq, Repr

abbrev Node := RangedTree Label

def childOfKind (node : Node) (kind : Kind) : Option Node :=
  node.children.find? fun c => c.label.kind = kind

def originalNodeText (node : Node) : List Char := trim node.label.text

@[simp] lemma utf8Bytes_nil : utf8Bytes [] = 0 := rfl

@[simp] lemma utf8Bytes_append (l l' : List Char) :
    utf8Bytes (l ++ l') = utf8Bytes l + utf8Bytes l' :=
  lengthOf_append _ l l'

@[simp] lemma utf8Bytes_replicate_blank (n : Nat) : utf8Bytes (List.replicate n ' ') = n := by
  induction n with
  | zero => rfl
  | succ n ih =>
    rw [List.replicate_succ', utf8Bytes_append, ih]
    rfl

lemma utf8Bytes_le_of_suffix {l l' : List Char} (h : l <:+ l') : utf8Bytes l ≤ utf8Bytes l' := by
  obtain ⟨front, rfl⟩ := h
  rw [utf8Bytes_append]
  exact Nat.le_add_left _ _

inductive ColonSpacing
  | spaced
  | compact
  deriving DecidableEq, Repr

inductive AnnotationPlacement
  | preserve
  | ownLine
  | sameLine
  deriving DecidableEq, Repr

def AnnotationPlacement.resolve (placement : AnnotationPlacement) (preserve : Bool) : Bool :=
  match placement with
  | .sameLine => true
  | .ownLine => false
  | .preserve => preserve

/-- The fields of the formatter that stand still while the members of a class are written. -/
structure Formatter extends FormatOptions where
  level : Nat
  colon : ColonSpacing
  alignMemberColons : Bool
  annotationPlacement : AnnotationPlacement
  defaultPlacement : AnnotationPlacement

namespace Formatter

variable (f : Formatter)

def indentUnit : List Char := indentUnitFor f.toFormatOptions

def indentWidth : Nat := f.level * utf8Bytes f.indentUnit

def gapBetween (bk ak parentKind : Kind) : Bool :=
  if parentKind = .funcCallArgs ∧ bk = .comma ∧ ak = .comma then true
  else if ak ∈ [.comma, .semicolon, .closeParen, .closeBracket, .less, .greater] then false
  else if bk ∈ [.openParen, .openBracket, .less] then false
  else if parentKind = .castExpr ∧ bk = .closeParen then false
  else if parentKind = .unaryOpExpr ∧
      bk ∈ [.unaryOpNot, .unaryOpNeg, .unaryOpBitnot, .unaryOpPlus] then false
  else if ak = .funcParams then false
  else if ak = .openParen ∨ ak = .openBracket then false
  else if ak = .dot ∨ bk = .dot then false
  else if ak = .colon ∧ parentKind ∈ [.switchCaseLabel, .switchDefaultLabel] then false
  else if ak = .colon ∧ parentKind ∈ [.localVarDeclStmt, .memberVarDecl, .funcParamGroup,
      .eventDecl, .funcDecl, .autobindDecl] then f.colon = .spaced
  else true

/-- The blank in front of a node, which the first one has not. -/
def gapAfter (prev : Option Kind) (ak parentKind : Kind) : List Char :=
  match prev with
  | some bk => if f.gapBetween bk ak parentKind then [' '] else []
  | none => []

mutual

def renderSpan (startByte endByte : Nat) : Node → List Char
  | .node label _ _ children =>
    if label.missing then []
    else if label.kind = .error then trim label.text
    else if children.isEmpty then label.text
    else renderSpans startByte endByte label.kind none children

def renderSpans (startByte endByte : Nat) (parentKind : Kind) (prev : Option Kind) :
    List Node → List Char
  | [] => []
  | child :: children =>
    if child.label.missing ∨ child.stop ≤ startByte ∨ endByte ≤ child.start then
      renderSpans startByte endByte parentKind prev children
    else
      f.gapAfter prev child.label.kind parentKind ++
        (renderSpan startByte endByte child ++
          renderSpans startByte endByte parentKind (some child.label.kind) children)

end

def renderNode (node : Node) : List Char := f.renderSpan node.start node.stop node

/-- The loop of `rendered_width` from one of the children on. -/
def renderedWidthFrom (parentKind : Kind) (prev : Option Kind) : List Node → Nat
  | [] => 0
  | child :: children =>
    if child.label.missing ∨ child.label.kind = Kind.annotation then
      renderedWidthFrom parentKind prev children
    else
      utf8Bytes (f.gapAfter prev child.label.kind parentKind) + utf8Bytes (f.renderNode child) +
        renderedWidthFrom parentKind (some child.label.kind) children

def renderedWidth (children : List Node) (parentKind : Kind) : Nat :=
  f.renderedWidthFrom parentKind none children

def memberVarDeclWidth (node : Node) : Nat := f.renderedWidth node.children node.label.kind

def memberVarPreColonWidth (node : Node) : Nat :=
  match node.children.findIdx? fun c => c.label.kind = .colon with
  | none => 0
  | some colon => f.renderedWidth (node.children.take colon) node.label.kind

def memberVarLineWidthToSemicolon (node : Node) (colonAlignCol : Option Nat) : Nat :=
  let unalignedWidth := f.memberVarDeclWidth node
  match colonAlignCol with
  | none => unalignedWidth
  | some col => unalignedWidth + (col - (f.indentWidth + f.memberVarPreColonWidth node))

def isAlignableField (node : Node) : Bool :=
  if node.label.kind ≠ .memberVarDecl ∨ node.label.kind = .error then false
  else !node.children.any fun n => n.label.kind = .comment || n.label.kind = Kind.annotation

def blankLineBetweenRows (prev next : Nat) : Bool := 2 ≤ next - prev

def firstIdentText (node : Node) : Option (List Char) :=
  (childOfKind node .ident).map fun n => n.label.text

def pairedMemberDefault (varDecl defaultVal : Node) : Bool :=
  match firstIdentText varDecl, firstIdentText defaultVal with
  | some varName, some defaultName => varName = defaultName
  | _, _ => false

def defaultSameLineInSource (varDecl defaultVal : Node) : Bool :=
  varDecl.label.startRow = defaultVal.label.startRow

def defaultOnSameLine (varDecl defaultVal : Node) : Bool :=
  if pairedMemberDefault varDecl defaultVal then
    f.defaultPlacement.resolve (defaultSameLineInSource varDecl defaultVal)
  else false

end Formatter

end WitcherScriptLanguage.Formatting
