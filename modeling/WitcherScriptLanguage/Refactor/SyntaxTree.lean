import Mathlib.Data.List.Infix
import WitcherScriptLanguage.Library.RangedTrees
import WitcherScriptLanguage.Library.Splices
import WitcherScriptLanguage.Types.Annotation

/-!
# Concrete syntax trees

The tree of a document as the refactorings see it (`cst/`). A node is a position in the tree, its
range is in bytes, and the text is a list of characters with their UTF-8 sizes. What the parser
guarantees of its trees is a field of the tree.
-/

namespace WitcherScriptLanguage

open Library

abbrev sizeOfChar : Char → Nat := Char.utf8Size

/-- `&source[start..stop]` -/
def sliceText (source : List Char) (range : ByteRange) : List Char :=
  textBefore sizeOfChar (textAfter sizeOfChar source range.start) (range.stop - range.start)

def isBlank (text : List Char) : Bool := text.all isWhitespace

namespace Cst

/-- The node kinds that the refactorings tell apart; `error` is that of a syntax error and `other`
that of the remaining nodes. -/
inductive Kind
  | script | error | comment | openBrace | closeParen | comma | equals
  | classDecl | structDecl | enumDecl | enumMemberDecl | stateDecl | autobindDecl
  | funcDecl | eventDecl | funcParamGroup | memberVarDecl | annotation | typeAnnot
  | memberDefaultVal | memberDefaultValBlock | memberDefaultValBlockAssign | memberHint
  | funcBlock | localVarDeclStmt | exprStmt | deleteStmt | returnStmt | breakStmt | continueStmt
  | ifStmt | whileStmt | doWhileStmt | forStmt | switchStmt | switchCaseLabel | switchDefaultLabel
  | nop
  | ident | literalInt | literalHex | literalFloat | literalBool | literalString | literalName
  | literalNull | thisExpr | parentExpr | superExpr | virtualParentExpr
  | binaryOpExpr | binaryOpOr | binaryOpAnd | unaryOpExpr | assignOpExpr | assignOpDirect
  | funcCallExpr | funcCallArgs | memberAccessExpr | incompleteMemberAccessExpr | arrayExpr
  | nestedExpr | castExpr | newExpr | sequenceExpression
  | other
  deriving DecidableEq, Repr

inductive Field
  | annotation | name | names | base | parent | typeName | className | arg | args | type | member | func
  | left | right | op | accessor | varType | initValue | definition
  | body | orElse | cond | init | iter | value | lifetimeObj
  deriving DecidableEq, Repr

structure Label where
  kind : Kind
  named : Bool := true
  /-- The field of the parent that the node fills. -/
  field : Option Field := none
  deriving DecidableEq, Repr

end Cst

abbrev CstNode := RangedTree Cst.Label

namespace CstNode

/-- Neither end of the node is white space. -/
def Trimmed (source : List Char) (n : CstNode) : Prop :=
  (∀ c ∈ (textAfter sizeOfChar source n.start).head?, isWhitespace c = false) ∧
    ∀ c ∈ (textBefore sizeOfChar source n.stop).getLast?, isWhitespace c = false

lemma trimmed_iff {source : List Char} {n : CstNode} : CstNode.Trimmed source n ↔
    (textAfter sizeOfChar source n.start).head?.all (fun c => !isWhitespace c) = true ∧
      (textBefore sizeOfChar source n.stop).getLast?.all (fun c => !isWhitespace c) = true := by
  simp only [CstNode.Trimmed, Option.all_eq_true, Option.mem_def, Bool.not_eq_true']

-- Stated for the text at hand: a search for the instance could go through all characters.
instance (source : List Char) (n : CstNode) : Decidable (CstNode.Trimmed source n) :=
  decidable_of_iff _ trimmed_iff.symm

/-- What the parser guarantees of a node. An identifier may be empty, where the parser has
inserted a missing one. -/
structure Valid (source : List Char) (n : CstNode) : Prop where
  ordered : n.Ordered
  start_boundary : IsBoundary sizeOfChar source n.start
  stop_boundary : IsBoundary sizeOfChar source n.stop
  ident : n.label.kind = .ident → n.children = [] ∧ (n.start = n.stop ∨ CstNode.Trimmed source n)
  statement : n.label.kind = .exprStmt ∨ n.label.kind = .localVarDeclStmt →
    n.start < n.stop ∧ CstNode.Trimmed source n
  /-- The initialiser stands behind the type and a `=`. -/
  initialiser : n.label.kind = .localVarDeclStmt → ∀ type ∈ n.children, ∀ init ∈ n.children,
    type.label.field = some .varType → init.label.field = some .initValue → type.stop < init.start
  /-- A block holds statements. -/
  block : n.label.kind = .funcBlock → ∀ c ∈ n.children,
    c.label.kind ≠ .funcDecl ∧ c.label.kind ≠ .eventDecl

instance (source : List Char) (n : CstNode) : Decidable (CstNode.Valid source n) :=
  decidable_of_iff (n.Ordered ∧ IsBoundary sizeOfChar source n.start ∧
      IsBoundary sizeOfChar source n.stop ∧
      (n.label.kind = .ident →
        n.children.length = 0 ∧ (n.start = n.stop ∨ CstNode.Trimmed source n)) ∧
      (n.label.kind = .exprStmt ∨ n.label.kind = .localVarDeclStmt →
        n.start < n.stop ∧ CstNode.Trimmed source n) ∧
      (n.label.kind = .localVarDeclStmt → ∀ type ∈ n.children, ∀ init ∈ n.children,
        type.label.field = some .varType → init.label.field = some .initValue →
          type.stop < init.start) ∧
      (n.label.kind = .funcBlock → ∀ c ∈ n.children,
        c.label.kind ≠ .funcDecl ∧ c.label.kind ≠ .eventDecl))
    ⟨fun ⟨ho, hb, hb', hi, hs, hv, hf⟩ => ⟨ho, hb, hb', fun h =>
        ⟨List.length_eq_zero_iff.mp (hi h).1, (hi h).2⟩, hs, hv, hf⟩,
      fun h => ⟨h.ordered, h.start_boundary, h.stop_boundary, fun hk =>
        ⟨List.length_eq_zero_iff.mpr (h.ident hk).1, (h.ident hk).2⟩, h.statement, h.initialiser,
        h.block⟩⟩

end CstNode

/-- A parsed text. -/
structure SyntaxTree where
  source : List Char
  root : CstNode
  valid : ∀ p n, root.get? p = some n → CstNode.Valid source n
  /-- The root is a script, or an error where nothing could be parsed. -/
  rootKind : root.label.kind = .script ∨ root.label.kind = .error

instance (source : List Char) (root : CstNode) :
    Decidable (∀ p n, root.get? p = some n → CstNode.Valid source n) :=
  decidable_of_iff _ root.forall_get?_iff.symm

/-- A node of a tree, with its way from the root as its identity. -/
abbrev Node := Position

namespace SyntaxTree

open Cst

variable (t : SyntaxTree)

/-- The node at a position; there is an empty one where the tree has none. -/
def get (p : Node) : CstNode := (t.root.get? p).getD (.node ⟨.other, false, none⟩ 0 0 [])

def kind (p : Node) : Kind := (t.get p).label.kind

def isNamed (p : Node) : Bool := (t.get p).label.named

def field (p : Node) : Option Field := (t.get p).label.field

def byteRange (p : Node) : ByteRange := ⟨(t.get p).start, (t.get p).stop⟩

def text (p : Node) : List Char := sliceText t.source (t.byteRange p)

def children (p : Node) : List Node := (List.range (t.get p).children.length).map fun i => p ++ [i]

def namedChildren (p : Node) : List Node := (t.children p).filter t.isNamed

def parent (p : Node) : Option Node := if p = [] then none else some p.dropLast

def childByFieldName (p : Node) (field : Field) : Option Node :=
  (t.children p).find? fun c => t.field c = some field

def childrenByFieldName (p : Node) (field : Field) : List Node :=
  (t.children p).filter fun c => t.field c = some field

def firstNamedChild (p : Node) : Option Node := (t.namedChildren p).head?

/-- The innermost one comes first. -/
def nodeAndAncestors (p : Node) : List Node := p.inits.reverse

def findAncestorOfKind (p : Node) (kinds : List Kind) : Option Node :=
  (nodeAndAncestors p).find? fun a => kinds.contains (t.kind a)

def descendantForByteRange (p : Node) (range : ByteRange) : Node :=
  p ++ (t.get p).descendantFor range.start range.stop

def namedDescendantForByteRange (p : Node) (range : ByteRange) : Node :=
  p ++ (((t.get p).descendantFor range.start range.stop).inits.reverse.find?
    fun q => q.isEmpty || t.isNamed (p ++ q)).getD []

def collectDescendantsOfKind (p : Node) (kinds : List Kind) : List Node :=
  ((t.get p).positions.map fun q => p ++ q).filter fun d => kinds.contains (t.kind d)

def hasDescendantOfKind (p : Node) (kinds : List Kind) : Bool :=
  !(t.collectDescendantsOfKind p kinds).isEmpty

variable {t} {p q : Node}

def Has (t : SyntaxTree) (p : Node) : Prop := (t.root.get? p).isSome

lemma Has.get?_eq (h : t.Has p) : t.root.get? p = some (t.get p) := by
  obtain ⟨n, hn⟩ := Option.isSome_iff_exists.mp h
  rw [hn, SyntaxTree.get, hn, Option.getD_some]

lemma has_of_kind (h : t.kind p ≠ .other) : t.Has p := by
  unfold kind SyntaxTree.get at h
  cases hp : t.root.get? p with
  | none =>
    rw [hp] at h
    exact absurd rfl h
  | some n => rw [Has, hp]; rfl

lemma Has.of_prefix (h : t.Has q) (hpq : p <+: q) : t.Has p := by
  obtain ⟨r, rfl⟩ := hpq
  obtain ⟨b, hb⟩ := Option.isSome_iff_exists.mp h
  obtain ⟨a, ha, -⟩ := RangedTree.get?_append_eq_some hb
  rw [Has, ha]
  rfl

lemma Has.valid (h : t.Has p) : CstNode.Valid t.source (t.get p) := t.valid p _ h.get?_eq

lemma wellFormed_root (t : SyntaxTree) : t.root.WellFormed := fun p n hn => (t.valid p n hn).ordered

lemma inside_of_prefix (hq : t.Has q) (hpq : p <+: q) :
    (t.byteRange p).start ≤ (t.byteRange q).start ∧ (t.byteRange q).stop ≤ (t.byteRange p).stop :=
  t.wellFormed_root.inside_of_prefix hpq (hq.of_prefix hpq).get?_eq hq.get?_eq

lemma nested_or_disjoint (hp : t.Has p) (hq : t.Has q) : p <+: q ∨ q <+: p ∨
    (t.byteRange p).stop ≤ (t.byteRange q).start ∨ (t.byteRange q).stop ≤ (t.byteRange p).start :=
  t.wellFormed_root.nested_or_disjoint hp.get?_eq hq.get?_eq

lemma start_le_stop (hp : t.Has p) : (t.byteRange p).start ≤ (t.byteRange p).stop :=
  hp.valid.ordered.start_le_stop

lemma mem_nodeAndAncestors : q ∈ nodeAndAncestors p ↔ q <+: p := by
  rw [nodeAndAncestors, List.mem_reverse, List.mem_inits]

lemma findAncestorOfKind_eq_some {kinds : List Kind} (h : t.findAncestorOfKind p kinds = some q) :
    q <+: p ∧ t.kind q ∈ kinds := by
  have hkind : kinds.contains (t.kind q) := List.find?_some (p := fun a => kinds.contains (t.kind a)) h
  exact ⟨mem_nodeAndAncestors.mp (List.mem_of_find?_eq_some h), List.contains_iff_mem.mp hkind⟩

lemma mem_children : q ∈ t.children p ↔ ∃ i, i < (t.get p).children.length ∧ q = p ++ [i] := by
  simp [children, eq_comm]

lemma Has.child (hp : t.Has p) (hq : q ∈ t.children p) :
    t.Has q ∧ t.get q ∈ (t.get p).children := by
  obtain ⟨i, hi, rfl⟩ := mem_children.mp hq
  have hget : t.root.get? (p ++ [i]) = some ((t.get p).children[i]) := by
    rw [RangedTree.get?_append, hp.get?_eq, Option.bind_some, RangedTree.get?,
      List.getElem?_eq_getElem hi]
    rfl
  have hat : t.get (p ++ [i]) = (t.get p).children[i] := by
    rw [SyntaxTree.get, hget, Option.getD_some]
  refine ⟨by rw [Has, hget]; rfl, ?_⟩
  rw [hat]
  exact List.getElem_mem hi

lemma prefix_of_mem_children (h : q ∈ t.children p) : p <+: q := by
  obtain ⟨i, -, rfl⟩ := mem_children.mp h
  exact List.prefix_append p [i]

lemma childByFieldName_eq_some {field : Field} (h : t.childByFieldName p field = some q) :
    q ∈ t.children p ∧ t.field q = some field := by
  have hfield := List.find?_some (p := fun c => decide (t.field c = some field)) h
  exact ⟨List.mem_of_find?_eq_some h, of_decide_eq_true hfield⟩

lemma mem_collectDescendantsOfKind {kinds : List Kind} (hp : t.Has p)
    (h : q ∈ t.collectDescendantsOfKind p kinds) : p <+: q ∧ t.Has q ∧ t.kind q ∈ kinds := by
  obtain ⟨hmem, hkind⟩ := List.mem_filter.mp h
  obtain ⟨r, hr, rfl⟩ := List.mem_map.mp hmem
  refine ⟨List.prefix_append p r, ?_, List.contains_iff_mem.mp hkind⟩
  rw [Has, RangedTree.get?_append, hp.get?_eq, Option.bind_some]
  exact RangedTree.isSome_of_mem_positions _ hr

lemma nodup_collectDescendantsOfKind (p : Node) (kinds : List Kind) :
    (t.collectDescendantsOfKind p kinds).Nodup :=
  ((RangedTree.nodup_positions _).map fun _ _ h => List.append_cancel_left h).filter _

end SyntaxTree

end WitcherScriptLanguage
