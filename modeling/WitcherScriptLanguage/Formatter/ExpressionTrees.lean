import WitcherScriptLanguage.Formatter.Emission

/-!
# Syntax trees of expressions

What the formatters of expressions see of a syntax tree (`formatter/expressions`, `cst/nav.rs`,
`cst/grammar.rs`): nodes with the fields of the grammar, from which one can go down and up. The
leaves of a tree are its tokens and comments in the order of the source.
-/

namespace WitcherScriptLanguage.Formatting

open Library

/-- The operators of a chain that may be broken. -/
inductive ChainOp
  | or | and | sum | diff | mult | div
  deriving DecidableEq, Repr

def ChainOp.text : ChainOp → List Char
  | or => ['|', '|']
  | and => ['&', '&']
  | sum => ['+']
  | diff => ['-']
  | mult => ['*']
  | div => ['/']

/-- The kinds of nodes that expressions and simple statements tell apart. -/
inductive ExprKind
  | memberAccessExpr | assignOpExpr | returnStmt | question | nop | openBrace | closeBrace
  | chainOp (op : ChainOp)
  | plain (kind : Kind)
  deriving DecidableEq, Repr

def ExprKind.toKind : ExprKind → Kind
  | plain kind => kind
  | _ => .other

inductive FieldName
  | func | args | member | cond | conseq | alt | left | op | right | initValue
  deriving DecidableEq, Repr

structure ExprLabel where
  kind : ExprKind
  field : Option FieldName := none
  named : Bool := false
  /-- The source between the ends of the node. -/
  text : List Char
  startRow : Nat
  endRow : Nat
  missing : Bool := false
  deriving DecidableEq, Repr

abbrev ExprNode := RangedTree ExprLabel

def ExprLabel.toLabel (label : ExprLabel) : Label where
  kind := label.kind.toKind
  text := label.text
  startRow := label.startRow
  endRow := label.endRow
  missing := label.missing

namespace ExprNode

def isComment (n : ExprNode) : Bool := n.label.kind = .plain .comment

mutual

/-- The node as the walk of the formatter sees it. -/
def plain : ExprNode → Node
  | .node label start stop children => .node label.toLabel start stop (plainAll children)

def plainAll : List ExprNode → List Node
  | [] => []
  | c :: cs => plain c :: plainAll cs

end

mutual

def hasError : ExprNode → Bool
  | .node label _ _ children =>
    label.missing || label.kind = .plain .error || hasErrorAmong children

def hasErrorAmong : List ExprNode → Bool
  | [] => false
  | c :: cs => hasError c || hasErrorAmong cs

end

end ExprNode

def startsBelow (before after : ExprNode) : Bool := before.label.endRow < after.label.startRow

/-- A node with the way to the root of its tree. -/
structure Site where
  node : ExprNode
  /-- The nodes above from the parent on, each with the index of the child on the way. -/
  above : List (ExprNode × Nat)
  /-- The row where the previous sibling ends. -/
  prevEndRow : Option Nat

namespace Site

variable (s : Site)

def kind : ExprKind := s.node.label.kind

/-- What no other node of the tree has. -/
def id : List Nat := s.above.map Prod.snd

/-- The children of a node from the one with an index on. -/
def among (parent : ExprNode) (above : List (ExprNode × Nat)) (i : Nat) (prevEndRow : Option Nat) :
    List ExprNode → List Site
  | [] => []
  | c :: cs => ⟨c, (parent, i) :: above, prevEndRow⟩ ::
    Site.among parent above (i + 1) (some c.label.endRow) cs

def children : List Site := Site.among s.node s.above 0 none s.node.children

def childByField (field : FieldName) : Option Site :=
  s.children.find? fun c => c.node.label.field = some field

def firstChildKind (kind : ExprKind) : Option Site := s.children.find? fun c => c.kind = kind

def namedChildren : List Site := s.children.filter fun c => c.node.label.named

def firstNamedChild : Option Site := s.namedChildren.head?

/-- `member_access_member` -/
def memberAccessMember : Option Site := (s.childByField .member).or s.namedChildren[1]?

/-- `is_receiver_of_later_call` for a node with such nodes above it -/
def isReceiverOfLaterCall : List (ExprNode × Nat) → Bool
  | [] => false
  | (access, i) :: above =>
    access.label.kind = .memberAccessExpr &&
      access.children.findIdx? (fun c => c.label.named) = some i &&
      (above.head?.any (fun outer =>
        outer.1.children.findIdx? (fun c => c.label.field = some .func) = some outer.2) ||
        isReceiverOfLaterCall above)

end Site

/-- A token or a comment. -/
structure Leaf where
  label : ExprLabel
  start : Nat
  stop : Nat
  prevEndRow : Option Nat
  deriving DecidableEq, Repr

namespace Leaf

variable (l : Leaf)

def isComment : Bool := l.label.kind = .plain .comment

/-- The token, or the comment without the blanks behind it. -/
def lexeme : List Char := if l.isComment then trimEnd l.label.text else l.label.text

def pending : PendingComment := ⟨l.label.text, l.start, l.label.startRow, l.prevEndRow⟩

end Leaf

mutual

/-- The leaves of a node, whose previous sibling ends in such a row. -/
def leavesOf (prevEndRow : Option Nat) : ExprNode → List Leaf
  | .node label start stop children =>
    if children.isEmpty then [⟨label, start, stop, prevEndRow⟩] else leavesAmong none children

def leavesAmong (prevEndRow : Option Nat) : List ExprNode → List Leaf
  | [] => []
  | c :: cs => leavesOf prevEndRow c ++ leavesAmong (some c.label.endRow) cs

end

def Site.leaves (s : Site) : List Leaf := leavesOf s.prevEndRow s.node

lemma leavesAmong_eq (parent : ExprNode) (above : List (ExprNode × Nat)) (i : Nat)
    (prevEndRow : Option Nat) (cs : List ExprNode) :
    leavesAmong prevEndRow cs = (Site.among parent above i prevEndRow cs).flatMap Site.leaves := by
  induction cs generalizing i prevEndRow with
  | nil => rw [leavesAmong, Site.among, List.flatMap_nil]
  | cons c cs ih =>
    rw [leavesAmong, Site.among, List.flatMap_cons, ← ih]
    rfl

lemma Site.leaves_of_leaf {s : Site} (h : s.node.children = []) :
    s.leaves = [⟨s.node.label, s.node.start, s.node.stop, s.prevEndRow⟩] := by
  obtain ⟨⟨label, start, stop, children⟩, above, prevEndRow⟩ := s
  obtain rfl : children = [] := h
  exact leavesOf.eq_1 ..

lemma Site.leaves_of_children {s : Site} (h : s.node.children ≠ []) :
    s.leaves = s.children.flatMap Site.leaves := by
  obtain ⟨⟨label, start, stop, children⟩, above, prevEndRow⟩ := s
  have hchildren : children ≠ [] := h
  rw [Site.leaves, leavesOf, if_neg (by simpa using hchildren)]
  exact leavesAmong_eq _ above 0 none children

lemma Site.map_node_among (parent : ExprNode) (above : List (ExprNode × Nat)) (i : Nat)
    (prevEndRow : Option Nat) (cs : List ExprNode) :
    (Site.among parent above i prevEndRow cs).map Site.node = cs := by
  induction cs generalizing i prevEndRow with
  | nil => rfl
  | cons c cs ih => rw [Site.among, List.map_cons, ih]

lemma Site.map_node_children (s : Site) : s.children.map Site.node = s.node.children :=
  Site.map_node_among ..

end WitcherScriptLanguage.Formatting
