import WitcherScriptLanguage.Formatter.ExpressionTrees

/-!
# Formatting of expressions

The formatters of `formatter/expressions`: chains of operators, conditional expressions, calls and
fluent chains of calls go on one line or break as the author broke them, and where a line is too
long. Statements without a body (`formatter/statements/mod.rs`) hand their expressions over to them.
-/

namespace WitcherScriptLanguage.Formatting

open Library

structure LineEnd where
  endByte : Nat
  tailLen : Nat
  /-- The value of the statement, which may be wrapped. -/
  statementValueId : Option (List Nat) := none
  deriving DecidableEq

namespace LineEnd

def after (s : Site) (tailLen : Nat) : LineEnd := ⟨s.node.stop, tailLen, none⟩

def withStatementValue (lineEnd : LineEnd) (value : Option Site) : LineEnd :=
  { lineEnd with statementValueId := value.map Site.id }

end LineEnd

/-- The formatter at a level of its own, with the end of the current line. -/
structure ExprFormatter extends Formatter where
  /-- All comments of the document. -/
  comments : List PendingComment
  lineEnd : Option LineEnd := none

namespace ExprFormatter

variable (f : ExprFormatter)

def indented : ExprFormatter := { f with level := f.level + 1 }

def withLineEnd (lineEnd : LineEnd) : ExprFormatter := { f with lineEnd := some lineEnd }

def hasInteriorComment (node : ExprNode) : Bool :=
  f.comments.any fun c => node.start ≤ c.startByte && c.startByte < node.stop

def hasLineCommentBetween (opening closing : ExprNode) : Bool :=
  f.comments.any fun c => opening.stop ≤ c.startByte && c.startByte < closing.start &&
    isLineComment (c.text.dropWhile isWhitespace)

/-- The first node up from a node that reaches the byte. -/
def scopeUpTo (endByte : Nat) (node : ExprNode) : List (ExprNode × Nat) → ExprNode
  | [] => node
  | (parent, _) :: above => if node.stop < endByte then scopeUpTo endByte parent above else node

def renderSpanFrom (s : Site) (endByte : Nat) : List Char :=
  f.renderSpan s.node.start endByte (scopeUpTo endByte s.node s.above).plain

def overflowsLine (s : Site) (o : Output) : Bool :=
  f.lineEnd.any fun lineEnd =>
    f.lineLimit < o.currentLineLen + utf8Bytes (f.renderSpanFrom s lineEnd.endByte) +
      lineEnd.tailLen

/-- A new line, unless a comment has begun one. -/
def breakToIndentedLine (o : Output) : Output :=
  f.emitIndent f.level (if o.endsWith '\n' then o else o.nl)

def emitToken (token : Site) (o : Output) : Output := f.emitVerbatim token.node.plain o

end ExprFormatter

structure ChainPart where
  operand : Site
  op : Option ChainOp := none
  /-- A line ends in the source between this operand and the next one. -/
  breakAfter : Bool := false
  /-- The operator is on a line behind the operand on its left. -/
  opLeads : Bool := false

/-- An operator of a chain between its operands. -/
structure BinaryLink where
  left : Site
  opNode : Site
  op : ChainOp
  right : Site

def binaryLink (s : Site) : Option BinaryLink :=
  if s.kind ≠ .plain .binaryOpExpr then none
  else (s.childByField .op).bind fun opNode =>
    match opNode.kind with
    | .chainOp op => (s.childByField .left).bind fun left =>
      (s.childByField .right).map fun right => ⟨left, opNode, op, right⟩
    | _ => none

/-- The operator behind the last one of the parts. -/
def linkLast (parts : List ChainPart) (link : BinaryLink) : List ChainPart :=
  match parts.getLast? with
  | some last => parts.dropLast ++ [{ last with
      op := some link.op
      breakAfter := startsBelow link.left.node link.right.node
      opLeads := startsBelow link.left.node link.opNode.node }]
  | none => []

/-- As many rounds as the node has nodes are enough. -/
def collectChainParts : Nat → Site → List ChainPart
  | 0, s => [{ operand := s }]
  | rounds + 1, s =>
    match binaryLink s with
    | some link =>
      linkLast (collectChainParts rounds link.left) link ++ collectChainParts rounds link.right
    | none => [{ operand := s }]

def splitBinaryChain (s : Site) : List ChainPart := collectChainParts s.node.nodeCount s

def chainHasBreak (parts : List ChainPart) : Bool := parts.any ChainPart.breakAfter

inductive OperatorPlacement
  | leading | trailing
  deriving DecidableEq

/-- The first break says where the operators of the whole chain stand. -/
def chainOperatorPlacement (parts : List ChainPart) : OperatorPlacement :=
  if (parts.find? ChainPart.breakAfter).any ChainPart.opLeads then .leading else .trailing

inductive ChainLinkLayout
  | sameLine | leadingBreak | trailingBreak
  deriving DecidableEq

def ChainLinkLayout.of (breakAfter : Bool) : OperatorPlacement → ChainLinkLayout
  | .leading => if breakAfter then .leadingBreak else .sameLine
  | .trailing => if breakAfter then .trailingBreak else .sameLine

def segmentLineEnd (parts : List ChainPart) (placement : OperatorPlacement) : Option LineEnd :=
  (parts.find? ChainPart.breakAfter).map fun last =>
    LineEnd.after last.operand (match placement, last.op with
      | .trailing, some op => 1 + op.text.length
      | _, _ => 0)

inductive OverflowWrap
  | allowed | denied
  deriving DecidableEq

structure Below where
  /-- `format_node` -/
  node : ExprFormatter → Site → Output → Output
  /-- `format_ternary_with` -/
  ternary : OverflowWrap → ExprFormatter → Site → Output → Output

section

variable (below : Below) (f : ExprFormatter)

def emitChainLink (op : ChainOp) (layout : ChainLinkLayout) (o : Output) : Output :=
  match layout with
  | .sameLine => ((o.emit [' ']).emit op.text).emit [' ']
  | .leadingBreak => ((f.emitIndent f.level o.nl).emit op.text).emit [' ']
  | .trailingBreak => f.emitIndent f.level ((o.emit [' ']).emit op.text).nl

/-- The first operand of the parts that are left. -/
def formatChainOperand (placement : OperatorPlacement) (parts : List ChainPart) (o : Output) :
    Output :=
  match parts with
  | [] => o
  | part :: _ =>
    match segmentLineEnd parts placement with
    | some lineEnd => below.node (f.withLineEnd lineEnd) part.operand o
    | none => below.node f part.operand o

/-- Operator and operand of each part behind the first one. -/
def emitChainLinks (placement : OperatorPlacement) : List ChainPart → Output → Output
  | part :: next :: parts, o =>
    -- Only the last part has no operator.
    let o := match part.op with
      | some op => emitChainLink f op (.of part.breakAfter placement) o
      | none => o
    emitChainLinks placement (next :: parts)
      (formatChainOperand below f placement (next :: parts) o)
  | _, o => o

/-- `try_emit_broken_chain` takes these parts. -/
def brokenChain (operand : Site) (parentKind : ExprKind) : Option (List ChainPart) :=
  if operand.kind ≠ .plain .binaryOpExpr ∨ parentKind = .plain .binaryOpExpr ∨
      f.hasInteriorComment operand.node then none
  else if chainHasBreak (splitBinaryChain operand) then some (splitBinaryChain operand)
  else none

def formatOperand (parentKind : ExprKind) (operand : Site) (o : Output) : Output :=
  match brokenChain f operand parentKind with
  | some parts =>
    let placement := chainOperatorPlacement parts
    emitChainLinks below f.indented placement parts (formatChainOperand below f placement parts o)
  | none => below.node f operand o

/-- The loop of `format_children` from one of the children on. -/
def formatExprChildren (parentKind : ExprKind) (prev : Option ExprKind) : List Site → Output →
    Output
  | [], o => o
  | child :: children, o =>
    if child.node.label.missing ∨ child.kind = .plain Kind.annotation then
      formatExprChildren parentKind prev children o
    else
      let o := f.flushCommentsBefore child.node.start o
      if child.kind = .plain .comment then formatExprChildren parentKind prev children o
      else
        let o := if child.kind = .plain .colon then Formatter.alignColon o else o
        let o := f.emitGap (prev.map ExprKind.toKind) child.kind.toKind parentKind.toKind o
        let o := if child.node.children.isEmpty then f.emitToken child o
          else formatOperand below f parentKind child o
        formatExprChildren parentKind (some child.kind) children o

def formatAll (s : Site) (o : Output) : Output :=
  formatExprChildren below f s.kind none s.children o

/-! ### Conditional expressions -/

structure TernaryParts where
  cond : Site
  question : Site
  conseq : Site
  colon : Site
  alt : Site

def ternaryParts (s : Site) : Option TernaryParts :=
  if s.node.hasError then none
  else do
    let cond ← s.childByField .cond
    let question ← s.firstChildKind .question
    let conseq ← s.childByField .conseq
    let colon ← s.firstChildKind (.plain .colon)
    let alt ← s.childByField .alt
    return ⟨cond, question, conseq, colon, alt⟩

def TernaryParts.authoredBreak (parts : TernaryParts) : Bool :=
  startsBelow parts.cond.node parts.question.node ||
    startsBelow parts.question.node parts.conseq.node ||
    startsBelow parts.conseq.node parts.colon.node || startsBelow parts.colon.node parts.alt.node

def emitTernaryOperand (wrap : OverflowWrap) (operand : Site) (o : Output) : Output :=
  if operand.kind = .plain .ternaryCondExpr then below.ternary wrap f operand o
  else formatOperand below f (.plain .ternaryCondExpr) operand o

def emitTernaryLink (wrap : OverflowWrap) (token operand : Site) (o : Output) : Output :=
  let o := f.breakToIndentedLine (f.flushCommentsBefore token.node.start o)
  let o := f.flushCommentsBefore operand.node.start (o.emit token.node.label.text)
  let o := if o.endsWith '\n' then f.emitIndent f.level o else o.emit [' ']
  emitTernaryOperand below f wrap operand o

def emitBrokenTernary (wrap : OverflowWrap) (parts : TernaryParts) (o : Output) : Output :=
  let o := emitTernaryOperand below (f.withLineEnd (.after parts.cond 0)) wrap parts.cond o
  let o := emitTernaryLink below (f.indented.withLineEnd (.after parts.conseq 0)) wrap
    parts.question parts.conseq o
  emitTernaryLink below f.indented wrap parts.colon parts.alt o

def formatTernaryWith (wrap : OverflowWrap) (s : Site) (o : Output) : Output :=
  match ternaryParts s with
  | some parts =>
    if parts.authoredBreak || (wrap = .allowed && f.overflowsLine s o) then
      emitBrokenTernary below f wrap parts o
    else formatAll below f s o
  | none => formatAll below f s o

def isStatementValue (s : Site) : Bool :=
  f.lineEnd.any fun lineEnd => lineEnd.statementValueId = some s.id

def formatTernary (s : Site) (o : Output) : Output :=
  formatTernaryWith below f (if isStatementValue f s then .allowed else .denied) s o

/-! ### Calls -/

structure CallParts where
  func : Site
  opening : Site
  args : Option Site
  closing : Site

def callParts (call : Site) : Option CallParts :=
  if call.node.hasError then none
  else do
    let func ← call.childByField .func
    let opening ← call.firstChildKind (.plain .openParen)
    let closing ← call.firstChildKind (.plain .closeParen)
    return ⟨func, opening, call.childByField .args, closing⟩

namespace CallParts

variable (parts : CallParts)

def argTokens : List Site :=
  match parts.args with
  | some args => args.children.filter fun n => n.kind ≠ .plain .comment
  | none => []

def hugsLoneCallArg : Bool :=
  match parts.argTokens with
  | [arg] => arg.kind = .plain .funcCallExpr && (callParts arg).any fun inner => inner.args.isSome
  | _ => false

def authoredSplit : Bool :=
  match parts.argTokens with
  | [] => false
  | first :: rest =>
    let tokens := first :: rest
    startsBelow parts.opening.node first.node ||
      (tokens.findIdx? fun t => t.kind = .plain .comma).any fun comma =>
        let firstArgEnd := if comma = 0 then parts.opening else
          (tokens[comma - 1]?).getD parts.opening
        (tokens[comma + 1]?).any fun second => startsBelow firstArgEnd.node second.node

end CallParts

def callNeedsSplit (measureFrom : Site) (parts : CallParts) (o : Output) : Bool :=
  parts.args.isSome && (parts.authoredSplit ||
    f.hasLineCommentBetween parts.opening.node parts.closing.node ||
    (!parts.hugsLoneCallArg && f.overflowsLine measureFrom o))

/-- The line of an argument goes up to its comma. -/
def argLineEnd (arg : Site) (following : List Site) : LineEnd :=
  let comma := (following.find? fun n => n.kind ≠ .plain .comment).filter fun n =>
    n.kind = .plain .comma
  .after (comma.getD arg) 0

/-- Each argument on a line of its own; the flag says that a line is due. -/
def emitArgLines : Bool → List Site → Output → Output
  | _, [], o => o
  | pendingBreak, child :: children, o =>
    if child.kind = .plain .comment then
      emitArgLines pendingBreak children (f.flushCommentsBefore child.node.stop o)
    else if child.kind = .plain .comma then
      let o := if pendingBreak then f.breakToIndentedLine o else o
      emitArgLines true children (o.emit [','])
    else
      let o := f.flushCommentsBefore child.node.start o
      let o := if pendingBreak then f.breakToIndentedLine o else o
      emitArgLines false children (formatOperand below (f.withLineEnd (argLineEnd child children))
        (.plain .funcCallArgs) child o)

def emitSplitArgs (parts : CallParts) (o : Output) : Output :=
  let o := f.emitToken parts.opening o
  let o := match parts.args with
    | some args => emitArgLines below f.indented true args.children o
    | none => o
  let o := f.flushCommentsBefore parts.closing.node.start o
  let o := if o.endsWith '\n' then o else o.nl
  f.emitToken parts.closing (f.emitIndent f.level o)

def emitSplitCall (parts : CallParts) (o : Output) : Output :=
  emitSplitArgs below f parts
    (below.node (f.withLineEnd (.after parts.opening 0)) parts.func o)

def emitInlineArgs (parts : CallParts) (o : Output) : Output :=
  let o := f.emitToken parts.opening o
  let o := match parts.args with
    | some args => below.node f args o
    | none => o
  f.emitToken parts.closing o

def formatFluentCallArgs (parts : CallParts) (o : Output) : Output :=
  if callNeedsSplit f parts.opening parts o then emitSplitArgs below f parts o
  else emitInlineArgs below f parts o

/-! ### Fluent chains -/

structure FluentLink where
  access : Site
  receiver : Site
  dot : Site
  member : Site
  call : Option CallParts

def fluentLink (s : Site) : Option FluentLink := do
  let (access, call) ←
    if s.kind = .plain .funcCallExpr then (callParts s).map fun call => (call.func, some call)
    else some (s, none)
  if access.kind ≠ .memberAccessExpr then none
  else
    let receiver ← access.firstNamedChild
    let dot ← access.firstChildKind (.plain .dot)
    let member ← access.memberAccessMember
    return ⟨access, receiver, dot, member, call⟩

/-- The receiver at the start of a chain, and its links in the order of the source; as many rounds
as the node has nodes are enough. -/
def collectLinksInSourceOrder : Nat → Site → Site × List FluentLink
  | 0, s => (s, [])
  | rounds + 1, s =>
    match fluentLink s with
    | some link =>
      let collected := collectLinksInSourceOrder rounds link.receiver
      (collected.1, collected.2 ++ [link])
    | none => (s, [])

/-- Links up to a call. -/
structure FluentGroup where
  links : List FluentLink
  openingDot : Site
  closingParen : Site

def FluentGroup.startsBelow (group : FluentGroup) (previousEnd : Site) : Bool :=
  group.links.head?.any fun link => Formatting.startsBelow previousEnd.node link.member.node

def groupLinks (pending : List FluentLink) : List FluentLink → List FluentGroup
  | [] => []
  | link :: links =>
    let openingDot := (pending.head?.map FluentLink.dot).getD link.dot
    match link.call with
    | some call => ⟨pending ++ [link], openingDot, call.closing⟩ :: groupLinks [] links
    | none => groupLinks (pending ++ [link]) links

structure FluentChain where
  head : Site
  groups : List FluentGroup

/-- What the first call is made on. -/
def chainHead (base : Site) (links : List FluentLink) : Nat → Site
  | 0 => base
  | before + 1 => ((links[before]?).map FluentLink.access).getD base

def fluentChain (root : Site) : Option FluentChain :=
  if root.node.hasError then none
  else
    let (base, links) := collectLinksInSourceOrder root.node.nodeCount root
    (links.findIdx? fun link => link.call.isSome).map fun firstCall =>
      { head := chainHead base links firstCall
        groups := groupLinks [] (links.drop firstCall) }

namespace FluentChain

variable (chain : FluentChain)

def authoredBoundaryBreaks : List Bool :=
  List.zipWith (fun previousEnd group => FluentGroup.startsBelow group previousEnd)
    (chain.head :: chain.groups.map FluentGroup.closingParen) chain.groups

/-- A single break added or removed later says nothing about the author's layout. -/
def isAuthoredFluent : Bool :=
  let breaks := chain.authoredBoundaryBreaks
  let breakCount := breaks.count true
  let intentBreaks := breaks.take 2
  let removedOneBreak := breakCount ≠ 1 && breaks.length - breakCount = 1
  if removedOneBreak && intentBreaks.contains false then false else intentBreaks.contains true

end FluentChain

def breaksFluently (call : Site) (chain : FluentChain) (o : Output) : Bool :=
  2 ≤ chain.groups.length && (chain.isAuthoredFluent || f.overflowsLine call o)

def emitFluentGroup (group : FluentGroup) (o : Output) : Output :=
  group.links.foldl (fun o link =>
    let o := f.emitToken link.member (f.emitToken link.dot o)
    match link.call with
    | some call => formatFluentCallArgs below f call o
    | none => o) o

def emitFluentGroups : List FluentGroup → Output → Output
  | [], o => o
  | group :: groups, o =>
    let o := f.breakToIndentedLine (f.flushCommentsBefore group.openingDot.node.start o)
    let o := if groups.isEmpty then emitFluentGroup below f group o
      else emitFluentGroup below (f.withLineEnd (.after group.closingParen 0)) group o
    emitFluentGroups groups o

def emitFluentChain (chain : FluentChain) (o : Output) : Output :=
  emitFluentGroups below f.indented chain.groups
    (below.node (f.withLineEnd (.after chain.head 0)) chain.head o)

/-- `try_emit_fluent_chain` takes this chain. -/
def fluentCall (call : Site) (o : Output) : Option FluentChain :=
  if Site.isReceiverOfLaterCall call.above then none
  else (fluentChain call).filter fun chain => breaksFluently f call chain o

def formatCall (call : Site) (o : Output) : Output :=
  match fluentCall f call o with
  | some chain => emitFluentChain below f chain o
  | none =>
    match callParts call with
    | some parts =>
      if callNeedsSplit f call parts o then emitSplitCall below f parts o
      else formatAll below f call o
    | none => formatAll below f call o

/-- The kinds of declarations and statements with a formatter of their own. -/
def isDeclOrStmt (kind : ExprKind) : Bool :=
  kind ≠ .plain .ternaryCondExpr && kind ≠ .plain .funcCallExpr && kind ≠ .plain .binaryOpExpr &&
    Formatter.hasOwnFormatter kind.toKind

variable (other : ExprFormatter → Site → Output → Output)

/-- `format_node`, where `other` formats declarations and statements. -/
def formatNode (s : Site) (o : Output) : Output :=
  if s.node.label.missing then o
  else
    let o := f.flushCommentsBefore s.node.start o
    if s.kind = .plain .error then
      (o.emit (trim s.node.label.text)).consumeCommentsBefore s.node.stop
    else if s.node.children.isEmpty then o.emit s.node.label.text
    else if s.kind = .plain .ternaryCondExpr then formatTernary below f s o
    else if s.kind = .plain .funcCallExpr then formatCall below f s o
    else if isDeclOrStmt s.kind then other f s o
    else formatAll below f s o

end

/-- The formatters of trees with so many nodes at most. -/
def formatters (other : ExprFormatter → Site → Output → Output) : Nat → Below
  | 0 => ⟨fun _ _ o => o, fun _ _ _ o => o⟩
  | rounds + 1 =>
    let below := formatters other rounds
    ⟨fun f s o => formatNode below f other s o, fun wrap f s o => formatTernaryWith below f wrap s o⟩

def statementValue (stmt : Site) : Option Site :=
  match stmt.kind with
  | .returnStmt => stmt.namedChildren.find? fun child => child.kind ≠ .plain .comment
  | .plain .localVarDeclStmt => stmt.childByField .initValue
  | .plain .exprStmt =>
    (stmt.namedChildren.find? fun child => child.kind = .assignOpExpr).bind fun assign =>
      assign.childByField .right
  | _ => none

def statementLineEnd (stmt : Site) : LineEnd :=
  (LineEnd.after stmt 0).withStatementValue (statementValue stmt)

section

variable (other : ExprFormatter → Site → Output → Output) (f : ExprFormatter)

def formatExprStmt (stmt : Site) (o : Output) : Output :=
  let below := formatters other stmt.node.nodeCount
  let o := f.emitIndent f.level o
  let o := match stmt.namedChildren.head? with
    | some e => formatOperand below (f.withLineEnd (statementLineEnd stmt)) stmt.kind e o
    | none => o
  let o := if (stmt.firstChildKind (.plain .semicolon)).any fun semi => !semi.node.label.missing
    then o.emit [';'] else o
  o.nl

/-- `format_stmt` for a statement without a body. -/
def formatStmt (stmt : Site) (o : Output) : Output :=
  let o := f.flushCommentsBefore stmt.node.start o
  if stmt.node.hasError then
    (((f.emitIndent f.level o).emit (trim stmt.node.label.text)).consumeCommentsBefore
      stmt.node.stop).nl
  else if stmt.kind = .plain .exprStmt then formatExprStmt other f stmt o
  else
    (formatAll (formatters other stmt.node.nodeCount) (f.withLineEnd (statementLineEnd stmt)) stmt
      (f.emitIndent f.level o)).nl

end

end WitcherScriptLanguage.Formatting
