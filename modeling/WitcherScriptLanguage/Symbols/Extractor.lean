import WitcherScriptLanguage.Cst.Walk
import WitcherScriptLanguage.Symbols.Extraction

/-!
# The extractor as a visitor

The visitor of `symbols/extract.rs`, with its stack of frames and its depth. It has branches that
are marked unreachable: pending annotations exist only in the frame of a body, and the block of a
callable is entered only under the callable's frame. None of them is taken, and the walk makes the
table that extraction with an innermost frame makes.
-/

namespace WitcherScriptLanguage

open Library

mutual

def SyntaxNode.toTree : SyntaxNode → RangedTree SyntaxNode
  | .mk kind named field text range sourceRange children =>
    .node (.mk kind named field text range sourceRange children) range.start range.stop
      (SyntaxNode.toTrees children)

def SyntaxNode.toTrees : List SyntaxNode → List (RangedTree SyntaxNode)
  | [] => []
  | node :: nodes => node.toTree :: SyntaxNode.toTrees nodes

end

/-- The node that a cursor stands at. -/
def SyntaxNode.nodeAt (root : SyntaxNode) (p : Position) : Option SyntaxNode :=
  (root.toTree.get? p).map RangedTree.label

lemma SyntaxNode.toTree_eq (node : SyntaxNode) :
    node.toTree = .node node node.range.start node.range.stop (toTrees node.children) := by
  cases node
  rw [toTree]
  rfl

/-- One frame per named node the walk descends into; popped on that node's leave. -/
structure Frame where
  depth : Nat
  mode : Mode

/-- The innermost frame comes first. -/
structure SymbolExtractor where
  symbols : List Symbol := []
  depth : Nat := 0
  frames : List Frame := []

namespace SymbolExtractor

variable (e : SymbolExtractor)

def pushFrame (mode : Mode) : SymbolExtractor :=
  { e with frames := ⟨e.depth, mode⟩ :: e.frames }

/-- `none` is the unreachable branch. -/
def takePending : Option (List Annotation × SymbolExtractor) :=
  match e.frames with
  | ⟨depth, .body container pending⟩ :: frames =>
    some (pending, { e with frames := ⟨depth, .body container []⟩ :: frames })
  | _ => none

/-- `none` is the unreachable branch. -/
def pendAnnotation (pended : Annotation) : Option SymbolExtractor :=
  match e.frames with
  | ⟨depth, .body container pending⟩ :: frames =>
    some { e with frames := ⟨depth, .body container (pending ++ [pended])⟩ :: frames }
  | _ => none

/-- The symbols that a declaration pushes, and the frame for its children if they are visited. -/
def settle (entered : Entered) : SymbolExtractor × Visit :=
  match entered.frame with
  | some mode => ({ e with symbols := entered.symbols }.pushFrame mode, .children)
  | none => ({ e with symbols := entered.symbols }, .skipChildren)

/-- A declaration takes the annotations that pend. -/
def enterTaking (enter : List Symbol → List Annotation → Entered) :
    Option (SymbolExtractor × Visit) := do
  let (pending, e) ← e.takePending
  some (e.settle (enter e.symbols pending))

def enterInBody (node : SyntaxNode) (container : Option SymbolId) :
    Option (SymbolExtractor × Visit) :=
  match node.kind with
  | .annotationNode =>
    match node.annotationOf with
    | some annotation => (e.pendAnnotation annotation).map fun e => (e, .skipChildren)
    | none => some (e, .skipChildren)
  | .classDecl => e.enterTaking fun symbols pending =>
      enterTypeDecl symbols node container pending .class
  | .structDecl => e.enterTaking fun symbols pending =>
      enterTypeDecl symbols node container pending .struct
  | .enumDecl => e.enterTaking fun symbols pending =>
      enterEnumDecl symbols node container pending
  | .stateDecl => e.enterTaking fun symbols pending =>
      enterStateDecl symbols node container pending
  | .funcDecl => e.enterTaking fun symbols pending =>
      enterCallableDecl symbols node container pending .function
  | .eventDecl => e.enterTaking fun symbols pending =>
      enterCallableDecl symbols node container pending .event
  | .memberVarDecl | .autobindDecl => do
    let (annotations, e) ← e.takePending
    some ({ e with symbols := visitVarDecl e.symbols node container annotations .field },
      .skipChildren)
  | .localVarDeclStmt => do
    let (annotations, e) ← e.takePending
    some ({ e with symbols := visitVarDecl e.symbols node container annotations .variable },
      .skipChildren)
  | _ => do
    let (pending, e) ← e.takePending
    some (e.pushFrame (.body container pending), .children)

def enterInEnum (node : SyntaxNode) (enumId : SymbolId) : SymbolExtractor × Visit :=
  if node.kind = .enumMemberDecl then
    match node.firstChildKind .ident with
    | some nameNode =>
      ({ e with
          symbols := pushSymbol e.symbols node nameNode .enumMember { container := some enumId } },
        .skipChildren)
    | none => (e, .skipChildren)
  else (e.pushFrame (.enumMembers enumId), .children)

/-- `none` is the unreachable branch. -/
def enterInCallable (node : SyntaxNode) (id : SymbolId) (bodySeen : Bool) :
    Option (SymbolExtractor × Visit) :=
  if node.kind = .funcBlock ∧ bodySeen = false then
    match e.frames with
    | ⟨depth, .callable id' _⟩ :: frames =>
      some ({ e with frames := ⟨depth, .callable id' true⟩ :: frames }.pushFrame
        (.body (some id) []), .children)
    | _ => none
  else some (e, .skipChildren)

def enterNode (node : SyntaxNode) : Option (SymbolExtractor × Visit) :=
  match e.frames with
  | [] => some (e.pushFrame (.body none []), .children)
  | ⟨_, mode⟩ :: _ =>
    if !node.isNamed then some (e, .skipChildren)
    else
      match mode with
      | .body container _ => e.enterInBody node container
      | .enumMembers enumId => some (e.enterInEnum node enumId)
      | .callable id bodySeen => e.enterInCallable node id bodySeen

def enter (node : SyntaxNode) : Option (SymbolExtractor × Visit) :=
  (e.enterNode node).map fun entered =>
    ({ entered.1 with depth := entered.1.depth + 1 }, entered.2)

def leave : SymbolExtractor :=
  let depth := e.depth - 1
  match e.frames with
  | frame :: frames =>
    if frame.depth = depth then { e with depth, frames } else { e with depth }
  | [] => { e with depth }

end SymbolExtractor

/-- Nothing happens any more once an unreachable branch has been taken. -/
def extractorVisitor (root : SyntaxNode) : Visitor (Option SymbolExtractor) where
  enter p e :=
    match e.bind fun e => (root.nodeAt p).bind e.enter with
    | some (e, visit) => (some e, visit)
    | none => (none, .skipChildren)
  leave _ e := e.map SymbolExtractor.leave

namespace SymbolExtractor

/-- The state of the visitor in an innermost frame. -/
def inFrame (symbols : List Symbol) (depth : Nat) (frame : Nat) (mode : Mode)
    (frames : List Frame) : SymbolExtractor :=
  ⟨symbols, depth, ⟨frame, mode⟩ :: frames⟩

variable {symbols : List Symbol} {depth frame : Nat} {frames : List Frame}

/-- What entering a node makes of the frames. -/
def enteredState (entered : Entered) (depth frame : Nat) (frames : List Frame) :
    SymbolExtractor × Visit :=
  (inFrame entered.symbols depth frame entered.current frames).settle entered

lemma enterTaking_eq {enter : List Symbol → List Annotation → Entered}
    {container : Option SymbolId} {pending : List Annotation}
    (hcurrent : (enter symbols pending).current = .body container []) :
    (inFrame symbols depth frame (.body container pending) frames).enterTaking enter =
      some (enteredState (enter symbols pending) depth frame frames) := by
  rw [enteredState, hcurrent]
  rfl

lemma current_enterDecl (node : SyntaxNode) (container : Option SymbolId)
    (annotations : List Annotation) (kind : SymbolKind) (spec : SymbolSpec)
    (frame : SymbolId → Mode) :
    (enterDecl symbols node container annotations kind spec frame).current = .body container [] := by
  unfold enterDecl
  dsimp only
  cases node.firstChildKind .ident <;> rfl

lemma current_enterCallableDecl (node : SyntaxNode) (container : Option SymbolId)
    (annotations : List Annotation) (kind : SymbolKind) :
    (enterCallableDecl symbols node container annotations kind).current = .body container [] := by
  unfold enterCallableDecl
  cases node.firstChildKind .ident <;> exact current_enterDecl ..

/-- A declaration takes what pends in the frame of a body. -/
lemma enterInBody_eq (node : SyntaxNode) (container : Option SymbolId) (pending : List Annotation) :
    (inFrame symbols depth frame (.body container pending) frames).enterInBody node container =
      some (enteredState (WitcherScriptLanguage.enterInBody symbols node container pending) depth
        frame frames) := by
  unfold SymbolExtractor.enterInBody WitcherScriptLanguage.enterInBody
  cases node.kind with
  | annotationNode =>
    cases node.annotationOf with
    | none => simp [enteredState, settle, inFrame]
    | some annotation => rfl
  | classDecl | structDecl | enumDecl | stateDecl => exact enterTaking_eq (current_enterDecl ..)
  | funcDecl | eventDecl => exact enterTaking_eq (current_enterCallableDecl ..)
  | memberVarDecl | autobindDecl | localVarDeclStmt => rfl
  | _ => rfl

/-- No unreachable branch is taken, and the innermost frame says what is pushed. -/
lemma enterNode_eq (mode : Mode) (node : SyntaxNode) :
    (inFrame symbols depth frame mode frames).enterNode node =
      some (enteredState (WitcherScriptLanguage.enterNode mode symbols node) depth frame frames) := by
  unfold SymbolExtractor.enterNode WitcherScriptLanguage.enterNode
  cases hnamed : node.isNamed with
  | false => rfl
  | true =>
    cases mode with
    | body container pending => exact enterInBody_eq node container pending
    | enumMembers enumId =>
      simp only [inFrame, Bool.not_true, Bool.false_eq_true, if_false, if_true,
        SymbolExtractor.enterInEnum, WitcherScriptLanguage.enterInEnum]
      split_ifs
      · cases node.firstChildKind .ident <;> rfl
      · rfl
    | callable id bodySeen =>
      simp only [inFrame, Bool.not_true, Bool.false_eq_true, if_false, if_true,
        SymbolExtractor.enterInCallable, WitcherScriptLanguage.enterInCallable]
      split_ifs <;> rfl

end SymbolExtractor

section Walk

variable {root : SyntaxNode}

lemma SyntaxNode.toTrees_eq_map (nodes : List SyntaxNode) : toTrees nodes = nodes.map toTree := by
  induction nodes with
  | nil => rw [toTrees, List.map_nil]
  | cons node nodes ih => rw [toTrees, List.map_cons, ih]

/-- The cursor at a node of the root. -/
def SyntaxNode.IsAt (root : SyntaxNode) (p : Position) (node : SyntaxNode) : Prop :=
  root.toTree.get? p = some node.toTree

lemma SyntaxNode.IsAt.nodeAt {p : Position} {node : SyntaxNode} (h : root.IsAt p node) :
    root.nodeAt p = some node := by
  rw [SyntaxNode.nodeAt, show root.toTree.get? p = _ from h, SyntaxNode.toTree_eq]
  rfl

lemma SyntaxNode.IsAt.child {p : Position} {node child : SyntaxNode} (h : root.IsAt p node)
    {i : Nat} (hchild : node.children[i]? = some child) : root.IsAt (p ++ [i]) child := by
  rw [SyntaxNode.IsAt, RangedTree.get?_append, show root.toTree.get? p = _ from h,
    Option.bind_some, RangedTree.get?, SyntaxNode.toTree_eq, RangedTree.children, toTrees_eq_map,
    List.getElem?_map, hchild]
  rfl

/-- What the visitor makes of entering a node. -/
lemma enter_extractorVisitor {p : Position} {node : SyntaxNode} (hnode : root.IsAt p node)
    (mode : Mode) (symbols : List Symbol) (depth frame : Nat) (frames : List Frame) :
    (extractorVisitor root).enter p (some (SymbolExtractor.inFrame symbols depth frame mode frames)) =
      match (enterNode mode symbols node).frame with
      | some inner => (some (SymbolExtractor.inFrame (enterNode mode symbols node).symbols (depth + 1)
          depth inner (⟨frame, (enterNode mode symbols node).current⟩ :: frames)), .children)
      | none => (some (SymbolExtractor.inFrame (enterNode mode symbols node).symbols (depth + 1) frame
          (enterNode mode symbols node).current frames), .skipChildren) := by
  simp only [extractorVisitor, Option.bind_some, hnode.nodeAt, SymbolExtractor.enter,
    SymbolExtractor.enterNode_eq, Option.map_some, SymbolExtractor.enteredState,
    SymbolExtractor.settle]
  cases (enterNode mode symbols node).frame <;> rfl

/-- The frame of a node that has been left is gone. -/
lemma leave_inner (symbols : List Symbol) (depth : Nat) (mode : Mode) (frames : List Frame) :
    (SymbolExtractor.inFrame symbols (depth + 1) depth mode frames).leave =
      ⟨symbols, depth, frames⟩ := by
  simp [SymbolExtractor.leave, SymbolExtractor.inFrame]

/-- The frame of a node above stays. -/
lemma leave_outer {depth frame : Nat} (hframe : frame < depth) (symbols : List Symbol)
    (mode : Mode) (frames : List Frame) :
    (SymbolExtractor.inFrame symbols (depth + 1) frame mode frames).leave =
      SymbolExtractor.inFrame symbols depth frame mode frames := by
  simp [SymbolExtractor.leave, SymbolExtractor.inFrame, hframe.ne]

mutual

/-- Walking a node leaves the innermost frame and the symbols that extraction leaves. -/
lemma visit_extractorVisitor : ∀ (p : Position) (node : SyntaxNode) (mode : Mode)
    (symbols : List Symbol) (depth frame : Nat) (frames : List Frame),
    root.IsAt p node → frame < depth →
    (extractorVisitor root).visit p node.toTree
        (some (SymbolExtractor.inFrame symbols depth frame mode frames)) =
      some (SymbolExtractor.inFrame (visitNode mode symbols node).2 depth frame
        (visitNode mode symbols node).1 frames)
  | p, .mk kind named field text range sourceRange children, mode, symbols, depth, frame, frames,
      hnode, hframe => by
    have henter := enter_extractorVisitor hnode mode symbols depth frame frames
    have hleave (e : SymbolExtractor) : (extractorVisitor root).leave p (some e) = some e.leave :=
      rfl
    rw [Visitor.visit_eq, Visitor.visitBelow, henter, visitNode]
    cases hinner : (enterNode mode symbols
        (.mk kind named field text range sourceRange children)).frame with
    | none =>
      dsimp only
      rw [if_neg (by simp), hleave, leave_outer hframe]
    | some inner =>
      obtain ⟨mode', hmode'⟩ := visitFrom_extractorVisitor p 0 children inner
        (enterNode mode symbols (.mk kind named field text range sourceRange children)).symbols
        (depth + 1) depth (⟨frame, (enterNode mode symbols
          (.mk kind named field text range sourceRange children)).current⟩ :: frames)
        (fun j child hchild => by
          rw [Nat.zero_add]
          exact hnode.child hchild) (Nat.lt_succ_self depth)
      dsimp only
      rw [if_pos rfl, SyntaxNode.toTree, RangedTree.children, hmode', hleave, leave_inner]
      rfl

lemma visitFrom_extractorVisitor : ∀ (p : Position) (i : Nat) (nodes : List SyntaxNode) (mode : Mode)
    (symbols : List Symbol) (depth frame : Nat) (frames : List Frame),
    (∀ j node, nodes[j]? = some node → root.IsAt (p ++ [i + j]) node) → frame < depth →
    ∃ mode', (extractorVisitor root).visitFrom p i (SyntaxNode.toTrees nodes)
        (some (SymbolExtractor.inFrame symbols depth frame mode frames)) =
      some (SymbolExtractor.inFrame (visitNodes mode symbols nodes) depth frame mode' frames)
  | p, i, [], mode, symbols, depth, frame, frames, hnodes, hframe => by
    refine ⟨mode, ?_⟩
    rw [SyntaxNode.toTrees, Visitor.visitFrom_nil, visitNodes]
  | p, i, node :: nodes, mode, symbols, depth, frame, frames, hnodes, hframe => by
    have hrest (j : Nat) (n : SyntaxNode) (hn : nodes[j]? = some n) :
        root.IsAt (p ++ [i + 1 + j]) n := by
      rw [Nat.add_assoc, Nat.add_comm 1 j]
      exact hnodes (j + 1) n hn
    obtain ⟨mode', hmode'⟩ := visitFrom_extractorVisitor p (i + 1) nodes
      (visitNode mode symbols node).1 (visitNode mode symbols node).2 depth frame frames hrest hframe
    refine ⟨mode', ?_⟩
    rw [SyntaxNode.toTrees, Visitor.visitFrom_cons,
      visit_extractorVisitor (p ++ [i]) node mode symbols depth frame frames (hnodes 0 node rfl)
        hframe, hmode', visitNodes]

end

/-- The walk takes no unreachable branch and ends with the table of extraction. -/
theorem walk_extractorVisitor (root : SyntaxNode) :
    ∃ e, walk root.toTree (extractorVisitor root) (some {}) = some (some e) ∧
      e.symbols = extractSymbols root ∧ e.frames = [] := by
  obtain ⟨mode', hmode'⟩ := @visitFrom_extractorVisitor root [] 0 root.children
    (.body none []) [] 1 0 [] (fun j child hchild => by
      rw [Nat.zero_add]
      exact @SyntaxNode.IsAt.child root [] root child rfl j hchild) Nat.one_pos
  refine ⟨⟨extractSymbols root, 0, []⟩, ?_, rfl, rfl⟩
  have henter : (extractorVisitor root).enter [] (some {}) =
      (some (SymbolExtractor.inFrame [] 1 0 (.body none []) []), .children) := by
    have hroot : root.nodeAt [] = some root := SyntaxNode.IsAt.nodeAt rfl
    simp only [extractorVisitor, Option.bind_some, hroot]
    rfl
  rw [walk_eq_visit, Visitor.visit_eq, Visitor.visitBelow, henter, if_pos rfl,
    SyntaxNode.toTree_eq, RangedTree.children, hmode']
  rfl

end Walk

end WitcherScriptLanguage
