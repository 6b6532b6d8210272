import WitcherScriptLanguage.Library.GenKill
import WitcherScriptLanguage.Symbols

/-!
# Reaching definitions of one local

The structured gen/kill walk of `resolve/reaching_defs.rs`. A body is a tree of statements whose
expressions are regions of the text: the analysis finds reads and definitions in a region by
byte ranges, and the region also says in which orders its evaluation can meet them.
-/

namespace WitcherScriptLanguage

open Library

/-- What evaluating an expression does with the local: read occurrences and definitions by
their index, in evaluation order. A definition takes effect once its owner has been evaluated. -/
inductive Evaluation
  | skip
  | read (i : Nat)
  | define (d : Nat)
  | seq (first second : Evaluation)
  /-- Either one, as for the operand of a short-circuit operator. -/
  | choice (left right : Evaluation)
  deriving DecidableEq, Repr

/-- A node that the walk does not enter: a leaf statement or an expression. -/
structure Region where
  span : ByteRange
  evaluation : Evaluation
  deriving DecidableEq, Repr

mutual

/-- The statement forms of the walk. A missing body or `else` is `nop`, which flows alike. -/
inductive Stmt
  | block (stmts : Block)
  /-- A local declaration, an expression statement or a `delete`. -/
  | leaf (node : Region)
  | ret (node : Region)
  | brk
  | cont
  | ifStmt (cond : Option Region) (body orElse : Stmt)
  | whileStmt (cond : Option Region) (body : Stmt)
  | doWhile (cond : Option Region) (body : Stmt)
  | forStmt (init cond iter : Option Region) (body : Stmt)
  | switchStmt (cond : Option Region) (sections : Sections)
  | nop
  /-- A statement kind that the walk does not model. -/
  | other (node : Region)

inductive Block
  | nil
  | cons (stmt : Stmt) (rest : Block)

inductive Sections
  | nil
  | caseLabel (value : Option Region) (rest : Sections)
  | defaultLabel (rest : Sections)
  | stmt (stmt : Stmt) (rest : Sections)

end

structure LocalDefinition where
  /-- The expression to substitute at a read. -/
  value : Option ByteRange
  /-- The statement that teardown deletes. -/
  stmt : Option ByteRange
  isDecl : Bool
  owner : ByteRange
  deriving DecidableEq, Repr

/-- The kinds of `WriteSite` (`resolve/writes.rs`). -/
inductive WriteKind
  | assignTarget | assignBase | outArg | receiverBase
  deriving DecidableEq, Repr

/-- A mutation of the local: its node, the right-hand side when it is the target of a plain `=`,
and the expression statement around it. -/
structure Mutation where
  kind : WriteKind
  node : ByteRange
  directAssignValue : Option ByteRange
  exprStmt : Option ByteRange
  deriving DecidableEq, Repr

structure LocalDeclaration where
  node : ByteRange
  namesLen : Nat
  initValue : Option ByteRange
  deriving DecidableEq, Repr

def Mutation.localDefinition (site : Mutation) : LocalDefinition where
  value := match site.kind with
    | .assignTarget => site.directAssignValue
    | .assignBase | .outArg | .receiverBase => none
  stmt := site.exprStmt
  isDecl := false
  owner := site.node

/-- A list of several names shares one initialiser, so it is not the value of any one of them. -/
def buildDefs (decl : LocalDeclaration) (mutations : List Mutation) : List LocalDefinition :=
  { value := if decl.namesLen = 1 then decl.initValue else none
    stmt := none
    isDecl := true
    owner := decl.node } :: mutations.map Mutation.localDefinition

/-- A bitset over definition indices. -/
abbrev Mask := BitVec 128

def maxDefs : Nat := 128

/-- Exactly one bit is set: its index. -/
def soleDef (mask : Mask) : Option Nat :=
  match (List.range maxDefs).filter (fun i => mask.getLsbD i) with
  | [i] => some i
  | _ => none

inductive Pass
  | learn
  | record
  deriving DecidableEq

structure Flow where
  /-- State at the fall-off-the-end exit, or `none` when control cannot reach it. -/
  normal : Option Mask
  breaks : Option Mask := none
  continues : Option Mask := none
  returns : Option Mask := none
  deriving DecidableEq

def Flow.pass (state : Mask) : Flow := { normal := some state }

def union : Option Mask → Option Mask → Option Mask
  | some x, some y => some (x ||| y)
  | x, none => x
  | none, x => x

def within (inner outer : ByteRange) : Bool :=
  inner.start ≥ outer.start && inner.stop ≤ outer.stop

structure Analyzer where
  defs : List LocalDefinition
  reads : List ByteRange

/-- The accumulator of the walk over the sections of a switch. -/
structure SwitchFlow where
  cur : Option Mask := none
  breaks : Option Mask := none
  continues : Option Mask := none
  returns : Option Mask := none
  hasDefault : Bool := false
  deriving DecidableEq

namespace Analyzer

variable (a : Analyzer)

/-- `out` holds the mask recorded so far for every read. -/
def record (region : ByteRange) (state : Mask) (pass : Pass) (out : List Mask) : List Mask :=
  match pass with
  | .learn => out
  | .record => out.mapIdx fun i mask =>
    match a.reads[i]? with
    | some read => if within read region then mask ||| state else mask
    | none => mask

def recordOpt (region : Option Region) (state : Mask) (pass : Pass) (out : List Mask) :
    List Mask :=
  match region with
  | some r => a.record r.span state pass out
  | none => out

def poison (region : ByteRange) (pass : Pass) (out : List Mask) : List Mask :=
  a.record region (BitVec.allOnes 128) pass out

def ownerOf (i : Nat) : ByteRange := ((a.defs[i]?).map (·.owner)).getD ⟨0, 0⟩

/-- The definition of the region with the greatest start byte, the later one of a tie. -/
def latestIn (region : ByteRange) : Option Nat :=
  ((List.range a.defs.length).filter (fun i => within (a.ownerOf i) region)).foldl
    (fun best i => match best with
      | none => some i
      | some b => if (a.ownerOf b).start ≤ (a.ownerOf i).start then some i else some b) none

def genIn (region : ByteRange) (state : Mask) : Mask :=
  match a.latestIn region with
  | some i => 1#128 <<< i
  | none => state

/-- A read in a leaf runs before the leaf's definition lands, so it sees the incoming state. -/
def evalLeaf (node : ByteRange) (state : Mask) (pass : Pass) (out : List Mask) :
    Mask × List Mask :=
  (a.genIn node state, a.record node state pass out)

/-- The optional clauses of a `for`. -/
def genInOpt (region : Option Region) (state : Mask) : Mask :=
  match region with
  | some r => a.genIn r.span state
  | none => state

def evalLeafOpt (region : Option Region) (state : Mask) (pass : Pass) (out : List Mask) :
    Mask × List Mask :=
  match region with
  | some r => a.evalLeaf r.span state pass out
  | none => (state, out)

mutual

def evalStmt : Stmt → Mask → Pass → List Mask → Flow × List Mask
  | .block stmts, state, pass, out => evalBlock stmts (Flow.pass state) pass out
  | .leaf node, state, pass, out =>
    let (state', out) := a.evalLeaf node.span state pass out
    (Flow.pass state', out)
  | .ret node, state, pass, out =>
    let (state', out) := a.evalLeaf node.span state pass out
    ({ normal := none, returns := some state' }, out)
  | .brk, state, _, out => ({ normal := none, breaks := some state }, out)
  | .cont, state, _, out => ({ normal := none, continues := some state }, out)
  | .ifStmt cond body orElse, state, pass, out =>
    let out := a.recordOpt cond state pass out
    let (thenFlow, out) := evalStmt body state pass out
    let (elseFlow, out) := evalStmt orElse state pass out
    ({ normal := union thenFlow.normal elseFlow.normal
       breaks := union thenFlow.breaks elseFlow.breaks
       continues := union thenFlow.continues elseFlow.continues
       returns := union thenFlow.returns elseFlow.returns }, out)
  | .whileStmt cond body, state, pass, out =>
    -- The first pass learns the definitions that the body carries back to the header.
    let (body₁, out) := evalStmt body state .learn out
    let header := (union (some state) (union body₁.normal body₁.continues)).getD state
    let out := a.recordOpt cond header pass out
    let (body₂, out) := evalStmt body header pass out
    ({ normal := union (some header) body₂.breaks, returns := body₂.returns }, out)
  | .doWhile cond body, state, pass, out =>
    let (body₁, out) := evalStmt body state .learn out
    let entry := (union (some state) (union body₁.normal body₁.continues)).getD state
    let (body₂, out) := evalStmt body entry pass out
    let atCond := (union body₂.normal body₂.continues).getD entry
    let out := a.recordOpt cond atCond pass out
    ({ normal := union body₂.normal body₂.breaks, returns := body₂.returns }, out)
  | .forStmt init cond iter body, state, pass, out =>
    let (entry, out) := a.evalLeafOpt init state pass out
    let (body₁, out) := evalStmt body entry .learn out
    let afterBody₁ := (union body₁.normal body₁.continues).getD entry
    let afterIter₁ := a.genInOpt iter afterBody₁
    let header := (union (some entry) (some afterIter₁)).getD entry
    let out := a.recordOpt cond header pass out
    let (body₂, out) := evalStmt body header pass out
    let afterBody₂ := (union body₂.normal body₂.continues).getD header
    let out := a.recordOpt iter afterBody₂ pass out
    ({ normal := union (some header) body₂.breaks, returns := body₂.returns }, out)
  | .switchStmt cond sections, state, pass, out =>
    let out := a.recordOpt cond state pass out
    let (acc, out) := evalSections sections state {} pass out
    let normal := union acc.breaks acc.cur
    ({ normal := if acc.hasDefault then normal else union normal (some state)
       continues := acc.continues, returns := acc.returns }, out)
  | .nop, state, _, out => (Flow.pass state, out)
  | .other node, state, pass, out => (Flow.pass state, a.poison node.span pass out)

def evalBlock : Block → Flow → Pass → List Mask → Flow × List Mask
  | .nil, flow, _, out => (flow, out)
  | .cons stmt rest, flow, pass, out =>
    match flow.normal with
    | none => (flow, out)
    | some cur =>
      let (next, out) := evalStmt stmt cur pass out
      evalBlock rest
        { normal := next.normal
          breaks := union flow.breaks next.breaks
          continues := union flow.continues next.continues
          returns := union flow.returns next.returns } pass out

/-- The loop over the sections of a switch entered with `entry`. Every label is reachable by
falling through and from the head. -/
def evalSections : Sections → Mask → SwitchFlow → Pass → List Mask → SwitchFlow × List Mask
  | .nil, _, acc, _, out => (acc, out)
  | .caseLabel value rest, entry, acc, pass, out =>
    evalSections rest entry { acc with cur := union acc.cur (some entry) } pass
      (a.recordOpt value entry pass out)
  | .defaultLabel rest, entry, acc, pass, out =>
    evalSections rest entry { acc with cur := union acc.cur (some entry), hasDefault := true } pass
      out
  | .stmt stmt rest, entry, acc, pass, out =>
    let (flow, out) := evalStmt stmt (acc.cur.getD entry) pass out
    evalSections rest entry
      { acc with
        breaks := union acc.breaks flow.breaks
        continues := union acc.continues flow.continues
        returns := union acc.returns flow.returns
        cur := flow.normal } pass out

end

/-- The masks recorded for the reads of a body. -/
def masks (body : Block) : List Mask :=
  (a.evalBlock body (Flow.pass 0#128) .record (List.replicate a.reads.length 0#128)).2

end Analyzer

structure ReachingDefs where
  /-- Per read: its byte range and the unique definition that reaches it. -/
  perRead : List (ByteRange × Option Nat)
  allDefs : List LocalDefinition

def reachingDefs (body : Block) (decl : LocalDeclaration) (mutations : List Mutation)
    (reads : List ByteRange) : ReachingDefs :=
  let allDefs := buildDefs decl mutations
  if allDefs.length > maxDefs then
    { perRead := reads.map (fun r => (r, none)), allDefs := allDefs }
  else
    { perRead := reads.zip (((⟨allDefs, reads⟩ : Analyzer).masks body).map soleDef)
      allDefs := allDefs }

/-! ### The walk as gen/kill functions -/

/-- The gen/kill function to every exit of a statement. -/
structure FlowTransfer where
  normal : Option (Transfer 128)
  breaks : Option (Transfer 128) := none
  continues : Option (Transfer 128) := none
  returns : Option (Transfer 128) := none

namespace FlowTransfer

def apply (t : FlowTransfer) (m : Mask) : Flow where
  normal := reachApply t.normal m
  breaks := reachApply t.breaks m
  continues := reachApply t.continues m
  returns := reachApply t.returns m

def join (s t : FlowTransfer) : FlowTransfer where
  normal := joinReach s.normal t.normal
  breaks := joinReach s.breaks t.breaks
  continues := joinReach s.continues t.continues
  returns := joinReach s.returns t.returns

/-- First `s`, then the exits of `t`. -/
def after (s : Transfer 128) (t : FlowTransfer) : FlowTransfer where
  normal := t.normal.map s.andThen
  breaks := t.breaks.map s.andThen
  continues := t.continues.map s.andThen
  returns := t.returns.map s.andThen

/-- What one pass of a loop body carries back to the header, before the iteration clause. -/
def carried (t : FlowTransfer) : Transfer 128 := (joinReach t.normal t.continues).getD .identity

/-- The exits of a loop whose header state is given and whose body is `t`. -/
def loop (header : Transfer 128) (t : FlowTransfer) : FlowTransfer where
  normal := joinReach (some header) (t.after header).breaks
  returns := (t.after header).returns

end FlowTransfer

structure SwitchTransfer where
  cur : Option (Transfer 128) := none
  breaks : Option (Transfer 128) := none
  continues : Option (Transfer 128) := none
  returns : Option (Transfer 128) := none
  hasDefault : Bool := false

def SwitchTransfer.apply (t : SwitchTransfer) (m : Mask) : SwitchFlow where
  cur := reachApply t.cur m
  breaks := reachApply t.breaks m
  continues := reachApply t.continues m
  returns := reachApply t.returns m
  hasDefault := t.hasDefault

lemma union_reachApply (s t : Option (Transfer 128)) (m : Mask) :
    union (reachApply s m) (reachApply t m) = reachApply (joinReach s t) m := by
  cases s <;> cases t <;> simp [reachApply, joinReach, union, Transfer.apply_join]

lemma reachApply_after (s : Transfer 128) (t : Option (Transfer 128)) (m : Mask) :
    reachApply (t.map s.andThen) m = reachApply t (s.apply m) := by
  cases t <;> simp [reachApply, Transfer.apply_andThen]

lemma FlowTransfer.apply_after (s : Transfer 128) (t : FlowTransfer) (m : Mask) :
    (t.after s).apply m = t.apply (s.apply m) := by
  simp [apply, after, reachApply_after]

lemma FlowTransfer.carried_eq (t : FlowTransfer) (m : Mask) :
    (union (t.apply m).normal (t.apply m).continues).getD m = t.carried.apply m := by
  rw [apply, union_reachApply, carried]
  cases joinReach t.normal t.continues with
  | none => simp [reachApply]
  | some c => rfl

lemma FlowTransfer.header_eq (t : FlowTransfer) (m : Mask) :
    (union (some m) (union (t.apply m).normal (t.apply m).continues)).getD m =
      t.carried.header.apply m := by
  rw [Transfer.apply_header, ← carried_eq]
  cases union (t.apply m).normal (t.apply m).continues with
  | none => simp [union]
  | some c => rfl

namespace Analyzer

variable (a : Analyzer)

def genTransfer (region : ByteRange) : Transfer 128 :=
  match a.latestIn region with
  | some i => .constant (1#128 <<< i)
  | none => .identity

lemma apply_genTransfer (region : ByteRange) (m : Mask) :
    (a.genTransfer region).apply m = a.genIn region m := by
  unfold genTransfer genIn
  cases a.latestIn region <;> simp

def genTransferOpt (region : Option Region) : Transfer 128 :=
  match region with
  | some r => a.genTransfer r.span
  | none => .identity

lemma apply_genTransferOpt (region : Option Region) (m : Mask) :
    (a.genTransferOpt region).apply m = a.genInOpt region m := by
  cases region with
  | none => exact Transfer.apply_identity m
  | some r => exact a.apply_genTransfer r.span m

lemma evalLeafOpt_state (region : Option Region) (m : Mask) (pass : Pass) (out : List Mask) :
    (a.evalLeafOpt region m pass out).1 = (a.genTransferOpt region).apply m := by
  rw [apply_genTransferOpt]
  cases region <;> rfl

mutual

def stmtTransfer : Stmt → FlowTransfer
  | .block stmts => blockTransfer stmts { normal := some .identity }
  | .leaf node => { normal := some (a.genTransfer node.span) }
  | .ret node => { normal := none, returns := some (a.genTransfer node.span) }
  | .brk => { normal := none, breaks := some .identity }
  | .cont => { normal := none, continues := some .identity }
  | .ifStmt _ body orElse => (stmtTransfer body).join (stmtTransfer orElse)
  | .whileStmt _ body =>
    let body := stmtTransfer body
    body.loop body.carried.header
  | .doWhile _ body =>
    let body := stmtTransfer body
    let passed := body.after body.carried.header
    { normal := joinReach passed.normal passed.breaks, returns := passed.returns }
  | .forStmt init _ iter body =>
    let body := stmtTransfer body
    let header := (body.carried.andThen (a.genTransferOpt iter)).header
    (body.loop header).after (a.genTransferOpt init)
  | .switchStmt _ sections =>
    let acc := sectionsTransfer sections {}
    let normal := joinReach acc.breaks acc.cur
    { normal := if acc.hasDefault then normal else joinReach normal (some .identity)
      continues := acc.continues, returns := acc.returns }
  | .nop => { normal := some .identity }
  | .other _ => { normal := some .identity }

def blockTransfer : Block → FlowTransfer → FlowTransfer
  | .nil, flow => flow
  | .cons stmt rest, flow =>
    match flow.normal with
    | none => flow
    | some cur =>
      let next := (stmtTransfer stmt).after cur
      blockTransfer rest
        { normal := next.normal
          breaks := joinReach flow.breaks next.breaks
          continues := joinReach flow.continues next.continues
          returns := joinReach flow.returns next.returns }

def sectionsTransfer : Sections → SwitchTransfer → SwitchTransfer
  | .nil, acc => acc
  | .caseLabel _ rest, acc =>
    sectionsTransfer rest { acc with cur := joinReach acc.cur (some .identity) }
  | .defaultLabel rest, acc =>
    sectionsTransfer rest { acc with cur := joinReach acc.cur (some .identity), hasDefault := true }
  | .stmt stmt rest, acc =>
    let flow := (stmtTransfer stmt).after (acc.cur.getD .identity)
    sectionsTransfer rest
      { acc with
        breaks := joinReach acc.breaks flow.breaks
        continues := joinReach acc.continues flow.continues
        returns := joinReach acc.returns flow.returns
        cur := flow.normal }

end

mutual

/-- The exits of a statement depend on the incoming state alone, by a gen/kill function. -/
theorem evalStmt_flow (s : Stmt) (m : Mask) (pass : Pass) (out : List Mask) :
    (a.evalStmt s m pass out).1 = (a.stmtTransfer s).apply m := by
  cases s with
  | block stmts =>
    rw [evalStmt, stmtTransfer, ← evalBlock_flow stmts { normal := some .identity } m pass out]
    simp [FlowTransfer.apply, reachApply, Flow.pass]
  | leaf node =>
    simp [evalStmt, stmtTransfer, evalLeaf, FlowTransfer.apply, reachApply, Flow.pass,
      apply_genTransfer]
  | ret node =>
    simp [evalStmt, stmtTransfer, evalLeaf, FlowTransfer.apply, reachApply, apply_genTransfer]
  | brk => simp [evalStmt, stmtTransfer, FlowTransfer.apply, reachApply]
  | cont => simp [evalStmt, stmtTransfer, FlowTransfer.apply, reachApply]
  | ifStmt cond body orElse =>
    simp only [evalStmt, stmtTransfer, evalStmt_flow body, evalStmt_flow orElse]
    simp [FlowTransfer.apply, FlowTransfer.join, union_reachApply]
  | whileStmt cond body =>
    simp only [evalStmt, stmtTransfer, evalStmt_flow body, FlowTransfer.header_eq]
    simp [FlowTransfer.apply, FlowTransfer.loop, FlowTransfer.after, ← union_reachApply,
      reachApply_after]
    simp [reachApply]
  | doWhile cond body =>
    simp only [evalStmt, stmtTransfer, evalStmt_flow body, FlowTransfer.header_eq]
    simp [FlowTransfer.apply, FlowTransfer.after, ← union_reachApply, reachApply_after]
    simp [reachApply]
  | forStmt init cond iter body =>
    simp only [evalStmt, stmtTransfer, evalStmt_flow body, evalLeafOpt_state,
      FlowTransfer.apply_after, FlowTransfer.carried_eq, ← apply_genTransferOpt]
    generalize (a.genTransferOpt init).apply m = entry
    simp only [union, Option.getD_some, ← Transfer.apply_andThen, ← Transfer.apply_header]
    simp [FlowTransfer.apply, FlowTransfer.loop, FlowTransfer.after, ← union_reachApply,
      reachApply_after]
    simp [reachApply, union]
  | switchStmt cond sections =>
    have hsections := evalSections_flow sections {} m pass (a.recordOpt cond m pass out)
    rw [show ({} : SwitchTransfer).apply m = {} from rfl] at hsections
    simp only [evalStmt, stmtTransfer, hsections]
    simp only [SwitchTransfer.apply, union_reachApply, FlowTransfer.apply]
    cases (a.sectionsTransfer sections {}).hasDefault with
    | true => rfl
    | false =>
      simp only [Bool.false_eq_true, if_false]
      rw [← union_reachApply _ (some .identity)]
      simp [reachApply]
  | nop => simp [evalStmt, stmtTransfer, FlowTransfer.apply, reachApply, Flow.pass]
  | other node => simp [evalStmt, stmtTransfer, FlowTransfer.apply, reachApply, Flow.pass]

theorem evalBlock_flow (b : Block) (acc : FlowTransfer) (m : Mask) (pass : Pass)
    (out : List Mask) :
    (a.evalBlock b (acc.apply m) pass out).1 = (a.blockTransfer b acc).apply m := by
  cases b with
  | nil => rfl
  | cons stmt rest =>
    cases hnormal : acc.normal with
    | none => simp [evalBlock, blockTransfer, FlowTransfer.apply, hnormal, reachApply]
    | some cur =>
      have hcur : (acc.apply m).normal = some (cur.apply m) := by
        simp [FlowTransfer.apply, hnormal, reachApply]
      rw [evalBlock, hcur, blockTransfer, hnormal]
      dsimp only
      rw [← evalBlock_flow rest _ m pass (a.evalStmt stmt (cur.apply m) pass out).2,
        evalStmt_flow stmt, ← FlowTransfer.apply_after]
      simp [FlowTransfer.apply, union_reachApply]

theorem evalSections_flow (s : Sections) (acc : SwitchTransfer) (m : Mask) (pass : Pass)
    (out : List Mask) :
    (a.evalSections s m (acc.apply m) pass out).1 = (a.sectionsTransfer s acc).apply m := by
  have hlabel : union (reachApply acc.cur m) (some m) =
      reachApply (joinReach acc.cur (some .identity)) m := by
    rw [← union_reachApply]
    simp [reachApply]
  cases s with
  | nil => rfl
  | caseLabel value rest =>
    rw [evalSections, sectionsTransfer,
      ← evalSections_flow rest _ m pass (a.recordOpt value m pass out)]
    simp only [SwitchTransfer.apply, hlabel]
  | defaultLabel rest =>
    rw [evalSections, sectionsTransfer, ← evalSections_flow rest _ m pass out]
    simp only [SwitchTransfer.apply, hlabel]
  | stmt stmt rest =>
    have hcur : ((acc.apply m).cur).getD m = (acc.cur.getD .identity).apply m := by
      cases hc : acc.cur <;> simp [SwitchTransfer.apply, reachApply, hc]
    rw [evalSections, hcur]
    dsimp only
    rw [evalStmt_flow stmt, ← FlowTransfer.apply_after, sectionsTransfer,
      ← evalSections_flow rest _ m pass
      (a.evalStmt stmt ((acc.cur.getD .identity).apply m) pass out).2]
    simp [SwitchTransfer.apply, FlowTransfer.apply, union_reachApply]

end

end Analyzer

end WitcherScriptLanguage
