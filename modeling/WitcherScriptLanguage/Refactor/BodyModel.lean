import WitcherScriptLanguage.Refactor.Effects
import WitcherScriptLanguage.Refactor.EditPlan
import WitcherScriptLanguage.Resolve.ReachingDefs

/-!
# The body model

What the refactorings know of a callable body: which identifiers write, what the identifiers of a
value resolve to, and whether a value can move over the statements between two positions of a
block (`resolve/body_model/mod.rs`, `resolve/writes.rs`). The window between the positions is the
list of the statements in it.
-/

namespace WitcherScriptLanguage.Body

/-- The identifier that an assignment to the path writes. -/
def Path.writeTarget : Path → Option Occurrence
  | .ident o => some o
  | .member _ o => some o
  | .nested p => p.writeTarget
  | .array accessor _ => accessor.writeTarget
  | .root _ => none

def Expr.writeTarget : Expr → Option Occurrence
  | .path p => p.writeTarget
  | _ => none

def Expr.isThis : Expr → Bool
  | .constant text => text == "this"
  | _ => false

/-- `this.field` is rooted at the field. -/
def Path.lvalueBaseIdent : Path → Option Occurrence
  | .ident o => some o
  | .member (.root e) o => if e.isThis then some o else none
  | .member base _ => base.lvalueBaseIdent
  | .nested p => p.lvalueBaseIdent
  | .array accessor _ => accessor.lvalueBaseIdent
  | .root _ => none

def methodCallReceiverBase : Path → Option Occurrence
  | .member base _ => base.lvalueBaseIdent
  | _ => none

structure WriteSite where
  kind : WriteKind
  node : Occurrence
  deriving DecidableEq

def Exprs.toList : Exprs → List Expr
  | .nil => []
  | .cons e rest => e :: rest.toList

structure BodyModel where
  uri : String
  /-- `resolve_definition_at_byte`: the key and the kind of what an identifier refers to. -/
  definitionAt : Nat → Option (DefKey × SymbolKind)
  /-- Which parameters of the callee are `out`, for each call with a known callee. -/
  outParams : Nat → Option (List Bool)

namespace BodyModel

variable (m : BodyModel)

def outArgs (start : Nat) (args : Exprs) : List Expr :=
  match m.outParams start with
  | none => []
  | some params => ((params.zip args.toList).filter Prod.fst).map Prod.snd

/-- The write sites of the outermost step of an expression. -/
def writeSites : Expr → List WriteSite
  | .assign _ left _ =>
    match left.writeTarget with
    | none => []
    | some target => ⟨.assignTarget, target⟩ ::
      ((left.lvalueBaseIdent.toList.filter fun base => base ≠ target).map (⟨.assignBase, ·⟩))
  | .call start callee args =>
    ((m.outArgs start args).filterMap Expr.writeTarget).map (⟨.outArg, ·⟩) ++
      (methodCallReceiverBase callee).toList.map (⟨.receiverBase, ·⟩)
  | _ => []

/-- The write sites that resolve, with what they write. -/
def writes (es : List Expr) : List (DefKey × WriteSite) :=
  (es.flatMap m.writeSites).filterMap fun site =>
    (m.definitionAt site.node.start).map fun d => (d.1, site)

end BodyModel

def isCall : Expr → Bool
  | .call .. => true
  | _ => false

def hasCall (es : List Expr) : Bool := es.any isCall

/-- The expressions in the statements of a window. -/
def windowExprs (window : List Stmt) : List Expr :=
  (blockSubstmts window).flatMap fun stmt => stmt.ownExprs.flatMap Expr.subexprs

def windowNames (window : List Stmt) : List Declared :=
  (blockSubstmts window).flatMap Stmt.ownNames

def Declared.range (d : Declared) : ByteRange := ⟨d.start, d.start + d.name.utf8ByteSize⟩

namespace BodyModel

variable (m : BodyModel)

def localKey (d : Declared) : DefKey := (m.uri, d.range)

def isStored (kind : SymbolKind) : Bool :=
  kind = .variable || kind = .parameter || kind = .field

/-- Locals, parameters and fields that the value references. -/
def referencedDefs (value : Expr) : List (DefKey × SymbolKind) :=
  value.occurrences.filterMap fun o => (m.definitionAt o.start).filter fun d => isStored d.2

def operandWrittenIn (value : Expr) (window : List Stmt) : Bool :=
  (m.writes (windowExprs window)).any fun w => ((m.referencedDefs value).map Prod.fst).contains w.1

def hasObservableEffect (value : Expr) : Bool := hasCall value.subexprs

/-- Whether the value can move over the window, and whether that move is verified. A call in the
window is never in a branch that excludes the value, for both are below one block. -/
def valueHoistability (value : Expr) (window : List Stmt) (target : Declared) :
    Option Confidence :=
  let operands := (m.referencedDefs value).map Prod.fst
  if operands.contains (m.localKey target) then none
  -- An operand declared between the two is not yet in scope back at the declaration.
  else if operands.any (fun k => k.1 = m.uri &&
      (windowNames window).any fun d => d.start = k.2.start) then none
  else if m.operandWrittenIn value window then none
  else if hasObservableEffect value then
    some (if window.isEmpty then .verified else .unverified)
  -- A call between the two could change an operand the value reads.
  else if !hasCall (windowExprs window) || operands.isEmpty then some .verified
  else some .unverified

end BodyModel

end WitcherScriptLanguage.Body
