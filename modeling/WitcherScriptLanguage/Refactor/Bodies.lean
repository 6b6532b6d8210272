import Mathlib.Data.List.Basic
import WitcherScriptLanguage.Library.Footprints
import WitcherScriptLanguage.Symbols

/-!
# Function bodies and what they do

Statements and expressions of a callable body, with the identifiers bound to what they denote, and
their execution. The refactorings only tell reads, writes and calls apart, so operators, calls and
the contents of objects are left to an interpretation: a body behaves as another one when it does
so under each of them.
-/

namespace WitcherScriptLanguage

open Library

/-- The document and the name range of a declaration (`definition_key`). -/
abbrev DefKey := String × ByteRange

namespace Body

/-- What the callees of a body can see: the contents of a field in all objects, and the rest of
the game. -/
inductive Shared
  | field (key : DefKey)
  | world
  deriving DecidableEq

/-- A cell of the store. Parameters and locals share a namespace. -/
inductive Cell
  | var (name : String)
  | shared (s : Shared)
  deriving DecidableEq

/-- An identifier at a byte. It denotes a variable or a field, or else a constant or a callable. -/
structure Occurrence where
  name : String
  start : Nat
  cell : Option Cell
  deriving DecidableEq

/-- A declared name at a byte. -/
structure Declared where
  name : String
  start : Nat
  deriving DecidableEq

def Declared.cell (d : Declared) : Cell := .var d.name

mutual

inductive Expr
  /-- A literal, or a receiver such as `this`. -/
  | constant (text : String)
  | path (p : Path)
  /-- A unary or binary operator, a cast, an initialiser list or a sequence. -/
  | operator (op : String) (operands : Exprs)
  /-- `&&` or `||` -/
  | shortCircuit (op : String) (left right : Expr)
  | ternary (cond onTrue onFalse : Expr)
  /-- `new`; the object is told from others by the occurrence. -/
  | create (start : Nat) (operands : Exprs)
  | call (start : Nat) (callee : Path) (args : Exprs)
  /-- `=` is a direct assignment, all other operators fold in the value before. -/
  | assign (op : String) (left : Path) (right : Expr)

/-- An identifier, a member access or an array access. -/
inductive Path
  | ident (o : Occurrence)
  /-- Any other expression in front of the members. -/
  | root (e : Expr)
  | member (base : Path) (o : Occurrence)
  | array (accessor : Path) (index : Expr)
  | nested (p : Path)

inductive Exprs
  | nil
  | cons (e : Expr) (rest : Exprs)

end

mutual

inductive Stmt
  | decl (names : List Declared) (type : String) (init : Option Expr)
  | expr (e : Expr)
  | delete (e : Expr)
  | ret (value : Option Expr)
  | brk
  | cont
  | nop
  | comment (text : String)
  | block (stmts : List Stmt)
  | ifStmt (cond : Expr) (body orElse : Stmt)
  | whileStmt (cond : Expr) (body : Stmt)
  | doWhile (body : Stmt) (cond : Expr)
  | forStmt (init cond iter : Option Expr) (body : Stmt)
  | switchStmt (value : Expr) (sections : List Section)

inductive Section
  | caseLabel (value : Expr)
  | defaultLabel
  | stmt (s : Stmt)

end

/-- The induction on the way of a path, not into its indexes. -/
@[elab_as_elim]
theorem Path.steps_induction {motive : Path → Prop} (ident : ∀ o, motive (.ident o))
    (root : ∀ e, motive (.root e)) (member : ∀ base o, motive base → motive (.member base o))
    (array : ∀ accessor index, motive accessor → motive (.array accessor index))
    (nested : ∀ p, motive p → motive (.nested p)) : ∀ p, motive p
  | .ident o => ident o
  | .root e => root e
  | .member base o => member base o (Path.steps_induction ident root member array nested base)
  | .array accessor index =>
    array accessor index (Path.steps_induction ident root member array nested accessor)
  | .nested p => nested p (Path.steps_induction ident root member array nested p)

@[elab_as_elim]
theorem Exprs.list_induction {motive : Exprs → Prop} (nil : motive .nil)
    (cons : ∀ e rest, motive rest → motive (.cons e rest)) : ∀ es, motive es
  | .nil => nil
  | .cons e rest => cons e rest (Exprs.list_induction nil cons rest)

namespace Path

/-- The cells that a path leads through. -/
def cells : Path → List Cell
  | ident o => o.cell.toList
  | root _ => []
  | member base o => base.cells ++ o.cell.toList
  | array accessor _ => accessor.cells
  | nested p => p.cells

/-- The steps of a path without the values of its indexes. -/
def names : Path → List String
  | ident o => [o.name]
  | root _ => ["()"]
  | member base o => base.names ++ [o.name]
  | array accessor _ => accessor.names ++ ["[]"]
  | nested p => p.names

/-- The variable that is the whole path. -/
def wholeVariable : Path → Option String
  | ident o => match o.cell with
    | some (.var name) => some name
    | _ => none
  | nested p => p.wholeVariable
  | _ => none

end Path

abbrev State (V : Type) := Cell → V

/-- What a callee or an operator is applied to: the steps of the paths, the contents of their
cells, and all values in their order. -/
structure Operands (V : Type) where
  names : List String
  contents : List V
  values : List V

/-- The meaning of what the refactorings do not look into. -/
structure Interpretation (V : Type) where
  constant : String → V
  operator : String → List V → V
  truthy : V → Bool
  same : V → V → Bool
  /-- What a declaration of a variable leaves in it. -/
  initial : String → V → V
  create : Nat → List V → V
  /-- The value at the end of a path. -/
  read : Operands V → V
  /-- The new contents of a cell on the path of an assignment. -/
  write : Operands V → V → Cell → V
  /-- The result of a call, and what the callee leaves in the cells that it can see. -/
  call : Operands V → (Shared → V) → V × (Shared → V)
  /-- What a call leaves in a variable that is passed to it or that it is made on. -/
  passBack : Operands V → (Shared → V) → String → V
  delete : V → (Shared → V) → (Shared → V)

abbrev Exec (V β : Type) := StoreM Cell V β

section Execution

variable {V : Type} (I : Interpretation V)

def shared (s : State V) : Shared → V := fun c => s (.shared c)

def setShared (s : State V) (contents : Shared → V) : State V
  | .var name => s (.var name)
  | .shared c => contents c

def operandsOf (p : Path) (values : List V) (s : State V) : Operands V :=
  ⟨p.names, p.cells.map s, values⟩

def valueAt (p : Path) (values : List V) (s : State V) : V :=
  match p.wholeVariable with
  | some name => s (.var name)
  | none => I.read (operandsOf p values s)

def assignAt (p : Path) (values : List V) (v : V) (s : State V) : State V :=
  match p.wholeVariable with
  | some name => Function.update s (.var name) v
  | none => fun c => if c ∈ p.cells then I.write (operandsOf p values s) v c else s c

/-- What a call is made with: the callee and the arguments one after the other. -/
def callOperands (paths : List Path) (values : List V) (s : State V) : Operands V :=
  ⟨paths.flatMap Path.names, (paths.flatMap Path.cells).map s, values⟩

/-- The store behind a call. -/
def calledAt (paths : List Path) (values : List V) (s : State V) : State V
  | .var name =>
    if .var name ∈ paths.flatMap Path.cells then
      I.passBack (callOperands paths values s) (shared s) name
    else s (.var name)
  | .shared c => (I.call (callOperands paths values s) (shared s)).2 c

def look {β : Type} (view : State V → β) : Exec V β := do
  return view (← get)

def readPath (p : Path) (values : List V) : Exec V V := look (valueAt I p values)

def writePath (p : Path) (values : List V) (v : V) : Exec V Unit :=
  modify (assignAt I p values v)

def applyCall (paths : List Path) (values : List V) : Exec V V := do
  let result ← look fun s => (I.call (callOperands paths values s) (shared s)).1
  modify (calledAt I paths values)
  return result

/-- The arguments that are paths. -/
def Exprs.paths : Exprs → List Path
  | .nil => []
  | .cons (.path p) rest => p :: rest.paths
  | .cons _ rest => rest.paths

mutual

def Expr.eval : Expr → Exec V V
  | .constant text => return I.constant text
  | .path p => do
    let values ← p.eval
    readPath I p values
  | .operator op operands => return I.operator op (← operands.eval)
  | .shortCircuit op left right => do
    let v ← left.eval
    if I.truthy v = (op == "||") then return v
    right.eval
  | .ternary cond onTrue onFalse => do
    let v ← cond.eval
    if I.truthy v then onTrue.eval else onFalse.eval
  | .create start operands => return I.create start (← operands.eval)
  | .call _ callee args => do
    let values ← callee.eval
    let values' ← args.eval
    applyCall I (callee :: args.paths) (values ++ values')
  | .assign op left right => do
    let values ← left.eval
    let v ← right.eval
    if op = "=" then
      writePath I left values v
      return v
    else
      let old ← readPath I left values
      let v' := I.operator op [old, v]
      writePath I left values v'
      return v'

/-- The values of the root and of the indexes. -/
def Path.eval : Path → Exec V (List V)
  | .ident _ => return []
  | .root e => return [← e.eval]
  | .member base _ => base.eval
  | .array accessor index => return (← accessor.eval) ++ [← index.eval]
  | .nested p => p.eval

def Exprs.eval : Exprs → Exec V (List V)
  | .nil => return []
  | .cons e rest => return (← e.eval) :: (← rest.eval)

end

/-- How a statement ends. -/
inductive Flow (V : Type)
  | normal
  | brk
  | cont
  | ret (value : Option V)
  /-- The bound on the rounds of a loop was reached. -/
  | unfinished
  deriving DecidableEq

def evalOpt : Option Expr → Exec V (Option V)
  | none => return none
  | some e => return some (← e.eval I)

def holds : Option Expr → Exec V Bool
  | none => return true
  | some e => return I.truthy (← e.eval I)

/-- The cells of the declared variables get new contents. -/
def setAll (names : List Declared) (contents : V → V) (s : State V) : State V :=
  fun c => if c ∈ names.map Declared.cell then contents (s c) else s c

/-- The declared variables get their initial contents, or the value. -/
def declare (names : List Declared) (type : String) : Option Expr → Exec V Unit
  | none => modify (setAll names (I.initial type))
  | some e => do
    let v ← e.eval I
    modify (setAll names fun _ => v)

/-- Rounds of a loop; `step` says whether another one follows. -/
def rounds (step : Exec V (Option (Flow V))) : Nat → Exec V (Flow V)
  | 0 => return .unfinished
  | n + 1 => do
    match ← step with
    | some flow => return flow
    | none => rounds step n

/-- The end of a round: `none` when the loop goes on. -/
def Flow.leaves : Flow V → Option (Flow V)
  | .normal | .cont => none
  | .brk => some .normal
  | .ret value => some (.ret value)
  | .unfinished => some .unfinished

/-- A `break` in a switch ends the switch. -/
def Flow.leaveSwitch : Flow V → Flow V
  | .brk => .normal
  | flow => flow

variable (n : Nat)

mutual

/-- `n` bounds the rounds of each loop. -/
def Stmt.run : Stmt → Exec V (Flow V)
  | .decl names type init => do
    declare I names type init
    return .normal
  | .expr e => do
    let _ ← e.eval I
    return .normal
  | .delete e => do
    let v ← e.eval I
    modify fun s => setShared s (I.delete v (shared s))
    return .normal
  | .ret value => return .ret (← evalOpt I value)
  | .brk => return .brk
  | .cont => return .cont
  | .nop | .comment _ => return .normal
  | .block stmts => runBlock stmts
  | .ifStmt cond body orElse => do
    if I.truthy (← cond.eval I) then body.run else orElse.run
  | .whileStmt cond body => rounds (do
      if I.truthy (← cond.eval I) then return (← body.run).leaves else return some .normal) n
  | .doWhile body cond => rounds (do
      match (← body.run).leaves with
      | some flow => return some flow
      | none => if I.truthy (← cond.eval I) then return none else return some .normal) n
  | .forStmt init cond iter body => do
    let _ ← evalOpt I init
    rounds (do
      if ← holds I cond then
        match (← body.run).leaves with
        | some flow => return some flow
        | none => do
          let _ ← evalOpt I iter
          return none
      else return some .normal) n
  | .switchStmt value sections => do
    let v ← value.eval I
    match ← runCases v sections with
    | some flow => return flow.leaveSwitch
    | none => return (← runDefault sections).leaveSwitch

def runBlock : List Stmt → Exec V (Flow V)
  | [] => return .normal
  | stmt :: rest => do
    match ← stmt.run with
    | .normal => runBlock rest
    | flow => return flow

/-- The statements behind a label; control falls through the labels among them. -/
def runSections : List Section → Exec V (Flow V)
  | [] => return .normal
  | .stmt stmt :: rest => do
    match ← stmt.run with
    | .normal => runSections rest
    | flow => return flow
  | _ :: rest => runSections rest

def runCases (v : V) : List Section → Exec V (Option (Flow V))
  | [] => return none
  | .caseLabel value :: rest => do
    let w ← value.eval I
    if I.same v w then return some (← runSections rest) else runCases v rest
  | _ :: rest => runCases v rest

def runDefault : List Section → Exec V (Flow V)
  | [] => return .normal
  | .defaultLabel :: rest => runSections rest
  | _ :: rest => runDefault rest

end

end Execution

end Body

end WitcherScriptLanguage
