import WitcherScriptLanguage.Refactor.Bodies

/-!
# What an expression can touch

The cells of the identifiers of an expression, and the cells that its assignments and calls can
change, bound what its execution does. A callee sees every shared cell.
-/

namespace WitcherScriptLanguage.Body

open Library

mutual

def Expr.occurrences : Expr → List Occurrence
  | .constant _ => []
  | .path p => p.occurrences
  | .operator _ operands => operands.occurrences
  | .shortCircuit _ left right => left.occurrences ++ right.occurrences
  | .ternary cond onTrue onFalse =>
    cond.occurrences ++ (onTrue.occurrences ++ onFalse.occurrences)
  | .create _ operands => operands.occurrences
  | .call _ callee args => callee.occurrences ++ args.occurrences
  | .assign _ left right => left.occurrences ++ right.occurrences

def Path.occurrences : Path → List Occurrence
  | .ident o => [o]
  | .root e => e.occurrences
  | .member base o => base.occurrences ++ [o]
  | .array accessor index => accessor.occurrences ++ index.occurrences
  | .nested p => p.occurrences

def Exprs.occurrences : Exprs → List Occurrence
  | .nil => []
  | .cons e rest => e.occurrences ++ rest.occurrences

end

mutual

/-- The expression and those below it. -/
def Expr.subexprs : Expr → List Expr
  | .constant text => [.constant text]
  | .path p => .path p :: p.subexprs
  | .operator op operands => .operator op operands :: operands.subexprs
  | .shortCircuit op left right =>
    .shortCircuit op left right :: (left.subexprs ++ right.subexprs)
  | .ternary cond onTrue onFalse =>
    .ternary cond onTrue onFalse :: (cond.subexprs ++ (onTrue.subexprs ++ onFalse.subexprs))
  | .create start operands => .create start operands :: operands.subexprs
  | .call start callee args => .call start callee args :: (callee.subexprs ++ args.subexprs)
  | .assign op left right => .assign op left right :: (left.subexprs ++ right.subexprs)

def Path.subexprs : Path → List Expr
  | .ident _ => []
  | .root e => e.subexprs
  | .member base _ => base.subexprs
  | .array accessor index => accessor.subexprs ++ index.subexprs
  | .nested p => p.subexprs

def Exprs.subexprs : Exprs → List Expr
  | .nil => []
  | .cons e rest => e.subexprs ++ rest.subexprs

end

/-- The cells that the outermost step of an expression can change. -/
def Expr.Changes : Expr → Cell → Prop
  | .assign _ left _, c => c ∈ left.cells
  | .call _ callee args, .var name => .var name ∈ (callee :: args.paths).flatMap Path.cells
  | .call .., .shared _ => True
  | _, _ => False

instance (e : Expr) (c : Cell) : Decidable (e.Changes c) := by
  cases e <;> cases c <;> unfold Expr.Changes <;> infer_instance

/-- The cells of the parts are touched, and what the steps among them can change is written. -/
structure Within (touched written : Set Cell) (os : List Occurrence) (es : List Expr) : Prop where
  cells : ∀ o ∈ os, ∀ c ∈ o.cell, c ∈ touched
  changes : ∀ e ∈ es, ∀ c, e.Changes c → c ∈ written

section Footprints

variable {touched written : Set Cell} {os os' : List Occurrence} {es es' : List Expr}

lemma Within.left (h : Within touched written (os ++ os') (es ++ es')) :
    Within touched written os es where
  cells o ho := h.cells o (List.mem_append_left _ ho)
  changes e he := h.changes e (List.mem_append_left _ he)

lemma Within.right (h : Within touched written (os ++ os') (es ++ es')) :
    Within touched written os' es' where
  cells o ho := h.cells o (List.mem_append_right _ ho)
  changes e he := h.changes e (List.mem_append_right _ he)

lemma Within.tail {e : Expr} (h : Within touched written os (e :: es)) :
    Within touched written os es where
  cells := h.cells
  changes e' he := h.changes e' (List.mem_cons_of_mem _ he)

/-- The identifiers on the way of a path. -/
def Path.steps : Path → List Occurrence
  | .ident o => [o]
  | .root _ => []
  | .member base o => base.steps ++ [o]
  | .array accessor _ => accessor.steps
  | .nested p => p.steps

lemma Path.exists_step {p : Path} {c : Cell} (h : c ∈ p.cells) :
    ∃ o ∈ p.steps, o.cell = some c := by
  induction p using Path.steps_induction with
  | ident o => exact ⟨o, List.mem_singleton_self o, Option.mem_toList.mp h⟩
  | member base o ih =>
    rcases List.mem_append.mp h with h | h
    · obtain ⟨o', ho', hc⟩ := ih h
      exact ⟨o', List.mem_append_left _ ho', hc⟩
    · exact ⟨o, List.mem_append_right _ (List.mem_singleton_self o), Option.mem_toList.mp h⟩
  | array accessor index ih => exact ih h
  | nested p ih => exact ih h
  | root e => cases h

lemma Path.steps_subset_occurrences (p : Path) : p.steps ⊆ p.occurrences := by
  induction p using Path.steps_induction with
  | ident o => exact List.Subset.refl _
  | root e => exact List.nil_subset _
  | member base o ih =>
    exact List.append_subset.mpr
      ⟨List.subset_append_of_subset_left _ ih, List.subset_append_right _ _⟩
  | array accessor index ih => exact List.subset_append_of_subset_left _ ih
  | nested p ih => exact ih

lemma Path.exists_occurrence {p : Path} {c : Cell} (h : c ∈ p.cells) :
    ∃ o ∈ p.occurrences, o.cell = some c := by
  obtain ⟨o, ho, hc⟩ := Path.exists_step h
  exact ⟨o, p.steps_subset_occurrences ho, hc⟩

lemma Path.cells_of_wholeVariable {p : Path} {name : String} (h : p.wholeVariable = some name) :
    p.cells = [.var name] := by
  induction p using Path.steps_induction with
  | ident o =>
    unfold Path.wholeVariable at h
    split at h
    next hcell =>
      cases h
      rw [Path.cells, hcell]
      rfl
    next => cases h
  | nested p ih => exact ih h
  | member => cases h
  | array => cases h
  | root => cases h

/-- All cells of the paths are touched. -/
def PathsIn (touched : Set Cell) (paths : List Path) : Prop :=
  ∀ c ∈ paths.flatMap Path.cells, c ∈ touched

lemma Within.cells_mem {p : Path} (h : ∀ o ∈ p.occurrences, ∀ c ∈ o.cell, c ∈ touched) {c : Cell}
    (hc : c ∈ p.cells) : c ∈ touched := by
  obtain ⟨o, ho, hcell⟩ := Path.exists_occurrence hc
  exact h o ho c hcell

lemma Exprs.mem_occurrences (args : Exprs) {p : Path} (hp : p ∈ args.paths) {o : Occurrence}
    (ho : o ∈ p.occurrences) : o ∈ args.occurrences := by
  induction args using Exprs.list_induction with
  | nil => cases hp
  | cons e rest ih =>
    cases e with
    | path q =>
      rcases List.mem_cons.mp hp with rfl | hp
      · exact List.mem_append_left _ ho
      · exact List.mem_append_right _ (ih hp)
    | _ => exact List.mem_append_right _ (ih hp)

variable {V : Type} {I : Interpretation V}

lemma footprint_look {β : Type} (h : written ⊆ touched) {view : State V → β}
    (hview : ∀ s s', Set.EqOn s s' touched → view s = view s') :
    Footprint touched written (look view) :=
  Footprint.get h view hview

lemma map_cells_eq {cells : List Cell} (hcells : ∀ c ∈ cells, c ∈ touched) {s s' : State V}
    (heq : Set.EqOn s s' touched) : cells.map s = cells.map s' :=
  List.map_congr_left fun c hc => heq (hcells c hc)

lemma footprint_readPath (h : written ⊆ touched) {p : Path} (hp : ∀ c ∈ p.cells, c ∈ touched)
    (values : List V) : Footprint touched written (readPath I p values) := by
  refine footprint_look h fun s s' heq => ?_
  unfold valueAt
  cases hwhole : p.wholeVariable with
  | some name =>
    refine heq (hp _ ?_)
    rw [Path.cells_of_wholeVariable hwhole]
    exact List.mem_singleton_self _
  | none => exact congrArg I.read (congrArg (Operands.mk p.names · values) (map_cells_eq hp heq))

lemma footprint_writePath (h : written ⊆ touched) {p : Path} (hp : ∀ c ∈ p.cells, c ∈ written)
    (values : List V) (v : V) : Footprint touched written (writePath I p values v) := by
  have htouched : ∀ c ∈ p.cells, c ∈ touched := fun c hc => h (hp c hc)
  refine Footprint.modify h _ (fun s c hc => ?_) fun s s' heq c hc => ?_
  · unfold assignAt
    cases hwhole : p.wholeVariable with
    | some name =>
      have hmem : Cell.var name ∈ written := hp _ (by
        rw [Path.cells_of_wholeVariable hwhole]
        exact List.mem_singleton_self _)
      have hne : c ≠ .var name := by
        rintro rfl
        exact hc hmem
      exact Function.update_of_ne hne v s
    | none => exact if_neg fun hcell => hc (hp c hcell)
  · unfold assignAt
    cases hwhole : p.wholeVariable with
    | some name =>
      by_cases hname : c = .var name
      · dsimp only
        rw [hname, Function.update_self, Function.update_self]
      · dsimp only
        rw [Function.update_of_ne hname, Function.update_of_ne hname]
        exact heq hc
    | none =>
      have hoperands : operandsOf p values s = operandsOf p values s' :=
        congrArg (Operands.mk p.names · values) (map_cells_eq htouched heq)
      dsimp only
      rw [hoperands, heq hc]

/-- A call changes what it is passed and all shared cells. -/
lemma footprint_applyCall (h : written ⊆ touched) {paths : List Path}
    (hpaths : PathsIn touched paths) (hshared : ∀ c, Cell.shared c ∈ written)
    (hvars : ∀ name, Cell.var name ∈ paths.flatMap Path.cells → Cell.var name ∈ written)
    (values : List V) : Footprint touched written (applyCall I paths values) := by
  have hoperands : ∀ s s' : State V, Set.EqOn s s' touched →
      callOperands paths values s = callOperands paths values s' := fun s s' heq =>
    congrArg (Operands.mk _ · values) (map_cells_eq hpaths heq)
  have hview : ∀ s s' : State V, Set.EqOn s s' touched → shared s = shared s' := fun s s' heq =>
    funext fun c => heq (h (hshared c))
  refine (footprint_look h fun s s' heq => ?_).bind fun result => Footprint.bind ?_ fun _ =>
    .pure h result
  · rw [hoperands s s' heq, hview s s' heq]
  · refine Footprint.modify h _ (fun s c hc => ?_) fun s s' heq c hc => ?_
    · cases c with
      | var name => exact if_neg fun hcell => hc (hvars name hcell)
      | shared c => exact absurd (hshared c) hc
    · cases c with
      | var name =>
        have hname : s (.var name) = s' (.var name) := heq hc
        simp only [calledAt]
        rw [hoperands s s' heq, hview s s' heq, hname]
      | shared c =>
        unfold calledAt
        rw [hoperands s s' heq, hview s s' heq]

mutual

theorem footprint_eval (h : written ⊆ touched) : ∀ e : Expr,
    Within touched written e.occurrences e.subexprs → Footprint touched written (e.eval I)
  | .constant text, _ => .pure h _
  | .path p, hin => by
    refine (footprint_evalPath h p hin.tail).bind fun values => footprint_readPath h ?_ values
    exact fun c hc => Within.cells_mem hin.cells hc
  | .operator op operands, hin =>
    (footprint_evalExprs h operands hin.tail).bind fun _ => .pure h _
  | .shortCircuit op left right, hin => by
    refine (footprint_eval h left hin.tail.left).bind fun v => ?_
    split
    · exact .pure h _
    · exact footprint_eval h right hin.tail.right
  | .ternary cond onTrue onFalse, hin => by
    refine (footprint_eval h cond hin.tail.left).bind fun v => ?_
    split
    · exact footprint_eval h onTrue hin.tail.right.left
    · exact footprint_eval h onFalse hin.tail.right.right
  | .create start operands, hin =>
    (footprint_evalExprs h operands hin.tail).bind fun _ => .pure h _
  | .call start callee args, hin => by
    refine (footprint_evalPath h callee hin.tail.left).bind fun values =>
      (footprint_evalExprs h args hin.tail.right).bind fun values' => ?_
    have hchanges := hin.changes _ List.mem_cons_self
    refine footprint_applyCall h ?_ (fun c => hchanges (.shared c) trivial)
      (fun name hname => hchanges (.var name) hname) _
    intro c hc
    obtain ⟨p, hp, hcell⟩ := List.mem_flatMap.mp hc
    rcases List.mem_cons.mp hp with rfl | hp
    · exact Within.cells_mem hin.tail.left.cells hcell
    · refine Within.cells_mem (fun o ho => ?_) hcell
      exact hin.tail.right.cells o (Exprs.mem_occurrences args hp ho)
  | .assign op left right, hin => by
    have hleft : ∀ c ∈ left.cells, c ∈ written := fun c hc =>
      hin.changes _ List.mem_cons_self c hc
    refine (footprint_evalPath h left hin.tail.left).bind fun values =>
      (footprint_eval h right hin.tail.right).bind fun v => ?_
    split
    · exact (footprint_writePath h hleft values v).bind fun _ => .pure h v
    · refine (footprint_readPath h (fun c hc => h (hleft c hc)) values).bind fun old => ?_
      exact (footprint_writePath h hleft values _).bind fun _ => .pure h _

theorem footprint_evalPath (h : written ⊆ touched) : ∀ p : Path,
    Within touched written p.occurrences p.subexprs → Footprint touched written (p.eval I)
  | .ident _, _ => .pure h _
  | .root e, hin => (footprint_eval h e hin).bind fun _ => .pure h _
  | .member base o, hin => by
    refine footprint_evalPath h base ⟨fun o ho => hin.cells o ?_, hin.changes⟩
    exact List.mem_append_left _ ho
  | .array accessor index, hin =>
    (footprint_evalPath h accessor hin.left).bind fun _ =>
      (footprint_eval h index hin.right).bind fun _ => .pure h _
  | .nested p, hin => footprint_evalPath h p hin

theorem footprint_evalExprs (h : written ⊆ touched) : ∀ es : Exprs,
    Within touched written es.occurrences es.subexprs → Footprint touched written (es.eval I)
  | .nil, _ => .pure h _
  | .cons e rest, hin =>
    (footprint_eval h e hin.left).bind fun _ =>
      (footprint_evalExprs h rest hin.right).bind fun _ => .pure h _

end

lemma footprint_evalOpt (h : written ⊆ touched) (e : Option Expr)
    (hin : Within touched written (e.elim [] Expr.occurrences) (e.elim [] Expr.subexprs)) :
    Footprint touched written (evalOpt I e) := by
  cases e with
  | none => exact .pure h _
  | some e => exact (footprint_eval h e hin).bind fun _ => .pure h _

lemma footprint_holds (h : written ⊆ touched) (e : Option Expr)
    (hin : Within touched written (e.elim [] Expr.occurrences) (e.elim [] Expr.subexprs)) :
    Footprint touched written (holds I e) := by
  cases e with
  | none => exact .pure h _
  | some e => exact (footprint_eval h e hin).bind fun _ => .pure h _

lemma footprint_setAll (h : written ⊆ touched) {names : List Declared}
    (hnames : ∀ d ∈ names, d.cell ∈ written) (contents : V → V) :
    Footprint touched written (modify (setAll names contents) : Exec V Unit) := by
  refine Footprint.modify h _ (fun s c hc => ?_) fun s s' heq c hc => ?_
  · refine if_neg fun hmem => ?_
    obtain ⟨d, hd, rfl⟩ := List.mem_map.mp hmem
    exact hc (hnames d hd)
  · unfold setAll
    rw [heq hc]

lemma footprint_declare (h : written ⊆ touched) {names : List Declared}
    (hnames : ∀ d ∈ names, d.cell ∈ written) (type : String) (init : Option Expr)
    (hin : Within touched written (init.elim [] Expr.occurrences) (init.elim [] Expr.subexprs)) :
    Footprint touched written (declare I names type init) := by
  cases init with
  | none => exact footprint_setAll h hnames _
  | some e => exact (footprint_eval h e hin).bind fun v => footprint_setAll h hnames _

end Footprints

def Section.labels : List Section → List Expr
  | [] => []
  | .caseLabel value :: rest => value :: Section.labels rest
  | _ :: rest => Section.labels rest

/-- The expressions of a statement outside the statements in it. -/
def Stmt.ownExprs : Stmt → List Expr
  | .decl _ _ init => init.toList
  | .expr e | .delete e => [e]
  | .ret value => value.toList
  | .ifStmt cond _ _ | .whileStmt cond _ | .doWhile _ cond => [cond]
  | .forStmt init cond iter _ => init.toList ++ (cond.toList ++ iter.toList)
  | .switchStmt value sections => value :: Section.labels sections
  | .brk | .cont | .nop | .comment _ | .block _ => []

def Stmt.ownNames : Stmt → List Declared
  | .decl names _ _ => names
  | _ => []

def Stmt.isDelete : Stmt → Bool
  | .delete _ => true
  | _ => false

mutual

/-- The statement and those in it. -/
def Stmt.substmts : Stmt → List Stmt
  | .block stmts => .block stmts :: blockSubstmts stmts
  | .ifStmt cond body orElse => .ifStmt cond body orElse :: (body.substmts ++ orElse.substmts)
  | .whileStmt cond body => .whileStmt cond body :: body.substmts
  | .doWhile body cond => .doWhile body cond :: body.substmts
  | .forStmt init cond iter body => .forStmt init cond iter body :: body.substmts
  | .switchStmt value sections => .switchStmt value sections :: sectionSubstmts sections
  | .decl names type init => [.decl names type init]
  | .expr e => [.expr e]
  | .delete e => [.delete e]
  | .ret value => [.ret value]
  | .brk => [.brk]
  | .cont => [.cont]
  | .nop => [.nop]
  | .comment text => [.comment text]

def blockSubstmts : List Stmt → List Stmt
  | [] => []
  | stmt :: rest => stmt.substmts ++ blockSubstmts rest

def sectionSubstmts : List Section → List Stmt
  | [] => []
  | .stmt stmt :: rest => stmt.substmts ++ sectionSubstmts rest
  | _ :: rest => sectionSubstmts rest

end

/-- What a statement does outside the statements in it stays within the cells. -/
structure Stmt.OwnWithin (touched written : Set Cell) (stmt : Stmt) : Prop where
  exprs : ∀ e ∈ stmt.ownExprs, Within touched written e.occurrences e.subexprs
  names : ∀ d ∈ stmt.ownNames, d.cell ∈ written
  deletes : stmt.isDelete = true → ∀ c, Cell.shared c ∈ written

/-- The statements stay within the cells. -/
def StmtsWithin (touched written : Set Cell) (stmts : List Stmt) : Prop :=
  ∀ stmt ∈ stmts, stmt.OwnWithin touched written

section Footprints

variable {touched written : Set Cell} {stmts stmts' : List Stmt} {V : Type}
  {I : Interpretation V}

lemma StmtsWithin.left (h : StmtsWithin touched written (stmts ++ stmts')) :
    StmtsWithin touched written stmts := fun s hs => h s (List.mem_append_left _ hs)

lemma StmtsWithin.right (h : StmtsWithin touched written (stmts ++ stmts')) :
    StmtsWithin touched written stmts' := fun s hs => h s (List.mem_append_right _ hs)

lemma StmtsWithin.tail {stmt : Stmt} (h : StmtsWithin touched written (stmt :: stmts)) :
    StmtsWithin touched written stmts := fun s hs => h s (List.mem_cons_of_mem _ hs)

lemma StmtsWithin.head {stmt : Stmt} (h : StmtsWithin touched written (stmt :: stmts)) :
    stmt.OwnWithin touched written := h stmt List.mem_cons_self

lemma within_opt {e : Option Expr} (h : ∀ e' ∈ e.toList, Within touched written e'.occurrences
    e'.subexprs) : Within touched written (e.elim [] Expr.occurrences)
      (e.elim [] Expr.subexprs) := by
  cases e with
  | none =>
    refine ⟨fun o ho => ?_, fun e he => ?_⟩
    · cases ho
    · cases he
  | some e => exact h e List.mem_cons_self

lemma footprint_rounds {step : Exec V (Option (Flow V))} (hstep : Footprint touched written step) :
    ∀ n, Footprint touched written (rounds step n)
  | 0 => .pure hstep.subset _
  | n + 1 => hstep.bind fun flow => by
    cases flow with
    | some flow => exact .pure hstep.subset _
    | none => exact footprint_rounds hstep n

lemma footprint_delete (h : written ⊆ touched) (hshared : ∀ c, Cell.shared c ∈ written) (v : V) :
    Footprint touched written
      (modify fun s => setShared s (I.delete v (shared s)) : Exec V Unit) := by
  refine Footprint.modify h _ (fun s c hc => ?_) fun s s' heq c hc => ?_
  · cases c with
    | var name => rfl
    | shared c => exact absurd (hshared c) hc
  · have hview : shared s = shared s' := funext fun c => heq (h (hshared c))
    cases c with
    | var name => exact heq hc
    | shared c =>
      dsimp only [setShared]
      rw [hview]

variable (n : Nat)

mutual

theorem footprint_run (h : written ⊆ touched) : ∀ stmt : Stmt,
    StmtsWithin touched written stmt.substmts → Footprint touched written (stmt.run I n)
  | .decl names type init, hin =>
    (footprint_declare h hin.head.names type init (within_opt hin.head.exprs)).bind fun _ =>
      .pure h _
  | .expr e, hin =>
    (footprint_eval h e (hin.head.exprs e List.mem_cons_self)).bind fun _ => .pure h _
  | .delete e, hin =>
    (footprint_eval h e (hin.head.exprs e List.mem_cons_self)).bind fun v =>
      (footprint_delete h (hin.head.deletes rfl) v).bind fun _ => .pure h _
  | .ret value, hin =>
    (footprint_evalOpt h value (within_opt hin.head.exprs)).bind fun _ => .pure h _
  | .brk, _ => .pure h _
  | .cont, _ => .pure h _
  | .nop, _ => .pure h _
  | .comment _, _ => .pure h _
  | .block stmts, hin => footprint_runBlock h stmts hin.tail
  | .ifStmt cond body orElse, hin => by
    refine (footprint_eval h cond (hin.head.exprs cond List.mem_cons_self)).bind fun v => ?_
    split
    · exact footprint_run h body hin.tail.left
    · exact footprint_run h orElse hin.tail.right
  | .whileStmt cond body, hin => by
    refine footprint_rounds ?_ n
    refine (footprint_eval h cond (hin.head.exprs cond List.mem_cons_self)).bind fun v => ?_
    split
    · exact (footprint_run h body hin.tail).bind fun _ => .pure h _
    · exact .pure h _
  | .doWhile body cond, hin => by
    refine footprint_rounds ((footprint_run h body hin.tail).bind fun flow => ?_) n
    split
    · exact .pure h _
    · refine (footprint_eval h cond (hin.head.exprs cond List.mem_cons_self)).bind fun v => ?_
      split <;> exact .pure h _
  | .forStmt init cond iter body, hin => by
    have hexprs := hin.head.exprs
    have hinit := within_opt fun e he => hexprs e (List.mem_append_left _ he)
    have hcond := within_opt fun e he =>
      hexprs e (List.mem_append_right _ (List.mem_append_left _ he))
    have hiter := within_opt fun e he =>
      hexprs e (List.mem_append_right _ (List.mem_append_right _ he))
    refine (footprint_evalOpt h init hinit).bind fun _ => footprint_rounds ?_ n
    refine (footprint_holds h cond hcond).bind fun go => ?_
    split
    · refine (footprint_run h body hin.tail).bind fun flow => ?_
      split
      · exact .pure h _
      · exact (footprint_evalOpt h iter hiter).bind fun _ => .pure h _
    · exact .pure h _
  | .switchStmt value sections, hin => by
    have hexprs := hin.head.exprs
    refine (footprint_eval h value (hexprs value List.mem_cons_self)).bind fun v => ?_
    have hlabels : ∀ e ∈ Section.labels sections, Within touched written e.occurrences
        e.subexprs := fun e he => hexprs e (List.mem_cons_of_mem _ he)
    refine (footprint_runCases h v sections hlabels hin.tail).bind fun flow => ?_
    split
    · exact .pure h _
    · exact (footprint_runDefault h sections hin.tail).bind fun _ => .pure h _

theorem footprint_runBlock (h : written ⊆ touched) : ∀ stmts : List Stmt,
    StmtsWithin touched written (blockSubstmts stmts) →
      Footprint touched written (runBlock I n stmts)
  | [], _ => .pure h _
  | stmt :: rest, hin => (footprint_run h stmt hin.left).bind fun flow => by
    cases flow with
    | normal => exact footprint_runBlock h rest hin.right
    | _ => exact .pure h _

theorem footprint_runSections (h : written ⊆ touched) : ∀ sections : List Section,
    StmtsWithin touched written (sectionSubstmts sections) →
      Footprint touched written (runSections I n sections)
  | [], _ => .pure h _
  | .stmt stmt :: rest, hin => (footprint_run h stmt hin.left).bind fun flow => by
    cases flow with
    | normal => exact footprint_runSections h rest hin.right
    | _ => exact .pure h _
  | .caseLabel _ :: rest, hin => footprint_runSections h rest hin
  | .defaultLabel :: rest, hin => footprint_runSections h rest hin

theorem footprint_runCases (h : written ⊆ touched) (v : V) : ∀ sections : List Section,
    (∀ e ∈ Section.labels sections, Within touched written e.occurrences e.subexprs) →
      StmtsWithin touched written (sectionSubstmts sections) →
        Footprint touched written (runCases I n v sections)
  | [], _, _ => .pure h _
  | .caseLabel value :: rest, hlabels, hin => by
    refine (footprint_eval h value (hlabels value List.mem_cons_self)).bind fun w => ?_
    split
    · exact (footprint_runSections h rest hin).bind fun _ => .pure h _
    · exact footprint_runCases h v rest (fun e he => hlabels e (List.mem_cons_of_mem _ he)) hin
  | .defaultLabel :: rest, hlabels, hin => footprint_runCases h v rest hlabels hin
  | .stmt stmt :: rest, hlabels, hin => footprint_runCases h v rest hlabels hin.right

theorem footprint_runDefault (h : written ⊆ touched) : ∀ sections : List Section,
    StmtsWithin touched written (sectionSubstmts sections) →
      Footprint touched written (runDefault I n sections)
  | [], _ => .pure h _
  | .defaultLabel :: rest, hin => footprint_runSections h rest hin
  | .caseLabel _ :: rest, hin => footprint_runDefault h rest hin
  | .stmt _ :: rest, hin => footprint_runDefault h rest hin.right

end

end Footprints

end WitcherScriptLanguage.Body
