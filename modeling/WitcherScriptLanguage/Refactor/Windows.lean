import WitcherScriptLanguage.Refactor.Contexts
import WitcherScriptLanguage.Refactor.MoveValue

/-!
# Windows of a block

The statements between a declaration and the place its value moves to or comes from, how their run
ends, and the assignment behind them.
-/

namespace WitcherScriptLanguage.Body

open Library StoreM

/-- The statements behind one position up to another. -/
def windowOf (block : List Stmt) (i stop : Nat) : List Stmt := (block.drop (i + 1)).take (stop - i)

lemma mem_windowOf {block : List Stmt} {i stop : Nat} {stmt : Stmt}
    (h : stmt ∈ windowOf block i stop) : ∃ j, i < j ∧ j ≤ stop ∧ block[j]? = some stmt := by
  obtain ⟨k, hk⟩ := List.mem_iff_getElem?.mp h
  rw [windowOf, List.getElem?_take] at hk
  split_ifs at hk with hlt
  rw [List.getElem?_drop] at hk
  exact ⟨i + 1 + k, by omega, by omega, hk⟩

/-- The block is the statements in front of one, the window behind it, and the rest. -/
lemma block_eq_window {block : List Stmt} {i stop : Nat} {stmt : Stmt}
    (hstmt : block[i]? = some stmt) (hle : i ≤ stop) : block =
      block.take i ++ stmt :: (windowOf block i stop ++ block.drop (stop + 1)) := by
  obtain ⟨hlt, hget⟩ := List.getElem?_eq_some_iff.mp hstmt
  have hdrop : block.drop i = stmt :: block.drop (i + 1) := by
    rw [List.drop_eq_getElem_cons hlt, hget]
  have hwindow : block.drop (i + 1) = windowOf block i stop ++ block.drop (stop + 1) := by
    have hsplit := (List.take_append_drop (stop - i) (block.drop (i + 1))).symm
    rw [List.drop_drop, show i + 1 + (stop - i) = stop + 1 by omega] at hsplit
    exact hsplit
  calc block = block.take i ++ block.drop i := (List.take_append_drop i block).symm
    _ = _ := by rw [hdrop, hwindow]

/-- How statements can end other than by running through. -/
inductive Jump
  | brk
  | cont
  /-- A `return`, or rounds of a loop without end. -/
  | stop
  deriving DecidableEq

def Flow.jump {V : Type} : Flow V → Option Jump
  | .normal => none
  | .brk => some .brk
  | .cont => some .cont
  | .ret _ | .unfinished => some .stop

mutual

def Stmt.jumps : Stmt → List Jump
  | .brk => [.brk]
  | .cont => [.cont]
  | .ret _ => [.stop]
  | .block stmts => blockJumps stmts
  | .ifStmt _ body orElse => body.jumps ++ orElse.jumps
  | .whileStmt .. | .doWhile .. | .forStmt .. => [.stop]
  | .switchStmt _ sections => (sectionJumps sections).filter (· ≠ .brk)
  | .decl .. | .expr _ | .delete _ | .nop | .comment _ => []

def blockJumps : List Stmt → List Jump
  | [] => []
  | stmt :: rest => stmt.jumps ++ blockJumps rest

def sectionJumps : List Section → List Jump
  | [] => []
  | .stmt stmt :: rest => stmt.jumps ++ sectionJumps rest
  | _ :: rest => sectionJumps rest

end

section Jumps

variable {V : Type} {I : Interpretation V} {n : Nat}

/-- A loop passes on no `break` and no `continue`. -/
lemma jump_leaves {flow flow' : Flow V} (h : flow.leaves = some flow') :
    flow'.jump = none ∨ flow'.jump = some .stop := by
  cases flow with
  | normal => cases h
  | brk => exact .inl (Option.some.inj h ▸ rfl)
  | cont => cases h
  | ret value => exact .inr (Option.some.inj h ▸ rfl)
  | unfinished => exact .inr (Option.some.inj h ▸ rfl)

/-- The ends of a loop are the ends of its rounds, or the bound. -/
lemma jump_rounds {step : Exec V (Option (Flow V))}
    (hstep : ∀ s, ∀ flow ∈ result step s, flow.jump = none ∨ flow.jump = some .stop) :
    ∀ n s, ∀ j ∈ (result (rounds step n) s).jump, j = .stop
  | 0, s, j, hj => (Option.some.inj hj).symm
  | n + 1, s, j, hj => by
    rw [rounds, result_bind] at hj
    cases hround : result step s with
    | none =>
      rw [hround] at hj
      exact jump_rounds hstep n _ j hj
    | some flow =>
      rw [hround, result_pure] at hj
      rcases hstep s flow hround with hnone | hstop
      · rw [hnone] at hj
        cases hj
      · rw [hstop] at hj
        exact (Option.some.inj hj).symm

lemma jump_leaveSwitch {flow : Flow V} {j : Jump} (h : j ∈ flow.leaveSwitch.jump) :
    j ∈ flow.jump ∧ j ≠ .brk := by
  cases flow with
  | normal => cases h
  | brk => cases h
  | cont => exact ⟨h, fun hbrk => by cases hbrk; cases h⟩
  | ret value => exact ⟨h, fun hbrk => by cases hbrk; cases h⟩
  | unfinished => exact ⟨h, fun hbrk => by cases hbrk; cases h⟩

mutual

/-- The step: one kind of statement after the other. -/
theorem mem_jumps_of_run : ∀ (stmt : Stmt) (s : State V),
    ∀ j ∈ (result (stmt.run I n) s).jump, j ∈ stmt.jumps
  | .brk, s, j, hj => by
    rw [← Option.some.inj hj]
    exact List.mem_singleton_self _
  | .cont, s, j, hj => by
    rw [← Option.some.inj hj]
    exact List.mem_singleton_self _
  | .ret value, s, j, hj => by
    rw [← Option.some.inj hj]
    exact List.mem_singleton_self _
  | .block stmts, s, j, hj => mem_jumps_of_runBlock stmts s j hj
  | .ifStmt cond body orElse, s, j, hj => by
    rw [Stmt.run, result_bind] at hj
    split at hj
    · exact List.mem_append_left _ (mem_jumps_of_run body _ j hj)
    · exact List.mem_append_right _ (mem_jumps_of_run orElse _ j hj)
  | .whileStmt cond body, s, j, hj => by
    refine List.mem_singleton.mpr (jump_rounds (fun s flow hflow => ?_) n s j hj)
    rw [result_bind] at hflow
    split at hflow
    · exact jump_leaves hflow
    · exact .inl (Option.some.inj hflow ▸ rfl)
  | .doWhile body cond, s, j, hj => by
    refine List.mem_singleton.mpr (jump_rounds (fun s flow hflow => ?_) n s j hj)
    rw [result_bind] at hflow
    cases hleaves : (result (body.run I n) s).leaves with
    | some flow' =>
      rw [hleaves] at hflow
      exact jump_leaves (hleaves.trans hflow)
    | none =>
      rw [hleaves, result_bind] at hflow
      split at hflow
      · cases hflow
      · exact .inl (Option.some.inj hflow ▸ rfl)
  | .forStmt init cond iter body, s, j, hj => by
    refine List.mem_singleton.mpr (jump_rounds (fun s flow hflow => ?_) n _ j hj)
    rw [result_bind] at hflow
    split at hflow
    · rw [result_bind] at hflow
      cases hleaves : (result (body.run I n) (after (holds I cond) s)).leaves with
      | some flow' =>
        rw [hleaves] at hflow
        exact jump_leaves (hleaves.trans hflow)
      | none =>
        rw [hleaves] at hflow
        cases hflow
    · exact .inl (Option.some.inj hflow ▸ rfl)
  | .switchStmt value sections, s, j, hj => by
    rw [Stmt.run, result_bind, result_bind] at hj
    cases hcases : result (runCases I n (result (value.eval I) s) sections)
        (after (value.eval I) s) with
    | some flow =>
      rw [hcases, result_pure] at hj
      obtain ⟨hjump, hbrk⟩ := jump_leaveSwitch hj
      have hin := mem_jumps_of_runCases sections _ _ j flow hcases hjump
      exact List.mem_filter.mpr ⟨hin, decide_eq_true hbrk⟩
    | none =>
      rw [hcases, result_bind, result_pure] at hj
      obtain ⟨hjump, hbrk⟩ := jump_leaveSwitch hj
      have hin := mem_jumps_of_runDefault sections _ j hjump
      exact List.mem_filter.mpr ⟨hin, decide_eq_true hbrk⟩
  | .decl .., s, j, hj | .expr _, s, j, hj | .delete _, s, j, hj | .nop, s, j, hj
  | .comment _, s, j, hj => by cases hj

theorem mem_jumps_of_runBlock : ∀ (stmts : List Stmt) (s : State V),
    ∀ j ∈ (result (runBlock I n stmts) s).jump, j ∈ blockJumps stmts
  | [], s, j, hj => by cases hj
  | stmt :: rest, s, j, hj => by
    rw [runBlock, result_bind] at hj
    have hfirst := mem_jumps_of_run stmt s j
    cases hflow : result (stmt.run I n) s with
    | normal =>
      rw [hflow] at hj
      exact List.mem_append_right _ (mem_jumps_of_runBlock rest _ j hj)
    | _ =>
      rw [hflow] at hj hfirst
      exact List.mem_append_left _ (hfirst hj)

theorem mem_jumps_of_runSections : ∀ (sections : List Section) (s : State V),
    ∀ j ∈ (result (runSections I n sections) s).jump, j ∈ sectionJumps sections
  | [], s, j, hj => by cases hj
  | .stmt stmt :: rest, s, j, hj => by
    rw [runSections, result_bind] at hj
    have hfirst := mem_jumps_of_run stmt s j
    cases hflow : result (stmt.run I n) s with
    | normal =>
      rw [hflow] at hj
      exact List.mem_append_right _ (mem_jumps_of_runSections rest _ j hj)
    | _ =>
      rw [hflow] at hj hfirst
      exact List.mem_append_left _ (hfirst hj)
  | .caseLabel _ :: rest, s, j, hj => mem_jumps_of_runSections rest s j hj
  | .defaultLabel :: rest, s, j, hj => mem_jumps_of_runSections rest s j hj

theorem mem_jumps_of_runCases : ∀ (sections : List Section) (v : V) (s : State V) (j : Jump)
    (flow : Flow V), result (runCases I n v sections) s = some flow → j ∈ flow.jump →
      j ∈ sectionJumps sections
  | [], v, s, j, flow, h, hj => by cases h
  | .caseLabel value :: rest, v, s, j, flow, h, hj => by
    rw [runCases, result_bind] at h
    split at h
    · rw [result_bind, result_pure, Option.some.injEq] at h
      rw [← h] at hj
      exact mem_jumps_of_runSections rest _ j hj
    · exact mem_jumps_of_runCases rest v _ j flow h hj
  | .defaultLabel :: rest, v, s, j, flow, h, hj => mem_jumps_of_runCases rest v s j flow h hj
  | .stmt stmt :: rest, v, s, j, flow, h, hj =>
    List.mem_append_right _ (mem_jumps_of_runCases rest v s j flow h hj)

theorem mem_jumps_of_runDefault : ∀ (sections : List Section) (s : State V),
    ∀ j ∈ (result (runDefault I n sections) s).jump, j ∈ sectionJumps sections
  | [], s, j, hj => by cases hj
  | .defaultLabel :: rest, s, j, hj => mem_jumps_of_runSections rest s j hj
  | .caseLabel _ :: rest, s, j, hj => mem_jumps_of_runDefault rest s j hj
  | .stmt stmt :: rest, s, j, hj =>
    List.mem_append_right _ (mem_jumps_of_runDefault rest s j hj)

end

end Jumps

section Runs

variable {V : Type} {I : Interpretation V} {n : Nat} {x : Declared} {value : Expr}
  {type : String}

lemma runBlock_append (front rest : List Stmt) : runBlock I n (front ++ rest) =
    runBlock I n front >>= fun flow => match flow with
      | .normal => runBlock I n rest
      | flow => pure flow := by
  induction front with
  | nil => rfl
  | cons stmt front ih =>
    rw [List.cons_append, runBlock, runBlock, ih]
    refine StoreM.ext (fun s => ?_) fun s => ?_
    · rw [result_bind, result_bind, result_bind, after_bind]
      cases result (stmt.run I n) s <;> rfl
    · rw [after_bind, after_bind, result_bind, after_bind]
      cases result (stmt.run I n) s <;> rfl

lemma runBlock_decl (names : List Declared) (init : Option Expr) (rest : List Stmt) :
    runBlock I n (.decl names type init :: rest) =
      declare I names type init >>= fun _ => runBlock I n rest := rfl

/-- An assignment to the whole variable leaves what the declaration with the value leaves. -/
lemma runBlock_assign {left : Path} (hleft : left.wholeVariable = some x.name) (type : String)
    (rest : List Stmt) : runBlock I n (.expr (.assign "=" left value) :: rest) =
      declare I [x] type (some value) >>= fun _ => runBlock I n rest := by
  have hpath : ∀ p : Path, p.wholeVariable = some x.name → p.eval I = pure [] := by
    intro p hp
    induction p using Path.steps_induction with
    | ident o => rfl
    | nested p ih => exact ih hp
    | root e => cases hp
    | member base o => cases hp
    | array accessor index => cases hp
  have hwrite : ∀ (v : V) (s : State V), assignAt I left [] v s = setAll [x] (fun _ => v) s := by
    intro v s
    rw [assignAt, hleft]
    funext c
    by_cases hc : c = x.cell
    · rw [hc]
      exact (Function.update_self _ _ _).trans (if_pos (List.mem_singleton.mpr rfl)).symm
    · exact (Function.update_of_ne hc _ _).trans
        (if_neg fun hmem => hc (List.mem_singleton.mp hmem)).symm
  refine StoreM.ext (fun s => ?_) fun s => ?_
  · rw [runBlock, Stmt.run, Expr.eval, hpath left hleft]
    have hafter := hwrite (result (value.eval I) s) (after (value.eval I) s)
    exact congrArg (fun t => result (runBlock I n rest) t) hafter
  · rw [runBlock, Stmt.run, Expr.eval, hpath left hleft]
    have hafter := hwrite (result (value.eval I) s) (after (value.eval I) s)
    exact congrArg (fun t => after (runBlock I n rest) t) hafter

end Runs

end WitcherScriptLanguage.Body
