import WitcherScriptLanguage.Library.Endings
import WitcherScriptLanguage.Refactor.Bodies

/-!
# A block in its body

Bodies that differ in one block behave alike when the blocks do. Behind a `return` the variables
of the body are gone, so there the stores need to agree in the shared cells only.
-/

namespace WitcherScriptLanguage.Body

open Library

/-- The cells that outlive the body. -/
def visible : Set Cell := {c | ∃ s, c = .shared s}

/-- Other statements of the body run behind these ends. -/
def Flow.goesOn {V : Type} : Flow V → Bool
  | .normal | .brk | .cont => true
  | .ret _ | .unfinished => false

/-- The statements do the same calls with the same values and end in the same way. -/
abbrev BehaveAlike {V : Type} (f g : Exec V (Flow V)) : Prop := EndAlike visible Flow.goesOn f g

/-- The second statement is the first one with another block in place of one of its blocks. -/
inductive Replaced (b b' : List Stmt) : Stmt → Stmt → Prop
  | here : Replaced b b' (.block b) (.block b')
  | inBlock {s s' : Stmt} (front back : List Stmt) : Replaced b b' s s' →
      Replaced b b' (.block (front ++ s :: back)) (.block (front ++ s' :: back))
  | inBody {s s' : Stmt} (cond : Expr) (orElse : Stmt) : Replaced b b' s s' →
      Replaced b b' (.ifStmt cond s orElse) (.ifStmt cond s' orElse)
  | inElse {s s' : Stmt} (cond : Expr) (body : Stmt) : Replaced b b' s s' →
      Replaced b b' (.ifStmt cond body s) (.ifStmt cond body s')
  | inWhile {s s' : Stmt} (cond : Expr) : Replaced b b' s s' →
      Replaced b b' (.whileStmt cond s) (.whileStmt cond s')
  | inDoWhile {s s' : Stmt} (cond : Expr) : Replaced b b' s s' →
      Replaced b b' (.doWhile s cond) (.doWhile s' cond)
  | inFor {s s' : Stmt} (init cond iter : Option Expr) : Replaced b b' s s' →
      Replaced b b' (.forStmt init cond iter s) (.forStmt init cond iter s')
  | inSwitch {s s' : Stmt} (value : Expr) (front back : List Section) : Replaced b b' s s' →
      Replaced b b' (.switchStmt value (front ++ .stmt s :: back))
        (.switchStmt value (front ++ .stmt s' :: back))

section Alike

variable {V : Type} {I : Interpretation V} {n : Nat} {s s' : Stmt}

/-- The end of a round. -/
def roundGoesOn : Option (Flow V) → Bool
  | none => true
  | some flow => flow.goesOn

lemma rounds_succ (step : Exec V (Option (Flow V))) (n : Nat) :
    rounds step (n + 1) = step >>= fun flow => flow.elim (rounds step n) pure := by
  refine congrArg (step >>= ·) (funext fun flow => ?_)
  cases flow with
  | none => rfl
  | some flow => rfl

lemma alike_rounds {step step' : Exec V (Option (Flow V))}
    (h : EndAlike visible roundGoesOn step step') :
    ∀ n, BehaveAlike (rounds step n) (rounds step' n)
  | 0 => .refl _
  | n + 1 => by
    rw [rounds_succ, rounds_succ]
    refine EndAlike.trans (h.bind fun flow hstop => ?_) (.bind_left step' fun flow => ?_)
    · cases flow with
      | none => cases hstop
      | some flow => exact ⟨flow, rfl, hstop⟩
    · cases flow with
      | some flow => exact .refl _
      | none => exact alike_rounds h n

lemma leaves_of_stop {flow : Flow V} (h : flow.goesOn = false) :
    ∃ flow', flow.leaves = some flow' ∧ flow'.goesOn = false := by
  cases flow with
  | ret value => exact ⟨.ret value, rfl, rfl⟩
  | unfinished => exact ⟨.unfinished, rfl, rfl⟩
  | _ => cases h

lemma alike_then {f g : Exec V (Flow V)} (h : BehaveAlike f g) (rest : Exec V (Flow V)) :
    BehaveAlike (f >>= fun flow => match flow with
      | .normal => rest
      | flow => pure flow) (g >>= fun flow => match flow with
      | .normal => rest
      | flow => pure flow) := by
  refine h.bind fun flow hstop => ?_
  cases flow with
  | ret value => exact ⟨.ret value, rfl, rfl⟩
  | unfinished => exact ⟨.unfinished, rfl, rfl⟩
  | _ => cases hstop

lemma alike_runBlock (h : BehaveAlike (s.run I n) (s'.run I n)) (back : List Stmt) :
    ∀ front, BehaveAlike (runBlock I n (front ++ s :: back)) (runBlock I n (front ++ s' :: back))
  | [] => alike_then h _
  | stmt :: front => .bind_left _ fun flow => by
    cases flow with
    | normal => exact alike_runBlock h back front
    | _ => exact .refl _

lemma alike_runSections (h : BehaveAlike (s.run I n) (s'.run I n)) (back : List Section) :
    ∀ front, BehaveAlike (runSections I n (front ++ .stmt s :: back))
      (runSections I n (front ++ .stmt s' :: back))
  | [] => alike_then h _
  | .stmt stmt :: front => .bind_left _ fun flow => by
    cases flow with
    | normal => exact alike_runSections h back front
    | _ => exact .refl _
  | .caseLabel _ :: front => alike_runSections h back front
  | .defaultLabel :: front => alike_runSections h back front

lemma alike_runDefault (h : BehaveAlike (s.run I n) (s'.run I n)) (back : List Section) :
    ∀ front, BehaveAlike (runDefault I n (front ++ .stmt s :: back))
      (runDefault I n (front ++ .stmt s' :: back))
  | [] => .refl _
  | .defaultLabel :: front => alike_runSections h back front
  | .caseLabel _ :: front => alike_runDefault h back front
  | .stmt _ :: front => alike_runDefault h back front

/-- No case that matches lets the default label be looked for. -/
lemma alike_runCases (h : BehaveAlike (s.run I n) (s'.run I n)) (v : V) (back : List Section) :
    ∀ front, EndAlike visible roundGoesOn (runCases I n v (front ++ .stmt s :: back))
      (runCases I n v (front ++ .stmt s' :: back))
  | [] => .refl _
  | .caseLabel value :: front => .bind_left _ fun w => by
    split
    · exact (alike_runSections h back front).bind fun flow hstop => ⟨some flow, rfl, hstop⟩
    · exact alike_runCases h v back front
  | .defaultLabel :: front => alike_runCases h v back front
  | .stmt _ :: front => alike_runCases h v back front

lemma leaveSwitch_of_stop {flow : Flow V} (h : flow.goesOn = false) :
    flow.leaveSwitch.goesOn = false := by
  cases flow with
  | ret value => rfl
  | unfinished => rfl
  | _ => cases h

/-- The step: a statement behaves as one of its parts lets it. -/
theorem alike_of_replaced {b b' : List Stmt}
    (h : BehaveAlike (runBlock I n b) (runBlock I n b')) (hs : Replaced b b' s s') :
    BehaveAlike (s.run I n) (s'.run I n) := by
  induction hs with
  | here => exact h
  | inBlock front back _ ih => exact alike_runBlock ih back front
  | inBody cond orElse _ ih =>
    refine .bind_left _ fun v => ?_
    split
    · exact ih
    · exact .refl _
  | inElse cond body _ ih =>
    refine .bind_left _ fun v => ?_
    split
    · exact .refl _
    · exact ih
  | inWhile cond _ ih =>
    refine alike_rounds (.bind_left _ fun v => ?_) n
    split
    · refine ih.bind fun flow hstop => ?_
      obtain ⟨flow', hleaves, hstop'⟩ := leaves_of_stop hstop
      exact ⟨some flow', congrArg pure hleaves, hstop'⟩
    · exact .refl _
  | inDoWhile cond _ ih =>
    refine alike_rounds (ih.bind fun flow hstop => ?_) n
    obtain ⟨flow', hleaves, hstop'⟩ := leaves_of_stop hstop
    refine ⟨some flow', ?_, hstop'⟩
    rw [hleaves]
  | inFor init cond iter _ ih =>
    refine .bind_left _ fun _ => alike_rounds (.bind_left _ fun go => ?_) n
    split
    · refine ih.bind fun flow hstop => ?_
      obtain ⟨flow', hleaves, hstop'⟩ := leaves_of_stop hstop
      refine ⟨some flow', ?_, hstop'⟩
      rw [hleaves]
    · exact .refl _
  | inSwitch value front back _ ih =>
    refine .bind_left _ fun v => ?_
    refine ((alike_runCases ih v back front).bind fun flow hstop => ?_).trans
      (.bind_left _ fun flow => ?_)
    · cases flow with
      | none => cases hstop
      | some flow => exact ⟨flow.leaveSwitch, rfl, leaveSwitch_of_stop hstop⟩
    · cases flow with
      | some flow => exact .refl _
      | none => exact (alike_runDefault ih back front).bind fun flow hstop =>
          ⟨flow.leaveSwitch, rfl, leaveSwitch_of_stop hstop⟩

end Alike

end WitcherScriptLanguage.Body
