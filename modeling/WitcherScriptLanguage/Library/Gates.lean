import Mathlib.Logic.Function.Basic
import Mathlib.Tactic.Lemma
import Mathlib.Tactic.SplitIfs

/-!
# Waiting at a gate

Any number of tasks wait until a gate is open. A task makes a future, has it registered and looks
at the gate; if the gate is closed it sleeps until it is called, and begins again. A call reaches
the registered tasks only and leaves nothing behind. So it is the order of a task's steps that
keeps it from sleeping through the one call that follows the opening.
-/

namespace WitcherScriptLanguage.Library

/-- Where a task stands. A registered task remembers whether it has been called. -/
inductive Passage
  | outside
  | created
  | enabled (called : Bool)
  | waiting (called : Bool)
  | passed
  deriving DecidableEq, Repr

namespace Passage

/-- What a call does to a task. -/
def call : Passage → Passage
  | enabled _ => enabled true
  | waiting _ => waiting true
  | p => p

/-- The next step of a task; `none` when it sleeps or is through. -/
def move (opened : Bool) : Passage → Option Passage
  | outside => some created
  | created => some (enabled false)
  | enabled called => some (if opened then passed else waiting called)
  | waiting called => if called then some outside else none
  | passed => none

/-- The steps that are left once the gate is open. -/
def remaining : Passage → Nat
  | waiting _ => 4
  | outside => 3
  | created => 2
  | enabled _ => 1
  | passed => 0

lemma remaining_le (p : Passage) : p.remaining ≤ 4 := by
  cases p <;> simp [remaining]

lemma remaining_eq_zero {p : Passage} : p.remaining = 0 ↔ p = passed := by
  cases p <;> simp [remaining]

lemma call_eq_passed {p : Passage} : p.call = passed ↔ p = passed := by
  cases p <;> simp [call]

lemma call_ne_asleep (p : Passage) : p.call ≠ waiting false := by
  cases p <;> simp [call]

/-- Nobody comes through a closed gate. -/
lemma opened_of_move {opened : Bool} {p : Passage} (h : p.move opened = some passed) :
    opened = true := by
  cases p with
  | enabled called =>
    by_contra hclosed
    rw [move, if_neg hclosed] at h
    cases h
  | waiting called =>
    cases called <;> cases h
  | outside | created | passed => cases h

/-- At an open gate a task that is awake comes closer with each step and stays awake. -/
lemma move_of_open {p q : Passage} (h : p.move true = some q) :
    q.remaining + 1 = p.remaining ∧ q ≠ waiting false := by
  cases p with
  | waiting called =>
    cases called with
    | false => cases h
    | true =>
      cases h
      exact ⟨rfl, Passage.noConfusion⟩
  | outside | created | enabled called =>
    cases h
    exact ⟨rfl, Passage.noConfusion⟩
  | passed => cases h

lemma exists_move {p : Passage} (hawake : p ≠ waiting false) (hnot : p ≠ passed) :
    ∃ q, p.move true = some q := by
  cases p with
  | waiting called =>
    cases called with
    | false => exact absurd rfl hawake
    | true => exact ⟨outside, rfl⟩
  | outside => exact ⟨created, rfl⟩
  | created => exact ⟨enabled false, rfl⟩
  | enabled called => exact ⟨passed, rfl⟩
  | passed => exact absurd rfl hnot

end Passage

/-- A gate with the tasks in front of it. -/
structure Gate (ι : Type) where
  opened : Bool := false
  passage : ι → Passage := fun _ => .outside

namespace Gate

variable {ι : Type} [DecidableEq ι] (g : Gate ι)

def unlock : Gate ι := { g with opened := true }

def callAll : Gate ι := { g with passage := fun i => (g.passage i).call }

def move (i : ι) : Option (Gate ι) :=
  ((g.passage i).move g.opened).map fun q => { g with passage := Function.update g.passage i q }

/-- Whoever is through has found the gate open. -/
def Guarded : Prop := ∀ i, g.passage i = .passed → g.opened = true

/-- The gate is open and nobody in front of it sleeps. -/
def Released : Prop := g.opened = true ∧ ∀ i, g.passage i ≠ .waiting false

variable {g} {i : ι}

omit [DecidableEq ι] in
lemma guarded_start : Guarded ({} : Gate ι) := fun _ h => Passage.noConfusion h

omit [DecidableEq ι] in
lemma guarded_unlock : g.unlock.Guarded := fun _ _ => rfl

omit [DecidableEq ι] in
lemma Guarded.callAll (h : g.Guarded) : g.callAll.Guarded :=
  fun i hpassed => h i (Passage.call_eq_passed.mp hpassed)

/-- A step changes where its task stands, and nothing else. -/
lemma move_spec {g' : Gate ι} (h : g.move i = some g') :
    (g.passage i).move g.opened = some (g'.passage i) ∧ g'.opened = g.opened ∧
      ∀ j, j ≠ i → g'.passage j = g.passage j := by
  obtain ⟨q, hq, rfl⟩ := Option.map_eq_some_iff.mp h
  refine ⟨?_, rfl, fun j hij => Function.update_of_ne hij _ _⟩
  rw [hq]
  exact congrArg some (Function.update_self i q g.passage).symm

lemma Guarded.move {g' : Gate ι} (h : g.Guarded) (hmove : g.move i = some g') : g'.Guarded := by
  obtain ⟨hi, hopened, hothers⟩ := move_spec hmove
  intro j hpassed
  rw [hopened]
  by_cases hij : j = i
  · subst hij
    rw [hpassed] at hi
    exact Passage.opened_of_move hi
  · rw [hothers j hij] at hpassed
    exact h j hpassed

omit [DecidableEq ι] in
/-- The call that follows the opening reaches everybody who sleeps. -/
lemma released_callAll (h : g.opened = true) : g.callAll.Released :=
  ⟨h, fun i => Passage.call_ne_asleep (g.passage i)⟩

/-- At a released gate everybody still in front of it can go on. -/
lemma Released.exists_move (h : g.Released) (hnot : g.passage i ≠ .passed) :
    ∃ g', g.move i = some g' := by
  obtain ⟨q, hq⟩ := Passage.exists_move (h.2 i) hnot
  rw [← h.1] at hq
  exact ⟨_, Option.map_eq_some_iff.mpr ⟨q, hq, rfl⟩⟩

lemma Released.move {g' : Gate ι} (h : g.Released) (hmove : g.move i = some g') :
    g'.Released := by
  obtain ⟨hi, hopened, hothers⟩ := move_spec hmove
  rw [h.1] at hi
  refine ⟨hopened.trans h.1, ?_⟩
  intro j
  by_cases hij : j = i
  · subst hij
    exact (Passage.move_of_open hi).2
  · rw [hothers j hij]
    exact h.2 j

/-- The steps of a task bring it through, those of the others leave it where it is. -/
lemma Released.remaining_move {g' : Gate ι} (h : g.Released) (hmove : g.move i = some g')
    (j : ι) :
    (g'.passage j).remaining + (if i = j then 1 else 0) = (g.passage j).remaining := by
  obtain ⟨hi, -, hothers⟩ := move_spec hmove
  by_cases hij : i = j
  · subst hij
    rw [h.1] at hi
    rw [if_pos rfl]
    exact (Passage.move_of_open hi).1
  · rw [if_neg hij, hothers j (Ne.symm hij), Nat.add_zero]

end Gate

end WitcherScriptLanguage.Library
