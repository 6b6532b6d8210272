import Mathlib.Tactic.Lemma
import Mathlib.Tactic.SplitIfs

/-!
# Waking a task

One task waits to be notified, and any number of tasks notify it. A notification that finds the
task waiting calls it; any other is kept as a permit, of which there is at most one, and the next
wait takes it. So a notification that comes after the task has looked is never lost.
-/

namespace WitcherScriptLanguage.Library

inductive Waiter
  | awake
  | asleep
  /-- Called, and not yet running. -/
  | called
  deriving DecidableEq, Repr

structure Notify where
  permit : Bool := false
  waiter : Waiter := .awake
  deriving DecidableEq, Repr

namespace Notify

variable (n : Notify)

def notifyOne : Notify :=
  match n.waiter with
  | .asleep => { n with waiter := .called }
  | .awake | .called => { n with permit := true }

/-- The task starts to wait. -/
def notified : Notify := if n.permit then ⟨false, .called⟩ else ⟨false, .asleep⟩

/-- The task runs again. -/
def resume : Notify := { n with waiter := .awake }

/-- The task will run without another notification. -/
def Alerted : Prop := n.permit = true ∨ n.waiter = .called

/-- A waiting task leaves no permit lying. -/
def Settled : Prop := n.waiter = .asleep → n.permit = false

variable {n}

lemma alerted_notifyOne : n.notifyOne.Alerted := by
  unfold notifyOne Alerted
  cases n.waiter with
  | asleep => exact Or.inr rfl
  | awake => exact Or.inl rfl
  | called => exact Or.inl rfl

lemma settled_notifyOne : n.notifyOne.Settled := by
  unfold notifyOne Settled
  cases n.waiter <;> exact fun h => Waiter.noConfusion h

/-- Only an asleep task is moved by a notification. -/
lemma awake_notifyOne (h : n.waiter = .awake) : n.notifyOne.waiter = .awake := by
  unfold notifyOne
  rw [h]

lemma settled_notified : n.notified.Settled := by
  unfold notified
  split_ifs
  · exact fun h => Waiter.noConfusion h
  · exact fun _ => rfl

lemma alerted_notified (h : n.Alerted) (hawake : n.waiter = .awake) : n.notified.Alerted := by
  have hpermit : n.permit = true := by
    rcases h with h | h
    · exact h
    · exact Waiter.noConfusion (hawake.symm.trans h)
  unfold notified
  rw [if_pos hpermit]
  exact Or.inr rfl

lemma settled_resume : n.resume.Settled := fun h => Waiter.noConfusion h

lemma not_alerted_of_asleep (h : n.Settled) (hasleep : n.waiter = .asleep) : ¬n.Alerted := by
  intro halerted
  rcases halerted with hpermit | hcalled
  · exact Bool.noConfusion ((h hasleep).symm.trans hpermit)
  · exact Waiter.noConfusion (hasleep.symm.trans hcalled)

end Notify

end WitcherScriptLanguage.Library
