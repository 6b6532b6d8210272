import Mathlib.Tactic.Lemma
import Mathlib.Tactic.SplitIfs

/-!
# Gen/kill transfer functions

A forward bit-vector analysis maps the set before a statement to the set after it. A gen/kill
function adds a fixed set and keeps or drops the incoming one. Such functions are closed under
composition and join, and joining one with the identity gives an idempotent function: one pass
over a loop body is enough.
-/

namespace WitcherScriptLanguage.Library

structure Transfer (w : Nat) where
  gen : BitVec w
  keeps : Bool

namespace Transfer

variable {w : Nat}

def apply (t : Transfer w) (m : BitVec w) : BitVec w := t.gen ||| if t.keeps then m else 0#w

def identity : Transfer w := ⟨0#w, true⟩

def constant (m : BitVec w) : Transfer w := ⟨m, false⟩

def join (s t : Transfer w) : Transfer w := ⟨s.gen ||| t.gen, s.keeps || t.keeps⟩

/-- First `s`, then `t`. -/
def andThen (s t : Transfer w) : Transfer w :=
  ⟨t.gen ||| if t.keeps then s.gen else 0#w, s.keeps && t.keeps⟩

@[simp] lemma apply_identity (m : BitVec w) : identity.apply m = m := by
  simp [apply, identity]

@[simp] lemma apply_constant (c m : BitVec w) : (constant c).apply m = c := by
  simp [apply, constant]

lemma apply_join (s t : Transfer w) (m : BitVec w) :
    (s.join t).apply m = s.apply m ||| t.apply m := by
  ext i hi
  cases hs : s.keeps <;> cases ht : t.keeps <;> simp [apply, join, hs, ht] <;> grind

lemma apply_andThen (s t : Transfer w) (m : BitVec w) :
    (s.andThen t).apply m = t.apply (s.apply m) := by
  ext i hi
  cases hs : s.keeps <;> cases ht : t.keeps <;> simp [apply, andThen, hs, ht, Bool.or_assoc]

/-- The state at a loop header: what enters the loop and what one pass of the body carries
back. -/
def header (body : Transfer w) : Transfer w := identity.join body

lemma apply_header (body : Transfer w) (m : BitVec w) :
    body.header.apply m = m ||| body.apply m := by
  rw [header, apply_join, apply_identity]

/-- A second pass over the loop body adds nothing. -/
theorem header_idempotent (body : Transfer w) (m : BitVec w) :
    body.header.apply (body.header.apply m) = body.header.apply m := by
  ext i hi
  cases h : body.keeps <;> simp [apply, header, join, identity, h]

end Transfer

/-- The transfer to a program point, or `none` when control cannot reach the point. -/
def reachApply {w : Nat} (t : Option (Transfer w)) (m : BitVec w) : Option (BitVec w) :=
  t.map fun t => t.apply m

def joinReach {w : Nat} : Option (Transfer w) → Option (Transfer w) → Option (Transfer w)
  | some s, some t => some (s.join t)
  | s, none => s
  | none, t => t

end WitcherScriptLanguage.Library
