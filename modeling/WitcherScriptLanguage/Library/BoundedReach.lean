import Mathlib.Logic.Relation
import Mathlib.Order.Basic

/-!
# Reaching within a bound

Reachability of a relation with the number of steps counted. A bound on the number of steps
keeps reflexivity; it keeps transitivity from every point whose reachable points all lie within
the bound.
-/

namespace WitcherScriptLanguage.Library

variable {α : Type} {R : α → α → Prop}

inductive ReachIn (R : α → α → Prop) : Nat → α → α → Prop
  | refl (a : α) : ReachIn R 0 a a
  | step {n : Nat} {a b c : α} : R a b → ReachIn R n b c → ReachIn R (n + 1) a c

/-- Reached in at most `bound` steps. -/
def ReachWithin (R : α → α → Prop) (bound : Nat) (a b : α) : Prop :=
  ∃ n ≤ bound, ReachIn R n a b

/-- Everything that is reached from a point lies within the bound. -/
def Bounded (R : α → α → Prop) (bound : Nat) (a : α) : Prop :=
  ∀ b, Relation.ReflTransGen R a b → ReachWithin R bound a b

lemma ReachIn.reflTransGen {n : Nat} {a b : α} (h : ReachIn R n a b) :
    Relation.ReflTransGen R a b := by
  induction h with
  | refl a => exact .refl
  | step hab _ ih => exact .head hab ih

lemma ReachWithin.refl (bound : Nat) (a : α) : ReachWithin R bound a a :=
  ⟨0, Nat.zero_le bound, .refl a⟩

lemma ReachWithin.reflTransGen {bound : Nat} {a b : α} (h : ReachWithin R bound a b) :
    Relation.ReflTransGen R a b := by
  obtain ⟨n, -, hn⟩ := h
  exact hn.reflTransGen

theorem Bounded.trans {bound : Nat} {a b c : α} (h : Bounded R bound a)
    (hab : ReachWithin R bound a b) (hbc : ReachWithin R bound b c) : ReachWithin R bound a c :=
  h c (hab.reflTransGen.trans hbc.reflTransGen)

end WitcherScriptLanguage.Library
