import Mathlib.Data.List.Infix
import WitcherScriptLanguage.Library.Visitors

/-!
# Marked subtrees

A visitor that remembers the depth of the outermost marked node around it knows at every node
whether the node or one above it is marked. Its walk is a fold over all nodes in pre-order, each
with that answer.
-/

namespace WitcherScriptLanguage.Library

open RangedTree

structure SubtreeTracker where
  depth : Nat := 0
  /-- The depth of the outermost marked node around the visitor. -/
  markedDepth : Option Nat := none
  deriving DecidableEq, Repr

namespace SubtreeTracker

/-- Enters a node, and says whether it is in a marked subtree. -/
def enter (tracker : SubtreeTracker) (marked : Bool) : SubtreeTracker × Bool :=
  let markedDepth := if tracker.markedDepth.isNone && marked then some tracker.depth
    else tracker.markedDepth
  (⟨tracker.depth + 1, markedDepth⟩, markedDepth.isSome)

def leave (tracker : SubtreeTracker) : SubtreeTracker :=
  let depth := tracker.depth - 1
  ⟨depth, if tracker.markedDepth = some depth then none else tracker.markedDepth⟩

/-- The marked node is above the visitor. -/
def Above (tracker : SubtreeTracker) : Prop := ∀ d ∈ tracker.markedDepth, d < tracker.depth

variable {tracker : SubtreeTracker} {marked : Bool}

lemma above_start : Above {} := fun d h => absurd h (Option.not_mem_none d)

lemma Above.enter (h : tracker.Above) : (tracker.enter marked).1.Above := by
  unfold SubtreeTracker.enter Above
  intro d hd
  simp only at hd ⊢
  split_ifs at hd with hnew
  · rw [Option.mem_some_iff] at hd
    omega
  · have hlt := h d hd
    omega

lemma enter_snd : (tracker.enter marked).2 = (tracker.markedDepth.isSome || marked) := by
  unfold SubtreeTracker.enter
  cases tracker.markedDepth <;> cases marked <;> rfl

lemma enter_markedDepth :
    (tracker.enter marked).1.markedDepth.isSome = (tracker.markedDepth.isSome || marked) :=
  enter_snd

/-- A visitor is back where it was when it leaves the node that it has entered. -/
lemma leave_enter (h : tracker.Above) : (tracker.enter marked).1.leave = tracker := by
  obtain ⟨depth, markedDepth⟩ := tracker
  unfold SubtreeTracker.enter leave
  simp only [Nat.add_sub_cancel]
  cases markedDepth with
  | none => cases marked <;> simp
  | some d =>
    have hlt : d < depth := h d rfl
    have hne : some d ≠ some depth := fun heq => Nat.ne_of_lt hlt (Option.some.inj heq)
    simp only [Option.isNone_some, Bool.false_and, Bool.false_eq_true, if_false, if_neg hne]

end SubtreeTracker

section Tracking

variable {L S : Type} (marked : Position → Bool) (act : Position → Bool → S → S)

/-- The visitor that acts at every node, knowing whether it is in a marked subtree. -/
def tracking : Visitor (SubtreeTracker × S) where
  enter p s :=
    let (tracker, inside) := s.1.enter (marked p)
    ((tracker, act p inside s.2), .children)
  leave _ s := (s.1.leave, s.2)

/-- The node, or one above it, is marked. -/
def inMarked (p : Position) : Bool := p.inits.any marked

/-- The nodes below a node, each with whether it is in a subtree that is marked there or above. -/
def actAll (p : Position) (above : Bool) (nodes : List Position) (s : S) : S :=
  nodes.foldl (fun s q => act (p ++ q) (above || inMarked (fun r => marked (p ++ r)) q) s) s

lemma actAll_append (p : Position) (above : Bool) (nodes nodes' : List Position) (s : S) :
    actAll marked act p above (nodes ++ nodes') s =
      actAll marked act p above nodes' (actAll marked act p above nodes s) :=
  List.foldl_append

/-- A step down: the marks on the way are those above and those from the child on. -/
lemma actAll_child (p : Position) (above : Bool) (i : Nat) (nodes : List Position) (s : S) :
    actAll marked act p above (nodes.map fun q => i :: q) s =
      actAll marked act (p ++ [i]) (above || marked p) nodes s := by
  unfold actAll
  rw [List.foldl_map]
  congr 1
  funext s q
  have hmarks : inMarked (fun r => marked (p ++ r)) (i :: q) =
      (marked p || inMarked (fun r => marked (p ++ [i] ++ r)) q) := by
    unfold inMarked
    rw [List.inits_cons, List.any_cons, List.append_nil, List.any_map]
    congr 2
    funext r
    rw [Function.comp_apply, List.append_assoc, List.singleton_append]
  rw [hmarks, ← Bool.or_assoc, List.append_assoc, List.singleton_append]

mutual

lemma visit_tracking : ∀ (p : Position) (t : RangedTree L) (tracker : SubtreeTracker) (s : S),
    tracker.Above → (tracking marked act).visit p t (tracker, s) =
      (tracker, actAll marked act p tracker.markedDepth.isSome t.positions s)
  | p, .node label start stop children, tracker, s, habove => by
    have hself : actAll marked act p tracker.markedDepth.isSome [[]] s =
        act p (tracker.enter (marked p)).2 s := by
      unfold actAll inMarked
      rw [List.foldl_cons, List.foldl_nil, List.inits, List.any_cons, List.any_nil, Bool.or_false,
        List.append_nil, SubtreeTracker.enter_snd]
    have henter : (tracking marked act).enter p (tracker, s) =
        (((tracker.enter (marked p)).1, act p (tracker.enter (marked p)).2 s), .children) := rfl
    have hleave (s : SubtreeTracker × S) :
        (tracking marked act).leave p s = (s.1.leave, s.2) := rfl
    have hchildren := visitFrom_tracking p 0 children tracker.markedDepth.isSome
      (tracker.enter (marked p)).1 (act p (tracker.enter (marked p)).2 s) habove.enter
      SubtreeTracker.enter_markedDepth
    rw [Visitor.visit, henter, if_pos rfl, hchildren, hleave, SubtreeTracker.leave_enter habove]
    rw [positions, ← List.singleton_append, actAll_append, hself]

lemma visitFrom_tracking : ∀ (p : Position) (i : Nat) (cs : List (RangedTree L))
    (above : Bool) (tracker : SubtreeTracker) (s : S), tracker.Above →
      tracker.markedDepth.isSome = (above || marked p) →
      (tracking marked act).visitFrom p i cs (tracker, s) =
        (tracker, actAll marked act p above (positionsFrom i cs) s)
  | p, i, [], above, tracker, s, _, _ => by
    rw [Visitor.visitFrom_nil, positionsFrom]
    rfl
  | p, i, c :: cs, above, tracker, s, habove, hmarked => by
    rw [Visitor.visitFrom_cons, visit_tracking (p ++ [i]) c tracker s habove,
      visitFrom_tracking p (i + 1) cs above tracker _ habove hmarked, positionsFrom,
      actAll_append, actAll_child, hmarked]

end

/-- The walk acts at every node in pre-order, and knows the marks at the node and above it. -/
theorem visit_tracking_root (t : RangedTree L) (s : S) :
    (tracking marked act).visit [] t ({}, s) =
      ({}, t.positions.foldl (fun s p => act p (inMarked marked p) s) s) := by
  rw [visit_tracking marked act [] t {} s SubtreeTracker.above_start]
  rfl

end Tracking

end WitcherScriptLanguage.Library
