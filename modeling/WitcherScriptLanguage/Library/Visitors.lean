import WitcherScriptLanguage.Library.RangedTrees

/-!
# Visitors of trees

A visitor is told of every node of a tree when the walk comes to it and when the walk leaves it. It
may change its state each time, and says at a node whether the walk is to go below. A trace of what
a visitor is told is well nested: whatever node is left is the last one entered.
-/

namespace WitcherScriptLanguage.Library

open RangedTree

inductive Visit
  | children | skipChildren
  deriving DecidableEq, Repr

/-- A node is given by its position. -/
structure Visitor (S : Type) where
  enter : Position → S → S × Visit
  leave : Position → S → S

namespace Visitor

variable {L S : Type} (v : Visitor S)

mutual

/-- Pre-order `enter`, post-order `leave`. -/
def visit (p : Position) : RangedTree L → S → S
  | .node _ _ _ children, s =>
    if (v.enter p s).2 = .children then v.leave p (visitFrom p 0 children (v.enter p s).1)
    else v.leave p (v.enter p s).1

def visitFrom (p : Position) : Nat → List (RangedTree L) → S → S
  | _, [], s => s
  | i, c :: cs, s => visitFrom p (i + 1) cs (visit (p ++ [i]) c s)

end

/-- The state when a node is left. -/
def visitBelow (p : Position) (t : RangedTree L) (s : S) : S :=
  if (v.enter p s).2 = .children then v.visitFrom p 0 t.children (v.enter p s).1
  else (v.enter p s).1

lemma visit_eq (p : Position) (t : RangedTree L) (s : S) :
    v.visit p t s = v.leave p (v.visitBelow p t s) := by
  cases t with
  | node label start stop children =>
    rw [visit, visitBelow]
    split_ifs <;> rfl

@[simp] lemma visitFrom_nil (p : Position) (i : Nat) (s : S) :
    v.visitFrom p i ([] : List (RangedTree L)) s = s := by
  rw [visitFrom]

lemma visitFrom_cons (p : Position) (i : Nat) (c : RangedTree L) (cs : List (RangedTree L)) (s : S) :
    v.visitFrom p i (c :: cs) s = v.visitFrom p (i + 1) cs (v.visit (p ++ [i]) c s) := by
  rw [visitFrom]

end Visitor

inductive VisitEvent
  | enter (p : Position)
  | leave (p : Position)
  deriving DecidableEq, Repr

/-- The nodes that are still open after some events, or `none` if a node was left that was not the
last one entered. -/
def openAfter : List VisitEvent → List Position → Option (List Position)
  | [], opened => some opened
  | .enter p :: events, opened => openAfter events (p :: opened)
  | .leave _ :: _, [] => none
  | .leave p :: events, q :: opened => if p = q then openAfter events opened else none

/-- Every `enter` has one `leave`, and they are nested. -/
def Paired (events : List VisitEvent) : Prop := openAfter events [] = some []

instance (events : List VisitEvent) : Decidable (Paired events) :=
  inferInstanceAs (Decidable (_ = _))

/-- The events leave the open nodes as they are. -/
def Neutral (events : List VisitEvent) : Prop :=
  ∀ rest opened, openAfter (events ++ rest) opened = openAfter rest opened

lemma Neutral.paired {events : List VisitEvent} (h : Neutral events) : Paired events := by
  have hall := h [] []
  rwa [List.append_nil] at hall

lemma neutral_nil : Neutral [] := fun _ _ => rfl

lemma Neutral.append {events events' : List VisitEvent} (h : Neutral events)
    (h' : Neutral events') : Neutral (events ++ events') := by
  intro rest opened
  rw [List.append_assoc, h, h']

/-- The events at a node around those below it. -/
lemma Neutral.within {events : List VisitEvent} (h : Neutral events) (p : Position) :
    Neutral (.enter p :: (events ++ [.leave p])) := by
  intro rest opened
  rw [List.cons_append, openAfter, List.append_assoc, h, List.singleton_append, openAfter,
    if_pos rfl]

namespace Visitor

variable {L S : Type} (v : Visitor S)

/-- The visitor that also notes what it is told. -/
def traced : Visitor (S × List VisitEvent) where
  enter p s := (((v.enter p s.1).1, s.2 ++ [.enter p]), (v.enter p s.1).2)
  leave p s := (v.leave p s.1, s.2 ++ [.leave p])

mutual

/-- Noting the events changes nothing else, and the events of a walk are nested. -/
lemma visit_traced : ∀ (p : Position) (t : RangedTree L) (s : S) (before : List VisitEvent),
    ∃ events, v.traced.visit p t (s, before) = (v.visit p t s, before ++ events) ∧ Neutral events
  | p, .node _ _ _ children, s, before => by
    have henter : v.traced.enter p (s, before) =
        (((v.enter p s).1, before ++ [.enter p]), (v.enter p s).2) := rfl
    have hleave (s : S) (before : List VisitEvent) :
        v.traced.leave p (s, before) = (v.leave p s, before ++ [.leave p]) := rfl
    rw [visit, visit, henter]
    by_cases hvisit : (v.enter p s).2 = .children
    · obtain ⟨events, hevents, hneutral⟩ :=
        visitFrom_traced p 0 children (v.enter p s).1 (before ++ [.enter p])
      rw [if_pos hvisit, if_pos hvisit, hevents, hleave]
      refine ⟨.enter p :: (events ++ [.leave p]), ?_, hneutral.within p⟩
      simp only [List.append_assoc, List.cons_append, List.nil_append]
    · rw [if_neg hvisit, if_neg hvisit, hleave]
      refine ⟨[.enter p, .leave p], ?_, neutral_nil.within p⟩
      simp only [List.append_assoc, List.cons_append, List.nil_append]

lemma visitFrom_traced : ∀ (p : Position) (i : Nat) (cs : List (RangedTree L)) (s : S)
    (before : List VisitEvent),
    ∃ events, v.traced.visitFrom p i cs (s, before) = (v.visitFrom p i cs s, before ++ events) ∧
      Neutral events
  | p, i, [], s, before => by
    refine ⟨[], ?_, neutral_nil⟩
    rw [visitFrom_nil, visitFrom_nil, List.append_nil]
  | p, i, c :: cs, s, before => by
    obtain ⟨events, hevents, hneutral⟩ := visit_traced (p ++ [i]) c s before
    obtain ⟨events', hevents', hneutral'⟩ :=
      visitFrom_traced p (i + 1) cs (v.visit (p ++ [i]) c s) (before ++ events)
    refine ⟨events ++ events', ?_, hneutral.append hneutral'⟩
    rw [visitFrom_cons, visitFrom_cons, hevents, hevents', List.append_assoc]

end

end Visitor

end WitcherScriptLanguage.Library
