import WitcherScriptLanguage.Library.Visitors

/-!
# Walks over the syntax tree

`cst/walk.rs`: an iterative walk with one cursor, and the fusion of two visitors into one, which
shares a walk between them. Fusions may be nested. Every visitor is told what it would be told in
a walk of its own.
-/

namespace WitcherScriptLanguage

open Library

section Cursor

variable {L : Type} (root : RangedTree L)

def gotoFirstChild (node : Position) : Option Position :=
  if (root.get? (node ++ [0])).isSome then some (node ++ [0]) else none

/-- A cursor cannot escape the subtree of its root. -/
def gotoNextSibling (node : Position) : Option Position :=
  match node.getLast? with
  | none => none
  | some i =>
    let next := node.dropLast ++ [i + 1]
    if (root.get? next).isSome then some next else none

def gotoParent (node : Position) : Option Position :=
  if node = [] then none else some node.dropLast

end Cursor

inductive WalkPhase
  | entering | leaving
  deriving DecidableEq, Repr

section Walk

variable {L S : Type} (root : RangedTree L) (visitor : Visitor S)

/-- The loops of `walk` at a node of the cursor, for a number of rounds. -/
def walkLoop : Nat → WalkPhase → Position → S → Option S
  | 0, _, _, _ => none
  | rounds + 1, .entering, node, s =>
    let (s, visit) := visitor.enter node s
    match if visit = .children then gotoFirstChild root node else none with
    | some child => walkLoop rounds .entering child s
    | none => walkLoop rounds .leaving node s
  | rounds + 1, .leaving, node, s =>
    let s := visitor.leave node s
    match gotoNextSibling root node with
    | some sibling => walkLoop rounds .entering sibling s
    | none =>
      match gotoParent node with
      | some parent => walkLoop rounds .leaving parent s
      | none => some s

/-- Every node is entered and left at most once. -/
def walk (s : S) : Option S := walkLoop root visitor (2 * root.nodeCount) .entering [] s

end Walk

/-- One traversal, two visitors. A visitor that has skipped a node is left alone until the walk is
back at the node's depth. -/
structure Fused (A B : Type) where
  a : A
  b : B
  aSkip : Option Nat := none
  bSkip : Option Nat := none
  depth : Nat := 0

section Side

variable {S : Type} (v : Visitor S) (node : Position) (depth : Nat)

/-- What `enter` does for one of the two visitors. -/
def enterSide (s : S) (skip : Option Nat) : S × Option Nat :=
  match skip with
  | none =>
    let (s, visit) := v.enter node s
    (s, if visit = .skipChildren then some depth else none)
  | some skipped => (s, some skipped)

/-- What `leave` does for one of the two visitors. -/
def leaveSide (s : S) (skip : Option Nat) : S × Option Nat :=
  match skip with
  | some skipped => if skipped = depth then (v.leave node s, none) else (s, some skipped)
  | none => (v.leave node s, none)

end Side

namespace Fused

variable {A B : Type}

def new (a : A) (b : B) : Fused A B := { a, b }

/-- The walk prunes only when both skip. -/
def visitor (va : Visitor A) (vb : Visitor B) : Visitor (Fused A B) where
  enter node f :=
    let (a, aSkip) := enterSide va node f.depth f.a f.aSkip
    let (b, bSkip) := enterSide vb node f.depth f.b f.bSkip
    (⟨a, b, aSkip, bSkip, f.depth + 1⟩,
      if aSkip.isSome && bSkip.isSome then .skipChildren else .children)
  leave node f :=
    let depth := f.depth - 1
    let (a, aSkip) := leaveSide va node depth f.a f.aSkip
    let (b, bSkip) := leaveSide vb node depth f.b f.bSkip
    ⟨a, b, aSkip, bSkip, depth⟩

end Fused

section Loop

variable {L S : Type} {root : RangedTree L} {visitor : Visitor S}

lemma walkLoop_entering (rounds : Nat) (node : Position) (s : S) :
    walkLoop root visitor (rounds + 1) .entering node s =
      match if (visitor.enter node s).2 = .children then gotoFirstChild root node else none with
      | some child => walkLoop root visitor rounds .entering child (visitor.enter node s).1
      | none => walkLoop root visitor rounds .leaving node (visitor.enter node s).1 := rfl

lemma walkLoop_leaving (rounds : Nat) (node : Position) (s : S) :
    walkLoop root visitor (rounds + 1) .leaving node s =
      match gotoNextSibling root node with
      | some sibling => walkLoop root visitor rounds .entering sibling (visitor.leave node s)
      | none =>
        match gotoParent node with
        | some parent => walkLoop root visitor rounds .leaving parent (visitor.leave node s)
        | none => some (visitor.leave node s) := rfl

lemma gotoNextSibling_child (above : Position) (i : Nat) :
    gotoNextSibling root (above ++ [i]) =
      if (root.get? (above ++ [i + 1])).isSome then some (above ++ [i + 1]) else none := by
  simp [gotoNextSibling]

lemma gotoParent_child (above : Position) (i : Nat) :
    gotoParent (above ++ [i]) = some above := by
  simp [gotoParent]

/-- More rounds than needed do no harm. -/
lemma walkLoop_more {rounds : Nat} {phase : WalkPhase} {node : Position} {s final : S}
    (h : walkLoop root visitor rounds phase node s = some final) (more : Nat) :
    walkLoop root visitor (rounds + more) phase node s = some final := by
  induction rounds generalizing phase node s with
  | zero => cases h
  | succ rounds ih =>
    rw [Nat.succ_add]
    cases phase with
    | entering =>
      rw [walkLoop_entering] at h ⊢
      cases hchild : (if (visitor.enter node s).2 = .children then gotoFirstChild root node
        else none) with
      | none =>
        rw [hchild] at h
        exact ih h
      | some child =>
        rw [hchild] at h
        exact ih h
    | leaving =>
      rw [walkLoop_leaving] at h ⊢
      cases hsibling : gotoNextSibling root node with
      | some sibling =>
        rw [hsibling] at h
        exact ih h
      | none =>
        rw [hsibling] at h
        cases hparent : gotoParent node with
        | some parent =>
          rw [hparent] at h
          exact ih h
        | none =>
          rw [hparent] at h
          exact h

mutual

/-- From entering a node the loops come to leaving it, with everything below visited. -/
lemma walkLoop_node : ∀ (t : RangedTree L) (node : Position) (s : S),
    root.get? node = some t → ∃ rounds, rounds + 1 ≤ 2 * t.nodeCount ∧ ∀ more,
      walkLoop root visitor (rounds + more) .entering node s =
        walkLoop root visitor more .leaving node (visitor.visitBelow node t s)
  | .node label start stop children, node, s, hnode => by
    have hcount : (RangedTree.node label start stop children).nodeCount =
        1 + RangedTree.nodeCountOf children := by
      rw [RangedTree.nodeCount]
    have hchild (j : Nat) : root.get? (node ++ [0 + j]) = children[j]? := by
      rw [RangedTree.get?_append, hnode, Option.bind_some, RangedTree.get?, Nat.zero_add,
        RangedTree.children]
      cases children[j]? <;> rfl
    by_cases hvisit : (visitor.enter node s).2 = .children
    · cases children with
      | nil =>
        have hleaf : gotoFirstChild root node = none := by
          have hnone := hchild 0
          rw [Nat.add_zero] at hnone
          simp [gotoFirstChild, hnone]
        refine ⟨1, by omega, fun more => ?_⟩
        rw [Nat.add_comm, walkLoop_entering, if_pos hvisit, hleaf, Visitor.visitBelow,
          if_pos hvisit, RangedTree.children, Visitor.visitFrom_nil]
      | cons c cs =>
        have hfirst : gotoFirstChild root node = some (node ++ [0]) := by
          have hsome := hchild 0
          rw [Nat.add_zero] at hsome
          simp [gotoFirstChild, hsome]
        obtain ⟨rounds, hrounds, hloop⟩ :=
          walkLoop_children (c :: cs) node 0 (visitor.enter node s).1 (by simp) hchild
        refine ⟨rounds + 1, by omega, fun more => ?_⟩
        rw [Nat.add_right_comm, walkLoop_entering, if_pos hvisit, hfirst, Visitor.visitBelow,
          if_pos hvisit]
        exact hloop more
    · refine ⟨1, by omega, fun more => ?_⟩
      rw [Nat.add_comm, walkLoop_entering, if_neg hvisit, Visitor.visitBelow, if_neg hvisit]

/-- From entering a child the loops come to leaving the parent, with this child and the next ones
visited. -/
lemma walkLoop_children : ∀ (cs : List (RangedTree L)) (above : Position) (i : Nat) (s : S),
    cs ≠ [] → (∀ j, root.get? (above ++ [i + j]) = cs[j]?) →
    ∃ rounds, rounds ≤ 2 * RangedTree.nodeCountOf cs ∧ ∀ more,
      walkLoop root visitor (rounds + more) .entering (above ++ [i]) s =
        walkLoop root visitor more .leaving above (visitor.visitFrom above i cs s)
  | [], above, i, s, hne, hget => absurd rfl hne
  | c :: cs, above, i, s, hne, hget => by
    have hcount : RangedTree.nodeCountOf (c :: cs) =
        c.nodeCount + RangedTree.nodeCountOf cs := by
      rw [RangedTree.nodeCountOf]
    obtain ⟨rounds, hrounds, hloop⟩ := walkLoop_node c (above ++ [i]) s (hget 0)
    have hleave (more : Nat) := @walkLoop_leaving L S root visitor more
      (above ++ [i]) (visitor.visitBelow (above ++ [i]) c s)
    rw [gotoNextSibling_child, hget 1, gotoParent_child, ← Visitor.visit_eq] at hleave
    have hnext (j : Nat) : root.get? (above ++ [i + 1 + j]) = cs[j]? := by
      rw [Nat.add_assoc, Nat.add_comm 1 j]
      exact hget (j + 1)
    by_cases hlast : cs = []
    · subst hlast
      refine ⟨rounds + 1, by omega, fun more => ?_⟩
      rw [Nat.add_assoc, hloop, Nat.add_comm 1 more, hleave, Visitor.visitFrom_cons,
        Visitor.visitFrom_nil]
      rfl
    · obtain ⟨rounds', hrounds', hloop'⟩ :=
        walkLoop_children cs above (i + 1) (visitor.visit (above ++ [i]) c s) hlast hnext
      have hsome : (c :: cs)[1]?.isSome = true := by
        simpa [List.length_pos_iff] using hlast
      refine ⟨rounds + (1 + rounds'), by omega, fun more => ?_⟩
      rw [Nat.add_assoc, hloop, Nat.add_assoc, Nat.add_comm 1, hleave, Visitor.visitFrom_cons,
        if_pos hsome]
      exact hloop' more

end

/-- The iterative walk is the recursive one, and its rounds are enough. -/
theorem walk_eq_visit (root : RangedTree L) (visitor : Visitor S) (s : S) :
    walk root visitor s = some (visitor.visit [] root s) := by
  obtain ⟨rounds, hrounds, hloop⟩ := @walkLoop_node L S root visitor root [] s rfl
  have hend : walkLoop root visitor (rounds + 1) .entering [] s =
      some (visitor.visit [] root s) := by
    rw [hloop, walkLoop_leaving, Visitor.visit_eq]
    rfl
  have hmore := walkLoop_more hend (2 * root.nodeCount - (rounds + 1))
  rwa [Nat.add_sub_cancel' hrounds] at hmore

end Loop

section Sides

variable {L S : Type} (v : Visitor S)

/-- A visitor that has skipped a node above is left alone. -/
def unlessSkipped (skip : Option Nat) (f : S → S) (s : S) : S := if skip.isSome then s else f s

@[simp] lemma unlessSkipped_none (f : S → S) (s : S) : unlessSkipped none f s = f s := rfl

@[simp] lemma unlessSkipped_some (skipped : Nat) (f : S → S) (s : S) :
    unlessSkipped (some skipped) f s = s := rfl

/-- The skips are of nodes above the depth. -/
def SkippedAbove (skip : Option Nat) (depth : Nat) : Prop := ∀ skipped ∈ skip, skipped < depth

lemma skippedAbove_none (depth : Nat) : SkippedAbove none depth := fun _ h => by cases h

lemma SkippedAbove.enterSide {skip : Option Nat} {depth : Nat} (h : SkippedAbove skip depth)
    (node : Position) (s : S) : SkippedAbove (enterSide v node depth s skip).2 (depth + 1) := by
  intro skipped hskipped
  cases skip with
  | some above =>
    cases hskipped
    exact Nat.lt_succ_of_lt (h skipped rfl)
  | none =>
    by_cases hvisit : (v.enter node s).2 = .skipChildren
    · simp only [WitcherScriptLanguage.enterSide, hvisit, if_pos, Option.mem_some_iff] at hskipped
      omega
    · simp [WitcherScriptLanguage.enterSide, hvisit] at hskipped

/-- Between `enter` and `leave` only the children that the visitor wants are visited. -/
lemma leaveSide_enterSide {skip : Option Nat} {depth : Nat} (h : SkippedAbove skip depth)
    (node : Position) (t : RangedTree L) (s : S) :
    leaveSide v node depth (unlessSkipped (enterSide v node depth s skip).2
        (v.visitFrom node 0 t.children) (enterSide v node depth s skip).1)
        (enterSide v node depth s skip).2 =
      (unlessSkipped skip (v.visit node t) s, skip) := by
  cases skip with
  | some above =>
    have hne : above ≠ depth := (h above rfl).ne
    simp [enterSide, leaveSide, hne]
  | none =>
    rw [unlessSkipped_none, Visitor.visit_eq, Visitor.visitBelow]
    cases hvisit : (v.enter node s).2 with
    | children => simp [enterSide, leaveSide, hvisit]
    | skipChildren => simp [enterSide, leaveSide, hvisit]

end Sides

namespace Fused

variable {L A B : Type} (va : Visitor A) (vb : Visitor B)

mutual

/-- Fused visitors visit the tree as each of them does. -/
lemma visit_visitor : ∀ (node : Position) (t : RangedTree L) (f : Fused A B),
    SkippedAbove f.aSkip f.depth → SkippedAbove f.bSkip f.depth →
    (visitor va vb).visit node t f =
      { f with
        a := unlessSkipped f.aSkip (va.visit node t) f.a
        b := unlessSkipped f.bSkip (vb.visit node t) f.b }
  | node, .node label start stop children, f, ha, hb => by
    let a := enterSide va node f.depth f.a f.aSkip
    let b := enterSide vb node f.depth f.b f.bSkip
    have hbelow : (visitor va vb).visitBelow node (.node label start stop children) f =
        ⟨unlessSkipped a.2 (va.visitFrom node 0 children) a.1,
          unlessSkipped b.2 (vb.visitFrom node 0 children) b.1, a.2, b.2, f.depth + 1⟩ := by
      have henter : (visitor va vb).enter node f = (⟨a.1, b.1, a.2, b.2, f.depth + 1⟩,
          if a.2.isSome && b.2.isSome then .skipChildren else .children) := rfl
      rw [Visitor.visitBelow, henter]
      by_cases hboth : (a.2.isSome && b.2.isSome) = true
      · rw [if_pos hboth, if_neg (by simp)]
        obtain ⟨hsome, hsome'⟩ := Bool.and_eq_true_iff.mp hboth
        rw [unlessSkipped, if_pos hsome, unlessSkipped, if_pos hsome']
      · rw [if_neg hboth, if_pos rfl]
        exact visitFrom_visitor node 0 children ⟨a.1, b.1, a.2, b.2, f.depth + 1⟩
          (ha.enterSide va node f.a) (hb.enterSide vb node f.b)
    have hleave : leaveSide va node f.depth
        (unlessSkipped a.2 (va.visitFrom node 0 children) a.1) a.2 = _ :=
      leaveSide_enterSide va ha node (.node label start stop children) f.a
    have hleave' : leaveSide vb node f.depth
        (unlessSkipped b.2 (vb.visitFrom node 0 children) b.1) b.2 = _ :=
      leaveSide_enterSide vb hb node (.node label start stop children) f.b
    rw [Visitor.visit_eq, hbelow]
    simp only [visitor, Nat.add_sub_cancel]
    rw [hleave, hleave']

lemma visitFrom_visitor : ∀ (node : Position) (i : Nat) (cs : List (RangedTree L)) (f : Fused A B),
    SkippedAbove f.aSkip f.depth → SkippedAbove f.bSkip f.depth →
    (visitor va vb).visitFrom node i cs f =
      { f with
        a := unlessSkipped f.aSkip (va.visitFrom node i cs) f.a
        b := unlessSkipped f.bSkip (vb.visitFrom node i cs) f.b }
  | node, i, [], f, ha, hb => by
    have hnil {S : Type} (v : Visitor S) (skip : Option Nat) (s : S) :
        unlessSkipped skip (v.visitFrom node i ([] : List (RangedTree L))) s = s := by
      cases skip <;> simp
    rw [Visitor.visitFrom_nil, hnil, hnil]
  | node, i, c :: cs, f, ha, hb => by
    have hcons {S : Type} (v : Visitor S) (skip : Option Nat) (s : S) :
        unlessSkipped skip (v.visitFrom node (i + 1) cs)
            (unlessSkipped skip (v.visit (node ++ [i]) c) s) =
          unlessSkipped skip (v.visitFrom node i (c :: cs)) s := by
      cases skip <;> simp [Visitor.visitFrom_cons]
    rw [Visitor.visitFrom_cons, visit_visitor (node ++ [i]) c f ha hb,
      visitFrom_visitor node (i + 1) cs ⟨unlessSkipped f.aSkip (va.visit (node ++ [i]) c) f.a,
        unlessSkipped f.bSkip (vb.visit (node ++ [i]) c) f.b, f.aSkip, f.bSkip, f.depth⟩ ha hb,
      hcons, hcons]

end

end Fused

/-- How visitors are fused. -/
inductive Fusion (ι : Type)
  | solo (i : ι)
  | fused (a b : Fusion ι)

namespace Fusion

variable {L ι : Type} {S : ι → Type}

def State (S : ι → Type) : Fusion ι → Type
  | solo i => S i
  | fused a b => Fused (a.State S) (b.State S)

def visitor (v : ∀ i, Visitor (S i)) : (f : Fusion ι) → Visitor (f.State S)
  | solo i => v i
  | fused a b => Fused.visitor (a.visitor v) (b.visitor v)

def new (s : ∀ i, S i) : (f : Fusion ι) → f.State S
  | solo i => s i
  | fused a b => Fused.new (a.new s) (b.new s)

/-- The visitors that have been fused. -/
def visitors : Fusion ι → List ι
  | solo i => [i]
  | fused a b => a.visitors ++ b.visitors

/-- The states of the visitors. -/
def states : (f : Fusion ι) → f.State S → List (Σ i, S i)
  | solo i, s => [⟨i, s⟩]
  | fused a b, s => a.states s.a ++ b.states s.b

lemma states_visit (v : ∀ i, Visitor (S i)) (s : ∀ i, S i) (root : RangedTree L) (f : Fusion ι) :
    f.states ((f.visitor v).visit [] root (f.new s)) =
      f.visitors.map fun i => ⟨i, (v i).visit [] root (s i)⟩ := by
  induction f with
  | solo i => rfl
  | fused a b iha ihb =>
    have hfused := Fused.visit_visitor (a.visitor v) (b.visitor v) [] root
      (Fused.new (a.new s) (b.new s)) (skippedAbove_none _) (skippedAbove_none _)
    rw [visitors, List.map_append, ← iha, ← ihb]
    exact congrArg (fun f : Fused (a.State S) (b.State S) => a.states f.a ++ b.states f.b) hfused

/-- However visitors are fused, each of them is told what it is told in a walk of its own, comes to
the same state, and is told of every node that it enters and leaves in pairs. -/
theorem walk_states (v : ∀ i, Visitor (S i)) (s : ∀ i, S i) (root : RangedTree L) (f : Fusion ι) :
    ∃ ends : ∀ i, S i × List VisitEvent,
      (∀ i, walk root (v i).traced (s i, []) = some (ends i) ∧
        walk root (v i) (s i) = some (ends i).1 ∧ Paired (ends i).2) ∧
      ∃ final, walk root (f.visitor fun i => (v i).traced) (f.new fun i => (s i, [])) = some final ∧
        f.states final = f.visitors.map fun i => ⟨i, ends i⟩ := by
  refine ⟨fun i => (v i).traced.visit [] root (s i, []), fun i => ?_, _, walk_eq_visit _ _ _,
    states_visit _ _ _ _⟩
  obtain ⟨events, hevents, hneutral⟩ := (v i).visit_traced [] root (s i) []
  refine ⟨walk_eq_visit _ _ _, ?_, ?_⟩
  · rw [walk_eq_visit]
    exact congrArg (fun r => some r.1) hevents.symm
  · have hpaired : Paired ((v i).visit [] root (s i), [] ++ events).2 := hneutral.paired
    rwa [← hevents] at hpaired

end Fusion

end WitcherScriptLanguage
