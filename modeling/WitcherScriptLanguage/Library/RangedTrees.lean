import Mathlib.Data.List.Basic
import Mathlib.Data.List.Nodup
import Mathlib.Data.Nat.Basic
import Mathlib.Order.Basic
import Mathlib.Tactic.Lemma
import Mathlib.Tactic.SplitIfs

/-!
# Trees over a text

Ordered trees whose nodes carry a label and a range of a text, as parsers make them: the ranges
of the children follow each other inside the range of their parent. A node is named by its
position, the indexes of the children on the way to it. Two nodes are nested or disjoint.
-/

namespace WitcherScriptLanguage.Library

inductive RangedTree (L : Type)
  | node (label : L) (start stop : Nat) (children : List (RangedTree L))

/-- The indexes of the children from the root to a node. -/
abbrev Position := List Nat

/-- Of two positions one is above the other, or they part at two children of one node. -/
lemma Position.prefix_or_part (p q : Position) : p <+: q ∨ q <+: p ∨
    ∃ (above p' q' : Position) (i j : Nat), i ≠ j ∧ p = above ++ i :: p' ∧ q = above ++ j :: q' := by
  induction p generalizing q with
  | nil => exact Or.inl List.nil_prefix
  | cons i p ih =>
    cases q with
    | nil => exact Or.inr (Or.inl List.nil_prefix)
    | cons j q =>
      by_cases hij : i = j
      · subst hij
        rcases ih q with hpq | hqp | ⟨above, p', q', i', j', hne, rfl, rfl⟩
        · exact Or.inl (List.cons_prefix_cons.mpr ⟨rfl, hpq⟩)
        · exact Or.inr (Or.inl (List.cons_prefix_cons.mpr ⟨rfl, hqp⟩))
        · exact Or.inr (Or.inr ⟨i :: above, p', q', i', j', hne, rfl, rfl⟩)
      · exact Or.inr (Or.inr ⟨[], p, q, i, j, hij, rfl, rfl⟩)

namespace RangedTree

variable {L : Type}

def label : RangedTree L → L
  | node label _ _ _ => label

def start : RangedTree L → Nat
  | node _ start _ _ => start

def stop : RangedTree L → Nat
  | node _ _ stop _ => stop

def children : RangedTree L → List (RangedTree L)
  | node _ _ _ children => children

/-- The node at a position. -/
def get? : RangedTree L → Position → Option (RangedTree L)
  | t, [] => some t
  | t, i :: p => (t.children[i]?).bind fun c => c.get? p

lemma get?_append (t : RangedTree L) (p q : Position) :
    t.get? (p ++ q) = (t.get? p).bind fun n => n.get? q := by
  induction p generalizing t with
  | nil => rfl
  | cons i p ih =>
    rw [List.cons_append, get?, get?, Option.bind_assoc]
    exact congrArg _ (funext ih)

lemma get?_append_eq_some {t b : RangedTree L} {p q : Position} (h : t.get? (p ++ q) = some b) :
    ∃ a, t.get? p = some a ∧ a.get? q = some b := by
  rw [get?_append] at h
  exact Option.bind_eq_some_iff.mp h

mutual

def nodeCount : RangedTree L → Nat
  | node _ _ _ children => 1 + nodeCountOf children

def nodeCountOf : List (RangedTree L) → Nat
  | [] => 0
  | c :: cs => c.nodeCount + nodeCountOf cs

end

lemma nodeCount_le_of_mem {cs : List (RangedTree L)} {c : RangedTree L} (h : c ∈ cs) :
    c.nodeCount ≤ nodeCountOf cs := by
  induction cs with
  | nil => cases h
  | cons d cs ih =>
    rw [nodeCountOf]
    rcases List.mem_cons.mp h with rfl | h
    · exact Nat.le_add_right _ _
    · exact (ih h).trans (Nat.le_add_left _ _)

lemma nodeCount_lt_of_mem_children {t c : RangedTree L} (h : c ∈ t.children) :
    c.nodeCount < t.nodeCount := by
  cases t
  rw [nodeCount, Nat.add_comm]
  exact Nat.lt_succ_of_le (nodeCount_le_of_mem h)

structure Ordered (n : RangedTree L) : Prop where
  start_le_stop : n.start ≤ n.stop
  inside : ∀ c ∈ n.children, n.start ≤ c.start ∧ c.stop ≤ n.stop
  successive : n.children.Pairwise fun a b => a.stop ≤ b.start

instance (n : RangedTree L) : Decidable n.Ordered :=
  decidable_of_iff (n.start ≤ n.stop ∧ (∀ c ∈ n.children, n.start ≤ c.start ∧ c.stop ≤ n.stop) ∧
      n.children.Pairwise fun a b => a.stop ≤ b.start)
    ⟨fun h => ⟨h.1, h.2.1, h.2.2⟩, fun h => ⟨h.start_le_stop, h.inside, h.successive⟩⟩

def WellFormed (t : RangedTree L) : Prop := ∀ p n, t.get? p = some n → n.Ordered

lemma WellFormed.get {t n : RangedTree L} (h : t.WellFormed) {p : Position}
    (hn : t.get? p = some n) : n.WellFormed := by
  intro q m hm
  refine h (p ++ q) m ?_
  rw [get?_append, hn]
  exact hm

lemma WellFormed.inside {t n : RangedTree L} (h : t.WellFormed) {p : Position}
    (hn : t.get? p = some n) : t.start ≤ n.start ∧ n.stop ≤ t.stop := by
  induction p generalizing t with
  | nil =>
    cases hn
    exact ⟨le_refl _, le_refl _⟩
  | cons i p ih =>
    obtain ⟨c, hc, hrest⟩ := Option.bind_eq_some_iff.mp hn
    have hbelow := ih (h.get (p := [i]) (by rw [get?, hc]; rfl)) hrest
    have hchild := (h [] t rfl).inside c (List.mem_of_getElem? hc)
    exact ⟨hchild.1.trans hbelow.1, hbelow.2.trans hchild.2⟩

/-- A node is inside every node above it. -/
lemma WellFormed.inside_of_prefix {t a b : RangedTree L} (h : t.WellFormed) {p q : Position}
    (hpq : p <+: q) (ha : t.get? p = some a) (hb : t.get? q = some b) :
    a.start ≤ b.start ∧ b.stop ≤ a.stop := by
  obtain ⟨r, rfl⟩ := hpq
  obtain ⟨a', ha', hb'⟩ := get?_append_eq_some hb
  cases ha.symm.trans ha'
  exact (h.get ha).inside hb'

/-- What is below an earlier child is in front of what is below a later one. -/
lemma WellFormed.before_of_lt {t a b : RangedTree L} (h : t.WellFormed) {above p q : Position}
    {i j : Nat} (hij : i < j) (ha : t.get? (above ++ i :: p) = some a)
    (hb : t.get? (above ++ j :: q) = some b) : a.stop ≤ b.start := by
  obtain ⟨n, hn, hna⟩ := get?_append_eq_some ha
  obtain ⟨n', hn', hnb⟩ := get?_append_eq_some hb
  cases hn.symm.trans hn'
  obtain ⟨c, hc, hca⟩ := Option.bind_eq_some_iff.mp hna
  obtain ⟨d, hd, hdb⟩ := Option.bind_eq_some_iff.mp hnb
  have hwf := h.get hn
  have hcd : c.stop ≤ d.start := by
    obtain ⟨hi, rfl⟩ := List.getElem?_eq_some_iff.mp hc
    obtain ⟨hj, rfl⟩ := List.getElem?_eq_some_iff.mp hd
    exact List.pairwise_iff_getElem.mp (hwf [] n rfl).successive i j hi hj hij
  have hac := (hwf.get (p := [i]) (by rw [get?, hc]; rfl)).inside hca
  have hbd := (hwf.get (p := [j]) (by rw [get?, hd]; rfl)).inside hdb
  exact hac.2.trans (hcd.trans hbd.1)

theorem WellFormed.nested_or_disjoint {t a b : RangedTree L} (h : t.WellFormed) {p q : Position}
    (ha : t.get? p = some a) (hb : t.get? q = some b) :
    p <+: q ∨ q <+: p ∨ a.stop ≤ b.start ∨ b.stop ≤ a.start := by
  rcases Position.prefix_or_part p q with hpq | hqp | ⟨above, p', q', i, j, hne, rfl, rfl⟩
  · exact Or.inl hpq
  · exact Or.inr (Or.inl hqp)
  · rcases Nat.lt_or_gt_of_ne hne with hij | hji
    · exact Or.inr (Or.inr (Or.inl (h.before_of_lt hij ha hb)))
    · exact Or.inr (Or.inr (Or.inr (h.before_of_lt hji hb ha)))

mutual

/-- The positions of all nodes, parents in front of their children. -/
def positions : RangedTree L → List Position
  | node _ _ _ children => [] :: positionsFrom 0 children

def positionsFrom : Nat → List (RangedTree L) → List Position
  | _, [] => []
  | i, c :: cs => (c.positions.map fun p => i :: p) ++ positionsFrom (i + 1) cs

end

mutual

lemma isSome_of_mem_positions : ∀ (t : RangedTree L) {p : Position}, p ∈ t.positions →
    (t.get? p).isSome
  | node label start stop children, p, h => by
    rw [positions] at h
    rcases List.mem_cons.mp h with rfl | h
    · rfl
    · obtain ⟨j, q, rfl, hq⟩ := isSome_of_mem_positionsFrom 0 children h
      rw [Nat.zero_add]
      exact hq

lemma isSome_of_mem_positionsFrom : ∀ (i : Nat) (cs : List (RangedTree L)) {p : Position},
    p ∈ positionsFrom i cs → ∃ j q, p = (i + j) :: q ∧ ((cs[j]?).bind fun c => c.get? q).isSome
  | i, [], p, h => by cases h
  | i, c :: cs, p, h => by
    rw [positionsFrom] at h
    rcases List.mem_append.mp h with h | h
    · obtain ⟨q, hq, rfl⟩ := List.mem_map.mp h
      exact ⟨0, q, rfl, isSome_of_mem_positions c hq⟩
    · obtain ⟨j, q, rfl, hq⟩ := isSome_of_mem_positionsFrom (i + 1) cs h
      exact ⟨j + 1, q, by rw [Nat.add_assoc, Nat.add_comm 1 j], hq⟩

end

mutual

lemma mem_positions_of_get? : ∀ (t : RangedTree L) {p : Position} {n : RangedTree L},
    t.get? p = some n → p ∈ t.positions
  | node label start stop children, p, n, h => by
    rw [positions]
    cases p with
    | nil => exact List.mem_cons_self
    | cons j q =>
      have hbelow := mem_positionsFrom_of_get? 0 children h
      rw [Nat.zero_add] at hbelow
      exact List.mem_cons_of_mem _ hbelow

lemma mem_positionsFrom_of_get? : ∀ (i : Nat) (cs : List (RangedTree L)) {j : Nat} {q : Position}
    {n : RangedTree L}, ((cs[j]?).bind fun c => c.get? q) = some n →
      (i + j) :: q ∈ positionsFrom i cs
  | i, [], j, q, n, h => by cases h
  | i, c :: cs, j, q, n, h => by
    rw [positionsFrom]
    cases j with
    | zero => exact List.mem_append_left _ (List.mem_map_of_mem (mem_positions_of_get? c h))
    | succ j =>
      have hlater := mem_positionsFrom_of_get? (i + 1) cs h
      rw [Nat.add_assoc, Nat.add_comm 1 j] at hlater
      exact List.mem_append_right _ hlater

end

/-- What holds of every node can be checked position by position. -/
lemma forall_get?_iff {P : RangedTree L → Prop} (t : RangedTree L) :
    (∀ p n, t.get? p = some n → P n) ↔ ∀ p ∈ t.positions, ∀ n ∈ t.get? p, P n :=
  ⟨fun h p _ n hn => h p n hn, fun h p n hn => h p (mem_positions_of_get? t hn) n hn⟩

mutual

lemma nodup_positions : ∀ t : RangedTree L, t.positions.Nodup
  | node label start stop children => by
    rw [positions, List.nodup_cons]
    refine ⟨fun h => ?_, nodup_positionsFrom 0 children⟩
    obtain ⟨j, q, hnil, -⟩ := isSome_of_mem_positionsFrom 0 children h
    cases hnil

lemma nodup_positionsFrom : ∀ (i : Nat) (cs : List (RangedTree L)), (positionsFrom i cs).Nodup
  | i, [] => by simp [positionsFrom]
  | i, c :: cs => by
    rw [positionsFrom, List.nodup_append]
    refine ⟨(nodup_positions c).map fun p q h => (List.cons.inj h).2,
      nodup_positionsFrom (i + 1) cs, fun p hp q hq hpq => ?_⟩
    obtain ⟨p', -, rfl⟩ := List.mem_map.mp hp
    obtain ⟨j, q', rfl, -⟩ := isSome_of_mem_positionsFrom (i + 1) cs hq
    have hindex := (List.cons.inj hpq).1
    omega

end

mutual

/-- The search goes into the first child that reaches behind the range, if it begins early
enough. -/
def descendantFor (start stop : Nat) : RangedTree L → Position
  | node _ _ _ children => descendantFrom start stop 0 children

def descendantFrom (start stop : Nat) : Nat → List (RangedTree L) → Position
  | _, [] => []
  | i, c :: cs =>
    if c.stop < stop ∨ c.stop ≤ start then descendantFrom start stop (i + 1) cs
    else if start < c.start then []
    else i :: c.descendantFor start stop

end

mutual

/-- What the search finds below the root spans the range. -/
lemma descendantFor_spans (start stop : Nat) : ∀ t : RangedTree L, ∃ n,
    t.get? (t.descendantFor start stop) = some n ∧
      (t.descendantFor start stop = [] ∨ n.start ≤ start ∧ stop ≤ n.stop)
  | node label first last children => by
    rw [descendantFor]
    rcases descendantFrom_spans start stop 0 children with hnil | ⟨j, q, n, hpos, hn, hspans⟩
    · exact ⟨_, by rw [hnil]; rfl, Or.inl hnil⟩
    · refine ⟨n, ?_, Or.inr hspans⟩
      rw [hpos, Nat.zero_add]
      exact hn

lemma descendantFrom_spans (start stop : Nat) : ∀ (i : Nat) (cs : List (RangedTree L)),
    descendantFrom start stop i cs = [] ∨ ∃ j q n, descendantFrom start stop i cs = (i + j) :: q ∧
      (cs[j]?).bind (fun c => c.get? q) = some n ∧ n.start ≤ start ∧ stop ≤ n.stop
  | i, [] => by simp [descendantFrom]
  | i, c :: cs => by
    rw [descendantFrom]
    split_ifs with hbefore hbehind
    · rcases descendantFrom_spans start stop (i + 1) cs with hnil | ⟨j, q, n, hpos, hn⟩
      · exact Or.inl hnil
      · refine Or.inr ⟨j + 1, q, n, ?_, hn⟩
        rw [hpos, Nat.add_assoc, Nat.add_comm 1 j]
    · exact Or.inl rfl
    · obtain ⟨n, hn, hspans⟩ := descendantFor_spans start stop c
      refine Or.inr ⟨0, _, n, rfl, hn, ?_⟩
      rcases hspans with hnil | hspans
      · rw [hnil] at hn
        cases hn
        exact ⟨Nat.not_lt.mp hbehind, by omega⟩
      · exact hspans

end

end RangedTree

end WitcherScriptLanguage.Library
