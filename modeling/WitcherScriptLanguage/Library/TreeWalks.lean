import WitcherScriptLanguage.Library.RangedTrees

/-!
# Walks through trees

A walk enters the nodes of a tree in pre-order and asks its visitor whether to go below a node.
Where the answers do not depend on the visitor's state, the walk is a fold over the nodes that it
enters. Of two of them the walk goes below the first to reach the second, or the first is in front
of the second.
-/

namespace WitcherScriptLanguage.Library

namespace RangedTree

variable {L S : Type}

mutual

/-- Pre-order traversal from the node at `p`. -/
def walk (enter : Position → S → S × Bool) (p : Position) : RangedTree L → S → S
  | node _ _ _ children, s =>
    if (enter p s).2 then walkFrom enter p 0 children (enter p s).1 else (enter p s).1

def walkFrom (enter : Position → S → S × Bool) (p : Position) : Nat → List (RangedTree L) → S → S
  | _, [], s => s
  | i, c :: cs, s => walkFrom enter p (i + 1) cs (c.walk enter (p ++ [i]) s)

end

mutual

/-- The nodes that a walk enters, if it goes below the nodes that `descends`. -/
def entered (descends : Position → Bool) (p : Position) : RangedTree L → List Position
  | node _ _ _ children => p :: if descends p then enteredFrom descends p 0 children else []

def enteredFrom (descends : Position → Bool) (p : Position) :
    Nat → List (RangedTree L) → List Position
  | _, [] => []
  | i, c :: cs => c.entered descends (p ++ [i]) ++ enteredFrom descends p (i + 1) cs

end

/-- The visitor's answer at nodes with children. -/
def Decides (enter : Position → S → S × Bool) (descends : Position → Bool) (p : Position)
    (t : RangedTree L) : Prop :=
  ∀ q n s, t.get? q = some n → n.children = [] ∨ (enter (p ++ q) s).2 = descends (p ++ q)

lemma Decides.child {enter : Position → S → S × Bool} {descends : Position → Bool} {p : Position}
    {t c : RangedTree L} {i : Nat} (h : Decides enter descends p t) (hc : t.children[i]? = some c) :
    Decides enter descends (p ++ [i]) c := by
  intro q n s hn
  have hpos : t.get? (i :: q) = some n := by
    rw [get?, hc, Option.bind_some, hn]
  have hnode := h (i :: q) n s hpos
  rwa [← List.singleton_append, ← List.append_assoc] at hnode

mutual

lemma walk_eq_foldl {enter : Position → S → S × Bool} {descends : Position → Bool} :
    ∀ {p : Position} {t : RangedTree L}, Decides enter descends p t → ∀ s,
      t.walk enter p s = (t.entered descends p).foldl (fun s q => (enter q s).1) s
  | p, node label start stop children, h, s => by
    have hchildren : ∀ i c, children[0 + i]? = some c → Decides enter descends (p ++ [0 + i]) c :=
      fun i c hc => h.child hc
    have hroot := h [] _ s rfl
    rw [List.append_nil] at hroot
    rw [walk, entered, List.foldl_cons]
    rcases hroot with hleaf | hdecides
    · have hnil : children = [] := hleaf
      subst hnil
      cases (enter p s).2 <;> cases descends p <;> rfl
    · have hbelow := walkFrom_eq_foldl (i := 0) (fun j c hc => hchildren j c (by rwa [Nat.zero_add]))
        (enter p s).1
      rw [hdecides]
      split_ifs
      · exact hbelow
      · rfl

lemma walkFrom_eq_foldl {enter : Position → S → S × Bool} {descends : Position → Bool} :
    ∀ {p : Position} {i : Nat} {cs : List (RangedTree L)},
      (∀ j c, cs[j]? = some c → Decides enter descends (p ++ [i + j]) c) → ∀ s,
        walkFrom enter p i cs s = (enteredFrom descends p i cs).foldl (fun s q => (enter q s).1) s
  | p, i, [], h, s => rfl
  | p, i, c :: cs, h, s => by
    have hfirst : Decides enter descends (p ++ [i]) c := h 0 c rfl
    have hrest : ∀ j d, cs[j]? = some d → Decides enter descends (p ++ [i + 1 + j]) d := by
      intro j d hd
      have hnext := h (j + 1) d hd
      rwa [Nat.add_comm j 1, ← Nat.add_assoc] at hnext
    rw [walkFrom, enteredFrom, List.foldl_append, ← walk_eq_foldl hfirst, walkFrom_eq_foldl hrest]

end

mutual

lemma exists_of_mem_entered {descends : Position → Bool} :
    ∀ {p q : Position} {t : RangedTree L}, q ∈ t.entered descends p →
      ∃ r, q = p ++ r ∧ (t.get? r).isSome
  | p, q, node label start stop children, h => by
    rw [entered] at h
    rcases List.mem_cons.mp h with rfl | h
    · exact ⟨[], (List.append_nil _).symm, rfl⟩
    · split_ifs at h
      · obtain ⟨j, r, rfl, hr⟩ := exists_of_mem_enteredFrom h
        rw [Nat.zero_add]
        exact ⟨j :: r, rfl, hr⟩
      · cases h

lemma exists_of_mem_enteredFrom {descends : Position → Bool} :
    ∀ {p q : Position} {i : Nat} {cs : List (RangedTree L)}, q ∈ enteredFrom descends p i cs →
      ∃ j r, q = p ++ (i + j) :: r ∧ ((cs[j]?).bind fun c => c.get? r).isSome
  | p, q, i, [], h => by cases h
  | p, q, i, c :: cs, h => by
    rw [enteredFrom] at h
    rcases List.mem_append.mp h with h | h
    · obtain ⟨r, rfl, hr⟩ := exists_of_mem_entered h
      exact ⟨0, r, by rw [List.append_assoc]; rfl, hr⟩
    · obtain ⟨j, r, rfl, hr⟩ := exists_of_mem_enteredFrom h
      exact ⟨j + 1, r, by rw [Nat.add_assoc, Nat.add_comm 1 j], hr⟩

end

section

variable {descends keeps : Position → Bool}

mutual

/-- A walk that stops at the nodes it does not keep misses none of the kept ones, if what is
above a kept node is kept. -/
lemma filter_entered (hup : ∀ q r, keeps (q ++ r) = true → keeps q = true) :
    ∀ (p : Position) (t : RangedTree L),
      (t.entered (fun q => keeps q && descends q) p).filter keeps =
        (t.entered descends p).filter keeps
  | p, node label start stop children => by
    rw [entered, entered]
    cases hp : keeps p with
    | true =>
      have hbelow := filter_enteredFrom hup p 0 children
      rw [Bool.true_and, List.filter_cons_of_pos hp, List.filter_cons_of_pos hp]
      split_ifs
      · rw [hbelow]
      · rfl
    | false =>
      have hnone : (enteredFrom descends p 0 children).filter keeps = [] := by
        rw [List.filter_eq_nil_iff]
        intro q hq hkept
        obtain ⟨j, r, rfl, -⟩ := exists_of_mem_enteredFrom hq
        rw [hup p _ hkept] at hp
        cases hp
      have hnot : ¬keeps p = true := by
        rw [hp]
        exact Bool.false_ne_true
      rw [Bool.false_and, if_neg Bool.false_ne_true, List.filter_cons_of_neg hnot,
        List.filter_cons_of_neg hnot, List.filter_nil]
      split_ifs
      · rw [hnone]
      · rfl

lemma filter_enteredFrom (hup : ∀ q r, keeps (q ++ r) = true → keeps q = true) :
    ∀ (p : Position) (i : Nat) (cs : List (RangedTree L)),
      (enteredFrom (fun q => keeps q && descends q) p i cs).filter keeps =
        (enteredFrom descends p i cs).filter keeps
  | p, i, [] => rfl
  | p, i, c :: cs => by
    rw [enteredFrom, enteredFrom, List.filter_append, List.filter_append, filter_entered hup,
      filter_enteredFrom hup]

end

end

/-- The nodes are below different children of one node, the first below an earlier one. -/
def Before (p q : Position) : Prop :=
  ∃ (above p' q' : Position) (i j : Nat), i < j ∧ p = above ++ i :: p' ∧ q = above ++ j :: q'

mutual

/-- Of two nodes the walk goes below the first to reach the second, or the first is in front. -/
lemma pairwise_entered (descends : Position → Bool) : ∀ (p : Position) (t : RangedTree L),
    (t.entered descends p).Pairwise fun a b =>
      (∃ i r, b = a ++ i :: r ∧ descends a = true) ∨ Before a b
  | p, node label start stop children => by
    rw [entered, List.pairwise_cons]
    split_ifs with hp
    · refine ⟨?_, pairwise_enteredFrom descends p 0 children⟩
      intro q hq
      obtain ⟨j, r, rfl, -⟩ := exists_of_mem_enteredFrom hq
      exact .inl ⟨0 + j, r, rfl, hp⟩
    · exact ⟨List.forall_mem_nil _, .nil⟩

lemma pairwise_enteredFrom (descends : Position → Bool) :
    ∀ (p : Position) (i : Nat) (cs : List (RangedTree L)),
      (enteredFrom descends p i cs).Pairwise fun a b =>
        (∃ i r, b = a ++ i :: r ∧ descends a = true) ∨ Before a b
  | p, i, [] => .nil
  | p, i, c :: cs => by
    rw [enteredFrom, List.pairwise_append]
    refine ⟨pairwise_entered descends (p ++ [i]) c, pairwise_enteredFrom descends p (i + 1) cs, ?_⟩
    intro a ha b hb
    obtain ⟨r, rfl, -⟩ := exists_of_mem_entered ha
    obtain ⟨j, r', rfl, -⟩ := exists_of_mem_enteredFrom hb
    right
    refine ⟨p, r, r', i, i + 1 + j, by omega, ?_, rfl⟩
    rw [List.append_assoc]
    rfl

end

end RangedTree

end WitcherScriptLanguage.Library
