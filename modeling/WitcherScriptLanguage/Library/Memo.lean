import Mathlib.Data.List.AList
import Mathlib.Tactic.Lemma
import Mathlib.Tactic.SplitIfs

/-!
# Memo tables

A table remembers the result of a function under a key of its argument. The result for an argument
is that of the first argument with its key, which is its own one only if the key decides the
result.
-/

namespace WitcherScriptLanguage.Library

variable {α κ β : Type} [DecidableEq κ]

/-- The result from the table, or else a new one that the table remembers. -/
def memo (key : α → κ) (f : α → β) (a : α) (table : AList fun _ : κ => β) :
    β × AList fun _ : κ => β :=
  match table.lookup (key a) with
  | some b => (b, table)
  | none => (f a, table.insert (key a) (f a))

/-- The first argument with the key of `a`. -/
def firstLike (key : α → κ) (l : List α) (a : α) : α := (l.find? fun b => key b = key a).getD a

/-- The table holds the results of the first arguments of their keys. -/
def Remembers (key : α → κ) (f : α → β) (l : List α) (table : AList fun _ : κ => β) : Prop :=
  ∀ k, table.lookup k = (l.find? fun b => key b = k).map f

variable {key : α → κ} {f : α → β} {l : List α} {a : α} {table : AList fun _ : κ => β}

lemma remembers_nil : Remembers key f [] ∅ := fun _ => AList.lookup_empty _

lemma key_firstLike (l : List α) (a : α) : key (firstLike key l a) = key a := by
  unfold firstLike
  cases hfind : l.find? fun b => key b = key a with
  | none => rfl
  | some b =>
    have hb := List.find?_some hfind
    exact of_decide_eq_true hb

lemma firstLike_mem (h : a ∈ l) : firstLike key l a ∈ l := by
  unfold firstLike
  cases hfind : l.find? fun b => key b = key a with
  | none => exact h
  | some b => exact List.mem_of_find?_eq_some hfind

lemma firstLike_congr {b : α} (hb : b ∈ l) (hkey : key a = key b) :
    firstLike key l a = firstLike key l b := by
  unfold firstLike
  rw [hkey]
  cases hfind : l.find? fun c => key c = key b with
  | none =>
    rw [List.find?_eq_none] at hfind
    exact absurd (decide_eq_true rfl) (hfind b hb)
  | some c => rfl

/-- What comes later does not matter to an argument. -/
lemma firstLike_append (h : a ∈ l) (later : List α) :
    firstLike key (l ++ later) a = firstLike key l a := by
  unfold firstLike
  rw [List.find?_append]
  cases hfind : l.find? fun b => key b = key a with
  | none =>
    rw [List.find?_eq_none] at hfind
    exact absurd (decide_eq_true rfl) (hfind a h)
  | some b => rfl

/-- The table answers for the first argument with the key, and goes on remembering. -/
lemma Remembers.memo (h : Remembers key f l table) (a : α) :
    (Library.memo key f a table).1 = f (firstLike key (l ++ [a]) a) ∧
      Remembers key f (l ++ [a]) (Library.memo key f a table).2 := by
  have hlookup := h (key a)
  unfold Library.memo
  cases hfind : l.find? fun b => key b = key a with
  | some b =>
    rw [hfind, Option.map_some] at hlookup
    simp only [hlookup]
    constructor
    · rw [firstLike, List.find?_append, hfind]
      rfl
    · intro k
      rw [h k, List.find?_append]
      cases hk : l.find? fun b => key b = k with
      | some c => rfl
      | none =>
        have hne : ¬key a = k := by
          intro heq
          rw [heq, hk] at hfind
          cases hfind
        rw [List.find?_singleton, if_neg (by rwa [decide_eq_true_iff])]
        rfl
  | none =>
    rw [hfind, Option.map_none] at hlookup
    simp only [hlookup]
    constructor
    · rw [firstLike, List.find?_append, hfind, List.find?_singleton, if_pos (decide_eq_true rfl)]
      rfl
    · intro k
      rw [List.find?_append, List.find?_singleton]
      by_cases hk : key a = k
      · rw [← hk, AList.lookup_insert, hfind, if_pos (decide_eq_true rfl)]
        rfl
      · have hne : k ≠ key a := fun heq => hk heq.symm
        rw [AList.lookup_insert_ne hne, h k, if_neg (by rwa [decide_eq_true_iff]), Option.or_none]

end WitcherScriptLanguage.Library
