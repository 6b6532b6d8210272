import Mathlib.Data.List.Basic
import Mathlib.Tactic.Lemma

/-!
# Common prefixes and suffixes

Two lists that begin and end alike differ in the piece between: the one becomes the other when
this piece is replaced. What they have in common at the two ends may overlap in either list, so
that both counts are limited by the shorter one.
-/

namespace WitcherScriptLanguage.Library

variable {α : Type} [DecidableEq α]

/-- How many elements two lists have in common at their beginning. -/
def commonCount (xs ys : List α) : Nat :=
  ((xs.zip ys).takeWhile fun p => decide (p.1 = p.2)).length

@[simp] lemma commonCount_nil_left (ys : List α) : commonCount [] ys = 0 := rfl

@[simp] lemma commonCount_nil_right (xs : List α) : commonCount xs [] = 0 := by
  cases xs <;> rfl

lemma commonCount_cons_self (a : α) (xs ys : List α) :
    commonCount (a :: xs) (a :: ys) = commonCount xs ys + 1 := by
  simp [commonCount]

lemma commonCount_cons_of_ne {a b : α} (h : a ≠ b) (xs ys : List α) :
    commonCount (a :: xs) (b :: ys) = 0 := by
  simp [commonCount, h]

lemma commonCount_le_min (xs ys : List α) : commonCount xs ys ≤ min xs.length ys.length := by
  have h := (List.takeWhile_sublist (l := xs.zip ys) fun p => decide (p.1 = p.2)).length_le
  rwa [List.length_zip] at h

/-- The same count over the first pairs only. -/
def commonCountUpTo (limit : Nat) (xs ys : List α) : Nat :=
  (((xs.zip ys).take limit).takeWhile fun p => decide (p.1 = p.2)).length

lemma commonCountUpTo_le_limit (limit : Nat) (xs ys : List α) :
    commonCountUpTo limit xs ys ≤ limit :=
  Nat.le_trans (List.takeWhile_sublist _).length_le (List.length_take_le _ _)

lemma commonCountUpTo_le_commonCount (limit : Nat) (xs ys : List α) :
    commonCountUpTo limit xs ys ≤ commonCount xs ys := by
  have hzip := List.take_append_drop limit (xs.zip ys)
  rw [commonCount, ← hzip, List.takeWhile_append]
  split
  · rw [List.length_append, commonCountUpTo]
    omega
  · exact Nat.le_refl _

/-- As far as the count, the lists are the same. -/
lemma take_eq_take_of_le_commonCount {xs ys : List α} {n : Nat} (h : n ≤ commonCount xs ys) :
    xs.take n = ys.take n := by
  induction n generalizing xs ys with
  | zero => rfl
  | succ n ih =>
    cases xs with
    | nil => simp at h
    | cons a xs =>
      cases ys with
      | nil => simp at h
      | cons b ys =>
        by_cases hab : a = b
        · subst hab
          rw [commonCount_cons_self] at h
          rw [List.take_succ_cons, List.take_succ_cons, ih (Nat.le_of_succ_le_succ h)]
        · rw [commonCount_cons_of_ne hab] at h
          omega

/-- A list and itself with something behind agree throughout the list. -/
lemma commonCount_append_self (xs ys : List α) : commonCount xs (xs ++ ys) = xs.length := by
  induction xs with
  | nil => rfl
  | cons a xs ih => rw [List.cons_append, commonCount_cons_self, ih, List.length_cons]

/-- The lists are equal where all of both is in common. -/
lemma eq_of_commonCount_eq_length {xs ys : List α} (hlength : xs.length = ys.length)
    (h : commonCount xs ys = xs.length) : xs = ys := by
  have htake := take_eq_take_of_le_commonCount (Nat.le_of_eq h.symm)
  rwa [List.take_length, hlength, List.take_length] at htake

/-- The other end of the lists, counted from behind. -/
lemma drop_eq_drop_of_le_commonCount {xs ys : List α} {n : Nat}
    (h : n ≤ commonCount xs.reverse ys.reverse) :
    xs.drop (xs.length - n) = ys.drop (ys.length - n) := by
  have htake := congrArg List.reverse (take_eq_take_of_le_commonCount h)
  rwa [List.reverse_take, List.reverse_take, List.reverse_reverse, List.reverse_reverse,
    List.length_reverse, List.length_reverse] at htake

/-- Replacing what stands between a common prefix and a common suffix makes the one list the
other. -/
theorem replace_middle {xs ys : List α} {front back : Nat} (hfront : front ≤ commonCount xs ys)
    (hback : back ≤ commonCount xs.reverse ys.reverse) (hys : front + back ≤ ys.length) :
    xs.take front ++ (ys.drop front).take (ys.length - back - front) ++
      xs.drop (xs.length - back) = ys := by
  have hdrop : ys.drop (ys.length - back) =
      (ys.drop front).drop (ys.length - back - front) := by
    rw [List.drop_drop]
    congr 1
    omega
  rw [take_eq_take_of_le_commonCount hfront, drop_eq_drop_of_le_commonCount hback, hdrop,
    List.append_assoc, List.take_append_drop, List.take_append_drop]

end WitcherScriptLanguage.Library
