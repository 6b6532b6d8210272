import WitcherScriptLanguage.Library.Splices

/-!
# Substitutions

A copy of a range of a text in which some ranges are replaced, made from front to back: what lies
between them is copied as it is.
-/

namespace WitcherScriptLanguage.Library

variable {α : Type} (size : α → Nat)

structure Substitution (α : Type) where
  start : Nat
  stop : Nat
  text : List α

def slice (source : List α) (start stop : Nat) : List α :=
  textBefore size (textAfter size source start) (stop - start)

/-- The copy so far and the offset behind it. -/
def copySub (source : List α) (copied : List α × Nat) (sub : Substitution α) : List α × Nat :=
  (copied.1 ++ slice size source copied.2 sub.start ++ sub.text, sub.stop)

def spliceSubs (source : List α) (start stop : Nat) (subs : List (Substitution α)) : List α :=
  let ordered := subs.insertionSort fun a b => a.start ≤ b.start
  let copied := ordered.foldl (copySub size source) ([], start)
  copied.1 ++ slice size source copied.2 stop

/-- A part that is copied, and one behind it that is replaced or copied as well. -/
structure Segment (α : Type) where
  kept : List α
  old : List α
  new : Option (List α)

namespace Segment

def before (s : Segment α) : List α := s.kept ++ s.old

def after (s : Segment α) : List α := s.kept ++ s.new.getD s.old

end Segment

/-- The substitutions of the segments of a text that starts at an offset. -/
def subsFrom (p : Nat) : List (Segment α) → List (Substitution α)
  | [] => []
  | s :: segments =>
    let start := p + lengthOf size s.kept
    let stop := start + lengthOf size s.old
    (s.new.map fun text => ⟨start, stop, text⟩).toList ++ subsFrom stop segments

variable {size} {p : Nat}

lemma le_start_of_mem_subsFrom {segments : List (Segment α)} :
    ∀ sub ∈ subsFrom size p segments, p ≤ sub.start := by
  induction segments generalizing p with
  | nil => exact fun sub hsub => absurd hsub List.not_mem_nil
  | cons s segments ih =>
    intro sub hsub
    rcases List.mem_append.mp hsub with hfirst | hrest
    · obtain ⟨text, -, rfl⟩ := Option.map_eq_some_iff.mp (Option.mem_toList.mp hfirst)
      exact Nat.le_add_right _ _
    · have hle := ih sub hrest
      omega

lemma pairwise_subsFrom (p : Nat) (segments : List (Segment α)) :
    (subsFrom size p segments).Pairwise fun a b => a.start ≤ b.start := by
  induction segments generalizing p with
  | nil => exact List.Pairwise.nil
  | cons s segments ih =>
    rw [subsFrom, List.pairwise_append]
    refine ⟨?_, ih _, ?_⟩
    · cases s.new with
      | none => exact List.Pairwise.nil
      | some text => exact List.pairwise_singleton _ _
    · intro a ha b hb
      obtain ⟨text, -, rfl⟩ := Option.map_eq_some_iff.mp (Option.mem_toList.mp ha)
      have hle := le_start_of_mem_subsFrom b hb
      dsimp only
      omega

section Positive

variable (hpos : ∀ a, 0 < size a)
include hpos

lemma slice_append (front mid back : List α) :
    slice size (front ++ (mid ++ back)) (lengthOf size front)
      (lengthOf size front + lengthOf size mid) = mid := by
  rw [slice, textAfter_append hpos, Nat.add_sub_cancel_left, textBefore_append hpos]

/-- The fold over the rest of the segments, with a part behind the copy that is still to be
copied. -/
lemma foldl_copySub (front pending back : List α) (segments : List (Segment α)) (tail : List α)
    (out source : List α)
    (hsource : source =
      front ++ (pending ++ (segments.flatMap Segment.before ++ (tail ++ back)))) :
    let copied := (subsFrom size (lengthOf size front + lengthOf size pending) segments).foldl
      (copySub size source) (out, lengthOf size front)
    copied.1 ++ slice size source copied.2 (lengthOf size front + lengthOf size pending +
      lengthOf size (segments.flatMap Segment.before) + lengthOf size tail) =
        out ++ (pending ++ (segments.flatMap Segment.after ++ tail)) := by
  induction segments generalizing front pending out with
  | nil =>
    subst hsource
    dsimp only [subsFrom, List.foldl_nil, List.flatMap_nil, List.nil_append]
    have hslice := slice_append hpos front (pending ++ tail) back
    rw [lengthOf_append, List.append_assoc] at hslice
    change out ++ slice size _ _ (_ + 0 + _) = out ++ (pending ++ tail)
    rw [Nat.add_zero, Nat.add_assoc]
    exact congrArg _ hslice
  | cons s segments ih =>
    have hstop : lengthOf size front + lengthOf size pending + lengthOf size s.kept +
        lengthOf size s.old = lengthOf size front + lengthOf size (pending ++ s.before) := by
      rw [Segment.before, lengthOf_append, lengthOf_append]
      omega
    have hend : lengthOf size front + lengthOf size pending +
        lengthOf size ((s :: segments).flatMap Segment.before) + lengthOf size tail =
          lengthOf size front + lengthOf size (pending ++ s.before) +
            lengthOf size (segments.flatMap Segment.before) + lengthOf size tail := by
      rw [List.flatMap_cons, lengthOf_append, lengthOf_append]
      omega
    dsimp only [subsFrom]
    rw [hstop, hend]
    cases hnew : s.new with
    | none =>
      have hrest := ih front (pending ++ s.before) out (by simp [hsource])
      have hafter : s.after = s.before := by rw [Segment.after, hnew, Segment.before]; rfl
      dsimp only at hrest
      rw [Option.map_none, Option.toList_none, List.nil_append, hrest, List.flatMap_cons, hafter]
      simp only [List.append_assoc]
    | some text =>
      have hcopied : slice size source (lengthOf size front)
          (lengthOf size front + lengthOf size pending + lengthOf size s.kept) =
            pending ++ s.kept := by
        have hslice := slice_append hpos front (pending ++ s.kept)
          (s.old ++ (segments.flatMap Segment.before ++ (tail ++ back)))
        rw [lengthOf_append, ← Nat.add_assoc] at hslice
        rw [← hslice, hsource]
        simp [Segment.before]
      have hrest := ih (front ++ (pending ++ s.before)) [] (out ++ (pending ++ s.kept) ++ text)
        (by simp [hsource])
      have hafter : s.after = s.kept ++ text := by rw [Segment.after, hnew]; rfl
      dsimp only at hrest
      rw [lengthOf_append size front, lengthOf_nil, Nat.add_zero] at hrest
      rw [Option.map_some, Option.toList_some, List.singleton_append, List.foldl_cons, copySub,
        hcopied]
      dsimp only
      rw [hrest, List.flatMap_cons, hafter]
      simp only [List.append_assoc, List.nil_append]

/-- The substitutions of the segments of a range replace what they say and nothing else. -/
theorem spliceSubs_segments (front back tail : List α) (segments : List (Segment α)) :
    spliceSubs size (front ++ (segments.flatMap Segment.before ++ tail ++ back))
        (lengthOf size front)
        (lengthOf size front + lengthOf size (segments.flatMap Segment.before ++ tail))
        (subsFrom size (lengthOf size front) segments) =
      segments.flatMap Segment.after ++ tail := by
  have hfold := foldl_copySub hpos front [] back segments tail []
    (front ++ (segments.flatMap Segment.before ++ tail ++ back)) (by simp)
  rw [spliceSubs, (pairwise_subsFrom _ _).insertionSort_eq, lengthOf_append, ← Nat.add_assoc]
  rw [lengthOf_nil, Nat.add_zero] at hfold
  exact hfold

end Positive

end WitcherScriptLanguage.Library
