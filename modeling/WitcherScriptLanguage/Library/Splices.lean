import Mathlib.Algebra.GroupWithZero.Nat
import Mathlib.Data.List.Sort
import Mathlib.Tactic.Lemma
import Mathlib.Tactic.SplitIfs

/-!
# Splices

Replacements of ranges of a text, given by the offsets of the original text. An offset counts the
sizes of the elements in front of it, as bytes in front of a character. Splices that lie apart
can be applied from the last one to the first, and this replaces all ranges at once.
-/

namespace WitcherScriptLanguage.Library

/-- `start` and `stop` are offsets of the original text; where they are equal, the splice
inserts. -/
structure Splice (α : Type) where
  start : Nat
  stop : Nat
  text : List α

namespace Splice

variable {α : Type}

/-- The second splice begins behind the first one, and not where that one begins. -/
def Before (a b : Splice α) : Prop := a.stop ≤ b.start ∧ a.start < b.start

/-- Whichever of the two is applied first, the other one's range is still where it was or has
moved as a whole. -/
def Apart (a b : Splice α) : Prop := a.Before b ∨ b.Before a

instance : DecidableRel (Apart (α := α)) := fun a b =>
  inferInstanceAs (Decidable ((a.stop ≤ b.start ∧ a.start < b.start) ∨
    (b.stop ≤ a.start ∧ b.start < a.start)))

lemma Apart.symm {a b : Splice α} (h : a.Apart b) : b.Apart a := Or.symm h

lemma Apart.before {a b : Splice α} (h : a.Apart b) (hstart : b.start ≤ a.start) : b.Before a := by
  rcases h with hab | hba
  · have hlt := hab.2
    omega
  · exact hba

end Splice

section Offsets

variable {α : Type} (size : α → Nat)

def lengthOf (text : List α) : Nat := (text.map size).sum

@[simp] lemma lengthOf_nil : lengthOf size [] = 0 := rfl

@[simp] lemma lengthOf_cons (a : α) (text : List α) :
    lengthOf size (a :: text) = size a + lengthOf size text := by
  simp [lengthOf]

@[simp] lemma lengthOf_append (l l' : List α) :
    lengthOf size (l ++ l') = lengthOf size l + lengthOf size l' := by
  simp [lengthOf]

/-- The text in front of an offset and behind it, or `none` inside an element. -/
def cut : List α → Nat → Option (List α × List α)
  | text, 0 => some ([], text)
  | [], _ + 1 => none
  | a :: text, offset + 1 =>
    if size a ≤ offset + 1 then
      (cut text (offset + 1 - size a)).map fun parts => (a :: parts.1, parts.2)
    else none

/-- The offset lies between two elements or at an end. -/
def IsBoundary (text : List α) (offset : Nat) : Prop := (cut size text offset).isSome

instance (text : List α) (offset : Nat) : Decidable (IsBoundary size text offset) :=
  inferInstanceAs (Decidable ((cut size text offset).isSome = true))

def textBefore (text : List α) (offset : Nat) : List α :=
  ((cut size text offset).map Prod.fst).getD []

def textAfter (text : List α) (offset : Nat) : List α :=
  ((cut size text offset).map Prod.snd).getD []

variable {size}

lemma cut_eq_some {text before after : List α} {offset : Nat}
    (h : cut size text offset = some (before, after)) :
    text = before ++ after ∧ lengthOf size before = offset := by
  induction text generalizing offset before with
  | nil =>
    cases offset with
    | zero =>
      cases h
      exact ⟨rfl, rfl⟩
    | succ offset => cases h
  | cons a text ih =>
    cases offset with
    | zero =>
      cases h
      exact ⟨rfl, rfl⟩
    | succ offset =>
      rw [cut] at h
      split_ifs at h with hsize
      obtain ⟨⟨before', after'⟩, hrest, hcons⟩ := Option.map_eq_some_iff.mp h
      obtain ⟨rfl, rfl⟩ := Prod.mk.inj hcons
      obtain ⟨rfl, hlength⟩ := ih hrest
      refine ⟨rfl, ?_⟩
      simp only [lengthOf_cons]
      omega

lemma cut_zero (text : List α) : cut size text 0 = some ([], text) := by
  cases text <;> rfl

section Positive

variable (hpos : ∀ a, 0 < size a)
include hpos

lemma cut_append (before after : List α) :
    cut size (before ++ after) (lengthOf size before) = some (before, after) := by
  induction before with
  | nil => exact cut_zero after
  | cons a before ih =>
    have ha := hpos a
    obtain ⟨n, hn⟩ : ∃ n, lengthOf size (a :: before) = n + 1 :=
      ⟨size a + lengthOf size before - 1, by rw [lengthOf_cons]; omega⟩
    have hrest : n + 1 - size a = lengthOf size before := by
      rw [lengthOf_cons] at hn
      omega
    have hle : size a ≤ n + 1 := by
      rw [lengthOf_cons] at hn
      omega
    rw [hn, List.cons_append, cut, if_pos hle, hrest, ih, Option.map_some]

lemma isBoundary_iff {text : List α} {offset : Nat} : IsBoundary size text offset ↔
    ∃ before after, text = before ++ after ∧ lengthOf size before = offset := by
  constructor
  · intro h
    obtain ⟨⟨before, after⟩, hcut⟩ := Option.isSome_iff_exists.mp h
    exact ⟨before, after, cut_eq_some hcut⟩
  · rintro ⟨before, after, rfl, rfl⟩
    rw [IsBoundary, cut_append hpos]
    rfl

/-- A boundary in front of another one cuts the text in front of that. -/
lemma exists_cut_before {before after : List α} {offset : Nat}
    (h : IsBoundary size (before ++ after) offset) (hle : offset ≤ lengthOf size before) :
    ∃ first second, before = first ++ second ∧ lengthOf size first = offset := by
  obtain ⟨first, rest, htext, hlength⟩ := (isBoundary_iff hpos).mp h
  rcases List.append_eq_append_iff.mp htext with ⟨second, hfirst, -⟩ | ⟨second, hbefore, -⟩
  · have hsecond : lengthOf size second = 0 := by
      rw [hfirst, lengthOf_append] at hlength
      omega
    have hnil : second = [] := by
      cases second with
      | nil => rfl
      | cons a second =>
        have ha := hpos a
        rw [lengthOf_cons] at hsecond
        omega
    subst hnil
    exact ⟨before, [], (List.append_nil before).symm, by rw [← hlength, hfirst, List.append_nil]⟩
  · exact ⟨first, second, hbefore, hlength⟩

lemma textBefore_append (before after : List α) :
    textBefore size (before ++ after) (lengthOf size before) = before := by
  rw [textBefore, cut_append hpos, Option.map_some, Option.getD_some]

lemma textAfter_append (before after : List α) :
    textAfter size (before ++ after) (lengthOf size before) = after := by
  rw [textAfter, cut_append hpos, Option.map_some, Option.getD_some]

/-- A boundary inside the middle of a text cuts the middle. -/
lemma exists_cut_between {before middle after : List α} {offset : Nat}
    (h : IsBoundary size (before ++ (middle ++ after)) offset)
    (hbefore : lengthOf size before ≤ offset) (hafter : offset ≤ lengthOf size (before ++ middle)) :
    ∃ first second, middle = first ++ second ∧ lengthOf size (before ++ first) = offset := by
  rw [← List.append_assoc] at h
  obtain ⟨upto, second, htext, hlength⟩ := exists_cut_before hpos h hafter
  have hboundary : IsBoundary size (upto ++ second) (lengthOf size before) := by
    rw [← htext]
    exact (isBoundary_iff hpos).mpr ⟨before, middle, rfl, rfl⟩
  obtain ⟨front, first, rfl, hfront⟩ := exists_cut_before hpos hboundary (hlength ▸ hbefore)
  have hcut : cut size (before ++ middle) (lengthOf size before) = some (front, first ++ second) := by
    rw [htext, List.append_assoc, ← hfront]
    exact cut_append hpos front (first ++ second)
  rw [cut_append hpos] at hcut
  obtain ⟨rfl, rfl⟩ := Prod.mk.inj (Option.some.inj hcut)
  exact ⟨first, second, rfl, hlength⟩

end Positive

end Offsets

section Application

variable {α : Type} (size : α → Nat)

/-- `String::replace_range`, or `none` where it panics. -/
def replaceRange (text : List α) (splice : Splice α) : Option (List α) :=
  if splice.start ≤ splice.stop then do
    let (before, _) ← cut size text splice.start
    let (_, after) ← cut size text splice.stop
    some (before ++ splice.text ++ after)
  else none

/-- The last splice first; equal starts keep their order. -/
def rightmostFirst (splices : List (Splice α)) : List (Splice α) :=
  splices.insertionSort fun a b => b.start ≤ a.start

def applySplices (text : List α) (splices : List (Splice α)) : Option (List α) :=
  (rightmostFirst splices).foldlM (replaceRange size) text

/-- All ranges replaced at once; the last splice comes first. -/
def replaceAll (text : List α) : List (Splice α) → List α
  | [] => text
  | splice :: rest =>
    replaceAll (textBefore size text splice.start) rest ++ splice.text ++
      textAfter size text splice.stop

/-- A splice whose range is one of the text. -/
def Splice.InText (text : List α) (splice : Splice α) : Prop :=
  splice.start ≤ splice.stop ∧ IsBoundary size text splice.start ∧
    IsBoundary size text splice.stop

instance (text : List α) (splice : Splice α) : Decidable (splice.InText size text) :=
  inferInstanceAs (Decidable (_ ∧ _ ∧ _))

variable {size}

lemma rightmostFirst_perm (splices : List (Splice α)) : (rightmostFirst splices).Perm splices :=
  List.perm_insertionSort _ _

lemma pairwise_rightmostFirst (splices : List (Splice α)) :
    (rightmostFirst splices).Pairwise fun a b => b.start ≤ a.start := by
  have htotal : Std.Total fun a b : Splice α => b.start ≤ a.start := ⟨fun a b => by omega⟩
  have htrans : IsTrans (Splice α) fun a b => b.start ≤ a.start := ⟨fun a b c hab hbc => by omega⟩
  exact List.pairwise_insertionSort _ _

/-- Apart from each other, the splices come one behind the other. -/
lemma pairwise_before_rightmostFirst {splices : List (Splice α)}
    (h : splices.Pairwise Splice.Apart) :
    (rightmostFirst splices).Pairwise fun a b => b.Before a := by
  have hapart : (rightmostFirst splices).Pairwise Splice.Apart :=
    h.perm (rightmostFirst_perm splices).symm fun hab => hab.symm
  exact (hapart.and (pairwise_rightmostFirst splices)).imp fun hab => hab.1.before hab.2

/-- The order in which the splices are given does not matter. -/
theorem rightmostFirst_eq_of_perm {splices splices' : List (Splice α)}
    (h : splices.Pairwise Splice.Apart) (hperm : splices.Perm splices') :
    rightmostFirst splices = rightmostFirst splices' := by
  have hsorted := pairwise_before_rightmostFirst h
  have hsorted' := pairwise_before_rightmostFirst (h.perm hperm fun hab => hab.symm)
  have hsame : (rightmostFirst splices).Perm (rightmostFirst splices') :=
    (rightmostFirst_perm splices).trans (hperm.trans (rightmostFirst_perm splices').symm)
  refine hsame.eq_of_pairwise (fun a b _ _ hab hba => ?_) hsorted hsorted'
  have hlt := hab.2
  have hgt := hba.2
  omega

variable (hpos : ∀ a, 0 < size a)
include hpos

/-- From the last splice to the first, each one finds the text in front of it unchanged. -/
lemma foldlM_replaceRange {before after : List α} {splices : List (Splice α)}
    (hin : ∀ splice ∈ splices, splice.InText size (before ++ after))
    (hstop : ∀ splice ∈ splices, splice.stop ≤ lengthOf size before)
    (hsorted : splices.Pairwise fun a b => b.Before a) (tail : List α) :
    splices.foldlM (replaceRange size) (before ++ tail) =
      some (replaceAll size before splices ++ tail) := by
  induction splices generalizing before after tail with
  | nil => rfl
  | cons splice rest ih =>
    obtain ⟨hle, hstart, hend⟩ := hin splice List.mem_cons_self
    have hsplice := hstop splice List.mem_cons_self
    obtain ⟨upto, behind, rfl, hupto⟩ := exists_cut_before hpos hend hsplice
    rw [List.append_assoc] at hstart
    obtain ⟨front, range, rfl, hfront⟩ := exists_cut_before hpos hstart (hupto ▸ hle)
    have hcutStart : ∀ l, cut size (front ++ l) splice.start = some (front, l) := fun l =>
      hfront ▸ cut_append hpos front l
    have hcutStop : ∀ l, cut size (front ++ range ++ l) splice.stop = some (front ++ range, l) :=
      fun l => hupto ▸ cut_append hpos (front ++ range) l
    have hreplaced : replaceRange size (front ++ range ++ behind ++ tail) splice =
        some (front ++ (splice.text ++ (behind ++ tail))) := by
      rw [replaceRange, if_pos hle]
      simp only [List.append_assoc] at hcutStop ⊢
      simp [hcutStart, hcutStop]
    obtain ⟨hfirst, hrest⟩ := List.pairwise_cons.mp hsorted
    rw [List.foldlM_cons, hreplaced]
    have hin' : ∀ splice' ∈ rest,
        splice'.InText size (front ++ (range ++ behind ++ after)) := by
      intro splice' h
      have hsplice' := hin splice' (List.mem_cons_of_mem _ h)
      simpa only [List.append_assoc] using hsplice'
    have hih := ih hin' (fun splice' h => hfront ▸ (hfirst splice' h).1) hrest
      (splice.text ++ (behind ++ tail))
    rw [Option.bind_eq_bind, Option.bind_some, hih, replaceAll, textBefore, textAfter]
    have hcutStart' := hcutStart (range ++ behind)
    have hcutStop' := hcutStop behind
    simp only [List.append_assoc] at hcutStart' hcutStop' ⊢
    rw [hcutStart', hcutStop']
    simp

/-- Splices that lie apart in the text are all applied, each to its own range. -/
theorem applySplices_eq_replaceAll {text : List α} {splices : List (Splice α)}
    (hin : ∀ splice ∈ splices, splice.InText size text) (hapart : splices.Pairwise Splice.Apart) :
    applySplices size text splices = some (replaceAll size text (rightmostFirst splices)) := by
  have hmem : ∀ splice ∈ rightmostFirst splices, splice.InText size (text ++ []) := by
    intro splice hsplice
    rw [List.append_nil]
    exact hin splice ((rightmostFirst_perm splices).mem_iff.mp hsplice)
  have hstop : ∀ splice ∈ rightmostFirst splices, splice.stop ≤ lengthOf size text := by
    intro splice hsplice
    obtain ⟨before, after, htext, hlength⟩ := (isBoundary_iff hpos).mp (hmem splice hsplice).2.2
    rw [List.append_nil] at htext
    rw [htext, lengthOf_append]
    omega
  have hfold := foldlM_replaceRange hpos hmem hstop (pairwise_before_rightmostFirst hapart) []
  rw [List.append_nil, List.append_nil] at hfold
  exact hfold

end Application

end WitcherScriptLanguage.Library
