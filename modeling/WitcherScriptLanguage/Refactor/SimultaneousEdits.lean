import WitcherScriptLanguage.Library.SimultaneousSplices
import WitcherScriptLanguage.Refactor.EditPlan

/-!
# Edits at once

What the edits of a plan say is that each of their ranges is replaced by its text, whatever else
they do to the text around it. The plan is applied edit by edit (`apply_splices`), where an
insertion can come into the way of another edit with its start. The extractions of a variable
(`resolve/extract_var.rs`) and of a function report where their name stands afterwards.
-/

namespace WitcherScriptLanguage

open Library

/-- The value is assigned to the new variable in front of where it was. -/
def split (declAt : Nat) (declText : List Char) (assignAt : Nat) (assignText : List Char)
    (selection : ByteRange) (name : List Char) : Extraction :=
  let edits : List Splice :=
    [⟨declAt, declAt, declText⟩, ⟨assignAt, assignAt, assignText⟩,
      ⟨selection.start, selection.stop, name⟩]
  { plan := ⟨edits, .verified⟩
    name
    cursor := appliedOffset edits selection.start }

def splitBefore (declAt : Nat) (declText : List Char) (assignAt : Nat) (source name expr : List Char)
    (selection : ByteRange) : Extraction :=
  let assign := name ++ [' ', '=', ' '] ++ expr ++ [';', '\n'] ++ lineIndent source assignAt
  split declAt declText assignAt assign selection name

/-- The extractions of a selection, which is never empty. -/
inductive Extraction.Composed : Extraction → Prop
  | insertAndReplace (insertAt : Nat) (insertText : List Char) {replace : ByteRange}
      (front name back : List Char) : replace.start < replace.stop →
        Composed (insertAndReplace insertAt insertText replace (front ++ (name ++ back))
          (utf8Bytes front) name)
  | split (declAt : Nat) (declText : List Char) (assignAt : Nat) (assignText : List Char)
      {selection : ByteRange} (name : List Char) : selection.start < selection.stop →
        Composed (split declAt declText assignAt assignText selection name)
  | withConfidence {e : Extraction} (confidence : Confidence) :
      Composed e → Composed (e.withConfidence confidence)

/-- Applying the plan replaces every range of the original text by its text. -/
def EditPlan.AppliesAtOnce (plan : EditPlan) (source : List Char) : Prop :=
  plan.apply source = some (simultaneous sizeOfChar source plan.edits)

/-- The new name stands at the reported offset. -/
def Extraction.NamedIn (e : Extraction) (applied : List Char) : Prop :=
  ∃ front back, applied = front ++ (e.name ++ back) ∧ utf8Bytes front = e.cursor

/-- The shifts of an offset add up, where the edits delete no more than stands in front of it. -/
lemma foldl_shift (edits : List Splice) (pos : Nat) (h : lengthOut edits ≤ pos) :
    edits.foldl (fun pos s => pos + utf8Bytes s.text - (s.stop - s.start)) pos + lengthOut edits =
      pos + lengthIn sizeOfChar edits := by
  induction edits generalizing pos with
  | nil => rfl
  | cons s edits ih =>
    have hout : lengthOut (s :: edits) = (s.stop - s.start) + lengthOut edits := by
      rw [lengthOut, List.map_cons, List.sum_cons, lengthOut]
    have hin : lengthIn sizeOfChar (s :: edits) =
        utf8Bytes s.text + lengthIn sizeOfChar edits := by
      rw [lengthIn, List.map_cons, List.sum_cons, lengthIn, utf8Bytes]
    rw [hout] at h
    have hrest := ih (pos + utf8Bytes s.text - (s.stop - s.start)) (by omega)
    rw [List.foldl_cons, hout, hin]
    omega

lemma appliedOffset_add {edits : List Splice} {original : Nat}
    (h : lengthOut (endingBy original edits) ≤ original) :
    appliedOffset edits original + lengthOut (endingBy original edits) =
      original + lengthIn sizeOfChar (endingBy original edits) :=
  foldl_shift (endingBy original edits) original h

/-- An edit of the plan carries the name, and the offset is the one of the edit's range after all
edits and of the name in the edit's text. -/
def Extraction.PointsAt (e : Extraction) (r : Splice) : Prop :=
  r ∈ e.plan.edits ∧ r.replaces = true ∧ ∃ front back, r.text = front ++ (e.name ++ back) ∧
    e.cursor = appliedOffset e.plan.edits r.start + utf8Bytes front

lemma Extraction.Composed.pointsAt {e : Extraction} (h : e.Composed) : ∃ r, e.PointsAt r := by
  induction h with
  | @insertAndReplace insertAt insertText replace front name back hwide =>
    refine ⟨⟨replace.start, replace.stop, front ++ (name ++ back)⟩,
      List.mem_cons_of_mem _ List.mem_cons_self, decide_eq_true hwide, front, back, rfl, rfl⟩
  | @split declAt declText assignAt assignText selection name hwide =>
    refine ⟨⟨selection.start, selection.stop, name⟩,
      List.mem_cons_of_mem _ (List.mem_cons_of_mem _ List.mem_cons_self), decide_eq_true hwide,
      [], [], ?_, rfl⟩
    exact (List.append_nil name).symm
  | withConfidence confidence _ ih => exact ih

/-- In the text with all ranges replaced the name stands at the reported offset. -/
lemma Extraction.Composed.namedIn_simultaneous {e : Extraction} (h : e.Composed)
    {source : List Char} (hin : ∀ edit ∈ e.plan.edits, edit.InText sizeOfChar source)
    (hdisjoint : e.plan.edits.Pairwise Library.Splice.Disjoint) :
    e.NamedIn (simultaneous sizeOfChar source e.plan.edits) := by
  have hpos : ∀ c, 0 < sizeOfChar c := Char.utf8Size_pos
  obtain ⟨r, hr, hreplaces, front, back, htext, hcursor⟩ := h.pointsAt
  obtain ⟨front', back', happlied, hlength, hout⟩ :=
    movedTo_simultaneous hpos hin hdisjoint hr hreplaces
  rw [Nat.sub_zero] at hlength hout
  have hoffset := appliedOffset_add hout
  refine ⟨front' ++ front, back ++ back', ?_, ?_⟩
  · rw [happlied, htext]
    simp only [List.append_assoc]
  · rw [hcursor, utf8Bytes, lengthOf_append, utf8Bytes]
    omega

/-- A plan for ranges of the text that do not overlap replaces them all, whatever it puts there,
exactly when no insertion is listed in front of another edit with its start; with the texts given,
exactly when the edits of each start, applied to the range there one after another, leave their
texts side by side. Then, and only then, an extraction's name stands where it is reported in the
text that the extraction is for. -/
theorem EditPlan.appliesAtOnce_iff {source : List Char} {edits : List Splice}
    (hin : ∀ edit ∈ edits, edit.InText sizeOfChar source)
    (hdisjoint : edits.Pairwise Library.Splice.Disjoint) :
    ((∀ plan : EditPlan, plan.edits.map Library.Splice.ends = edits.map Library.Splice.ends →
        plan.AppliesAtOnce source) ↔ ReplacesFirst edits) ∧
      (∀ plan : EditPlan, plan.edits = edits →
        (plan.AppliesAtOnce source ↔ SplicesSettled sizeOfChar 0 source edits)) ∧
      ∀ e : Extraction, e.Composed → e.plan.edits = edits →
        ((e.plan.AppliesAtOnce source ∧
          ∀ applied, e.plan.apply source = some applied → e.NamedIn applied) ↔
            SplicesSettled sizeOfChar 0 source edits) := by
  have hpos : ∀ c, 0 < sizeOfChar c := Char.utf8Size_pos
  have heach : ∀ plan : EditPlan, plan.edits = edits →
      (plan.AppliesAtOnce source ↔ SplicesSettled sizeOfChar 0 source edits) := by
    rintro plan rfl
    exact applySplices_iff_settled hpos hin hdisjoint
  refine ⟨?_, heach, ?_⟩
  · have hab : 'a' ≠ 'b' := by decide
    rw [← forall_applySplices_iff hpos hab hin hdisjoint]
    constructor
    · intro h splices' hends
      exact h ⟨splices', .verified⟩ hends
    · intro h plan hends
      exact h plan.edits hends
  · intro e he hedits
    rw [← heach e.plan hedits]
    refine ⟨fun h => h.1, fun h => ⟨h, ?_⟩⟩
    intro applied happlied
    rw [EditPlan.AppliesAtOnce, happlied] at h
    rw [Option.some.inj h]
    subst hedits
    exact he.namedIn_simultaneous hin hdisjoint

/-- The declaration comes behind the brace, the assignment in front of the statement `g(f())`. -/
theorem EditPlan.appliesAtOnce_iff_split :
    (splitBefore 1 "\nvar v: int;".toList 2 "{ g(f()); }".toList "v".toList "f()".toList
      ⟨4, 7⟩).plan.apply "{ g(f()); }".toList =
        some "\x7b\nvar v: int; v = f();\ng(v); \x7d".toList := by
  have h := (@EditPlan.appliesAtOnce_iff "{ g(f()); }".toList
    (splitBefore 1 "\nvar v: int;".toList 2 "{ g(f()); }".toList "v".toList "f()".toList
      ⟨4, 7⟩).plan.edits (by decide) (by decide)).1
  have hplan := h.mpr (by unfold ReplacesFirst; decide) _ rfl
  rw [hplan]
  decide

/-- The statement starts with the selected call: the name overwrites the start of the
assignment. -/
theorem EditPlan.not_appliesAtOnce_split :
    (∀ edit ∈ (splitBefore 1 "\nvar v: int;".toList 2 "{ f().g(); }".toList "v".toList
        "f()".toList ⟨2, 5⟩).plan.edits, edit.InText sizeOfChar "{ f().g(); }".toList) ∧
      (splitBefore 1 "\nvar v: int;".toList 2 "{ f().g(); }".toList "v".toList "f()".toList
        ⟨2, 5⟩).plan.edits.Pairwise Library.Splice.Disjoint ∧
      (splitBefore 1 "\nvar v: int;".toList 2 "{ f().g(); }".toList "v".toList "f()".toList
        ⟨2, 5⟩).plan.apply "{ f().g(); }".toList =
          some "\x7b\nvar v: int; v f();\nf().g(); \x7d".toList ∧
      simultaneous sizeOfChar "{ f().g(); }".toList
        (splitBefore 1 "\nvar v: int;".toList 2 "{ f().g(); }".toList "v".toList "f()".toList
          ⟨2, 5⟩).plan.edits = "\x7b\nvar v: int; v = f();\nv.g(); \x7d".toList ∧
      ¬(splitBefore 1 "\nvar v: int;".toList 2 "{ f().g(); }".toList "v".toList "f()".toList
        ⟨2, 5⟩).plan.AppliesAtOnce "{ f().g(); }".toList := by
  refine ⟨by decide, by decide, by decide, by decide, ?_⟩
  unfold EditPlan.AppliesAtOnce
  decide

end WitcherScriptLanguage
