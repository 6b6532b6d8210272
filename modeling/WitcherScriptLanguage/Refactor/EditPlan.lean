import Mathlib.Data.List.DropRight
import WitcherScriptLanguage.Refactor.SyntaxTree

/-!
# Edit plans

The edits of a refactoring as splices of the original text (`resolve/edit_plan.rs`). The deletion
of a statement takes the white space around it, and with it its line where nothing else is on it.
-/

namespace WitcherScriptLanguage

open Library

abbrev Splice := Library.Splice Char

/-- Whether the edits are proved to be free of runtime change. -/
inductive Confidence
  | verified
  | unverified
  deriving DecidableEq, Repr

def confidence (verified : Bool) : Confidence := if verified then .verified else .unverified

structure EditPlan where
  edits : List Splice
  confidence : Confidence

/-- An edit plan that introduces a named symbol. -/
structure Extraction where
  plan : EditPlan
  name : List Char
  /-- The offset of the new name in the applied text. -/
  cursor : Nat

def Extraction.withConfidence (e : Extraction) (confidence : Confidence) : Extraction :=
  { e with plan := { e.plan with confidence } }

def utf8Bytes (text : List Char) : Nat := lengthOf sizeOfChar text

def EditPlan.apply (plan : EditPlan) (source : List Char) : Option (List Char) :=
  applySplices sizeOfChar source plan.edits

/-- Non-overlapping edits against the text. -/
structure EditPlan.WellFormed (source : List Char) (plan : EditPlan) : Prop where
  inText : ∀ edit ∈ plan.edits, edit.InText sizeOfChar source
  apart : plan.edits.Pairwise Splice.Apart

/-- A well-formed plan replaces each of its ranges, in whatever order its edits are given. -/
theorem EditPlan.WellFormed.apply_eq {source : List Char} {plan : EditPlan}
    (h : plan.WellFormed source) {edits : List Splice} (hperm : plan.edits.Perm edits) :
    applySplices sizeOfChar source edits =
      some (replaceAll sizeOfChar source (rightmostFirst plan.edits)) := by
  have hapart : edits.Pairwise Splice.Apart := h.apart.perm hperm fun hab => hab.symm
  rw [rightmostFirst_eq_of_perm h.apart hperm]
  exact applySplices_eq_replaceAll Char.utf8Size_pos
    (fun edit hedit => h.inText edit (hperm.mem_iff.mpr hedit)) hapart

def isIndent (c : Char) : Bool := c == ' ' || c == '\t'

/-- The characters of the line end in front of the text. -/
def lineEnd : List Char → List Char
  | '\r' :: '\n' :: _ => ['\r', '\n']
  | '\r' :: _ => ['\r']
  | '\n' :: _ => ['\n']
  | _ => []

/-- Only indentation stands between the last line end and the end of the text. -/
def endsAtLineStart (before : List Char) : Bool :=
  match (before.rdropWhile isIndent).getLast? with
  | none => true
  | some c => c == '\n'

def deleteStatement (source : List Char) (stmt : ByteRange) : Splice :=
  let before := textBefore sizeOfChar source stmt.start
  let after := textAfter sizeOfChar source stmt.stop
  let indent := before.rtakeWhile isIndent
  let blanks := after.takeWhile isIndent
  if endsAtLineStart before then
    ⟨stmt.start - utf8Bytes indent,
      stmt.stop + utf8Bytes (blanks ++ lineEnd (after.dropWhile isIndent)), []⟩
  else ⟨stmt.start, stmt.stop + utf8Bytes blanks, []⟩

/-- The indentation of the line of an offset (`formatter/action.rs`). -/
def lineIndent (source : List Char) (byte : Nat) : List Char :=
  ((textBefore sizeOfChar source byte).rtakeWhile (· != '\n')).takeWhile isIndent

/-- Up to the neighbour's boundary, so that no comma is left. -/
def removeListEntry (target : ByteRange) (prev next : Option ByteRange) : Splice :=
  match prev, next with
  | _, some next => ⟨target.start, next.start, []⟩
  | some prev, none => ⟨prev.stop, target.stop, []⟩
  | none, none => ⟨target.start, target.stop, []⟩

/-- Where an offset lands after the edits. -/
def appliedOffset (edits : List Splice) (original : Nat) : Nat :=
  (edits.filter fun s => s.stop ≤ original).foldl
    (fun pos s => pos + utf8Bytes s.text - (s.stop - s.start)) original

def insertAndReplace (insertAt : Nat) (insertText : List Char) (replace : ByteRange)
    (replaceText : List Char) (cursorPrefix : Nat) (name : List Char) : Extraction :=
  let edits : List Splice :=
    [⟨insertAt, insertAt, insertText⟩, ⟨replace.start, replace.stop, replaceText⟩]
  { plan := ⟨edits, .verified⟩
    name
    cursor := appliedOffset edits replace.start + cursorPrefix }

lemma isWhitespace_of_isIndent {c : Char} (h : isIndent c) : isWhitespace c := by
  rcases Bool.or_eq_true _ _ ▸ h with h | h
  · rw [beq_iff_eq.mp h]
    rfl
  · rw [beq_iff_eq.mp h]
    rfl

lemma isWhitespace_of_mem_lineEnd {text : List Char} {c : Char} (h : c ∈ lineEnd text) :
    isWhitespace c := by
  unfold lineEnd at h
  split at h
  · rcases List.mem_cons.mp h with rfl | h
    · rfl
    · rw [List.mem_singleton.mp h]
      rfl
  · rw [List.mem_singleton.mp h]
    rfl
  · rw [List.mem_singleton.mp h]
    rfl
  · cases h

lemma lineEnd_prefix (text : List Char) : lineEnd text <+: text := by
  unfold lineEnd
  split
  · exact ⟨_, rfl⟩
  · exact ⟨_, rfl⟩
  · exact ⟨_, rfl⟩
  · exact List.nil_prefix

lemma newline_not_mem_dropLast (after : List Char) :
    '\n' ∉ (after.takeWhile isIndent ++ lineEnd (after.dropWhile isIndent)).dropLast := by
  have hindent : '\n' ∉ after.takeWhile isIndent := by
    intro hmem
    have hend := List.mem_takeWhile_imp hmem
    cases hend
  unfold lineEnd
  split
  · rw [List.dropLast_append_of_ne_nil (by simp)]
    simp [hindent]
  · rw [List.dropLast_append_of_ne_nil (by simp)]
    simp [hindent]
  · rw [List.dropLast_append_of_ne_nil (by simp)]
    simp [hindent]
  · rw [List.append_nil]
    exact fun hmem => hindent (List.mem_of_mem_dropLast hmem)

/-- A deletion takes the range and white space on both sides of it. -/
structure Widens (source : List Char) (range : ByteRange) (s : Splice) : Prop where
  inText : s.InText sizeOfChar source
  start_le : s.start ≤ range.start
  le_stop : range.stop ≤ s.stop
  /-- White space in front of the range is its indentation. -/
  line_start : s.start < range.start → 0 < s.start →
    (textBefore sizeOfChar source s.start).getLast? = some '\n'
  /-- Of the line ends behind the range only the next one goes. -/
  last_line : ∀ p, IsBoundary sizeOfChar source p → range.stop < p → p < s.stop →
    (textBefore sizeOfChar source p).getLast? ≠ some '\n'
  blank_before : ∀ p, IsBoundary sizeOfChar source p → s.start < p → p ≤ range.start →
    ∃ c ∈ (textBefore sizeOfChar source p).getLast?, isWhitespace c
  blank_after : ∀ p, IsBoundary sizeOfChar source p → range.stop ≤ p → p < s.stop →
    ∃ c ∈ (textAfter sizeOfChar source p).head?, isWhitespace c

/-- A boundary inside a run of the text has the characters of the run up to it in front. -/
lemma exists_run_before {source front run rest : List Char} {p : Nat}
    (hsource : source = front ++ (run ++ rest)) (hp : IsBoundary sizeOfChar source p)
    (hlt : utf8Bytes front < p) (hle : p ≤ utf8Bytes (front ++ run)) :
    ∃ first second, run = first ++ second ∧ first ≠ [] ∧ utf8Bytes (front ++ first) = p ∧
      (textBefore sizeOfChar source p).getLast? = first.getLast? := by
  subst hsource
  obtain ⟨first, second, rfl, hlength⟩ :=
    exists_cut_between Char.utf8Size_pos hp (Nat.le_of_lt hlt) hle
  have hne : first ≠ [] := by
    rintro rfl
    rw [List.append_nil] at hlength
    exact absurd hlength (Nat.ne_of_lt hlt)
  refine ⟨first, second, rfl, hne, hlength, ?_⟩
  have hbefore : textBefore sizeOfChar (front ++ ((first ++ second) ++ rest)) p =
      front ++ first := by
    rw [← hlength, List.append_assoc, ← List.append_assoc]
    exact textBefore_append Char.utf8Size_pos _ _
  rw [hbefore, List.getLast?_append_of_ne_nil _ hne]

lemma widens_of_parts {source : List Char} {range : ByteRange} {start stop : Nat}
    (front indent text blanks rest : List Char)
    (hsource : source = front ++ (indent ++ (text ++ (blanks ++ rest))))
    (hrange : range.start = utf8Bytes (front ++ indent))
    (hrange' : range.stop = utf8Bytes (front ++ indent ++ text)) (hstart : start = utf8Bytes front)
    (hstop : stop = utf8Bytes (front ++ indent ++ text ++ blanks))
    (hindent : ∀ c ∈ indent, isWhitespace c) (hblanks : ∀ c ∈ blanks, isWhitespace c)
    (hline : indent ≠ [] → front ≠ [] → front.getLast? = some '\n')
    (hlast : '\n' ∉ blanks.dropLast) : Widens source range ⟨start, stop, []⟩ where
  inText := by
    have hpos := Char.utf8Size_pos
    subst hsource hstart hstop
    refine ⟨?_, ?_, ?_⟩
    · simp only [utf8Bytes, lengthOf_append]
      omega
    · exact (isBoundary_iff hpos).mpr ⟨front, _, rfl, rfl⟩
    · exact (isBoundary_iff hpos).mpr
        ⟨front ++ indent ++ text ++ blanks, rest, by simp only [List.append_assoc], rfl⟩
  start_le := by
    rw [hrange, hstart]
    simp only [utf8Bytes, lengthOf_append]
    omega
  le_stop := by
    rw [hrange', hstop]
    simp only [utf8Bytes, lengthOf_append]
    omega
  line_start hlt hpos := by
    subst hsource hstart
    have hindent : indent ≠ [] := by
      rintro rfl
      rw [hrange, List.append_nil] at hlt
      exact absurd hlt (Nat.lt_irrefl _)
    have hfront : front ≠ [] := by
      rintro rfl
      exact absurd hpos (Nat.lt_irrefl _)
    rw [utf8Bytes, textBefore_append Char.utf8Size_pos]
    exact hline hindent hfront
  last_line p hp hlt hstop' heq := by
    subst hstop
    have hsource' : source = (front ++ indent ++ text) ++ (blanks ++ rest) := by
      rw [hsource]
      simp only [List.append_assoc]
    obtain ⟨first, second, hsplit, hne, hlength, hbefore⟩ :=
      exists_run_before hsource' hp (hrange' ▸ hlt) (Nat.le_of_lt hstop')
    have hsecond : second ≠ [] := by
      rintro rfl
      rw [hsplit, List.append_nil, hlength] at hstop'
      exact absurd hstop' (Nat.lt_irrefl _)
    rw [hbefore] at heq
    refine hlast ?_
    rw [hsplit, List.dropLast_append_of_ne_nil hsecond]
    exact List.mem_append_left _ (List.mem_of_getLast? heq)
  blank_before p hp hlt hle := by
    subst hstart
    obtain ⟨first, second, hsplit, hne, hlength, hbefore⟩ :=
      exists_run_before hsource hp hlt (hrange ▸ hle)
    refine ⟨first.getLast hne, ?_, hindent _ ?_⟩
    · rw [hbefore, List.getLast?_eq_getLast_of_ne_nil hne]
      exact rfl
    · rw [hsplit]
      exact List.mem_append_left _ (List.getLast_mem hne)
  blank_after p hp hle hlt := by
    rw [hrange'] at hle
    subst hsource hstart hstop
    have hsource : front ++ (indent ++ (text ++ (blanks ++ rest))) =
        front ++ indent ++ text ++ (blanks ++ rest) := by simp only [List.append_assoc]
    rw [hsource] at hp ⊢
    obtain ⟨first, second, rfl, hlength⟩ :=
      exists_cut_between Char.utf8Size_pos hp hle (Nat.le_of_lt hlt)
    have hne : second ≠ [] := by
      rintro rfl
      rw [List.append_nil] at hlt
      exact absurd hlength (Nat.ne_of_gt hlt)
    have hsplit : front ++ indent ++ text ++ ((first ++ second) ++ rest) =
        (front ++ indent ++ text ++ first) ++ (second ++ rest) := by
      simp only [List.append_assoc]
    have hafter : textAfter sizeOfChar
        (front ++ indent ++ text ++ ((first ++ second) ++ rest)) p = second ++ rest := by
      rw [← hlength, hsplit]
      exact textAfter_append Char.utf8Size_pos _ _
    refine ⟨second.head hne, ?_, hblanks _ (List.mem_append_right _ (List.head_mem hne))⟩
    rw [hafter, List.head?_append_of_ne_nil _ hne, List.head?_eq_some_head hne]
    exact rfl

/-- Two boundaries cut the text in three. -/
lemma exists_parts {source : List Char} {range : ByteRange} (hle : range.start ≤ range.stop)
    (hstart : IsBoundary sizeOfChar source range.start)
    (hstop : IsBoundary sizeOfChar source range.stop) :
    ∃ before text after, source = before ++ (text ++ after) ∧ utf8Bytes before = range.start ∧
      utf8Bytes (before ++ text) = range.stop := by
  obtain ⟨upto, after, rfl, hupto⟩ := (isBoundary_iff Char.utf8Size_pos).mp hstop
  obtain ⟨before, text, rfl, hbefore⟩ :=
    exists_cut_before Char.utf8Size_pos hstart (hupto ▸ hle)
  exact ⟨before, text, after, List.append_assoc before text after, hbefore, hupto⟩

theorem deleteStatement_widens {source : List Char} {range : ByteRange}
    (hle : range.start ≤ range.stop) (hstart : IsBoundary sizeOfChar source range.start)
    (hstop : IsBoundary sizeOfChar source range.stop) :
    Widens source range (deleteStatement source range) := by
  obtain ⟨before, text, after, rfl, hbefore, htext⟩ := exists_parts hle hstart hstop
  have hparts := List.rdropWhile_append_rtakeWhile (p := isIndent) (l := before)
  have htextBefore : textBefore sizeOfChar (before ++ (text ++ after)) range.start = before := by
    rw [← hbefore]
    exact textBefore_append Char.utf8Size_pos _ _
  have htextAfter : textAfter sizeOfChar (before ++ (text ++ after)) range.stop = after := by
    rw [← htext, ← List.append_assoc]
    exact textAfter_append Char.utf8Size_pos _ _
  have hblanks : ∀ c ∈ after.takeWhile isIndent, isWhitespace c := fun c hc =>
    isWhitespace_of_isIndent (List.mem_takeWhile_imp hc)
  have hindent : ∀ c ∈ before.rtakeWhile isIndent, isWhitespace c := fun c hc =>
    isWhitespace_of_isIndent (List.mem_rtakeWhile_imp hc)
  unfold deleteStatement
  simp only [htextBefore, htextAfter]
  split
  next hline =>
    obtain ⟨rest, hrest⟩ := lineEnd_prefix (after.dropWhile isIndent)
    refine widens_of_parts (before.rdropWhile isIndent) (before.rtakeWhile isIndent) text
      (after.takeWhile isIndent ++ lineEnd (after.dropWhile isIndent)) rest ?_ ?_ ?_ ?_ ?_ hindent
      (fun c hc => ?_) (fun _ hne => ?_) (newline_not_mem_dropLast after)
    · rw [List.append_assoc (after.takeWhile isIndent), hrest, List.takeWhile_append_dropWhile,
        ← List.append_assoc (before.rdropWhile isIndent), hparts]
    · rw [hparts, hbefore]
    · rw [hparts, htext]
    · rw [← hbefore, ← hparts]
      simp only [utf8Bytes, lengthOf_append]
      rw [hparts]
      omega
    · rw [hparts, ← htext]
      simp only [utf8Bytes, lengthOf_append]
    · rcases List.mem_append.mp hc with hc | hc
      · exact hblanks c hc
      · exact isWhitespace_of_mem_lineEnd hc
    · rw [endsAtLineStart, List.getLast?_eq_getLast_of_ne_nil hne] at hline
      rw [List.getLast?_eq_getLast_of_ne_nil hne, beq_iff_eq.mp hline]
  next hline =>
    refine widens_of_parts before [] text (after.takeWhile isIndent) (after.dropWhile isIndent)
      ?_ ?_ ?_ ?_ ?_ (fun c hc => by cases hc) hblanks (fun hne => absurd rfl hne) (fun hmem => ?_)
    · rw [List.takeWhile_append_dropWhile, List.nil_append]
    · rw [List.append_nil, hbefore]
    · rw [List.append_nil, htext]
    · exact hbefore.symm
    · rw [List.append_nil, ← htext]
      simp only [utf8Bytes, lengthOf_append]
    · have hindentEnd := List.mem_takeWhile_imp (List.mem_of_mem_dropLast hmem)
      cases hindentEnd

end WitcherScriptLanguage
