import WitcherScriptLanguage.Formatter.FieldText

/-!
# Padding of members

A field that no comment breaks is written no wider than it was measured, so that its colon and its
default find the line no longer than their columns.
-/

namespace WitcherScriptLanguage.Formatting

open Library

namespace Formatter

variable {own : OwnFormatters} {f : Formatter} {o : Output}

/-- What the parser guarantees of a field with a colon to align, from its start to its colon. -/
structure Headed (field : Node) (front : List Node) (colon : Node) (rest : List Node) : Prop where
  alignable : isAlignableField field = true
  ordered : field.Ordered
  split : field.children = front ++ colon :: rest
  inside : ∀ n ∈ field.children, ∀ c ∈ commentsOf n, n.start ≤ c.startByte
  kind : colon.label.kind = .colon
  present : colon.label.missing = false
  token : Plain colon
  plain : ∀ n ∈ front, Plain n
  first : ∀ n ∈ front, n.label.kind ≠ .colon

/-- What the parser guarantees of a field with a colon to align, where no comment breaks the
line. -/
structure PlainField (field : Node) : Prop where
  alignable : isAlignableField field = true
  ordered : field.Ordered
  plain : ∀ n ∈ field.children, Plain n
  colon : (field.children.countP fun c => c.label.kind = .colon) ≤ 1

lemma bare_of_alignable {field : Node} (h : isAlignableField field = true) :
    ∀ n ∈ field.children, n.label.kind ≠ .comment ∧ n.label.kind ≠ Kind.annotation := by
  rw [isAlignableField] at h
  split_ifs at h
  simpa using h

/-- The kind that the next child is set off from. -/
def lastKind : Option Kind → List Node → Option Kind
  | prev, [] => prev
  | prev, child :: children =>
    if child.label.missing ∨ child.label.kind = Kind.annotation then lastKind prev children
    else lastKind (some child.label.kind) children

lemma formatChildrenFrom_append (parentKind : Kind) {prev : Option Kind} {l : List Node}
    (l' : List Node) (h : ∀ c ∈ l, c.label.kind ≠ .comment) :
    formatChildrenFrom own f parentKind prev (l ++ l') o =
      formatChildrenFrom own f parentKind (lastKind prev l) l'
        (formatChildrenFrom own f parentKind prev l o) := by
  induction l generalizing prev o with
  | nil => rw [List.nil_append, formatChildrenFrom, lastKind]
  | cons child l ih =>
    obtain ⟨hchild, hrest⟩ := List.forall_mem_cons.mp h
    rw [List.cons_append, formatChildrenFrom, formatChildrenFrom, lastKind]
    by_cases hskip : child.label.missing ∨ child.label.kind = Kind.annotation
    · rw [if_pos hskip, if_pos hskip, if_pos hskip]
      exact ih hrest
    · simp only [if_neg hskip, if_neg hchild]
      exact ih hrest

lemma comments_alignColon (o : Output) : (alignColon o).comments = o.comments := by
  cases hcol : o.colonAlignCol with
  | none => rw [alignColon_of_none hcol]
  | some col =>
    rw [alignColon_of_some hcol]
    rfl

/-- A colon is aligned in front of what is written for it. -/
lemma formatChildrenFrom_colon {parentKind : Kind} {prev : Option Kind} {colon : Node}
    {after : List Node} (hmissing : colon.label.missing = false) (hkind : colon.label.kind = .colon)
    (hquiet : Quiet colon.start o) :
    formatChildrenFrom own f parentKind prev (colon :: after) o =
      formatChildrenFrom own f parentKind prev (colon :: after) (alignColon o) := by
  have haligned : Quiet colon.start (alignColon o) := fun c hc =>
    hquiet c (comments_alignColon o ▸ hc)
  have hskip : ¬ (colon.label.missing = true ∨ colon.label.kind = Kind.annotation) := by
    rw [hmissing, hkind]
    decide
  have hcomment : colon.label.kind ≠ .comment := by
    rw [hkind]
    decide
  rw [formatChildrenFrom, formatChildrenFrom]
  simp only [flushCommentsBefore_of_quiet hquiet, if_pos hkind, alignColon_alignColon,
    flushCommentsBefore_of_quiet haligned, if_neg hskip, if_neg hcomment]

lemma exists_present_of_lastKind {prev : Option Kind} {l : List Node}
    (h : (lastKind prev l).isSome = true) :
    prev.isSome = true ∨ ∃ c ∈ l, c.label.missing = false := by
  induction l generalizing prev with
  | nil => exact Or.inl h
  | cons child l ih =>
    by_cases hskip : child.label.missing ∨ child.label.kind = Kind.annotation
    · rw [lastKind, if_pos hskip] at h
      exact (ih h).imp_right fun ⟨c, hc, hpresent⟩ => ⟨c, List.mem_cons_of_mem _ hc, hpresent⟩
    · rw [not_or, Bool.not_eq_true] at hskip
      exact Or.inr ⟨child, List.mem_cons_self, hskip.1⟩

lemma inked_append_blanks {text : List Char} (h : Inked text) (n : Nat) :
    Inked (text ++ List.replicate n ' ') := by
  cases n with
  | zero => rwa [List.replicate_zero, List.append_nil]
  | succ n =>
    rw [List.replicate_succ']
    exact Inked.append _ (Inked.append _ ⟨[], ' ', rfl, by decide⟩)

lemma inked_alignColon (h : Inked o.out) : Inked (alignColon o).out := by
  cases hcol : o.colonAlignCol with
  | none => rwa [alignColon_of_none hcol]
  | some col =>
    rw [alignColon_of_some hcol]
    exact inked_append_blanks h _

lemma seated_of_bare {prev : Option Kind} {prevEndRow : Option Nat} {children : List Node}
    (h : ∀ c ∈ children, c.label.kind ≠ .comment) :
    seated prev prevEndRow false children = true := by
  induction children generalizing prev prevEndRow with
  | nil => rfl
  | cons child children ih =>
    obtain ⟨hchild, hrest⟩ := List.forall_mem_cons.mp h
    rw [seated, if_neg hchild]
    split_ifs
    · exact ih hrest
    · rw [ih hrest]
      rfl

lemma renderedWidthFrom_append (parentKind : Kind) (prev : Option Kind) (l l' : List Node) :
    f.renderedWidthFrom parentKind prev (l ++ l') =
      f.renderedWidthFrom parentKind prev l +
        f.renderedWidthFrom parentKind (lastKind prev l) l' := by
  induction l generalizing prev with
  | nil => exact (Nat.zero_add _).symm
  | cons child l ih =>
    rw [List.cons_append, renderedWidthFrom, renderedWidthFrom, lastKind]
    split_ifs
    · exact ih prev
    · rw [ih]
      omega

/-- The comments of two rows of children are those of the first and then those of the second. -/
lemma exists_commentsAmong_append (prevEndRow : Option Nat) (l : List Node) :
    ∃ lastRow, ∀ l', commentsAmong prevEndRow (l ++ l') =
      commentsAmong prevEndRow l ++ commentsAmong lastRow l' := by
  induction l generalizing prevEndRow with
  | nil => exact ⟨prevEndRow, fun l' => by rw [commentsAmong, List.nil_append, List.nil_append]⟩
  | cons child l ih =>
    obtain ⟨lastRow, hlast⟩ := ih (some child.label.endRow)
    refine ⟨lastRow, fun l' => ?_⟩
    rw [List.cons_append, commentsAmong, commentsAmong, hlast, List.append_assoc]

/-- The loop starts over children that are no comments. -/
lemma atChildren_of_bare {parentKind : Kind} {prev : Option Kind} {prevEndRow : Option Nat}
    {children : List Node} {later : List PendingComment} (hplain : ∀ n ∈ children, Plain n)
    (hbare : ∀ n ∈ children, n.label.kind ≠ .comment)
    (hsuccessive : children.Pairwise fun a b => a.stop ≤ b.start)
    (hline : prev.isSome = true → Inked o.out)
    (hcomments : o.comments = commentsAmong prevEndRow children ++ later)
    (hbehind : ∀ n ∈ children, ∀ c ∈ later, n.stop ≤ c.startByte) :
    AtChildren parentKind prev prevEndRow none children later o where
  plain := hplain
  successive := hsuccessive
  inType := fun n hn hkind => absurd hkind (hbare n hn)
  seated := seated_of_bare hbare
  waits := fun d hd => by cases hd
  line := hline
  comments := hcomments
  behind := hbehind

namespace Headed

variable {field colon : Node} {front rest : List Node} {later : List PendingComment}

lemma memberVarPreColonWidth_eq (h : Headed field front colon rest) :
    f.memberVarPreColonWidth field = f.renderedWidthFrom field.label.kind none front := by
  have hnone : front.findIdx? (fun c => c.label.kind = .colon) = none :=
    List.findIdx?_eq_none_iff.mpr fun c hc => decide_eq_false (h.first c hc)
  have hidx : field.children.findIdx? (fun c => c.label.kind = .colon) = some front.length := by
    rw [h.split, List.findIdx?_append, hnone, List.findIdx?_cons, h.kind]
    simp
  simp only [memberVarPreColonWidth, hidx]
  rw [h.split, List.take_left]
  rfl

/-- Up to its colon a field is written no wider than it was measured. -/
lemma exists_before (h : Headed field front colon rest) (own : OwnFormatters) (f : Formatter)
    (hcomments : o.comments = commentsOf field ++ later)
    (hlater : ∀ c ∈ later, colon.start ≤ c.startByte) :
    ∃ lastRow before,
      Writes (f.memberVarPreColonWidth field) (commentsAmong lastRow (colon :: rest) ++ later) o
        before ∧
      ((lastKind none front).isSome = true → Inked before.out) ∧
      formatChildren own f field o = formatChildrenFrom own f field.label.kind
        (lastKind none front) (colon :: rest) (alignColon before) := by
  have hbare := fun n hn => (bare_of_alignable h.alignable n hn).1
  have hinside := h.inside
  have hsuccessive := h.ordered.successive
  rw [commentsOf_eq, h.split] at hcomments
  rw [h.split] at hbare hinside hsuccessive
  obtain ⟨hbare, -⟩ := List.forall_mem_append.mp hbare
  obtain ⟨-, hinside⟩ := List.forall_mem_append.mp hinside
  obtain ⟨hordered, hordered', hbetween⟩ := List.pairwise_append.mp hsuccessive
  obtain ⟨lastRow, hlast⟩ := exists_commentsAmong_append none front
  rw [hlast, List.append_assoc] at hcomments
  have hbehind : ∀ b, (∀ n ∈ colon :: rest, b ≤ n.start) →
      ∀ c ∈ commentsAmong lastRow (colon :: rest) ++ later, b ≤ c.startByte := by
    intro b hb
    refine List.forall_mem_append.mpr ⟨fun c hc => ?_, fun c hc =>
      (hb colon List.mem_cons_self).trans (hlater c hc)⟩
    obtain ⟨n, hn, ⟨-, hstart⟩ | ⟨-, hc⟩⟩ := exists_of_mem_commentsAmong hc
    · exact (hb n hn).trans hstart.ge
    · exact (hb n hn).trans (hinside n hn c hc)
  have hstart : AtChildren field.label.kind none none none front
      (commentsAmong lastRow (colon :: rest) ++ later) o :=
    atChildren_of_bare h.plain hbare hordered (fun hsome => by cases hsome) hcomments
      fun n hn => hbehind n.stop (hbetween n hn)
  obtain ⟨hwrites, hinked⟩ := formatChildrenFrom_writes_of own (f := f) hstart
    (fun n hn hpresent _ => formatOperand_writes own field.label.kind n (h.plain n hn) hpresent)
    (Or.inr fun c hc hcolon => absurd hcolon (h.first c hc))
  have hquiet : Quiet colon.start (formatChildrenFrom own f field.label.kind none front o) := by
    rw [Quiet, hwrites.comments]
    refine hbehind colon.start (List.forall_mem_cons.mpr ⟨le_refl _, fun n hn => ?_⟩)
    have hspan := h.token.here.ordered.start_le_stop
    exact hspan.trans ((List.pairwise_cons.mp hordered').1 n hn)
  refine ⟨lastRow, _, hwrites.mono ?_, fun hsome => hinked (exists_present_of_lastKind hsome), ?_⟩
  · rw [h.memberVarPreColonWidth_eq]
    exact (Nat.zero_add _).le
  · rw [formatChildren, h.split, formatChildrenFrom_append field.label.kind (colon :: rest) hbare,
      formatChildrenFrom_colon h.present h.kind hquiet]

end Headed

namespace PlainField

variable {field : Node} {later : List PendingComment}

lemma bare (h : PlainField field) : ∀ n ∈ field.children, n.label.kind ≠ .comment :=
  fun n hn => (bare_of_alignable h.alignable n hn).1

/-- A colon that is not missing is the only one. -/
lemma exists_headed (h : PlainField field)
    (hcolon : ¬ ∀ c ∈ field.children, c.label.kind = .colon → c.label.missing = true) :
    ∃ front colon rest, Headed field front colon rest := by
  push Not at hcolon
  obtain ⟨colon, hmem, hkind, hpresent⟩ := hcolon
  obtain ⟨front, rest, hsplit⟩ := List.append_of_mem hmem
  have hcount := h.colon
  rw [hsplit, List.countP_append, List.countP_cons_of_pos (by simpa using hkind)] at hcount
  have hnone : front.countP (fun c => c.label.kind = .colon) = 0 := by omega
  have hplain := h.plain
  rw [hsplit] at hplain
  exact ⟨front, colon, rest,
    { alignable := h.alignable
      ordered := h.ordered
      split := hsplit
      inside := fun n hn c hc => (startByte_of_mem_commentsOf n (h.plain n hn) c hc).1
      kind := hkind
      present := (Bool.not_eq_true _).mp hpresent
      token := h.plain colon hmem
      plain := (List.forall_mem_append.mp hplain).1
      first := fun c hc => by simpa using List.countP_eq_zero.mp hnone c hc }⟩

/-- A field is written no wider than it was measured, with the alignment in front of its colon. -/
lemma formatChildren_cases (h : PlainField field) (own : OwnFormatters) (f : Formatter)
    (hcomments : o.comments = commentsOf field ++ later)
    (hlater : ∀ c ∈ later, field.stop ≤ c.startByte) :
    Writes (f.memberVarDeclWidth field) later o (formatChildren own f field o) ∨
      ∃ pending before width, f.memberVarPreColonWidth field + width = f.memberVarDeclWidth field ∧
        Writes (f.memberVarPreColonWidth field) pending o before ∧
        Writes width later (alignColon before) (formatChildren own f field o) := by
  have hbehind : ∀ n ∈ field.children, ∀ c ∈ later, n.stop ≤ c.startByte :=
    fun n hn c hc => (h.ordered.inside n hn).2.trans (hlater c hc)
  have hoperand := fun n (hn : n ∈ field.children) hpresent (_ : n.label.kind ≠ .comment) =>
    formatOperand_writes own (f := f) field.label.kind n (h.plain n hn) hpresent
  by_cases hcolon : ∀ c ∈ field.children, c.label.kind = .colon → c.label.missing = true
  · rw [commentsOf_eq] at hcomments
    have hstart : AtChildren field.label.kind none none none field.children later o :=
      atChildren_of_bare h.plain h.bare h.ordered.successive (fun hsome => by cases hsome)
        hcomments hbehind
    obtain ⟨hwrites, -⟩ := formatChildrenFrom_writes_of own hstart hoperand (Or.inr hcolon)
    exact Or.inl (hwrites.mono (Nat.zero_add _).le)
  obtain ⟨front, colon, rest, hheaded⟩ := h.exists_headed hcolon
  have hmem : ∀ n ∈ colon :: rest, n ∈ field.children := by
    rw [hheaded.split]
    exact fun n hn => List.mem_append_right front hn
  have hspan := (h.plain colon (hmem colon List.mem_cons_self)).here.ordered.start_le_stop
  obtain ⟨lastRow, before, hwrites, hinked, heq⟩ := hheaded.exists_before own f hcomments
    fun c hc => hspan.trans (hbehind colon (hmem colon List.mem_cons_self) c hc)
  have hordered := h.ordered.successive
  rw [hheaded.split] at hordered
  have hrest : AtChildren field.label.kind (lastKind none front) lastRow none (colon :: rest) later
      (alignColon before) :=
    atChildren_of_bare (fun n hn => h.plain n (hmem n hn)) (fun n hn => h.bare n (hmem n hn))
      (List.pairwise_append.mp hordered).2.1 (fun hsome => inked_alignColon (hinked hsome))
      ((comments_alignColon before).trans hwrites.comments) fun n hn => hbehind n (hmem n hn)
  obtain ⟨hwritten, -⟩ := formatChildrenFrom_writes_of own hrest
    (fun n hn => hoperand n (hmem n hn)) (Or.inl (colonAlignCol_alignColon before))
  refine Or.inr ⟨_, before,
    f.renderedWidthFrom field.label.kind (lastKind none front) (colon :: rest), ?_, hwrites, ?_⟩
  · rw [hheaded.memberVarPreColonWidth_eq, memberVarDeclWidth, renderedWidth, hheaded.split,
      renderedWidthFrom_append]
  · rw [heq]
    exact hwritten.mono (Nat.zero_add _).le

end PlainField

/-! ### The columns of a field -/

/-- A field is about to be written on a line of its own: its comments are the next ones. -/
structure AtLineStart (field : Node) (o : Output) : Prop where
  line : currentLine o.out = []
  indented : o.suppressNextIndent = false
  comments : ∃ later, o.comments = commentsOf field ++ later ∧
    ∀ c ∈ later, field.stop ≤ c.startByte

lemma newline_not_mem_indentUnit (f : Formatter) : '\n' ∉ f.indentUnit := by
  rw [indentUnit, indentUnitFor]
  split_ifs
  · decide
  · intro h
    exact absurd (List.eq_of_mem_replicate h) (by decide)

lemma utf8Bytes_flatten_replicate (n : Nat) (text : List Char) :
    utf8Bytes (List.replicate n text).flatten = n * utf8Bytes text := by
  induction n with
  | zero => rw [List.replicate_zero, List.flatten_nil, Nat.zero_mul, utf8Bytes_nil]
  | succ n ih =>
    rw [List.replicate_succ, List.flatten_cons, utf8Bytes_append, ih, Nat.succ_mul, Nat.add_comm]

/-- The indent makes a line as wide as the passes take it to be. -/
lemma currentLineLen_emitIndent {field : Node} (h : AtLineStart field o) :
    (f.emitIndent f.level o).currentLineLen = f.indentWidth := by
  have hnewline : '\n' ∉ (List.replicate f.level f.indentUnit).flatten := by
    intro hmem
    obtain ⟨unit, hunit, hin⟩ := List.mem_flatten.mp hmem
    rw [List.eq_of_mem_replicate hunit] at hin
    exact newline_not_mem_indentUnit f hin
  rw [emitIndent, h.indented, if_neg Bool.false_ne_true, Output.currentLineLen, Output.emit,
    currentLine_append_of_not_mem _ hnewline, h.line, List.nil_append, utf8Bytes_flatten_replicate,
    indentWidth]

lemma comments_emitIndent (hindented : o.suppressNextIndent = false) :
    (f.emitIndent f.level o).comments = o.comments := by
  rw [emitIndent, hindented, if_neg Bool.false_ne_true]
  rfl

/-- The columns that were asked for between two outputs, none of which the line was past. -/
def Fits (o o' : Output) : Prop :=
  ∃ records, o'.padded = o.padded ++ records ∧ ∀ r ∈ records, r.1 ≤ r.2

lemma fits_of_padded_eq {o' : Output} (h : o'.padded = o.padded) : Fits o o' :=
  ⟨[], by rw [h, List.append_nil], fun r hr => absurd hr List.not_mem_nil⟩

lemma Fits.trans {o' o'' : Output} (h : Fits o o') (h' : Fits o' o'') : Fits o o'' := by
  obtain ⟨records, hrecords, hle⟩ := h
  obtain ⟨records', hrecords', hle'⟩ := h'
  exact ⟨records ++ records', by rw [hrecords', hrecords, List.append_assoc],
    List.forall_mem_append.mpr ⟨hle, hle'⟩⟩

lemma fits_padTo {col : Nat} (h : o.currentLineLen ≤ col) : Fits o (o.padTo col) :=
  ⟨[(o.currentLineLen, col)], rfl, by simpa using h⟩

lemma Writes.padded {width : Nat} {later : List PendingComment} {o' : Output}
    (h : Writes width later o o') : o'.padded = o.padded := by
  obtain ⟨s, -, rfl⟩ := h
  rfl

lemma Writes.currentLineLen_le {width : Nat} {later : List PendingComment} {o' : Output}
    (h : Writes width later o o') : o'.currentLineLen ≤ o.currentLineLen + width := by
  obtain ⟨s, hs, rfl⟩ := h
  exact (currentLineLen_emit_le o s).trans (Nat.add_le_add_left hs _)

/-- In front of its colon a field stays within its column. -/
lemma fits_alignColon {before : Output} {target : Option Nat}
    (htarget : before.colonAlignCol = target)
    (hroom : ∀ col, target = some col → before.currentLineLen ≤ col) :
    Fits before (alignColon before) := by
  cases target with
  | none =>
    rw [alignColon_of_none htarget]
    exact fits_of_padded_eq rfl
  | some col =>
    rw [alignColon_of_some htarget]
    exact fits_padTo (o := { before with colonAlignCol := none }) (hroom col rfl)

/-- Whatever stands behind its colon, a field stays within the column of the colon. -/
lemma Headed.fits_formatChildren {field colon : Node} {front rest : List Node}
    {later : List PendingComment} {target : Option Nat} (h : Headed field front colon rest)
    (own : OwnFormatters) (hcomments : o.comments = commentsOf field ++ later)
    (hlater : ∀ c ∈ later, colon.start ≤ c.startByte) (hline : o.currentLineLen = f.indentWidth)
    (htarget : o.colonAlignCol = target)
    (hcolon : ∀ col, target = some col → f.indentWidth + f.memberVarPreColonWidth field ≤ col) :
    Fits o (formatChildren own f field o) := by
  obtain ⟨lastRow, before, hwrites, -, heq⟩ := h.exists_before own f hcomments hlater
  have hat := hwrites.currentLineLen_le
  have hfits : Fits before (alignColon before) :=
    fits_alignColon (hwrites.colonAlignCol.trans htarget) fun col hcol => by
      have hroom := hcolon col hcol
      omega
  -- Behind the colon no column is asked for.
  have hrest := advances_formatChildrenFrom_of own f field.label.kind (lastKind none front)
    (fun c (_ : c ∈ colon :: rest) => advances_formatOperand own f field.label.kind c)
    (colonAlignCol_alignColon before)
  rw [heq]
  exact ((fits_of_padded_eq hwrites.padded).trans hfits).trans (fits_of_padded_eq hrest.padded)

/-- Up to its `;` a field stays within the width that was measured, and its colon within its
column. -/
lemma PlainField.fits_formatChildren {field : Node} {target : Option Nat}
    {later : List PendingComment} (h : PlainField field) (own : OwnFormatters)
    (hcomments : o.comments = commentsOf field ++ later)
    (hlater : ∀ c ∈ later, field.stop ≤ c.startByte) (hline : o.currentLineLen = f.indentWidth)
    (htarget : o.colonAlignCol = target)
    (hcolon : ∀ col, target = some col → f.indentWidth + f.memberVarPreColonWidth field ≤ col) :
    Fits o (formatChildren own f field o) ∧ (formatChildren own f field o).currentLineLen ≤
      f.indentWidth + f.memberVarLineWidthToSemicolon field target := by
  have hunaligned : f.memberVarDeclWidth field ≤ f.memberVarLineWidthToSemicolon field target := by
    cases target with
    | none => exact le_refl _
    | some col => exact Nat.le_add_right _ _
  rcases h.formatChildren_cases own f hcomments hlater with
    hwrites | ⟨pending, before, width, hsum, hfront, hrest⟩
  · have hend := hwrites.currentLineLen_le
    exact ⟨fits_of_padded_eq hwrites.padded, by omega⟩
  have hat := hfront.currentLineLen_le
  have hend := hrest.currentLineLen_le
  have hcol := hfront.colonAlignCol.trans htarget
  have hfits : Fits before (alignColon before) := fits_alignColon hcol fun col hsome => by
    have hroom := hcolon col hsome
    omega
  refine ⟨((fits_of_padded_eq hfront.padded).trans hfits).trans
    (fits_of_padded_eq hrest.padded), ?_⟩
  cases target with
  | none =>
    rw [alignColon_of_none hcol] at hend
    omega
  | some col =>
    have hroom := hcolon col rfl
    have haligned : (alignColon before).currentLineLen = col := by
      rw [alignColon_of_some hcol, currentLineLen_padTo]
      exact max_eq_right (hat.trans (by omega))
    rw [haligned] at hend
    rw [memberVarLineWidthToSemicolon]
    omega

lemma emitAnnotationFor_eq {field : Node} (h : isAlignableField field = true) :
    f.emitAnnotationFor field o = (false, o) := by
  have hnone : childOfKind field Kind.annotation = none :=
    List.find?_eq_none.mpr fun c hc => by simpa using (bare_of_alignable h c hc).2
  rw [emitAnnotationFor, hnone]

lemma fits_formatTrailingDefault {trailing : Option (Node × Option Nat)}
    (hcol : o.colonAlignCol = none)
    (h : ∀ default col, trailing = some (default, some col) → o.currentLineLen ≤ col) :
    Fits o (formatTrailingDefault own f trailing o) := by
  match trailing with
  | none => exact fits_of_padded_eq rfl
  | some (default, none) =>
    have hwritten := advances_formatChildren own f (o := o.emit defaultGap) default hcol
    exact fits_of_padded_eq hwritten.padded
  | some (default, some col) =>
    have hwritten := advances_formatChildren own f (o := o.padTo col) default hcol
    exact (fits_padTo (h default col rfl)).trans (fits_of_padded_eq hwritten.padded)

/-- A field is written behind the indent, and its default behind it. -/
lemma formatMemberVarDecl_eq (own : OwnFormatters) (f : Formatter) {field : Node}
    (h : isAlignableField field = true) (target : Option Nat)
    (trailing : Option (Node × Option Nat)) (o : Output) :
    formatMemberVarDecl own f field target trailing o =
      (formatTrailingDefault own f trailing
        { formatChildren own f field { f.emitIndent f.level o with colonAlignCol := target } with
          colonAlignCol := none }).nl := by
  simp only [formatMemberVarDecl, emitAnnotationFor_eq h, Bool.false_eq_true, if_false]

/-- A field finds the column of its colon where the target leaves it enough room. -/
theorem Headed.fits_formatMemberVarDecl {field colon : Node} {front rest : List Node}
    {target : Option Nat} (h : Headed field front colon rest) (own : OwnFormatters)
    (trailing : Option (Node × Option Nat)) (hstart : AtLineStart field o)
    (hcolon : ∀ col, target = some col → f.indentWidth + f.memberVarPreColonWidth field ≤ col) :
    ∃ written, Fits o written ∧ formatMemberVarDecl own f field target trailing o =
      (formatTrailingDefault own f trailing written).nl := by
  have hindent := advances_emitIndent f f.level o
  obtain ⟨later, hcomments, hlater⟩ := hstart.comments
  rw [← comments_emitIndent hstart.indented] at hcomments
  have hspan : colon.start ≤ field.stop := by
    have hinside := h.ordered.inside colon (by rw [h.split]; exact List.mem_append_cons_self)
    exact h.token.here.ordered.start_le_stop.trans hinside.2
  have hfits := h.fits_formatChildren own
    (o := { f.emitIndent f.level o with colonAlignCol := target }) hcomments
    (fun c hc => hspan.trans (hlater c hc)) (currentLineLen_emitIndent hstart) rfl hcolon
  refine ⟨_, ?_, formatMemberVarDecl_eq own f h.alignable target trailing o⟩
  exact ((fits_of_padded_eq hindent.padded).trans hfits).trans (fits_of_padded_eq rfl)

/-- A field that no comment breaks finds both of its columns. -/
theorem PlainField.fits_formatMemberVarDecl {field : Node} {target : Option Nat}
    {trailing : Option (Node × Option Nat)} (h : PlainField field) (own : OwnFormatters)
    (hstart : AtLineStart field o)
    (hcolon : ∀ col, target = some col → f.indentWidth + f.memberVarPreColonWidth field ≤ col)
    (hdefault : ∀ default col, trailing = some (default, some col) →
      f.indentWidth + f.memberVarLineWidthToSemicolon field target ≤ col) :
    Fits o (formatMemberVarDecl own f field target trailing o) := by
  have hindent := advances_emitIndent f f.level o
  obtain ⟨later, hcomments, hlater⟩ := hstart.comments
  rw [← comments_emitIndent hstart.indented] at hcomments
  obtain ⟨hfits, hline⟩ := h.fits_formatChildren own
    (o := { f.emitIndent f.level o with colonAlignCol := target }) hcomments hlater
    (currentLineLen_emitIndent hstart) rfl hcolon
  rw [formatMemberVarDecl_eq own f h.alignable]
  generalize formatChildren own f field { f.emitIndent f.level o with colonAlignCol := target } =
    written at hfits hline
  have hhead : Fits o { written with colonAlignCol := none } :=
    (fits_of_padded_eq hindent.padded).trans hfits
  have htrailing : Fits { written with colonAlignCol := none }
      (formatTrailingDefault own f trailing { written with colonAlignCol := none }) :=
    fits_formatTrailingDefault rfl fun default col hsome => hline.trans (hdefault default col hsome)
  exact (hhead.trans htrailing).trans (fits_of_padded_eq rfl)

/-- A target of a pass leaves its field the room that it needs. -/
lemma Columns.needs_le {members : List Node} {pass : RunPass Nat} {needs : Nat → Node → Nat}
    (h : Columns f members pass needs) {v col : Nat} {member : Node}
    (hmember : members[v]? = some member) (htarget : pass.targets[v]? = some (some col)) :
    needs v member ≤ col := by
  obtain ⟨r, hr, htwo, hv⟩ := h.aligned v col htarget
  obtain ⟨col', hcol⟩ := h.column r hr htwo
  obtain ⟨htarget', hneeds⟩ := hcol v hv
  rw [htarget, Option.some.injEq, Option.some.injEq] at htarget'
  rw [htarget']
  exact hneeds member hmember

lemma trailingDefault_eq {members : List Node} {targets : List (Option Nat)} {idx col : Nat}
    {default : Node} (h : f.trailingDefault members targets idx = some (default, some col)) :
    targets[idx]? = some (some col) := by
  rw [trailingDefault] at h
  split at h
  · split_ifs at h
    simp only [Option.some.injEq, Prod.mk.injEq] at h
    cases htarget : targets[idx]? with
    | none =>
      rw [htarget] at h
      cases h.2
    | some target =>
      rw [htarget] at h
      rw [← h.2]
      rfl
  · cases h

namespace AlignedBy

variable {members : List Node} {colons defaults : RunPass Nat} {idx : Nat} {field : Node}
  {target : Option Nat}

/-- A target leaves the front of a field the room that it needs. -/
lemma preColonWidth_le (h : AlignedBy f members colons defaults)
    (hmember : members[idx]? = some field) (htarget : colons.targets[idx]? = some target)
    {col : Nat} (hcol : target = some col) :
    f.indentWidth + f.memberVarPreColonWidth field ≤ col := by
  rw [hcol] at htarget
  exact h.colon.needs_le hmember htarget

/-- A field that no comment breaks is written with the columns of the passes. -/
lemma fits (h : AlignedBy f members colons defaults) (own : OwnFormatters)
    {trailing : Option (Node × Option Nat)} (hmember : members[idx]? = some field)
    (htarget : colons.targets[idx]? = some target)
    (htrailing : ∀ default col, trailing = some (default, some col) →
      defaults.targets[idx]? = some (some col))
    (hfield : PlainField field) (hstart : AtLineStart field o) :
    Fits o (formatMemberVarDecl own f field target trailing o) := by
  refine hfield.fits_formatMemberVarDecl own hstart
    (fun col hcol => h.preColonWidth_le hmember htarget hcol) fun default col hsome => ?_
  have hneeds := h.default.needs_le hmember (htrailing default col hsome)
  rw [defaultNeed, htarget, Option.getD_some] at hneeds
  exact (Nat.le_add_right _ _).trans hneeds

end AlignedBy

/-- The passes come to their end on every list of members, no member is in two of their runs, and
the columns of a run leave each of its fields the room that it needs. Every field is written without
going past the column of its colon, and one that no comment breaks without going past that of its
default. -/
theorem memberAlignment_coherent (own : OwnFormatters) (f : Formatter) (members : List Node) :
    ∃ colons defaults, AlignedBy f members colons defaults ∧
      ∀ idx field target o, members[idx]? = some field → colons.targets[idx]? = some target →
        AtLineStart field o →
          (∀ front colon rest, Headed field front colon rest → ∃ written, Fits o written ∧
            formatMemberVarDecl own f field target (f.trailingDefault members defaults.targets idx)
              o = (formatTrailingDefault own f (f.trailingDefault members defaults.targets idx)
                written).nl) ∧
          (PlainField field → Fits o (formatMemberVarDecl own f field target
            (f.trailingDefault members defaults.targets idx) o)) := by
  obtain ⟨colons, defaults, haligned⟩ := exists_alignedBy f members
  refine ⟨colons, defaults, haligned, fun idx field target o hmember htarget hstart => ⟨?_, ?_⟩⟩
  · intro front colon rest hheaded
    exact hheaded.fits_formatMemberVarDecl own _ hstart
      fun col hcol => haligned.preColonWidth_le hmember htarget hcol
  · intro hfield
    exact haligned.fits own hmember htarget (fun _ _ => trailingDefault_eq) hfield hstart

/-- Single kinds on one line. -/
def inlineFormatters : OwnFormatters where
  format f _ node o := o.emit (f.renderNode node)
  advances _ _ _ o _ := Advances.emit o _

def token (kind : Kind) (text : String) (start row : Nat) : Node :=
  .node ⟨kind, text.toList, row, row, false⟩ start (start + text.length) []

/-- `default name=1;` -/
def defaultOfOne (name : String) (start row : Nat) : Node :=
  .node ⟨.memberDefaultVal, ("default " ++ name ++ "=1;").toList, row, row, false⟩
    start (start + 12)
    [token .other "default" start row, token .ident name (start + 8) row,
      token .other "=" (start + 9) row, token .other "1" (start + 10) row,
      token .semicolon ";" (start + 11) row]

/-- `var a:A<B//` with `>;` on the next line -/
def commentedField : Node :=
  .node ⟨.memberVarDecl, "var a:A<B//\n>;".toList, 1, 2, false⟩ 9 23
    [token .other "var" 9 1, token .ident "a" 13 1, token .colon ":" 14 1,
      .node ⟨.typeAnnot, "A<B//\n>".toList, 1, 2, false⟩ 15 22
        [token .ident "A" 15 1, token .less "<" 16 1,
          .node ⟨.typeAnnot, ['B'], 1, 1, false⟩ 17 18 [token .ident "B" 17 1],
          token .comment "//" 18 1, token .greater ">" 21 2],
      token .semicolon ";" 22 2]

/-- `var b:B;` -/
def uncommentedField : Node :=
  .node ⟨.memberVarDecl, "var b:B;".toList, 3, 3, false⟩ 36 44
    [token .other "var" 36 3, token .ident "b" 40 3, token .colon ":" 41 3,
      .node ⟨.typeAnnot, ['B'], 3, 3, false⟩ 42 43 [token .ident "B" 42 3],
      token .semicolon ";" 43 3]

def commentedMembers : List Node :=
  [commentedField, defaultOfOne "a" 23 2, uncommentedField, defaultOfOne "b" 44 3]

def wideIndents : Formatter where
  useTabs := false
  tabSize := 20
  lineLimit := 100
  level := 1
  colon := .spaced
  alignMemberColons := true
  annotationPlacement := .preserve
  defaultPlacement := .sameLine

/-- Behind the opening brace, with the comment still to come. -/
def atCommentedField : Output where
  out := ['{', '\n']
  comments := [⟨"//".toList, 18, 1, some 1⟩]

/-- The comment breaks the line, and its second part is indented past the column of the default. -/
theorem not_fits_commentedField : ∃ colons defaults target,
    AlignedBy wideIndents commentedMembers colons defaults ∧ colons.targets[0]? = some target ∧
      ¬ Fits atCommentedField (formatMemberVarDecl inlineFormatters wideIndents commentedField
        target (wideIndents.trailingDefault commentedMembers defaults.targets 0)
          atCommentedField) := by
  obtain ⟨colons, defaults, h⟩ := exists_alignedBy wideIndents commentedMembers
  have hcolons : colons = ⟨[some 25, none, some 25, none], [⟨2, 0, [2]⟩]⟩ :=
    Option.some.inj (h.colonTargets.symm.trans (by decide +kernel))
  have hdefaults : defaults = ⟨[some 38, none, some 38, none], [⟨2, 0, [2]⟩]⟩ := by
    have htargets := h.defaultTargets
    rw [hcolons] at htargets
    exact Option.some.inj (htargets.symm.trans (by decide +kernel))
  refine ⟨colons, defaults, some 25, h, by rw [hcolons]; rfl, ?_⟩
  rw [hdefaults]
  rintro ⟨records, hrecords, hle⟩
  have hpadded : [(25, 25), (42, 38)] = records :=
    (show _ = [(25, 25), (42, 38)] by decide +kernel).symm.trans hrecords
  rw [← hpadded] at hle
  exact absurd (hle (42, 38) (by decide)) (by decide)

/-- `var a:A</**/B>;` -/
def remarkedField : Node :=
  .node ⟨.memberVarDecl, "var a:A</**/B>;".toList, 2, 2, false⟩ 9 24
    [token .other "var" 9 2, token .ident "a" 13 2, token .colon ":" 14 2,
      .node ⟨.typeAnnot, "A</**/B>".toList, 2, 2, false⟩ 15 23
        [token .ident "A" 15 2, token .less "<" 16 2, token .comment "/**/" 17 2,
          .node ⟨.typeAnnot, ['B'], 2, 2, false⟩ 21 22 [token .ident "B" 21 2],
          token .greater ">" 22 2],
      token .semicolon ";" 23 2]

def remarkedMembers : List Node :=
  [remarkedField, defaultOfOne "a" 24 2, uncommentedField, defaultOfOne "b" 44 3]

def atRemarkedField : Output where
  out := ['{', '\n']
  comments := [⟨"/**/".toList, 17, 2, some 2⟩]

lemma headed_commentedField : Headed commentedField (commentedField.children.take 2)
    (token .colon ":" 14 1) (commentedField.children.drop 3) where
  alignable := by decide +kernel
  ordered := by decide +kernel
  split := rfl
  inside := by decide +kernel
  kind := rfl
  present := rfl
  token := Plain.leaf (by decide +kernel) rfl
  plain := by
    intro n hn
    simp only [commentedField, RangedTree.children, List.take_succ_cons, List.take_zero,
      List.mem_cons, List.not_mem_nil, or_false] at hn
    rcases hn with rfl | rfl
    · exact Plain.leaf (by decide +kernel) rfl
    · exact Plain.leaf (by decide +kernel) rfl
  first := by decide +kernel

lemma plainField_remarkedField : PlainField remarkedField where
  alignable := by decide +kernel
  ordered := by decide +kernel
  plain := by
    intro c hc
    simp only [remarkedField, RangedTree.children, List.mem_cons, List.not_mem_nil,
      or_false] at hc
    rcases hc with rfl | rfl | rfl | rfl | rfl
    · exact Plain.leaf (by decide +kernel) rfl
    · exact Plain.leaf (by decide +kernel) rfl
    · exact Plain.leaf (by decide +kernel) rfl
    · refine Plain.node (by decide +kernel) fun _ c hc => ?_
      simp only [RangedTree.children, List.mem_cons, List.not_mem_nil, or_false] at hc
      rcases hc with rfl | rfl | rfl | rfl | rfl
      · exact Plain.leaf (by decide +kernel) rfl
      · exact Plain.leaf (by decide +kernel) rfl
      · exact Plain.leaf (by decide +kernel) rfl
      · refine Plain.node (by decide +kernel) fun _ c hc => ?_
        rw [List.mem_singleton.mp hc]
        exact Plain.leaf (by decide +kernel) rfl
      · exact Plain.leaf (by decide +kernel) rfl
    · exact Plain.leaf (by decide +kernel) rfl
  colon := by decide +kernel

/-- A comment that breaks its line leaves a field the column of its colon, and one that does not
leaves it both of its columns. -/
theorem memberAlignment_coherent_remarked :
    (∃ colons defaults, AlignedBy wideIndents commentedMembers colons defaults ∧
      ∀ target, colons.targets[0]? = some target → ∃ written, Fits atCommentedField written ∧
        formatMemberVarDecl inlineFormatters wideIndents commentedField target
          (wideIndents.trailingDefault commentedMembers defaults.targets 0) atCommentedField =
            (formatTrailingDefault inlineFormatters wideIndents
              (wideIndents.trailingDefault commentedMembers defaults.targets 0) written).nl) ∧
    ∃ colons defaults, AlignedBy wideIndents remarkedMembers colons defaults ∧
      ∀ target, colons.targets[0]? = some target →
        Fits atRemarkedField (formatMemberVarDecl inlineFormatters wideIndents remarkedField
          target (wideIndents.trailingDefault remarkedMembers defaults.targets 0)
            atRemarkedField) := by
  have hcommented : AtLineStart commentedField atCommentedField :=
    ⟨by decide +kernel, rfl, [], by decide +kernel, fun c hc => absurd hc List.not_mem_nil⟩
  have hremarked : AtLineStart remarkedField atRemarkedField :=
    ⟨by decide +kernel, rfl, [], by decide +kernel, fun c hc => absurd hc List.not_mem_nil⟩
  constructor
  · obtain ⟨colons, defaults, h, hfits⟩ :=
      memberAlignment_coherent inlineFormatters wideIndents commentedMembers
    refine ⟨colons, defaults, h, fun target htarget => ?_⟩
    exact (hfits 0 commentedField target atCommentedField rfl htarget hcommented).1 _ _ _
      headed_commentedField
  · obtain ⟨colons, defaults, h, hfits⟩ :=
      memberAlignment_coherent inlineFormatters wideIndents remarkedMembers
    refine ⟨colons, defaults, h, fun target htarget => ?_⟩
    exact (hfits 0 remarkedField target atRemarkedField rfl htarget hremarked).2
      plainField_remarkedField

end Formatter

end WitcherScriptLanguage.Formatting
