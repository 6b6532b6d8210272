import WitcherScriptLanguage.Formatter.Emission
import WitcherScriptLanguage.Types.NormalForm
import Mathlib.Tactic.MkIffOfInductiveProp

/-!
# Texts of fields

A field is written no wider than it was measured, where no comment inside breaks its line.
-/

namespace WitcherScriptLanguage.Formatting

open Library

/-- A text that ends, and not with a line end. -/
def Inked (text : List Char) : Prop := ∃ front c, text = front ++ [c] ∧ c ≠ '\n'

lemma Inked.append (text : List Char) {s : List Char} (h : Inked s) : Inked (text ++ s) := by
  obtain ⟨front, c, rfl, hc⟩ := h
  exact ⟨text ++ front, c, (List.append_assoc _ _ _).symm, hc⟩

lemma Inked.not_endsWith {o : Output} (h : Inked o.out) : o.endsWith '\n' = false := by
  obtain ⟨front, c, hout, hc⟩ := h
  rw [Output.endsWith, hout, List.getLast?_concat]
  simpa using hc

lemma Inked.canTrail {o : Output} (h : Inked o.out) : o.canTrail = true := by
  have hends := h.not_endsWith
  obtain ⟨front, c, hout, hc⟩ := h
  rw [Output.canTrail, hends, hout]
  simp

lemma inked_of_trim_eq {text : List Char} (h : trim text = text) (hne : text ≠ []) :
    Inked text := by
  obtain ⟨-, front, c, htext, hc⟩ := ends_of_trim_eq h hne
  refine ⟨front, c, htext, ?_⟩
  rintro rfl
  cases hc

lemma trimEnd_of_trim_eq {text : List Char} (h : trim text = text) : trimEnd text = text := by
  by_cases hne : text = []
  · rw [hne]
    rfl
  · obtain ⟨-, front, c, htext, hc⟩ := ends_of_trim_eq h hne
    rw [trimEnd, htext, List.rdropWhile_concat_neg _ _ _ (by simp [hc])]

lemma dropWhile_of_trim_eq {text : List Char} (h : trim text = text) :
    text.dropWhile isWhitespace = text := by
  by_cases hne : text = []
  · rw [hne]
    rfl
  · obtain ⟨⟨a, rest, htext, ha⟩, -⟩ := ends_of_trim_eq h hne
    rw [htext, List.dropWhile_cons_of_neg (by simp [ha])]

namespace Formatter

/-- In a type no blank stands behind such a node. -/
def hugsNext (kind : Kind) : Bool := kind ∈ [.openParen, .openBracket, .less, .dot]

/-- In a type no blank stands in front of such a node. -/
def hugsPrev (kind : Kind) : Bool :=
  kind ∈ [.comma, .semicolon, .closeParen, .closeBracket, .less, .greater, .funcParams, .openParen,
    .openBracket, .dot]

/-- Comments stand between two nodes that do not both hug them, on the row where the node in front
ends, and none runs to the end of the line. -/
def seated (prev : Option Kind) (prevEndRow : Option Nat) (held : Bool) : List Node → Bool
  | [] => !held
  | child :: children =>
    if child.label.missing then seated prev (some child.label.endRow) held children
    else if child.label.kind = .comment then
      (prev.isSome && prevEndRow = some child.label.startRow && !isLineComment child.label.text) &&
        seated prev (some child.label.endRow) true children
    else
      (!held || prev.any fun p => !(hugsNext p && hugsPrev child.label.kind)) &&
        seated (some child.label.kind) (some child.label.endRow) false children

/-- What the parser guarantees of a node below a field, where no comment breaks the line. -/
@[mk_iff]
structure PlainNode (n : Node) : Prop where
  ordered : n.Ordered
  nonempty : n.label.missing = false → n.start < n.stop
  token : n.children = [] → trim n.label.text = n.label.text
  visible : n.label.missing = false → n.children = [] ∨ n.label.kind = .error →
    trim n.label.text ≠ []
  leaf : n.label.missing = true ∨ n.label.kind = .comment → n.children = []
  child : n.label.missing = false → n.children ≠ [] → ∃ c ∈ n.children, c.label.missing = false
  own : hasOwnFormatter n.label.kind = false
  kind : n.label.kind ≠ Kind.annotation
  present : n.label.kind = .comment → n.label.missing = false
  /-- A colon stands directly below the field. -/
  colon : n.label.kind ≠ .error → ∀ c ∈ n.children, c.label.kind ≠ .colon
  /-- A comment stands in a type. -/
  inType : n.label.kind ≠ .error → ∀ c ∈ n.children, c.label.kind = .comment →
    n.label.kind = .typeAnnot
  seated : n.label.kind ≠ .error → Formatter.seated none none false n.children = true
  verbatim : n.label.kind = .error → ∀ c ∈ commentsOf n,
    n.start ≤ c.startByte ∧ c.startByte < n.stop

instance (n : Node) : Decidable (PlainNode n) := decidable_of_iff' _ (plainNode_iff n)

/-- A node is plain with all that is below it; errors stand as they are, whatever is below them. -/
inductive Plain : Node → Prop
  | node {n : Node} (hhere : PlainNode n)
      (hbelow : n.label.kind ≠ .error → ∀ c ∈ n.children, Plain c) : Plain n

namespace Plain

variable {n : Node}

lemma here (h : Plain n) : PlainNode n := by
  obtain ⟨hhere, -⟩ := h
  exact hhere

lemma children (h : Plain n) (herror : n.label.kind ≠ .error) : ∀ c ∈ n.children, Plain c := by
  obtain ⟨-, hbelow⟩ := h
  exact hbelow herror

lemma leaf (h : PlainNode n) (hleaf : n.children = []) : Plain n :=
  Plain.node h fun _ c hc => absurd hc (by rw [hleaf]; exact List.not_mem_nil)

end Plain

variable {f : Formatter}

/-- The text that `rendered_width` measures. -/
def renderedFrom (f : Formatter) (parentKind : Kind) (prev : Option Kind) : List Node → List Char
  | [] => []
  | child :: children =>
    if child.label.missing ∨ child.label.kind = Kind.annotation then
      renderedFrom f parentKind prev children
    else
      f.gapAfter prev child.label.kind parentKind ++ (f.renderNode child ++
        renderedFrom f parentKind (some child.label.kind) children)

lemma utf8Bytes_renderedFrom (parentKind : Kind) (prev : Option Kind) (children : List Node) :
    utf8Bytes (f.renderedFrom parentKind prev children) =
      f.renderedWidthFrom parentKind prev children := by
  induction children generalizing prev with
  | nil => rfl
  | cons child children ih =>
    rw [renderedFrom, renderedWidthFrom]
    split_ifs
    · exact ih prev
    · rw [utf8Bytes_append, utf8Bytes_append, ih, Nat.add_assoc]

/-- Nothing is left out where the span reaches around the node, as only missing nodes are empty. -/
lemma renderSpans_eq_renderedFrom_of {startByte endByte : Nat} (parentKind : Kind)
    (prev : Option Kind) {children : List Node}
    (hplain : ∀ c ∈ children, PlainNode c ∧ startByte ≤ c.start ∧ c.stop ≤ endByte)
    (hnode : ∀ c ∈ children, f.renderSpan startByte endByte c = f.renderNode c) :
    f.renderSpans startByte endByte parentKind prev children =
      f.renderedFrom parentKind prev children := by
  induction children generalizing prev with
  | nil => rw [renderSpans, renderedFrom]
  | cons child children ih =>
    obtain ⟨⟨hchild, hstart, hstop⟩, hrest⟩ := List.forall_mem_cons.mp hplain
    obtain ⟨hrender, hrenders⟩ := List.forall_mem_cons.mp hnode
    rw [renderSpans, renderedFrom, hrender]
    cases hmissing : child.label.missing with
    | true =>
      rw [if_pos (Or.inl rfl), if_pos (Or.inl rfl)]
      exact ih prev hrest hrenders
    | false =>
      have hinside := hchild.nonempty hmissing
      rw [if_neg (by simp only [Bool.false_eq_true, false_or]; omega),
        if_neg (by simpa using hchild.kind), ih _ hrest hrenders]

lemma renderSpan_eq_renderNode {startByte endByte : Nat} : ∀ n : Node, Plain n →
    startByte ≤ n.start → n.stop ≤ endByte → f.renderSpan startByte endByte n = f.renderNode n
  | .node label start stop children, hplain, hstart, hstop => by
    have hordered := hplain.here.ordered
    by_cases herror : label.kind = .error
    · rw [renderNode, renderSpan, renderSpan, if_pos herror, if_pos herror]
    have hspans : ∀ s e, s ≤ start → stop ≤ e → f.renderSpans s e label.kind none children =
        f.renderedFrom label.kind none children := by
      intro s e hs he
      have hinside : ∀ c ∈ children, s ≤ c.start ∧ c.stop ≤ e := fun c hc =>
        ⟨hs.trans (hordered.inside c hc).1, (hordered.inside c hc).2.trans he⟩
      refine renderSpans_eq_renderedFrom_of label.kind none
        (fun c hc => ⟨(hplain.children herror c hc).here, hinside c hc⟩) fun c hc => ?_
      exact renderSpan_eq_renderNode c (hplain.children herror c hc) (hinside c hc).1
        (hinside c hc).2
    rw [renderNode, renderSpan, renderSpan, hspans _ _ hstart hstop, RangedTree.start,
      RangedTree.stop, hspans _ _ (le_refl _) (le_refl _)]

/-- A node with children is rendered child by child. -/
lemma renderNode_eq {label : Label} {start stop : Nat} {children : List Node}
    (hplain : Plain (.node label start stop children)) (hmissing : label.missing = false)
    (herror : label.kind ≠ .error) (hchildren : children ≠ []) :
    f.renderNode (.node label start stop children) = f.renderedFrom label.kind none children := by
  have hordered := hplain.here.ordered
  rw [renderNode, renderSpan, hmissing, if_neg Bool.false_ne_true, if_neg herror,
    if_neg (by simpa using hchildren)]
  exact renderSpans_eq_renderedFrom_of label.kind none
    (fun c hc => ⟨(hplain.children herror c hc).here, hordered.inside c hc⟩) fun c hc =>
      renderSpan_eq_renderNode c (hplain.children herror c hc) (hordered.inside c hc).1
        (hordered.inside c hc).2

/-- A node without children, and an error, are rendered as they stand in the source. -/
lemma renderNode_eq_trim {n : Node} (hplain : PlainNode n) (hmissing : n.label.missing = false)
    (h : n.children = [] ∨ n.label.kind = .error) : f.renderNode n = trim n.label.text := by
  obtain ⟨label, start, stop, children⟩ := n
  rw [renderNode, renderSpan, if_neg (by rw [show label.missing = false from hmissing]; decide)]
  split_ifs with herror hchildren
  · rfl
  · exact (hplain.token (List.isEmpty_iff.mp hchildren)).symm
  · rcases h with h | h
    · exact absurd (by rw [show children = [] from h]; rfl) hchildren
    · exact absurd h herror

/-- A comment that stays on the line of what is in front of it. -/
structure InlineComment (comment : PendingComment) : Prop where
  row : comment.prevEndRow = some comment.startRow
  trimmed : trim comment.text = comment.text
  visible : comment.text ≠ []
  block : isLineComment comment.text = false

variable {own : OwnFormatters} {o o' o'' : Output}

lemma emit_nil : o.emit [] = o := by rw [Output.emit, List.append_nil]

lemma emit_emit (s s' : List Char) : (o.emit s).emit s' = o.emit (s ++ s') := by
  rw [Output.emit, Output.emit, Output.emit, List.append_assoc]

lemma emitComment_inline {comment : PendingComment} (h : InlineComment comment)
    (hink : Inked o.out) : ∃ s, Inked s ∧ utf8Bytes s ≤ 1 + utf8Bytes comment.text ∧
      f.emitComment comment o = o.emit s := by
  have hinked := inked_of_trim_eq h.trimmed h.visible
  have htrails : comment.prevEndRow = some comment.startRow ∧ o.canTrail = true :=
    ⟨h.row, hink.canTrail⟩
  have hwritten : f.emitComment comment o =
      (if o.endsWith ' ' then o else o.emit [' ']).emit comment.text := by
    simp only [emitComment, if_pos htrails, hink.not_endsWith, trimEnd_of_trim_eq h.trimmed,
      dropWhile_of_trim_eq h.trimmed, h.block, Bool.false_eq_true, if_false, Bool.or_self]
  rw [hwritten]
  split_ifs
  · exact ⟨comment.text, hinked, Nat.le_add_left _ _, rfl⟩
  · refine ⟨[' '] ++ comment.text, hinked.append _, ?_, emit_emit _ _⟩
    rw [utf8Bytes_append]
    exact le_refl _

/-- A text of a width at most is put behind the line, and the comments in it are passed. -/
def Writes (width : Nat) (later : List PendingComment) (o o' : Output) : Prop :=
  ∃ s, utf8Bytes s ≤ width ∧ o' = { o.emit s with comments := later }

section

variable {width width' : Nat} {later later' : List PendingComment}

lemma Writes.trans (h : Writes width later o o') (h' : Writes width' later' o' o'') :
    Writes (width + width') later' o o'' := by
  obtain ⟨s, hs, rfl⟩ := h
  obtain ⟨s', hs', rfl⟩ := h'
  refine ⟨s ++ s', ?_, ?_⟩
  · rw [utf8Bytes_append]
    exact Nat.add_le_add hs hs'
  · simp only [Output.emit, List.append_assoc]

lemma Writes.mono (h : Writes width later o o') (hle : width ≤ width') :
    Writes width' later o o' := by
  obtain ⟨s, hs, rfl⟩ := h
  exact ⟨s, hs.trans hle, rfl⟩

lemma writes_emit (s : List Char) : Writes (utf8Bytes s) o.comments o (o.emit s) :=
  ⟨s, le_refl _, rfl⟩

lemma writes_refl : Writes 0 o.comments o o := ⟨[], le_refl _, by rw [emit_nil]⟩

lemma Writes.comments (h : Writes width later o o') : o'.comments = later := by
  obtain ⟨s, -, rfl⟩ := h
  rfl

lemma Writes.colonAlignCol (h : Writes width later o o') :
    o'.colonAlignCol = o.colonAlignCol := by
  obtain ⟨s, -, rfl⟩ := h
  rfl

end

/-- The comments that are still to come stand behind a byte. -/
def Quiet (byte : Nat) (o : Output) : Prop := ∀ c ∈ o.comments, byte ≤ c.startByte

lemma Quiet.anti {byte byte' : Nat} (h : Quiet byte o) (hle : byte' ≤ byte) : Quiet byte' o :=
  fun c hc => hle.trans (h c hc)

lemma flushComments_of_quiet {byte : Nat} {cs : List PendingComment}
    (h : ∀ c ∈ cs, byte ≤ c.startByte) : f.flushComments byte cs o = { o with comments := cs } := by
  cases cs with
  | nil => rfl
  | cons c cs => exact if_neg (h c List.mem_cons_self).not_gt

lemma flushCommentsBefore_of_quiet {byte : Nat} (h : Quiet byte o) :
    f.flushCommentsBefore byte o = o := flushComments_of_quiet h

/-- The comments in front of a byte are dropped without being written. -/
lemma consumeCommentsBefore_eq {byte : Nat} {passed later : List PendingComment}
    (hcomments : o.comments = passed ++ later) (hpassed : ∀ c ∈ passed, c.startByte < byte)
    (hlater : ∀ c ∈ later, byte ≤ c.startByte) :
    o.consumeCommentsBefore byte = { o with comments := later } := by
  have hdrop : later.dropWhile (fun c => c.startByte < byte) = later := by
    cases later with
    | nil => rfl
    | cons c cs =>
      exact List.dropWhile_cons_of_neg (by simpa using hlater c List.mem_cons_self)
  rw [Output.consumeCommentsBefore, hcomments,
    List.dropWhile_append_of_pos fun c hc => by simpa using hpassed c hc, hdrop]

/-- The width of a comment that waits for the next node, with the blank in front of it. -/
def heldWidth (held : Option PendingComment) : Nat := held.elim 0 fun h => 1 + utf8Bytes h.text

/-- A comment that waited for the next node is written in front of it. -/
lemma flushCommentsBefore_held {byte : Nat} {held : Option PendingComment}
    {later : List PendingComment} (hcomments : o.comments = held.toList ++ later)
    (hheld : ∀ h ∈ held, InlineComment h ∧ h.startByte < byte)
    (hline : held.isSome = true → Inked o.out) (hlater : ∀ c ∈ later, byte ≤ c.startByte) :
    Writes (heldWidth held) later o (f.flushCommentsBefore byte o) ∧
      (Inked o.out → Inked (f.flushCommentsBefore byte o).out) := by
  cases held with
  | none =>
    have hquiet : Quiet byte o := by
      intro c hc
      rw [hcomments] at hc
      exact hlater c hc
    rw [flushCommentsBefore_of_quiet hquiet]
    rw [Option.toList_none, List.nil_append] at hcomments
    exact ⟨hcomments ▸ writes_refl, id⟩
  | some h =>
    obtain ⟨hinline, hbefore⟩ := hheld h rfl
    obtain ⟨s, hs, hwidth, hwritten⟩ := emitComment_inline (f := f) hinline (hline rfl)
    rw [flushCommentsBefore, hcomments, Option.toList_some, List.singleton_append, flushComments,
      if_pos hbefore, hwritten, flushComments_of_quiet hlater]
    exact ⟨⟨s, hwidth, rfl⟩, fun _ => hs.append _⟩

lemma exists_of_mem_commentsAmong {prevEndRow : Option Nat} {children : List Node}
    {c : PendingComment} (h : c ∈ commentsAmong prevEndRow children) :
    ∃ n ∈ children, n.label.kind = .comment ∧ c.startByte = n.start ∨
      n.label.kind ≠ .comment ∧ c ∈ commentsOf n := by
  induction children generalizing prevEndRow with
  | nil =>
    rw [commentsAmong] at h
    cases h
  | cons child children ih =>
    rw [commentsAmong] at h
    rcases List.mem_append.mp h with h | h
    · refine ⟨child, List.mem_cons_self, ?_⟩
      split_ifs at h with hkind
      · rw [List.mem_singleton.mp h]
        exact Or.inl ⟨hkind, rfl⟩
      · exact Or.inr ⟨hkind, h⟩
    · obtain ⟨n, hn, hwhere⟩ := ih h
      exact ⟨n, List.mem_cons_of_mem _ hn, hwhere⟩

/-- The comments below nodes start inside of them. -/
lemma startByte_of_mem_commentsAmong {prevEndRow : Option Nat} {children : List Node}
    (hplain : ∀ n ∈ children, Plain n)
    (hbelow : ∀ n ∈ children, ∀ c ∈ commentsOf n, n.start ≤ c.startByte ∧ c.startByte < n.stop)
    {c : PendingComment} (h : c ∈ commentsAmong prevEndRow children) :
    ∃ n ∈ children, n.start ≤ c.startByte ∧ c.startByte < n.stop := by
  obtain ⟨n, hn, ⟨hkind, hstart⟩ | ⟨-, hc⟩⟩ := exists_of_mem_commentsAmong h
  · have hspan := (hplain n hn).here.nonempty ((hplain n hn).here.present hkind)
    exact ⟨n, hn, hstart.ge, hstart ▸ hspan⟩
  · exact ⟨n, hn, hbelow n hn c hc⟩

lemma startByte_of_mem_commentsOf : ∀ n : Node, Plain n → ∀ c ∈ commentsOf n,
    n.start ≤ c.startByte ∧ c.startByte < n.stop
  | .node label start stop children, hplain, c, hc => by
    by_cases herror : label.kind = .error
    · exact hplain.here.verbatim herror c hc
    have hbelow : ∀ n ∈ children, ∀ c ∈ commentsOf n,
        n.start ≤ c.startByte ∧ c.startByte < n.stop :=
      fun n hn => startByte_of_mem_commentsOf n (hplain.children herror n hn)
    rw [commentsOf] at hc
    obtain ⟨n, hn, hstart, hstop⟩ :=
      startByte_of_mem_commentsAmong (hplain.children herror) hbelow hc
    obtain ⟨hinside, hinside'⟩ := hplain.here.ordered.inside n hn
    exact ⟨hinside.trans hstart, hstop.trans_le hinside'⟩

/-- Behind a node there are the comments of those that follow it. -/
lemma stop_le_startByte {prevEndRow : Option Nat} {child : Node} {children : List Node}
    (hplain : ∀ n ∈ children, Plain n) (hordered : ∀ n ∈ children, child.stop ≤ n.start)
    {c : PendingComment} (hc : c ∈ commentsAmong prevEndRow children) :
    child.stop ≤ c.startByte := by
  obtain ⟨n, hn, hstart, -⟩ := startByte_of_mem_commentsAmong hplain
    (fun n hn => startByte_of_mem_commentsOf n (hplain n hn)) hc
  exact (hordered n hn).trans hstart

lemma gapBetween_typeAnnot (bk ak : Kind) :
    f.gapBetween bk ak .typeAnnot = !(hugsNext bk || hugsPrev ak) := by
  have hgap : f.gapBetween bk ak .typeAnnot =
      !decide (ak ∈ [Kind.comma, .semicolon, .closeParen, .closeBracket, .less, .greater] ∨
        bk ∈ [Kind.openParen, .openBracket, .less] ∨ ak = .funcParams ∨
        (ak = .openParen ∨ ak = .openBracket) ∨ ak = .dot ∨ bk = .dot) := by
    simp only [gapBetween, reduceCtorEq, false_and, if_false, List.mem_cons, List.not_mem_nil]
    split_ifs <;> simp_all
  rw [hgap, hugsNext, hugsPrev, ← Bool.decide_or]
  congr 2
  simp only [List.mem_cons, List.not_mem_nil, or_false, eq_iff_iff]
  grind

/-- The width of a comment that waits for the next node, as it was measured. -/
def owed (f : Formatter) (parentKind : Kind) (prev : Option Kind)
    (held : Option PendingComment) : Nat :=
  held.elim 0 fun h => utf8Bytes (f.gapAfter prev .comment parentKind) + utf8Bytes h.text

/-- A comment that does not wait between two nodes that both hug it has been measured with the
blank in front of it. -/
lemma gap_held {prev : Option Kind} {p ak : Kind} (hprev : prev = some p)
    (h : (hugsNext p && hugsPrev ak) = false) :
    1 + utf8Bytes (f.gapAfter prev ak .typeAnnot) ≤
      utf8Bytes (f.gapAfter prev .comment .typeAnnot) +
        utf8Bytes (f.gapAfter (some .comment) ak .typeAnnot) := by
  have hcomment : hugsPrev .comment = false ∧ hugsNext .comment = false := ⟨by decide, by decide⟩
  have hblank : utf8Bytes [' '] = 1 := rfl
  rw [hprev]
  simp only [gapAfter, gapBetween_typeAnnot, hcomment, Bool.or_false, Bool.false_or]
  cases hnext : hugsNext p <;> cases hbefore : hugsPrev ak <;> simp_all

/-! ### Emission -/

lemma emitVerbatim_writes {n : Node} {later : List PendingComment} (hplain : PlainNode n)
    (hmissing : n.label.missing = false) (hleaf : n.children = []) (hcomments : o.comments = later)
    (hlater : ∀ c ∈ later, n.stop ≤ c.startByte) :
    Writes (utf8Bytes (f.renderNode n)) later o (f.emitVerbatim n o) ∧
      Inked (f.emitVerbatim n o).out := by
  subst hcomments
  have hquiet : Quiet n.stop o := hlater
  have hconsume : (o.emit n.label.text).consumeCommentsBefore n.stop = o.emit n.label.text :=
    consumeCommentsBefore_eq (List.nil_append _).symm (fun c hc => by cases hc) hlater
  rw [emitVerbatim, hmissing, if_neg Bool.false_ne_true,
    flushCommentsBefore_of_quiet (hquiet.anti hplain.ordered.start_le_stop), hconsume,
    renderNode_eq_trim hplain hmissing (Or.inl hleaf), hplain.token hleaf]
  exact ⟨writes_emit _, (inked_of_trim_eq (hplain.token hleaf)
    ((hplain.token hleaf) ▸ hplain.visible hmissing (Or.inl hleaf))).append _⟩

/-- Between two children stands the gap that was measured, as long as the line goes on. -/
lemma emitGap_eq (prev : Option Kind) (ak parentKind : Kind)
    (hline : prev.isSome = true → Inked o.out) :
    f.emitGap prev ak parentKind o = o.emit (f.gapAfter prev ak parentKind) := by
  cases prev with
  | none => exact emit_nil.symm
  | some bk =>
    rw [emitGap, (hline rfl).not_endsWith, if_neg Bool.false_ne_true, gapAfter]
    split_ifs
    · rfl
    · exact emit_nil.symm

/-- Plain nodes that follow each other, with the comments that come behind them. -/
structure Siblings (parentKind : Kind) (children : List Node) (later : List PendingComment) :
    Prop where
  plain : ∀ n ∈ children, Plain n
  successive : children.Pairwise fun a b => a.stop ≤ b.start
  inType : ∀ n ∈ children, n.label.kind = .comment → parentKind = .typeAnnot
  behind : ∀ n ∈ children, ∀ c ∈ later, n.stop ≤ c.startByte

lemma Siblings.tail {parentKind : Kind} {child : Node} {children : List Node}
    {later : List PendingComment} (h : Siblings parentKind (child :: children) later) :
    Siblings parentKind children later where
  plain := (List.forall_mem_cons.mp h.plain).2
  successive := (List.pairwise_cons.mp h.successive).2
  inType := (List.forall_mem_cons.mp h.inType).2
  behind := (List.forall_mem_cons.mp h.behind).2

/-- The state of the loop over the children of a node: a comment that was passed waits for the
next of them. -/
structure AtChildren (parentKind : Kind) (prev : Option Kind) (prevEndRow : Option Nat)
    (held : Option PendingComment) (children : List Node) (later : List PendingComment)
    (o : Output) : Prop extends Siblings parentKind children later where
  seated : Formatter.seated prev prevEndRow held.isSome children = true
  waits : ∀ h ∈ held, InlineComment h ∧ parentKind = .typeAnnot ∧ prev.isSome = true ∧
    ∀ n ∈ children, h.startByte < n.start
  line : prev.isSome = true → Inked o.out
  comments : o.comments = held.toList ++ commentsAmong prevEndRow children ++ later

namespace AtChildren

variable {parentKind : Kind} {prev : Option Kind} {prevEndRow : Option Nat}
  {held : Option PendingComment} {child : Node} {children : List Node}
  {later : List PendingComment}

lemma here (h : AtChildren parentKind prev prevEndRow held (child :: children) later o) :
    PlainNode child := (h.plain child List.mem_cons_self).here

/-- Missing nodes are stepped over. -/
lemma skip (h : AtChildren parentKind prev prevEndRow held (child :: children) later o)
    (hmissing : child.label.missing = true) :
    AtChildren parentKind prev (some child.label.endRow) held children later o where
  toSiblings := h.tail
  seated := by
    have hseated := h.seated
    rwa [Formatter.seated, if_pos hmissing] at hseated
  waits := fun d hd => by
    obtain ⟨hinline, htype, hprev, hbefore⟩ := h.waits d hd
    exact ⟨hinline, htype, hprev, (List.forall_mem_cons.mp hbefore).2⟩
  line := h.line
  comments := by
    have hkind : child.label.kind ≠ .comment := by
      intro hcomment
      rw [h.here.present hcomment] at hmissing
      cases hmissing
    have hcomments := h.comments
    rwa [commentsAmong, if_neg hkind, commentsOf_of_leaf (h.here.leaf (Or.inl hmissing)),
      List.nil_append] at hcomments

/-- The comments behind a node, and behind those that belong to it. -/
lemma stop_le (h : AtChildren parentKind prev prevEndRow held (child :: children) later o) :
    ∀ c ∈ commentsAmong (some child.label.endRow) children ++ later, child.stop ≤ c.startByte := by
  obtain ⟨hnext, -⟩ := List.pairwise_cons.mp h.successive
  refine List.forall_mem_append.mpr ⟨fun c hc => ?_, h.behind child List.mem_cons_self⟩
  exact stop_le_startByte (List.forall_mem_cons.mp h.plain).2 hnext hc

/-- What is written in front of a child: the comment that waited. -/
lemma flush {rest : List PendingComment}
    (h : AtChildren parentKind prev prevEndRow held (child :: children) later o)
    (hcomments : o.comments = held.toList ++ rest) (hrest : ∀ c ∈ rest, child.start ≤ c.startByte) :
    Writes (heldWidth held) rest o (f.flushCommentsBefore child.start o) ∧
      (Inked o.out → Inked (f.flushCommentsBefore child.start o).out) := by
  refine flushCommentsBefore_held hcomments (fun d hd => ?_) (fun hsome => ?_) hrest
  · obtain ⟨hinline, -, -, hbefore⟩ := h.waits d hd
    exact ⟨hinline, hbefore child List.mem_cons_self⟩
  · obtain ⟨d, hd⟩ := Option.isSome_iff_exists.mp hsome
    exact h.line (h.waits d hd).2.2.1

/-- A comment waits for what comes behind it. -/
lemma comment (h : AtChildren parentKind prev prevEndRow held (child :: children) later o)
    (hkind : child.label.kind = .comment) :
    Writes (heldWidth held)
        (⟨child.label.text, child.start, child.label.startRow, prevEndRow⟩ ::
          (commentsAmong (some child.label.endRow) children ++ later)) o
        (f.flushCommentsBefore child.start o) ∧
      AtChildren parentKind prev (some child.label.endRow)
        (some ⟨child.label.text, child.start, child.label.startRow, prevEndRow⟩) children later
        (f.flushCommentsBefore child.start o) := by
  have hmissing := h.here.present hkind
  have hleaf := h.here.leaf (Or.inr hkind)
  have hspan := h.here.nonempty hmissing
  have hseated := h.seated
  simp only [Formatter.seated, hmissing, Bool.false_eq_true, if_false, hkind, if_true,
    Bool.and_eq_true, decide_eq_true_eq, Bool.not_eq_true'] at hseated
  obtain ⟨⟨⟨hprev, hrow⟩, hblock⟩, hseated⟩ := hseated
  have hcomments := h.comments
  rw [commentsAmong, if_pos hkind, List.append_assoc, List.append_assoc,
    List.singleton_append] at hcomments
  obtain ⟨hwrites, hinked⟩ := h.flush (f := f) hcomments
    (List.forall_mem_cons.mpr ⟨le_refl _, fun c hc => hspan.le.trans (h.stop_le c hc)⟩)
  refine ⟨hwrites, ?_⟩
  exact
    { toSiblings := h.tail
      seated := hseated
      waits := by
        intro d hd
        rw [← Option.mem_some.mp hd]
        refine ⟨⟨hrow, h.here.token hleaf, ?_, hblock⟩, h.inType child List.mem_cons_self hkind,
          hprev, fun n hn => ?_⟩
        · rw [← h.here.token hleaf]
          exact h.here.visible hmissing (Or.inl hleaf)
        · exact hspan.trans_le ((List.pairwise_cons.mp h.successive).1 n hn)
      line := fun hsome => hinked (h.line hsome)
      comments := by
        rw [hwrites.comments]
        rfl }

/-- In front of a child that is no comment the comment that waited is written. -/
lemma node (h : AtChildren parentKind prev prevEndRow held (child :: children) later o)
    (hmissing : child.label.missing = false) (hkind : child.label.kind ≠ .comment) :
    Writes (heldWidth held)
        (commentsOf child ++ (commentsAmong (some child.label.endRow) children ++ later)) o
        (f.flushCommentsBefore child.start o) ∧
      (Inked o.out → Inked (f.flushCommentsBefore child.start o).out) ∧
      ∀ o', o'.comments = commentsAmong (some child.label.endRow) children ++ later →
        Inked o'.out → AtChildren parentKind (some child.label.kind) (some child.label.endRow) none
          children later o' := by
  have hspan := h.here.nonempty hmissing
  have hseated := h.seated
  simp only [Formatter.seated, hmissing, Bool.false_eq_true, if_false, if_neg hkind,
    Bool.and_eq_true] at hseated
  have hcomments := h.comments
  rw [commentsAmong, if_neg hkind, List.append_assoc, List.append_assoc] at hcomments
  obtain ⟨hwrites, hinked⟩ := h.flush (f := f) hcomments
    (List.forall_mem_append.mpr
      ⟨fun c hc => (startByte_of_mem_commentsOf child (h.plain child List.mem_cons_self) c hc).1,
        fun c hc => hspan.le.trans (h.stop_le c hc)⟩)
  refine ⟨hwrites, hinked, fun o' ho' hink => ?_⟩
  exact
    { toSiblings := h.tail
      seated := hseated.2
      waits := fun d hd => by cases hd
      line := fun _ => hink
      comments := ho' }

/-- A comment that waited was measured with the gaps around it. -/
lemma width_le (h : AtChildren parentKind prev prevEndRow held (child :: children) later o)
    (hmissing : child.label.missing = false) :
    heldWidth held + utf8Bytes (f.gapAfter prev child.label.kind parentKind) ≤
      f.owed parentKind prev held + utf8Bytes (f.gapAfter
        (if held.isSome then some .comment else prev) child.label.kind parentKind) := by
  cases held with
  | none => exact le_refl _
  | some d =>
    obtain ⟨-, htype, hprev, -⟩ := h.waits d rfl
    obtain ⟨p, hp⟩ := Option.isSome_iff_exists.mp hprev
    have hapart : (hugsNext p && hugsPrev child.label.kind) = false := by
      by_cases hkind : child.label.kind = .comment
      · rw [hkind, show hugsPrev .comment = false by decide, Bool.and_false]
      · have hseated := h.seated
        simp only [Formatter.seated, hmissing, Bool.false_eq_true, if_false, if_neg hkind,
          Bool.and_eq_true, Option.isSome_some, Bool.not_true, Bool.false_or, hp, Option.any_some,
          Bool.not_eq_true'] at hseated
        exact hseated.1
    have hgap := gap_held (f := f) hp hapart
    rw [htype, owed]
    simp only [heldWidth, Option.elim_some, Option.isSome_some, if_true]
    omega

/-- A child that is no comment is written behind the comment that waited. -/
lemma exists_written (h : AtChildren parentKind prev prevEndRow held (child :: children) later o)
    (hmissing : child.label.missing = false) (hkind : child.label.kind ≠ .comment)
    (hoperand : ∀ later o, o.comments = commentsOf child ++ later →
      (∀ c ∈ later, child.stop ≤ c.startByte) →
        Writes (utf8Bytes (f.renderNode child)) later o (formatOperand own f parentKind child o) ∧
          Inked (formatOperand own f parentKind child o).out)
    (hcolon : o.colonAlignCol = none ∨ child.label.kind ≠ .colon) :
    ∃ written, formatChildrenFrom own f parentKind prev (child :: children) o =
        formatChildrenFrom own f parentKind (some child.label.kind) children written ∧
      Writes (heldWidth held + utf8Bytes (f.gapAfter prev child.label.kind parentKind) +
          utf8Bytes (f.renderNode child))
        (commentsAmong (some child.label.endRow) children ++ later) o written ∧
      AtChildren parentKind (some child.label.kind) (some child.label.endRow) none children later
        written := by
  have hskip : ¬ (child.label.missing = true ∨ child.label.kind = Kind.annotation) := by
    rw [hmissing]
    simpa using h.here.kind
  obtain ⟨hwrites, hink, hnext⟩ := h.node (f := f) hmissing hkind
  have halign : (if child.label.kind = .colon then alignColon (f.flushCommentsBefore child.start o)
      else f.flushCommentsBefore child.start o) = f.flushCommentsBefore child.start o := by
    split_ifs with hcolonKind
    · rcases hcolon with hnone | hother
      · exact alignColon_of_none (hwrites.colonAlignCol.trans hnone)
      · exact absurd hcolonKind hother
    · rfl
  have hgap := emitGap_eq (f := f) prev child.label.kind parentKind
    fun hsome => hink (h.line hsome)
  rw [formatChildrenFrom]
  simp only [if_neg hskip, if_neg hkind, halign, hgap]
  have hblank := writes_emit (o := f.flushCommentsBefore child.start o)
    (f.gapAfter prev child.label.kind parentKind)
  have hapart := hwrites.trans hblank
  rw [hwrites.comments] at hapart
  generalize (f.flushCommentsBefore child.start o).emit
    (f.gapAfter prev child.label.kind parentKind) = apart at hapart
  by_cases hleaf : child.children.isEmpty = true
  · rw [if_pos hleaf]
    have hcomments := hapart.comments
    rw [commentsOf_of_leaf (List.isEmpty_iff.mp hleaf), List.nil_append] at hcomments
    obtain ⟨hwritten, hinked⟩ := emitVerbatim_writes (f := f) h.here hmissing
      (List.isEmpty_iff.mp hleaf) hcomments h.stop_le
    exact ⟨_, rfl, hapart.trans hwritten, hnext _ hwritten.comments hinked⟩
  · rw [if_neg hleaf]
    obtain ⟨hwritten, hinked⟩ := hoperand _ apart hapart.comments h.stop_le
    exact ⟨_, rfl, hapart.trans hwritten, hnext _ hwritten.comments hinked⟩

end AtChildren

/-- The children are written no wider than they were measured, with what waited in front of them. -/
lemma formatChildrenFrom_writes_of (own : OwnFormatters) {parentKind : Kind}
    {prev : Option Kind} {prevEndRow : Option Nat} {held : Option PendingComment}
    {children : List Node} {later : List PendingComment}
    (h : AtChildren parentKind prev prevEndRow held children later o)
    (hnode : ∀ n ∈ children, n.label.missing = false → n.label.kind ≠ .comment → ∀ later o,
      o.comments = commentsOf n ++ later → (∀ c ∈ later, n.stop ≤ c.startByte) →
        Writes (utf8Bytes (f.renderNode n)) later o (formatOperand own f parentKind n o) ∧
          Inked (formatOperand own f parentKind n o).out)
    (hcolon : o.colonAlignCol = none ∨
      ∀ n ∈ children, n.label.kind = .colon → n.label.missing = true) :
    Writes (f.owed parentKind prev held + f.renderedWidthFrom parentKind
        (if held.isSome then some .comment else prev) children) later o
        (formatChildrenFrom own f parentKind prev children o) ∧
      (prev.isSome = true ∨ (∃ n ∈ children, n.label.missing = false) →
        Inked (formatChildrenFrom own f parentKind prev children o).out) := by
  induction children generalizing prev prevEndRow held o with
  | nil =>
    have hnone : held = none := by
      have hseated := h.seated
      rw [seated, Bool.not_eq_true'] at hseated
      exact Option.isNone_iff_eq_none.mp (Option.isSome_eq_false_iff.mp hseated)
    have hcomments := h.comments
    rw [hnone, commentsAmong, Option.toList_none, List.nil_append, List.nil_append] at hcomments
    rw [formatChildrenFrom, hnone]
    refine ⟨hcomments ▸ writes_refl, ?_⟩
    rintro (hprev | ⟨n, hn, -⟩)
    · exact h.line hprev
    · cases hn
  | cons child children ih =>
    obtain ⟨hchild, hchildren⟩ := List.forall_mem_cons.mp hnode
    have hcolons := hcolon.imp_right fun hall => (List.forall_mem_cons.mp hall).2
    rw [renderedWidthFrom]
    cases hmissing : child.label.missing with
    | true =>
      obtain ⟨hwrites, hinked⟩ := ih (h.skip hmissing) hchildren hcolons
      rw [formatChildrenFrom, if_pos (Or.inl hmissing), if_pos (Or.inl rfl)]
      refine ⟨hwrites, fun hvisible => hinked (hvisible.imp_right ?_)⟩
      rintro ⟨n, hn, hpresent⟩
      rcases List.mem_cons.mp hn with rfl | hn
      · rw [hmissing] at hpresent
        cases hpresent
      · exact ⟨n, hn, hpresent⟩
    | false =>
      have hwidth := h.width_le (f := f) hmissing
      rw [if_neg (by simpa using h.here.kind)]
      by_cases hkind : child.label.kind = .comment
      · obtain ⟨hwrites, hnext⟩ := h.comment (f := f) hkind
        obtain ⟨hrest, hinked⟩ := ih hnext hchildren
          (hcolons.imp_left hwrites.colonAlignCol.trans)
        have hrender : utf8Bytes (f.renderNode child) = utf8Bytes child.label.text := by
          have hleaf := h.here.leaf (Or.inr hkind)
          rw [renderNode_eq_trim h.here hmissing (Or.inl hleaf), h.here.token hleaf]
        have heq : formatChildrenFrom own f parentKind prev (child :: children) o =
            formatChildrenFrom own f parentKind prev children
              (f.flushCommentsBefore child.start o) := by
          rw [formatChildrenFrom]
          simp only [hmissing, hkind, reduceCtorEq, Bool.false_eq_true, or_self, if_false, if_true]
        rw [heq, hkind]
        rw [hkind] at hwidth
        refine ⟨(hwrites.trans hrest).mono ?_, fun _ => hinked (Or.inl (hnext.waits _ rfl).2.2.1)⟩
        simp only [hrender, heldWidth, owed, Option.elim_some, Option.isSome_some, if_true]
          at hwidth ⊢
        omega
      · obtain ⟨written, heq, hwrites, hnext⟩ := h.exists_written hmissing hkind
          (hchild hmissing hkind) (hcolon.imp_right fun hall hcolonKind => by
            have hgone := hall child List.mem_cons_self hcolonKind
            rw [hmissing] at hgone
            cases hgone)
        obtain ⟨hrest, hinked⟩ := ih hnext hchildren
          (hcolons.imp_left hwrites.colonAlignCol.trans)
        rw [heq]
        refine ⟨(hwrites.trans hrest).mono ?_, fun _ => hinked (Or.inl rfl)⟩
        simp only [heldWidth, owed, Option.elim_none, Option.isSome_none, Bool.false_eq_true,
          if_false] at hwidth ⊢
        omega

/-- A plain node is written no wider than it is rendered. -/
lemma formatOperand_writes (own : OwnFormatters) (parentKind : Kind) :
    ∀ n : Node, Plain n → n.label.missing = false →
    ∀ later o, o.comments = commentsOf n ++ later → (∀ c ∈ later, n.stop ≤ c.startByte) →
      Writes (utf8Bytes (f.renderNode n)) later o (formatOperand own f parentKind n o) ∧
        Inked (formatOperand own f parentKind n o).out
  | .node label start stop children, hplain, hmissing, later, o, hcomments, hlater => by
    have hordered := hplain.here.ordered
    have hflush : f.flushCommentsBefore start o = o := by
      refine flushCommentsBefore_of_quiet fun c hc => ?_
      rw [hcomments] at hc
      rcases List.mem_append.mp hc with hc | hc
      · exact (startByte_of_mem_commentsOf _ hplain c hc).1
      · exact hordered.start_le_stop.trans (hlater c hc)
    rw [formatOperand, if_neg (by rw [show label.missing = false from hmissing]; decide),
      if_neg (by rw [show hasOwnFormatter label.kind = false from hplain.here.own]; decide)]
    simp only [hflush]
    by_cases herror : label.kind = .error
    · have hconsume : (o.emit (trim label.text)).consumeCommentsBefore stop =
          { o.emit (trim label.text) with comments := later } :=
        consumeCommentsBefore_eq (o := o.emit (trim label.text)) hcomments
          (fun c hc => (startByte_of_mem_commentsOf _ hplain c hc).2) hlater
      rw [if_pos herror, renderNode_eq_trim hplain.here hmissing (Or.inr herror), hconsume]
      exact ⟨⟨trim label.text, le_refl _, rfl⟩, (inked_of_trim_eq (trim_trim _)
        (hplain.here.visible hmissing (Or.inr herror))).append _⟩
    rw [if_neg herror]
    by_cases hleaf : children = []
    · rw [commentsOf_of_leaf (n := .node label start stop children) hleaf,
        List.nil_append] at hcomments
      have hvisible := hplain.here.visible hmissing (Or.inl hleaf)
      rw [if_pos (by rw [hleaf]; rfl), renderNode_eq_trim hplain.here hmissing (Or.inl hleaf)]
      rw [hplain.here.token hleaf] at hvisible ⊢
      exact ⟨hcomments ▸ writes_emit _,
        (inked_of_trim_eq (hplain.here.token hleaf) hvisible).append _⟩
    · have hstart : AtChildren label.kind none none none children later o :=
        { plain := hplain.children herror
          successive := hordered.successive
          inType := hplain.here.inType herror
          seated := hplain.here.seated herror
          waits := fun d hd => by cases hd
          line := fun hsome => by cases hsome
          comments := hcomments
          behind := fun n hn c hc => (hordered.inside n hn).2.trans (hlater c hc) }
      obtain ⟨hwrites, hinked⟩ := formatChildrenFrom_writes_of own (f := f) hstart
        (fun c hc hpresent _ => formatOperand_writes own label.kind c (hplain.children herror c hc)
          hpresent)
        (Or.inr fun c hc hcolon => absurd hcolon (hplain.here.colon herror c hc))
      rw [if_neg (by simpa using hleaf), renderNode_eq hplain hmissing herror hleaf,
        utf8Bytes_renderedFrom]
      exact ⟨hwrites.mono (Nat.zero_add _).le,
        hinked (Or.inr (hplain.here.child hmissing hleaf))⟩

end Formatter

end WitcherScriptLanguage.Formatting
