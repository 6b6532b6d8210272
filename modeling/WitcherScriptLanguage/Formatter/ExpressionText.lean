import WitcherScriptLanguage.Formatter.ExpressionGrammar
import WitcherScriptLanguage.Library.WrittenLayouts

/-!
# The text of expressions

How the output of the formatter follows the leaves of the source: what has been written spells the
leaves up to some point, and the comments behind that point are pending. Blanks, tokens and comments
each carry this on, and so does the loop over the children of a node.
-/

namespace WitcherScriptLanguage.Formatting

open Library

/-- The text spells the leaves, with such blanks behind the last one. -/
structure Shows (text : List Char) (written : List Leaf) (gap : List Char) : Prop where
  writes : scriptLexis.Writes text (written.map Leaf.lexeme) gap
  /-- A line comment has got its line end. -/
  closed : ∀ l ∈ written.getLast?, isLineComment l.lexeme = true → '\n' ∈ gap

/-- The output shows the leaves that are written, and the comments of the leaves to come are
pending. -/
structure Copied (o : Output) (written todo : List Leaf) (gap : List Char) : Prop extends
    Shows o.out written gap where
  pending : o.comments = (todo.filter Leaf.isComment).map Leaf.pending
  source : Source (written ++ todo)

/-- At the start of a document, all is still to be written. -/
lemma copied_start {leaves : List Leaf} (h : Source leaves) :
    Copied { out := [], comments := (leaves.filter Leaf.isComment).map Leaf.pending } [] leaves [] :=
  ⟨⟨Lexis.writes_nil, fun _ hl => absurd hl (Option.not_mem_none _)⟩, rfl, h⟩

/-- The next leaf does not run into a word in front of it. -/
def WordsApart (written : List Leaf) (gap : List Char) (next : List Leaf) : Prop :=
  gap = [] → ∀ a ∈ written.getLast?, ∀ b ∈ next.head?, endsWithWord a.lexeme = true →
    startsWithWord b.lexeme = false

section

variable {o o' o'' : Output} {written todo : List Leaf} {gap : List Char}

lemma lexeme_ends (hok : ∀ l ∈ written, l.Ok) :
    ∀ l ∈ (written.map Leaf.lexeme).getLast?, ∀ c ∈ l.getLast?, scriptLexis.blank c = false := by
  intro l hl
  rw [List.getLast?_map] at hl
  obtain ⟨leaf, hleaf, rfl⟩ := Option.mem_map.mp hl
  exact (hok leaf (List.mem_of_getLast? hleaf)).ends

lemma Copied.ok (h : Copied o written todo gap) : ∀ l ∈ written, l.Ok :=
  fun l hl => h.source.ok l (List.mem_append_left _ hl)

lemma Shows.keepsApart {text : List Char} (h : Shows text written gap) {next : Leaf}
    (hapart : WordsApart written gap [next]) :
    ∀ l ∈ (written.map Leaf.lexeme).getLast?, KeepsApart l gap next.lexeme := by
  intro l hl
  rw [List.getLast?_map] at hl
  obtain ⟨leaf, hleaf, rfl⟩ := Option.mem_map.mp hl
  exact ⟨fun hgap hword => hapart hgap leaf hleaf next rfl hword, h.closed leaf hleaf⟩

/-- A blank at the end of the output keeps words apart. -/
lemma Copied.wordsApart_of_blank (h : Copied o written todo gap)
    (hblank : ∃ c ∈ o.out.getLast?, isWhitespace c = true) (next : List Leaf) :
    WordsApart written gap next := by
  intro hgap a ha
  obtain ⟨c, hc, hblank⟩ := hblank
  obtain ⟨l, hl, hlast⟩ := Option.bind_eq_some_iff.mp ((h.writes.getLast? hgap).symm.trans hc)
  have hsolid : isWhitespace c = false := lexeme_ends h.ok l hl c hlast
  rw [hblank] at hsolid
  cases hsolid

/-- A comment keeps words apart. -/
lemma Copied.wordsApart_of_comment (h : Copied o written todo gap)
    (hcomment : ∀ l ∈ written.getLast?, l.isComment = true) (next : List Leaf) :
    WordsApart written gap next := by
  intro hgap a ha b hb hword
  have hline : isLineComment a.lexeme = false := by
    by_contra hline
    have hnewline := h.closed a ha (by simpa using hline)
    rw [hgap] at hnewline
    cases hnewline
  have hok := h.ok a (List.mem_of_getLast? ha)
  rw [hok.blockComment (hcomment a ha) hline] at hword
  cases hword

/-- Nothing but blanks has been written. -/
def Pads (o o' : Output) : Prop :=
  ∃ blanks : List Char, (∀ c ∈ blanks, isWhitespace c = true) ∧ o'.out = o.out ++ blanks ∧
    o'.comments = o.comments

lemma pads_refl (o : Output) : Pads o o :=
  ⟨[], fun _ hc => absurd hc List.not_mem_nil, (List.append_nil _).symm, rfl⟩

lemma Pads.trans (h : Pads o o') (h' : Pads o' o'') : Pads o o'' := by
  obtain ⟨blanks, hblanks, hout, hcomments⟩ := h
  obtain ⟨blanks', hblanks', hout', hcomments'⟩ := h'
  refine ⟨blanks ++ blanks', List.forall_mem_append.mpr ⟨hblanks, hblanks'⟩, ?_,
    hcomments'.trans hcomments⟩
  rw [hout', hout, List.append_assoc]

lemma Pads.ite {p : Prop} [Decidable p] (h : Pads o o') (h' : Pads o o'') :
    Pads o (if p then o' else o'') := by
  split_ifs
  · exact h
  · exact h'

lemma pads_emit (o : Output) {s : List Char} (hs : ∀ c ∈ s, isWhitespace c = true) :
    Pads o (o.emit s) :=
  ⟨s, hs, rfl, rfl⟩

lemma pads_blank (o : Output) : Pads o (o.emit [' ']) :=
  pads_emit o fun c hc => by rw [List.mem_singleton.mp hc]; rfl

lemma pads_nl (o : Output) : Pads o o.nl :=
  pads_emit o fun c hc => by rw [List.mem_singleton.mp hc]; rfl

lemma pads_emitIndent (f : Formatter) (level : Nat) (o : Output) :
    Pads o (f.emitIndent level o) := by
  unfold Formatter.emitIndent
  apply Pads.ite
  · exact ⟨[], fun _ hc => absurd hc List.not_mem_nil, (List.append_nil _).symm, rfl⟩
  · apply pads_emit
    intro c hc
    obtain ⟨unit, hunit, hc⟩ := List.mem_flatten.mp hc
    rw [List.eq_of_mem_replicate hunit] at hc
    exact isWhitespace_of_mem_indentUnitFor hc

lemma pads_alignColon (o : Output) : Pads o (Formatter.alignColon o) := by
  cases hcol : o.colonAlignCol with
  | none =>
    rw [Formatter.alignColon_of_none hcol]
    exact pads_refl o
  | some col =>
    rw [Formatter.alignColon_of_some hcol]
    refine ⟨_, ?_, rfl, rfl⟩
    intro c hc
    rw [List.eq_of_mem_replicate hc]
    rfl

lemma pads_breakToIndentedLine (f : ExprFormatter) (o : Output) :
    Pads o (f.breakToIndentedLine o) :=
  ((pads_refl o).ite (pads_nl o)).trans (pads_emitIndent f.toFormatter f.level _)

lemma Shows.pad {text : List Char} (h : Shows text written gap) {blanks : List Char}
    (hblanks : ∀ c ∈ blanks, isWhitespace c = true) :
    Shows (text ++ blanks) written (gap ++ blanks) :=
  ⟨h.writes.blanks hblanks, fun l hl hline => List.mem_append_left _ (h.closed l hl hline)⟩

lemma Copied.pad (h : Copied o written todo gap) (hpads : Pads o o') :
    ∃ blanks, Copied o' written todo (gap ++ blanks) := by
  obtain ⟨blanks, hblanks, hout, hcomments⟩ := hpads
  refine ⟨blanks, ?_, ?_, h.source⟩
  · rw [hout]
    exact h.toShows.pad hblanks
  · rw [hcomments, h.pending]

lemma WordsApart.pad {next : List Leaf} (h : WordsApart written gap next) (blanks : List Char) :
    WordsApart written (gap ++ blanks) next :=
  fun hgap => h (List.append_eq_nil_iff.mp hgap).1

/-- The output ends with a blank. -/
def EndsBlank (o : Output) : Prop := ∃ c ∈ o.out.getLast?, isWhitespace c = true

lemma EndsBlank.pad (h : EndsBlank o) (hpads : Pads o o') : EndsBlank o' := by
  obtain ⟨c, hc, hblank⟩ := h
  obtain ⟨blanks, hblanks, hout, -⟩ := hpads
  unfold EndsBlank
  rw [hout]
  cases hlast : blanks.getLast? with
  | none =>
    rw [List.getLast?_eq_none_iff.mp hlast, List.append_nil]
    exact ⟨c, hc, hblank⟩
  | some d =>
    refine ⟨d, ?_, hblanks d (List.mem_of_getLast? hlast)⟩
    rw [List.getLast?_append, hlast]
    rfl

lemma endsBlank_emit (o : Output) {s : List Char} {c : Char} (hc : s.getLast? = some c)
    (hblank : isWhitespace c = true) : EndsBlank (o.emit s) := by
  refine ⟨c, ?_, hblank⟩
  rw [Output.emit, List.getLast?_append, hc]
  rfl

lemma endsBlank_of_endsWith {c : Char} (h : o.endsWith c = true) (hblank : isWhitespace c = true) :
    EndsBlank o :=
  ⟨c, by simpa [Output.endsWith] using h, hblank⟩

lemma endsBlank_breakToIndentedLine (f : ExprFormatter) (o : Output) :
    EndsBlank (f.breakToIndentedLine o) := by
  refine EndsBlank.pad ?_ (pads_emitIndent f.toFormatter f.level _)
  split_ifs with hnewline
  · exact endsBlank_of_endsWith hnewline rfl
  · exact endsBlank_emit o rfl rfl

lemma Copied.token {l : Leaf} (q : Output) (h : Copied o written (l :: todo) gap)
    (htoken : l.isComment = false) (hapart : WordsApart written gap [l])
    (hout : q.out = o.out ++ l.lexeme) (hcomments : q.comments = o.comments) :
    Copied q (written ++ [l]) todo [] := by
  have hok := h.source.ok l (List.mem_append_right _ List.mem_cons_self)
  have hwrites := h.writes.lexeme hok.starts (h.keepsApart hapart)
  refine ⟨⟨?_, ?_⟩, ?_, ?_⟩
  · rwa [List.map_append, hout]
  · intro a ha hline
    rw [List.getLast?_concat, Option.mem_some_iff] at ha
    rw [← ha, hok.token htoken] at hline
    cases hline
  · rw [hcomments, h.pending, List.filter_cons_of_neg (by simp [htoken])]
  · rw [List.append_assoc]
    exact h.source

lemma Shows.comment {text : List Char} {c : Leaf} (h : Shows text written gap) (hc : c.Ok)
    (hcomment : c.isComment = true) :
    scriptLexis.Writes (text ++ c.lexeme) ((written ++ [c]).map Leaf.lexeme) [] := by
  rw [List.map_append]
  apply h.writes.lexeme hc.starts
  apply h.keepsApart
  intro _ a _ b hb _
  cases hb
  exact hc.comment hcomment

lemma shows_of_comment {text blanks : List Char} {c : Leaf}
    (h : scriptLexis.Writes text ((written ++ [c]).map Leaf.lexeme) [])
    (hblanks : ∀ b ∈ blanks, isWhitespace b = true)
    (hline : isLineComment c.lexeme = true → '\n' ∈ blanks) :
    Shows (text ++ blanks) (written ++ [c]) blanks := by
  refine ⟨by simpa using h.blanks hblanks, ?_⟩
  intro a ha hcomment
  rw [List.getLast?_concat, Option.mem_some_iff] at ha
  rw [← ha] at hcomment
  exact hline hcomment

/-- A comment rejoins a line only where no line comment would swallow it. -/
lemma shows_emitComment (f : Formatter) {c : Leaf} (h : Shows o.out written gap)
    (hok : ∀ l ∈ written, l.Ok) (hc : c.Ok) (hcomment : c.isComment = true)
    (hline : ∀ l ∈ written.getLast?, EndsLine l c) :
    ∃ gap', Shows (f.emitComment c.pending o).out (written ++ [c]) gap' := by
  have htext : trimEnd c.pending.text = c.lexeme := by
    rw [Leaf.lexeme, if_pos hcomment]
    rfl
  have hstart : c.lexeme.dropWhile isWhitespace = c.lexeme := by
    obtain ⟨a, rest, hlexeme, hblank, -⟩ := scriptLexis.startsLexeme_iff.mp hc.starts
    have hsolid : isWhitespace a = false := hblank
    rw [hlexeme, List.dropWhile_cons_of_neg (by simp [hsolid])]
  have hnewline : ∀ b ∈ ['\n'], isWhitespace b = true := fun b hb => by
    rw [List.mem_singleton.mp hb]
    rfl
  have hnone : ∀ b ∈ ([] : List Char), isWhitespace b = true :=
    fun b hb => absurd hb List.not_mem_nil
  unfold Formatter.emitComment
  simp only [htext, hstart]
  by_cases htrail : c.pending.prevEndRow = some c.pending.startRow ∧ o.canTrail = true
  · have hopen : ∀ l ∈ written.getLast?, isLineComment l.lexeme = false := by
      intro l hl
      by_contra hcontra
      obtain ⟨hrow, hprev⟩ := hline l hl (by simpa using hcontra)
      have hle := hprev _ htrail.1
      exact absurd hrow (Nat.not_lt.mpr hle)
    rw [if_pos htrail]
    have hpopped : ∃ gap', Shows
        (if o.endsWith '\n' then { o with out := o.out.dropLast } else o).out written gap' := by
      split_ifs with hends
      · have hlast : o.out.getLast? = some '\n' := by simpa [Output.endsWith] using hends
        obtain ⟨gap', -, hwrites⟩ := h.writes.dropLast hlast rfl (lexeme_ends hok)
        refine ⟨gap', hwrites, fun l hl hcontra => ?_⟩
        rw [hopen l hl] at hcontra
        cases hcontra
      · exact ⟨gap, h⟩
    obtain ⟨gap', hpopped⟩ := hpopped
    generalize (if o.endsWith '\n' then { o with out := o.out.dropLast } else o) = p at hpopped ⊢
    have hspaced : ∃ gap'',
        Shows (if p.endsWith ' ' then p else p.emit [' ']).out written gap'' := by
      split_ifs
      · exact ⟨gap', hpopped⟩
      · exact ⟨_, hpopped.pad fun b hb => by rw [List.mem_singleton.mp hb]; rfl⟩
    obtain ⟨gap'', hspaced⟩ := hspaced
    generalize (if p.endsWith ' ' then p else p.emit [' ']) = q at hspaced ⊢
    have hwrites := hspaced.comment hc hcomment
    split_ifs with hbreak
    · exact ⟨_, shows_of_comment hwrites hnewline fun _ => List.mem_singleton_self _⟩
    · refine ⟨[], ?_⟩
      have hblock : isLineComment c.lexeme = false := by
        rw [Bool.or_eq_true, not_or] at hbreak
        simpa using hbreak.2
      have hshows := shows_of_comment hwrites hnone (by rw [hblock]; exact nofun)
      rwa [List.append_nil] at hshows
  · rw [if_neg htrail]
    obtain ⟨blanks, hblanks, hout, -⟩ := (Pads.ite (p := (!o.out.isEmpty && !o.endsWith '\n') = true)
      (pads_nl o) (pads_refl o)).trans (pads_emitIndent f f.level _)
    have hwrites := (h.pad hblanks).comment hc hcomment
    rw [← hout] at hwrites
    exact ⟨_, shows_of_comment hwrites hnewline fun _ => List.mem_singleton_self _⟩

lemma Source.start_lt {before after : List Leaf} {l : Leaf} (h : Source (before ++ l :: after)) :
    ∀ c ∈ before, c.start < l.start := by
  intro c hc
  have hstop := (List.pairwise_append.mp h.ordered).2.2 c hc l List.mem_cons_self
  have hlt := (h.ok c (List.mem_append_left _ hc)).start_lt_stop
  omega

lemma Source.le_start {before after : List Leaf} {l : Leaf} (h : Source (before ++ l :: after)) :
    ∀ c ∈ after, l.stop ≤ c.start :=
  (List.pairwise_cons.mp (List.pairwise_append.mp h.ordered).2.1).1

lemma le_startByte_of_mem {byte : Nat} (h : ∀ l ∈ todo, byte ≤ l.start) :
    ∀ c ∈ (todo.filter Leaf.isComment).map Leaf.pending, byte ≤ c.startByte := by
  intro c hc
  obtain ⟨l, hl, rfl⟩ := List.mem_map.mp hc
  exact h l (List.mem_filter.mp hl).1

lemma out_flushComments_of_le (f : Formatter) {byte : Nat} {cs : List PendingComment}
    (h : ∀ c ∈ cs, byte ≤ c.startByte) (o : Output) : (f.flushComments byte cs o).out = o.out := by
  cases cs with
  | nil => rfl
  | cons c cs => rw [Formatter.flushComments, if_neg (Nat.not_lt.mpr (h c List.mem_cons_self))]

lemma shows_flushComments (f : Formatter) {byte : Nat} {lead : List Leaf}
    (hlead : ∀ c ∈ lead, c.isComment = true) (hbefore : ∀ c ∈ lead, c.start < byte)
    (hafter : ∀ l ∈ todo, byte ≤ l.start) (hsource : Source (written ++ (lead ++ todo)))
    (h : Shows o.out written gap) :
    ∃ gap', Shows (f.flushComments byte (((lead ++ todo).filter Leaf.isComment).map Leaf.pending)
      o).out (written ++ lead) gap' ∧ (lead = [] → gap' = gap) := by
  induction lead generalizing o written gap with
  | nil =>
    rw [List.nil_append, List.append_nil,
      out_flushComments_of_le f (le_startByte_of_mem hafter)]
    exact ⟨gap, h, fun _ => rfl⟩
  | cons c cs ih =>
    obtain ⟨hcomment, hcs⟩ := List.forall_mem_cons.mp hlead
    obtain ⟨hlt, hbefore⟩ := List.forall_mem_cons.mp hbefore
    have hpassed : c.pending.startByte < byte := hlt
    have hok : ∀ l ∈ written, l.Ok := fun l hl => hsource.ok l (List.mem_append_left _ hl)
    have hc : c.Ok := hsource.ok c (by simp)
    have hline : ∀ l ∈ written.getLast?, EndsLine l c :=
      fun l hl => (List.isChain_append.mp hsource.lines).2.2 l hl c rfl
    obtain ⟨gap₁, hshows⟩ := shows_emitComment f h hok hc hcomment hline
    have hsource' : Source ((written ++ [c]) ++ (cs ++ todo)) := by
      rwa [List.append_assoc, List.singleton_append]
    obtain ⟨gap₂, hrest, -⟩ := ih hcs hbefore hsource' hshows
    rw [List.cons_append, List.filter_cons_of_pos hcomment, List.map_cons,
      Formatter.flushComments, if_pos hpassed]
    refine ⟨gap₂, ?_, fun hnil => absurd hnil (List.cons_ne_nil c cs)⟩
    rwa [List.append_assoc, List.singleton_append] at hrest

/-- The comments in front of a byte are written, and keep words apart. -/
lemma Copied.flush (f : Formatter) (byte : Nat) (lead : List Leaf)
    (hlead : ∀ c ∈ lead, c.isComment = true) (hbefore : ∀ c ∈ lead, c.start < byte)
    (hafter : ∀ l ∈ todo, byte ≤ l.start) (h : Copied o written (lead ++ todo) gap) :
    ∃ gap', Copied (f.flushCommentsBefore byte o) (written ++ lead) todo gap' ∧
      (lead = [] → gap' = gap) := by
  obtain ⟨gap', hshows, hgap⟩ :=
    shows_flushComments f hlead hbefore hafter h.source h.toShows
  have hpassed : ∀ c ∈ lead.map Leaf.pending, decide (c.startByte < byte) = true := by
    intro c hc
    obtain ⟨l, hl, rfl⟩ := List.mem_map.mp hc
    exact decide_eq_true (hbefore l hl)
  have hleft : ((todo.filter Leaf.isComment).map Leaf.pending).dropWhile
      (fun c => c.startByte < byte) = (todo.filter Leaf.isComment).map Leaf.pending := by
    apply List.dropWhile_eq_self_iff.mpr
    intro hne
    have hle := le_startByte_of_mem hafter _ (List.getElem_mem hne)
    simpa using hle
  refine ⟨gap', ⟨?_, ?_, ?_⟩, hgap⟩
  · rwa [Formatter.flushCommentsBefore, h.pending]
  · rw [Formatter.flushCommentsBefore, Formatter.comments_flushComments, h.pending,
      List.filter_append, List.filter_eq_self.mpr hlead, List.map_append,
      List.dropWhile_append_of_pos hpassed, hleft]
  · rw [List.append_assoc]
    exact h.source

/-- The start of the next token parts the comments in front of it from what is behind. -/
lemma Source.around {byte : Nat} {lead : List Leaf} (h : Source (written ++ (lead ++ todo)))
    (hne : todo ≠ []) (hbyte : ∀ l ∈ todo.head?, l.start = byte) :
    (∀ c ∈ lead, c.start < byte) ∧ ∀ l ∈ todo, byte ≤ l.start := by
  cases todo with
  | nil => exact absurd rfl hne
  | cons l todo =>
    rw [← List.append_assoc] at h
    have hlt := h.start_lt
    have hle := h.le_start
    have hl := h.ok l (List.mem_append_right _ List.mem_cons_self)
    have hstart : l.start = byte := hbyte l rfl
    rw [hstart] at hlt
    refine ⟨fun c hc => hlt c (List.mem_append_right _ hc), fun a ha => ?_⟩
    rcases List.mem_cons.mp ha with rfl | ha
    · exact hstart.ge
    · have hbehind := hle a ha
      have hlt := hl.start_lt_stop
      omega

/-- Up to the start of the next token, all comments in front of it are written. -/
lemma Copied.flushTo (f : Formatter) (byte : Nat) {lead : List Leaf}
    (hlead : ∀ c ∈ lead, c.isComment = true) (hne : todo ≠ [])
    (hbyte : ∀ l ∈ todo.head?, l.start = byte) (h : Copied o written (lead ++ todo) gap) :
    ∃ gap', Copied (f.flushCommentsBefore byte o) (written ++ lead) todo gap' ∧
      (lead = [] → gap' = gap) := by
  obtain ⟨hbefore, hafter⟩ := h.source.around hne hbyte
  exact h.flush f byte lead hlead hbefore hafter

/-- Behind the comments in front of a token, words are apart. -/
lemma WordsApart.flush {lead : List Leaf} {gap' : List Char} {next : List Leaf}
    (hlead : ∀ c ∈ lead, c.isComment = true) (hgap : lead = [] → gap' = gap)
    (h : Copied o (written ++ lead) todo gap') (hapart : WordsApart written gap (lead ++ next)) :
    WordsApart (written ++ lead) gap' next := by
  by_cases hnil : lead = []
  · rw [hgap hnil]
    rw [hnil] at hapart ⊢
    rwa [List.append_nil]
  · apply h.wordsApart_of_comment
    intro l hl
    rw [List.getLast?_append_of_ne_nil _ hnil] at hl
    exact hlead l (List.mem_of_getLast? hl)

end

end WitcherScriptLanguage.Formatting
