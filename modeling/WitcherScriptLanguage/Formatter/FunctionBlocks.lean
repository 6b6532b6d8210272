import WitcherScriptLanguage.Formatter.ExpressionLayouts

/-!
# Function blocks

The statements of a block, and the comments between them (`format_func_block_inner` in
`formatter/statements/mod.rs`): a comment that trails a statement stays on its line, and blank lines
are kept. Blocks are nested; what is written is the text of the source, token by token.
-/

namespace WitcherScriptLanguage.Formatting

open Library

namespace PendingComment

variable (c : PendingComment)

def endByte : Nat := c.startByte + utf8Bytes c.text

def endRow : Nat := c.startRow + c.text.count '\n'

end PendingComment

namespace Formatter

variable (f : Formatter)

/-- The loop of `flush_trailing_comments` over the comments from the cursor on. -/
def flushTrailing (row byte : Nat) : List PendingComment → Output → Output
  | [], o => { o with comments := [] }
  | c :: cs, o =>
    if c.startByte < byte ∧ c.startRow = row then flushTrailing row byte cs (f.emitComment c o)
    else { o with comments := c :: cs }

def flushTrailingComments (row byte : Nat) (o : Output) : Output :=
  f.flushTrailing row byte o.comments o

/-- A blank line, where the source has one. -/
def keepBlankLine (prevEndRow : Option Nat) (row : Nat) (o : Output) : Output :=
  if prevEndRow.any fun prev => blankLineBetweenRows prev row then o.nl else o

/-- `flush_own_line_comments`; as many rounds as there are comments are enough. -/
def flushOwnLine (byte : Nat) : Nat → Option Nat → Output → Option Nat × Output
  | 0, prevEndRow, o => (prevEndRow, o)
  | rounds + 1, prevEndRow, o =>
    match o.comments with
    | [] => (prevEndRow, o)
    | c :: _ =>
      if byte ≤ c.startByte then (prevEndRow, o)
      else flushOwnLine byte rounds (some c.endRow)
        (f.flushCommentsBefore c.endByte (keepBlankLine prevEndRow c.startRow o))

def flushOwnLineComments (byte : Nat) (prevEndRow : Option Nat) (o : Output) :
    Option Nat × Output :=
  f.flushOwnLine byte o.comments.length prevEndRow o

end Formatter

def compoundKinds : List ExprKind :=
  [.plain .ifStmt, .plain .whileStmt, .plain .doWhileStmt, .plain .forStmt, .plain .switchStmt,
    .plain .funcBlock]

def isCompound (kind : ExprKind) : Bool := kind ∈ compoundKinds

/-- The statements among the children, each with whether a semicolon of its own comes next. -/
def blockStmts : List Site → List (Site × Bool)
  | [] => []
  | child :: children =>
    if child.node.label.named ∧ child.kind ≠ .nop ∧ child.kind ≠ .plain .comment then
      (child, children.head?.any fun n => n.kind = .plain .semicolon ∨ n.kind = .nop) ::
        blockStmts children
    else blockStmts children

section

variable (format : ExprFormatter → Site → Output → Output) (f : ExprFormatter)

def emitBlockOpen (opening : Site) (o : Output) : Output :=
  if opening.node.label.missing then o
  else
    let o := f.flushCommentsBefore opening.node.start o
    let o := if o.endsWith '\n' then f.emitIndent f.level o
      else if o.endsWith ' ' then o else o.emit [' ']
    (o.emit opening.node.label.text).consumeCommentsBefore opening.node.stop

/-- A statement without a body that has an error is written as it is. -/
def emitStmtInBlock (stmt : Site) (trailingSemi : Bool) (o : Output) : Output :=
  if stmt.kind = .plain .error ∨ (!isCompound stmt.kind && stmt.node.hasError) then
    let o := f.emitIndent f.level (f.flushCommentsBefore stmt.node.start o)
    let o := o.emit (trim stmt.node.label.text)
    let o := if trailingSemi then o.emit [';'] else o
    (o.consumeCommentsBefore stmt.node.stop).nl
  else format f stmt o

def emitBlockStmts : List (Site × Bool) → Option Nat → Output → Output
  | [], _, o => o
  | (stmt, trailingSemi) :: stmts, prevEndRow, o =>
    let o := match prevEndRow with
      | some prev => f.flushTrailingComments prev stmt.node.start o
      | none => o
    let flushed := f.flushOwnLineComments stmt.node.start prevEndRow o
    let o := Formatter.keepBlankLine flushed.1 stmt.node.label.startRow flushed.2
    emitBlockStmts stmts (some stmt.node.label.endRow)
      (emitStmtInBlock format f stmt trailingSemi o)

def formatFuncBlockInner (block : Site) (trailingNl : Bool) (o : Output) : Output :=
  let stmts := blockStmts block.children
  let close := block.children.reverse.find? fun c => c.kind = .closeBrace
  let o := match block.firstChildKind .openBrace with
    | some opening => emitBlockOpen f opening o
    | none => o
  let o :=
    if stmts.isEmpty then
      match close with
      | some close => f.emitToken close o
      | none => o
    else
      let o := emitBlockStmts format f.indented stmts none o.nl
      match close with
      | some close =>
        let o := f.emitIndent f.level (f.indented.flushCommentsBefore close.node.start o)
        if close.node.label.missing then o else o.emit close.node.label.text
      | none => f.emitIndent f.level o
  if trailingNl then o.nl else o

end

/-- `format_stmt` for statements without a body and for blocks of so many nodes at most, where
`other` formats the other statements with a body. -/
def formatBlockStmt (other : ExprFormatter → Site → Output → Output) :
    Nat → ExprFormatter → Site → Output → Output
  | 0, _, _, o => o
  | rounds + 1, f, stmt, o =>
    if stmt.node.hasError || !isCompound stmt.kind then formatStmt other f stmt o
    else
      let o := f.flushCommentsBefore stmt.node.start o
      if stmt.kind = .plain .funcBlock then
        formatFuncBlockInner (formatBlockStmt other rounds) f stmt true (f.emitIndent f.level o)
      else other f stmt o

/-- Whatever comes next does not run into a word. -/
def Free (written : List Leaf) (gap : List Char) : Prop := ∀ next, WordsApart written gap next

section

variable {o : Output} {written todo lead : List Leaf} {gap : List Char}

lemma free_of_newline (h : '\n' ∈ gap) (written : List Leaf) : Free written gap := by
  intro _ hgap
  rw [hgap] at h
  cases h

lemma Free.pad (h : Free written gap) (blanks : List Char) : Free written (gap ++ blanks) :=
  fun next => (h next).pad blanks

lemma Free.comments {gap' : List Char} (hlead : ∀ c ∈ lead, c.isComment = true)
    (hgap : lead = [] → gap' = gap) (h : Copied o (written ++ lead) todo gap')
    (hfree : Free written gap) : Free (written ++ lead) gap' :=
  fun _ => WordsApart.flush hlead hgap h (hfree _)

lemma shows_flushTrailing (f : Formatter) (row : Nat) {byte : Nat}
    (hlead : ∀ c ∈ lead, c.isComment = true) (hafter : ∀ l ∈ todo, byte ≤ l.start)
    (hsource : Source (written ++ (lead ++ todo))) (h : Shows o.out written gap) :
    ∃ passed rest gap', lead = passed ++ rest ∧
      Shows (f.flushTrailing row byte
        (((lead ++ todo).filter Leaf.isComment).map Leaf.pending) o).out (written ++ passed) gap' ∧
      (f.flushTrailing row byte
        (((lead ++ todo).filter Leaf.isComment).map Leaf.pending) o).comments =
          ((rest ++ todo).filter Leaf.isComment).map Leaf.pending ∧
      (passed = [] → gap' = gap) := by
  induction lead generalizing o written gap with
  | nil =>
    refine ⟨[], [], gap, rfl, ?_⟩
    rw [List.append_nil, List.nil_append]
    have hle := le_startByte_of_mem hafter
    cases hcomments : (todo.filter Leaf.isComment).map Leaf.pending with
    | nil => exact ⟨h, rfl, fun _ => rfl⟩
    | cons c cs =>
      rw [hcomments] at hle
      have hbehind := hle c List.mem_cons_self
      rw [Formatter.flushTrailing, if_neg (by omega)]
      exact ⟨h, rfl, fun _ => rfl⟩
  | cons c cs ih =>
    obtain ⟨hcomment, hcs⟩ := List.forall_mem_cons.mp hlead
    rw [List.cons_append, List.filter_cons_of_pos hcomment, List.map_cons,
      Formatter.flushTrailing]
    split_ifs with hrow
    · have hc : c.Ok := hsource.ok c (by simp)
      have hline : ∀ l ∈ written.getLast?, EndsLine l c :=
        fun l hl => (List.isChain_append.mp hsource.lines).2.2 l hl c rfl
      obtain ⟨gap₁, hshows⟩ := shows_emitComment f h
        (fun l hl => hsource.ok l (List.mem_append_left _ hl)) hc hcomment hline
      have hsource' : Source ((written ++ [c]) ++ (cs ++ todo)) := by
        rwa [List.append_assoc, List.singleton_append]
      obtain ⟨passed, rest, gap₂, rfl, hrest, hcomments, -⟩ := ih hcs hsource' hshows
      refine ⟨c :: passed, rest, gap₂, rfl, ?_, hcomments,
        fun hnil => absurd hnil (List.cons_ne_nil c passed)⟩
      rwa [List.append_assoc written, List.singleton_append] at hrest
    · refine ⟨[], c :: cs, gap, rfl, ?_, ?_, fun _ => rfl⟩
      · rwa [List.append_nil]
      · rw [List.cons_append, List.filter_cons_of_pos hcomment, List.map_cons]

/-- Some of the comments in front of a statement are written. -/
lemma Copied.flushTrailingComments (f : Formatter) (row : Nat) {byte : Nat}
    (hlead : ∀ c ∈ lead, c.isComment = true) (hafter : ∀ l ∈ todo, byte ≤ l.start)
    (hfree : Free written gap) (h : Copied o written (lead ++ todo) gap) :
    ∃ passed rest gap', lead = passed ++ rest ∧ Free (written ++ passed) gap' ∧
      Copied (f.flushTrailingComments row byte o) (written ++ passed) (rest ++ todo) gap' := by
  obtain ⟨passed, rest, gap', rfl, hshows, hcomments, hgap⟩ :=
    shows_flushTrailing f row hlead hafter h.source h.toShows
  rw [← h.pending] at hshows hcomments
  have hwritten : Copied (f.flushTrailingComments row byte o) (written ++ passed) (rest ++ todo)
      gap' := by
    refine ⟨hshows, hcomments, ?_⟩
    rw [List.append_assoc, ← List.append_assoc passed]
    exact h.source
  exact ⟨passed, rest, gap', rfl, hfree.comments
    (fun c hc => hlead c (List.mem_append_left _ hc)) hgap hwritten, hwritten⟩

lemma pads_keepBlankLine (prevEndRow : Option Nat) (row : Nat) (o : Output) :
    Pads o (Formatter.keepBlankLine prevEndRow row o) :=
  (pads_nl o).ite (pads_refl o)

/-- The other comments in front of a statement are written one by one. -/
lemma Copied.flushOwnLine (f : Formatter) {byte rounds : Nat} (prevEndRow : Option Nat)
    (hrounds : lead.length ≤ rounds) (hlead : ∀ c ∈ lead, c.isComment = true)
    (hbefore : ∀ c ∈ lead, c.start < byte) (hafter : ∀ l ∈ todo, byte ≤ l.start)
    (hfree : Free written gap) (h : Copied o written (lead ++ todo) gap) :
    ∃ gap', Free (written ++ lead) gap' ∧
      Copied (f.flushOwnLine byte rounds prevEndRow o).2 (written ++ lead) todo gap' := by
  induction lead generalizing rounds prevEndRow o written gap with
  | nil =>
    have hstays : f.flushOwnLine byte rounds prevEndRow o = (prevEndRow, o) := by
      cases rounds with
      | zero => rfl
      | succ rounds =>
        have hle := le_startByte_of_mem hafter
        rw [List.nil_append] at h
        rw [← h.pending] at hle
        rw [Formatter.flushOwnLine]
        split
        · rfl
        · rename_i c cs hcomments
          rw [hcomments] at hle
          rw [if_pos (hle c List.mem_cons_self)]
    rw [hstays, List.append_nil]
    exact ⟨gap, hfree, h⟩
  | cons c cs ih =>
    obtain ⟨hcomment, hcs⟩ := List.forall_mem_cons.mp hlead
    obtain ⟨hlt, hbefore⟩ := List.forall_mem_cons.mp hbefore
    rw [List.length_cons] at hrounds
    obtain ⟨rounds, rfl⟩ : ∃ n, rounds = n + 1 := ⟨rounds - 1, by omega⟩
    rw [Nat.add_le_add_iff_right] at hrounds
    have hpending := h.pending
    rw [List.cons_append, List.filter_cons_of_pos hcomment, List.map_cons] at hpending
    obtain ⟨blanks, hpadded⟩ := h.pad (pads_keepBlankLine prevEndRow c.pending.startRow o)
    have hc : c.Ok := h.source.ok c (by simp)
    have hend : c.pending.endByte = c.stop := hc.extent.symm
    have hsingle : ∀ l ∈ [c], l.isComment = true := by simpa using hcomment
    obtain ⟨gap₁, hflushed, hgap⟩ := Copied.flush f c.stop [c] hsingle
      (by simpa using hc.start_lt_stop) h.source.le_start hpadded
    have hfree₁ := (hfree.pad blanks).comments hsingle hgap hflushed
    obtain ⟨gap₂, hfree₂, hrest⟩ := ih _ hrounds hcs hbefore hfree₁ hflushed
    have hpassed : ¬ byte ≤ c.pending.startByte := Nat.not_le.mpr hlt
    refine ⟨gap₂, ?_, ?_⟩
    · rwa [List.append_assoc, List.singleton_append] at hfree₂
    · rw [Formatter.flushOwnLine, hpending]
      simp only
      rw [if_neg hpassed, hend]
      rwa [List.append_assoc, List.singleton_append] at hrest

end

/-! ### Blocks of the grammar -/

/-- A brace of a block. -/
structure ExprNode.IsBrace (n : ExprNode) (kind : ExprKind) (brace : Char) : Prop where
  grammatical : n.Grammatical
  leaf : n.children = []
  kind : n.label.kind = kind
  text : n.label.text = [brace]
  anonymous : n.label.named = false

/-- Statements without a body, and blocks of such statements and blocks. The empty statement is
none of them: the formatter drops it. -/
inductive ExprNode.PlainStmt : ExprNode → Prop
  | simple {n : ExprNode} (h : n.IsStmt) : PlainStmt n
  | block {n opening close : ExprNode} {body : List ExprNode}
      (kind : n.label.kind = .plain .funcBlock) (present : n.label.missing = false)
      (children : n.children = opening :: (body ++ [close]))
      (start : opening.start = n.start) (isOpening : opening.IsBrace .openBrace '{')
      (isClose : close.IsBrace .closeBrace '}')
      (comments : ∀ c ∈ body, c.isComment = true → c.Grammatical)
      (named : ∀ c ∈ body, c.isComment = false → c.label.named = true ∧ c.label.kind ≠ .nop)
      (stmts : ∀ c ∈ body, c.isComment = false → PlainStmt c) : PlainStmt n

lemma ExprNode.IsBrace.hasError {n : ExprNode} {kind : ExprKind} {brace : Char}
    (h : n.IsBrace kind brace) : n.hasError = false :=
  hasError_eq_false n h.grammatical

namespace ExprNode.PlainStmt

variable {n : ExprNode}

lemma hasError (h : n.PlainStmt) : n.hasError = false := by
  induction h with
  | simple h => exact hasError_eq_false _ h.grammatical
  | @block n opening close body kind present children start isOpening isClose comments named stmts
      ih =>
    obtain ⟨label, first, last, cs⟩ := n
    obtain rfl : cs = opening :: (body ++ [close]) := children
    have hbelow : ∀ c ∈ opening :: (body ++ [close]), ExprNode.hasError c = false := by
      intro c hc
      rcases List.mem_cons.mp hc with rfl | hc
      · exact isOpening.hasError
      · rcases List.mem_append.mp hc with hc | hc
        · cases hcomment : ExprNode.isComment c with
          | true => exact hasError_eq_false c (comments c hc hcomment)
          | false => exact ih c hc hcomment
        · rw [List.mem_singleton.mp hc]
          exact isClose.hasError
    have hpresent : label.missing = false := present
    have hkind : label.kind = .plain .funcBlock := kind
    rw [ExprNode.hasError, hasErrorAmong_eq_false hbelow, hpresent, hkind]
    rfl

/-- A statement begins with its first leaf. -/
lemma start_head (h : n.PlainStmt) (prevEndRow : Option Nat) :
    ∀ l ∈ (leavesOf prevEndRow n).head?, l.start = n.start := by
  cases h with
  | simple h => exact fun l hl => (head?_leavesOf n prevEndRow h.grammatical l hl).1
  | @block _ opening close body kind present children start isOpening =>
    rw [leavesOf_of_children (by rw [children]; exact List.cons_ne_nil _ _), children, leavesAmong,
      leavesOf_of_leaf isOpening.leaf]
    rintro l ⟨⟩
    exact start

end ExprNode.PlainStmt

/-- The function writes the leaves of a statement and ends its line. -/
def WritesLine (go : Output → Output) (leaves : List Leaf) : Prop :=
  ∀ ⦃o : Output⦄ ⦃written todo : List Leaf⦄ ⦃gap : List Char⦄,
    Copied o written (leaves ++ todo) gap → Free written gap →
    ∃ gap', '\n' ∈ gap' ∧ Copied (go o) (written ++ leaves) todo gap'

section

variable {o : Output} {written todo : List Leaf} {gap : List Char} {s : Site}
  {format : ExprFormatter → Site → Output → Output} {f : ExprFormatter}
  (other : ExprFormatter → Site → Output → Output)

lemma emitStmtInBlock_eq (hs : s.node.PlainStmt) (trailingSemi : Bool) (o : Output) :
    emitStmtInBlock format f s trailingSemi o = format f s o := by
  have herror : s.kind ≠ .plain .error := by
    intro herror
    have hnone := hs.hasError
    rw [Site.kind] at herror
    obtain ⟨⟨label, start, stop, children⟩, above, prevEndRow⟩ := s
    have hkind : label.kind = .plain .error := herror
    rw [ExprNode.hasError, hkind] at hnone
    simp at hnone
  rw [emitStmtInBlock, if_neg]
  rw [hs.hasError, Bool.and_false, not_or]
  exact ⟨herror, Bool.false_ne_true⟩

/-- Behind the comments in front of it, each statement goes on lines of its own. -/
lemma Copied.emitBlockStmts {ps : List Spaced} {stmts : List (Site × Bool)}
    (prevEndRow : Option Nat) (hstmts : stmts.map Prod.fst = ps.map Spaced.site)
    (hps : ∀ p ∈ ps, (∀ l ∈ p.lead, l.isComment = true) ∧ p.site.node.PlainStmt ∧
      WritesLine (format f p.site) p.site.leaves)
    (hfree : Free written gap) (h : Copied o written (ps.flatMap Spaced.leaves ++ todo) gap) :
    ∃ gap', Free (written ++ ps.flatMap Spaced.leaves) gap' ∧
      Copied (emitBlockStmts format f stmts prevEndRow o) (written ++ ps.flatMap Spaced.leaves)
        todo gap' := by
  induction ps generalizing stmts prevEndRow o written gap with
  | nil =>
    obtain rfl := List.map_eq_nil_iff.mp hstmts
    rw [Formatting.emitBlockStmts, List.flatMap_nil, List.append_nil]
    exact ⟨gap, hfree, h⟩
  | cons p ps ih =>
    obtain ⟨⟨stmt, trailingSemi⟩, stmts, rfl, hstmt, hrestStmts⟩ := List.map_eq_cons_iff.mp hstmts
    obtain rfl : stmt = p.site := hstmt
    obtain ⟨⟨hlead, hplain, hwrites⟩, hps⟩ := List.forall_mem_cons.mp hps
    rw [List.flatMap_cons, Spaced.leaves, List.append_assoc, List.append_assoc] at h
    have hstart : ∀ l ∈ (p.site.leaves ++ (ps.flatMap Spaced.leaves ++ todo)).head?,
        l.start = p.site.node.start := by
      rw [List.head?_append_of_ne_nil _ p.site.leaves_ne_nil]
      exact hplain.start_head p.site.prevEndRow
    have hne := List.append_ne_nil_of_left_ne_nil p.site.leaves_ne_nil
      (ps.flatMap Spaced.leaves ++ todo)
    obtain ⟨hbefore, hafter⟩ := h.source.around hne hstart
    have htrailing : ∃ passed rest gap₁, p.lead = passed ++ rest ∧ Free (written ++ passed) gap₁ ∧
        Copied (match prevEndRow with
          | some prev => f.flushTrailingComments prev p.site.node.start o
          | none => o) (written ++ passed)
            (rest ++ (p.site.leaves ++ (ps.flatMap Spaced.leaves ++ todo))) gap₁ := by
      cases prevEndRow with
      | some prev => exact h.flushTrailingComments f.toFormatter prev hlead hafter hfree
      | none => exact ⟨[], p.lead, gap, rfl, by rwa [List.append_nil], by rwa [List.append_nil]⟩
    obtain ⟨passed, rest, gap₁, hsplit, hfree₁, hpassed⟩ := htrailing
    rw [hsplit] at hlead hbefore
    have hrounds : rest.length ≤ (match prevEndRow with
        | some prev => f.flushTrailingComments prev p.site.node.start o
        | none => o).comments.length := by
      rw [hpassed.pending, List.filter_append, List.filter_eq_self.mpr fun c hc =>
        hlead c (List.mem_append_right _ hc)]
      simp
    obtain ⟨gap₂, hfree₂, hflushed⟩ := hpassed.flushOwnLine f.toFormatter prevEndRow hrounds
      (fun c hc => hlead c (List.mem_append_right _ hc))
      (fun c hc => hbefore c (List.mem_append_right _ hc)) hafter hfree₁
    rw [List.append_assoc, ← hsplit] at hfree₂ hflushed
    obtain ⟨blanks, hspaced⟩ := hflushed.pad (pads_keepBlankLine _ p.site.node.label.startRow _)
    obtain ⟨gap₃, hnewline, hwritten⟩ := hwrites hspaced (hfree₂.pad blanks)
    obtain ⟨gap₄, hfree₄, hrest⟩ := ih (some p.site.node.label.endRow) hrestStmts hps
      (free_of_newline hnewline _) hwritten
    simp only [Formatting.emitBlockStmts, emitStmtInBlock_eq hplain]
    rw [List.flatMap_cons, Spaced.leaves, ← List.append_assoc, ← List.append_assoc]
    exact ⟨gap₄, hfree₄, hrest⟩

lemma map_fst_blockStmts (cs : List Site) : (blockStmts cs).map Prod.fst =
    cs.filter fun c => c.node.label.named ∧ c.kind ≠ .nop ∧ c.kind ≠ .plain .comment := by
  induction cs with
  | nil => rfl
  | cons c cs ih =>
    rw [blockStmts]
    split_ifs with hstmt
    · rw [List.map_cons, ih, List.filter_cons_of_pos (by simpa using hstmt)]
    · rw [ih, List.filter_cons_of_neg (by simpa using hstmt)]

lemma ExprNode.IsBrace.isExpr {kind : ExprKind} {brace : Char} (h : s.node.IsBrace kind brace)
    (hkind : kind = .openBrace ∨ kind = .closeBrace) : s.IsExpr := by
  refine ⟨h.grammatical, decide_eq_false ?_, ?_⟩
  · rw [h.kind]
    rcases hkind with rfl | rfl <;> exact nofun
  · rw [Site.kind, h.kind]
    rcases hkind with rfl | rfl <;> rfl

lemma lexeme_brace {kind : ExprKind} {brace : Char} (h : s.node.IsBrace kind brace)
    (hs : s.IsExpr) : ∀ l ∈ s.leaves, l.lexeme = [brace] := by
  intro l hl
  rw [Site.leaves_of_leaf h.leaf, List.mem_singleton] at hl
  have hcomment : l.isComment = false := by
    rw [hl]
    exact hs.token
  rw [Leaf.lexeme, if_neg (by simp [hcomment]), hl]
  exact h.text

/-- An opening brace, behind the comments in front of it. -/
lemma Copied.emitBlockOpen {p : Spaced} (hlead : ∀ l ∈ p.lead, l.isComment = true)
    (hbrace : p.site.node.IsBrace .openBrace '{')
    (h : Copied o written (p.leaves ++ todo) gap) :
    Copied (emitBlockOpen f p.site o) (written ++ p.leaves) todo [] := by
  have hexpr := hbrace.isExpr (Or.inl rfl)
  obtain ⟨gap₁, hflushed, -⟩ := h.flushToSite f.toFormatter ⟨hlead, hexpr⟩
  have hpresent : p.site.node.label.missing = false := hexpr.grammatical.ok.present
  unfold Formatting.emitBlockOpen
  rw [if_neg (by simp [hpresent])]
  simp only
  generalize f.flushCommentsBefore p.site.node.start o = o₁ at hflushed ⊢
  have hpads : Pads o₁ (if o₁.endsWith '\n' then f.emitIndent f.level o₁
      else if o₁.endsWith ' ' then o₁ else o₁.emit [' ']) :=
    (pads_emitIndent _ _ _).ite ((pads_refl o₁).ite (pads_blank o₁))
  obtain ⟨blanks, hpadded⟩ := hflushed.pad hpads
  have hwritten := emits_text hexpr hbrace.leaf hpadded (WordsApart.of_starts fun l hl => by
    rw [lexeme_brace hbrace hexpr l (List.mem_of_head? hl)]
    rfl)
  rw [hwritten.consumeCommentsBefore hexpr.grammatical, Spaced.leaves, ← List.append_assoc]
  exact hwritten

/-- A block is its braces and the statements between them, with comments in front of each. -/
structure BlockParts (s : Site) (opening : Site) (ps : List Spaced) (close : Spaced) : Prop where
  firstBrace : s.firstChildKind .openBrace = some opening
  lastBrace : (s.children.reverse.find? fun c => c.kind = .closeBrace) = some close.site
  openingBrace : opening.node.IsBrace .openBrace '{'
  closingBrace : close.site.node.IsBrace .closeBrace '}'
  closeLead : ∀ l ∈ close.lead, l.isComment = true
  stmts : (blockStmts s.children).map Prod.fst = ps.map Spaced.site
  stmt : ∀ p ∈ ps, (∀ l ∈ p.lead, l.isComment = true) ∧ p.site.node.PlainStmt ∧
    p.site ∈ s.children
  leaves : s.leaves = opening.leaves ++ (ps.flatMap Spaced.leaves ++ close.leaves)

lemma ExprNode.IsBrace.isComment {n : ExprNode} {kind : ExprKind} {brace : Char}
    (h : n.IsBrace kind brace) (hkind : kind ≠ .plain .comment) : n.isComment = false := by
  apply decide_eq_false
  rw [h.kind]
  exact hkind

lemma BlockParts.leaves_subset {opening : Site} {ps : List Spaced} {close p : Spaced}
    (h : BlockParts s opening ps close) (hp : p ∈ ps) : p.site.leaves ⊆ s.leaves := by
  intro l hl
  rw [h.leaves]
  apply List.mem_append_right _ (List.mem_append_left _ _)
  exact List.mem_flatMap.mpr ⟨p, hp, List.mem_append_right _ hl⟩

/-- Between its braces a block has statements and comments only. -/
lemma map_fst_blockStmts_braced {opening close : Site} {cs : List Site}
    (hopening : opening.node.label.named = false) (hclose : close.node.label.named = false)
    (hnamed : ∀ c ∈ cs, c.node.isComment = false → c.node.label.named = true ∧ c.kind ≠ .nop) :
    (blockStmts (opening :: (cs ++ [close]))).map Prod.fst =
      cs.filter fun c => !c.node.isComment := by
  rw [map_fst_blockStmts, List.filter_cons_of_neg (by simp [hopening]), List.filter_append,
    List.filter_cons_of_neg (by simp [hclose]), List.filter_nil, List.append_nil]
  apply List.filter_congr
  intro c hc
  cases hcomment : c.node.isComment with
  | true =>
    have hkind : c.kind = .plain .comment := of_decide_eq_true hcomment
    simp [hkind]
  | false =>
    have hkind : c.kind ≠ .plain .comment := of_decide_eq_false hcomment
    obtain ⟨hname, hnop⟩ := hnamed c hc hcomment
    simp [hkind, hname, hnop]

lemma parts_of_block (hs : s.node.PlainStmt) (hkind : s.kind = .plain .funcBlock) :
    ∃ opening ps close, BlockParts s opening ps close := by
  cases hs with
  | simple h =>
    have hkind : s.node.label.kind = .plain .funcBlock := hkind
    have hsimple := h.kind
    rw [hkind] at hsimple
    rcases hsimple with hsimple | hsimple <;> cases hsimple
  | @block _ opening close body _ present children start isOpening isClose comments named stmts =>
    have hmap := s.map_node_children
    rw [children] at hmap
    obtain ⟨opening, cs, hchildren, rfl, hcs⟩ := List.map_eq_cons_iff.mp hmap
    obtain ⟨ms, ns, rfl, hms, hns⟩ := List.map_eq_append_iff.mp hcs
    obtain ⟨close, rfl, rfl⟩ := List.map_eq_singleton_iff.mp hns
    have hclose := isClose.isComment nofun
    have hbody : ∀ c ∈ ms, c.node ∈ body := fun c hc => hms ▸ List.mem_map_of_mem hc
    have hsites := map_site_spaced [] (ms ++ [close])
    rw [List.filter_append, List.filter_cons_of_pos (by simp [hclose]), List.filter_nil] at hsites
    obtain ⟨ps, qs, hspaced, hps, hqs⟩ := List.map_eq_append_iff.mp hsites
    obtain ⟨q, rfl, hq⟩ := List.map_eq_singleton_iff.mp hqs
    subst hq
    have hleads := isComment_of_mem_lead (fun l hl => absurd hl List.not_mem_nil)
      (show ∀ c ∈ ms ++ [q.site], _ by
        intro c hc hcomment
        rcases List.mem_append.mp hc with hc | hc
        · exact ((comments c.node (hbody c hc) hcomment).ok.comment hcomment).1
        · rw [List.mem_singleton.mp hc]
          exact isClose.leaf)
    rw [hspaced] at hleads
    have hsite : ∀ p ∈ ps, p.site ∈ ms ∧ p.site.node.isComment = false := by
      intro p hp
      have hmem : p.site ∈ ms.filter fun c => !c.node.isComment := hps ▸ List.mem_map_of_mem hp
      rw [List.mem_filter] at hmem
      exact ⟨hmem.1, by simpa using hmem.2⟩
    have hne : s.node.children ≠ [] := by
      rw [children]
      exact List.cons_ne_nil _ _
    refine ⟨opening, ps, q, ?_, ?_, isOpening, isClose, hleads q (by simp), ?_, ?_, ?_⟩
    · have hfirst : opening.kind = .openBrace := isOpening.kind
      simp [Site.firstChildKind, hchildren, hfirst]
    · have hlast : q.site.kind = .closeBrace := isClose.kind
      simp [hchildren, hlast]
    · rw [hchildren, map_fst_blockStmts_braced isOpening.anonymous isClose.anonymous, hps]
      exact fun c hc hcomment => named c.node (hbody c hc) hcomment
    · intro p hp
      obtain ⟨hmem, hcomment⟩ := hsite p hp
      refine ⟨hleads p (List.mem_append_left _ hp), stmts p.site.node (hbody _ hmem) hcomment, ?_⟩
      rw [hchildren]
      exact List.mem_cons_of_mem _ (List.mem_append_left _ hmem)
    · have hlast : ∀ c ∈ (ms ++ [q.site]).getLast?, c.node.isComment = false := by
        intro c hc
        rw [List.getLast?_concat, Option.mem_some_iff] at hc
        rw [← hc]
        exact hclose
      have hflat := flatMap_leaves_spaced hlast fun _ => rfl
      rw [hspaced, List.flatMap_append, List.flatMap_singleton, List.nil_append] at hflat
      rw [Site.leaves_of_children hne, hchildren, List.flatMap_cons, hflat]

/-- A block is written as soon as its statements are. -/
lemma Copied.formatFuncBlockInner {opening : Site} {ps : List Spaced} {close : Spaced}
    {lead : List Leaf} (trailingNl : Bool) (hlead : ∀ l ∈ lead, l.isComment = true)
    (hparts : BlockParts s opening ps close)
    (hformat : ∀ p ∈ ps, WritesLine (format f.indented p.site) p.site.leaves)
    (h : Copied o written (lead ++ (s.leaves ++ todo)) gap) :
    Copied (formatFuncBlockInner format f s trailingNl o) (written ++ (lead ++ s.leaves)) todo
      (if trailingNl then ['\n'] else []) := by
  have hclose := hparts.closingBrace.isExpr (Or.inr rfl)
  have hpresent : close.site.node.label.missing = false := hclose.grammatical.ok.present
  rw [hparts.leaves] at h ⊢
  rw [List.append_assoc, ← List.append_assoc lead] at h
  have hopened := h.emitBlockOpen (p := ⟨lead, opening⟩) (f := f) hlead hparts.openingBrace
  have hbody : Copied
      (if (blockStmts s.children).isEmpty then
        f.emitToken close.site (Formatting.emitBlockOpen f opening o)
      else
        (f.emitIndent f.level (f.indented.flushCommentsBefore close.site.node.start
          (Formatting.emitBlockStmts format f.indented (blockStmts s.children) none
            (Formatting.emitBlockOpen f opening o).nl))).emit close.site.node.label.text)
      (written ++ (lead ++ opening.leaves) ++ (ps.flatMap Spaced.leaves ++ close.leaves)) todo
      [] := by
    split_ifs with hempty
    · have hnone : ps = [] := by
        have hstmts := hparts.stmts
        rw [List.isEmpty_iff.mp hempty] at hstmts
        exact List.map_eq_nil_iff.mp hstmts.symm
      subst hnone
      apply emits_emitToken f ⟨hparts.closeLead, hclose⟩ hparts.closingBrace.leaf hopened
      apply WordsApart.of_ends
      intro l hl
      have hmem : l ∈ opening.leaves := by
        rw [Spaced.leaves, ← List.append_assoc,
          List.getLast?_append_of_ne_nil _ opening.leaves_ne_nil] at hl
        exact List.mem_of_getLast? hl
      rw [lexeme_brace hparts.openingBrace (hparts.openingBrace.isExpr (Or.inl rfl)) l hmem]
      rfl
    · rw [List.append_assoc] at hopened
      obtain ⟨gap₁, hfree, hstmts⟩ := hopened.endLine.emitBlockStmts (f := f.indented) none
        hparts.stmts (fun p hp => ⟨(hparts.stmt p hp).1, (hparts.stmt p hp).2.1, hformat p hp⟩)
        (free_of_newline (List.mem_singleton_self _) _)
      obtain ⟨gap₂, hflushed, hgap⟩ := hstmts.flushToSite f.indented.toFormatter
        ⟨hparts.closeLead, hclose⟩
      have hfree₂ := hfree.comments hparts.closeLead hgap hflushed
      obtain ⟨blanks, hpadded⟩ := hflushed.pad (pads_emitIndent f.toFormatter f.level _)
      have hdone := emits_text hclose hparts.closingBrace.leaf hpadded ((hfree₂ _).pad blanks)
      rw [← List.append_assoc, Spaced.leaves, ← List.append_assoc]
      exact hdone
  unfold Formatting.formatFuncBlockInner
  simp only [hparts.firstBrace, hparts.lastBrace, hpresent, Bool.false_eq_true, if_false]
  rw [← List.append_assoc lead, ← List.append_assoc]
  cases trailingNl with
  | true => exact hbody.endLine
  | false => exact hbody

lemma isCompound_eq_false {kind : ExprKind}
    (h : kind = .plain .exprStmt ∨ isDeclOrStmt kind = false) : isCompound kind = false := by
  rcases h with rfl | h
  · rfl
  · have hbody : ∀ kind ∈ compoundKinds, isDeclOrStmt kind = true := by decide
    apply decide_eq_false
    intro hmem
    rw [hbody kind hmem] at h
    cases h

/-- By induction on their size, blocks and the statements in them are written. -/
lemma writesLine_formatBlockStmt (rounds : Nat) (hs : s.node.PlainStmt)
    (hcount : s.node.nodeCount ≤ rounds) (hknows : f.Knows s.leaves) :
    WritesLine (formatBlockStmt other rounds f s) s.leaves := by
  induction rounds generalizing s f with
  | zero =>
    have hpos := nodeCount_pos s.node
    omega
  | succ rounds ih =>
    intro o written todo gap h hfree
    unfold formatBlockStmt
    by_cases hkind : s.kind = .plain .funcBlock
    · obtain ⟨opening, ps, close, hparts⟩ := parts_of_block hs hkind
      have hformat : ∀ p ∈ ps,
          WritesLine (formatBlockStmt other rounds f.indented p.site) p.site.leaves := by
        intro p hp
        obtain ⟨-, hplain, hmem⟩ := hparts.stmt p hp
        have hlt := RangedTree.nodeCount_lt_of_mem_children (Site.node_mem_of_mem_children hmem)
        exact ih hplain (by omega) (hknows.mono (hparts.leaves_subset hp) rfl)
      have hnone : ∀ l ∈ ([] : List Leaf), l.isComment = true :=
        fun l hl => absurd hl List.not_mem_nil
      obtain ⟨gap₁, hflushed, -⟩ := Copied.flushTo f.toFormatter s.node.start hnone
        (List.append_ne_nil_of_left_ne_nil s.leaves_ne_nil todo)
        (by
          rw [List.head?_append_of_ne_nil _ s.leaves_ne_nil]
          exact hs.start_head s.prevEndRow) h
      obtain ⟨blanks, hpadded⟩ := hflushed.pad (pads_emitIndent f.toFormatter f.level _)
      rw [List.append_nil] at hpadded
      have hcompound : (s.node.hasError || !isCompound s.kind) = false := by
        rw [hs.hasError, hkind]
        rfl
      rw [hcompound]
      simp only [hkind, Bool.false_eq_true, if_false, if_true]
      exact ⟨_, List.mem_singleton_self _,
        Copied.formatFuncBlockInner true hnone hparts hformat hpadded⟩
    · cases hs with
      | block kind => exact absurd kind hkind
      | simple hs =>
        have hcompound : isCompound s.kind = false := isCompound_eq_false hs.kind
        rw [hcompound, Bool.not_false, Bool.or_true, if_pos rfl]
        exact ⟨_, List.mem_singleton_self _, formatStmt_copies other []
          (fun l hl => absurd hl List.not_mem_nil) hs hknows h (hfree _)⟩

/-- A block of statements without a body and of such blocks, behind the comments in front of it, is
written token by token. -/
theorem formatFuncBlock_copies (lead : List Leaf) (hlead : ∀ l ∈ lead, l.isComment = true)
    (hs : s.node.PlainStmt) (hkind : s.kind = .plain .funcBlock) (hknows : f.Knows s.leaves)
    (trailingNl : Bool) (h : Copied o written (lead ++ (s.leaves ++ todo)) gap) :
    Copied (formatFuncBlockInner (formatBlockStmt other s.node.nodeCount) f s trailingNl o)
      (written ++ (lead ++ s.leaves)) todo (if trailingNl then ['\n'] else []) := by
  obtain ⟨opening, ps, close, hparts⟩ := parts_of_block hs hkind
  refine h.formatFuncBlockInner trailingNl hlead hparts fun p hp => ?_
  obtain ⟨-, hplain, hmem⟩ := hparts.stmt p hp
  have hlt := RangedTree.nodeCount_lt_of_mem_children (Site.node_mem_of_mem_children hmem)
  apply writesLine_formatBlockStmt other _ hplain hlt.le
  apply hknows.mono (hparts.leaves_subset hp) rfl

end

def sampleBrace (kind : ExprKind) (brace : Char) (row start : Nat) : ExprNode :=
  .node ⟨kind, none, false, [brace], row, row, false⟩ start (start + 1) []

/-- The statement `a;`, a comment behind it, and an empty block. -/
def sampleBody : List ExprNode :=
  [.node ⟨.plain .exprStmt, none, true, "a;".toList, 0, 0, false⟩ 2 4
      [.node ⟨.plain .ident, none, true, ['a'], 0, 0, false⟩ 2 3 [],
        .node ⟨.plain .semicolon, none, false, [';'], 0, 0, false⟩ 3 4 []],
    .node ⟨.plain .comment, none, true, "// c".toList, 0, 0, false⟩ 5 9 [],
    .node ⟨.plain .funcBlock, none, true, "\x7b \x7d".toList, 1, 1, false⟩ 10 13
      [sampleBrace .openBrace '{' 1 10, sampleBrace .closeBrace '}' 1 12]]

def sampleBlock : Site where
  node := .node ⟨.plain .funcBlock, none, true, "\x7b a; // c\n\x7b \x7d \x7d".toList, 0, 1, false⟩
    0 15 (sampleBrace .openBrace '{' 0 0 :: (sampleBody ++ [sampleBrace .closeBrace '}' 1 14]))
  above := []
  prevEndRow := none

lemma plainStmt_sampleBlock : sampleBlock.node.PlainStmt := by
  refine .block rfl rfl (show sampleBlock.node.children = sampleBrace .openBrace '{' 0 0 ::
    (sampleBody ++ [sampleBrace .closeBrace '}' 1 14]) from rfl) rfl ⟨by decide, rfl, rfl, rfl, rfl⟩
    ⟨by decide, rfl, rfl, rfl, rfl⟩ (by decide) (by decide) ?_
  intro c hc hcomment
  simp only [sampleBody, List.mem_cons, List.not_mem_nil, or_false] at hc
  rcases hc with rfl | rfl | rfl
  · exact .simple ⟨by decide, by decide, by decide, by decide⟩
  · cases hcomment
  · exact .block rfl rfl (show _ = sampleBrace .openBrace '{' 1 10 ::
      ([] ++ [sampleBrace .closeBrace '}' 1 12]) from rfl) rfl ⟨by decide, rfl, rfl, rfl, rfl⟩
      ⟨by decide, rfl, rfl, rfl, rfl⟩ (fun _ hc => absurd hc List.not_mem_nil)
      (fun _ hc => absurd hc List.not_mem_nil) fun _ hc => absurd hc List.not_mem_nil

def sampleBlockFormatter : ExprFormatter :=
  { sampleFormatter with comments := commentsOf sampleBlock.node.plain }

/-- The comment stays on the line of the statement. -/
theorem formatFuncBlock_copies_sampleBlock :
    Copied (formatFuncBlockInner (formatBlockStmt (fun _ _ o => o) sampleBlock.node.nodeCount)
      sampleBlockFormatter sampleBlock true
        { out := [], comments := sampleBlockFormatter.comments }) sampleBlock.leaves [] ['\n'] ∧
    (formatFuncBlockInner (formatBlockStmt (fun _ _ o => o) sampleBlock.node.nodeCount)
      sampleBlockFormatter sampleBlock true
        { out := [], comments := sampleBlockFormatter.comments }).out =
      " \x7b\n  a; // c\n  \x7b\x7d\n\x7d\n".toList :=
  ⟨formatFuncBlock_copies (fun _ _ o => o) [] (by decide) plainStmt_sampleBlock rfl
    (by unfold ExprFormatter.Knows; decide) true
    (copied_start (show Source sampleBlock.leaves by decide)), by rfl⟩

end WitcherScriptLanguage.Formatting
