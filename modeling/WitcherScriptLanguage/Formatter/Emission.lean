import WitcherScriptLanguage.Formatter.MemberRuns

/-!
# Emission of members

How the formatter writes a field and its default (`format_member_var_decl` in
`formatter/declarations.rs` over the token-preserving walk of `formatter/core.rs`), with the
comments on its way. A column is asked for in front of the colon and in front of the default.
-/

namespace WitcherScriptLanguage.Formatting

open Library

/-- A comment that has not been written yet. -/
structure PendingComment where
  text : List Char
  startByte : Nat
  startRow : Nat
  /-- The row where the previous sibling ends. -/
  prevEndRow : Option Nat
  deriving DecidableEq, Repr

mutual

/-- `collect_comments` below a node -/
def commentsOf : Node → List PendingComment
  | .node _ _ _ children => commentsAmong none children

def commentsAmong (prevEndRow : Option Nat) : List Node → List PendingComment
  | [] => []
  | child :: children =>
    (if child.label.kind = .comment then
        [⟨child.label.text, child.start, child.label.startRow, prevEndRow⟩]
      else commentsOf child) ++ commentsAmong (some child.label.endRow) children

end

lemma commentsOf_eq (n : Node) : commentsOf n = commentsAmong none n.children := by
  cases n
  exact commentsOf.eq_1 _ _ _ _

lemma commentsOf_of_leaf {n : Node} (h : n.children = []) : commentsOf n = [] := by
  rw [commentsOf_eq, h, commentsAmong]

/-- The fields of the formatter that move while it writes. -/
structure Output where
  out : List Char
  suppressNextIndent : Bool := false
  colonAlignCol : Option Nat := none
  /-- The comments from the cursor on. -/
  comments : List PendingComment
  /-- For each column that was asked for, how long the line was. -/
  padded : List (Nat × Nat) := []
  deriving DecidableEq, Repr

/-- `trim_end` -/
def trimEnd (text : List Char) : List Char := text.rdropWhile isWhitespace

/-- The last line of a text. -/
def currentLine (text : List Char) : List Char := text.rtakeWhile (· ≠ '\n')

namespace Output

variable (o : Output)

def emit (s : List Char) : Output := { o with out := o.out ++ s }

def nl : Output := o.emit ['\n']

def endsWith (c : Char) : Bool := o.out.getLast? = some c

def currentLineLen : Nat := utf8Bytes (currentLine o.out)

/-- `while self.current_line_len() < col` -/
def padTo (col : Nat) : Output :=
  { o.emit (List.replicate (col - o.currentLineLen) ' ') with
    padded := o.padded ++ [(o.currentLineLen, col)] }

/-- True when a trailing comment can rejoin the current line. -/
def canTrail : Bool :=
  if o.out.isEmpty then false
  else if !o.endsWith '\n' then true
  else !o.out.dropLast.isEmpty && o.out.dropLast.getLast? ≠ some '\n'

def consumeCommentsBefore (byte : Nat) : Output :=
  { o with comments := o.comments.dropWhile fun c => c.startByte < byte }

end Output

/-- The formatter has written on and may have passed comments, but no column was asked for. -/
structure Advances (o o' : Output) : Prop where
  padded : o'.padded = o.padded
  colonAlignCol : o'.colonAlignCol = o.colonAlignCol
  indented : o.suppressNextIndent = false → o'.suppressNextIndent = false
  comments : o'.comments <:+ o.comments

namespace Advances

variable {o o' o'' : Output}

lemma refl (o : Output) : Advances o o := ⟨rfl, rfl, id, List.suffix_refl _⟩

lemma emit (o : Output) (s : List Char) : Advances o (o.emit s) :=
  ⟨rfl, rfl, id, List.suffix_refl _⟩

lemma trans (h : Advances o o') (h' : Advances o' o'') : Advances o o'' :=
  ⟨h'.padded.trans h.padded, h'.colonAlignCol.trans h.colonAlignCol,
    fun hindented => h'.indented (h.indented hindented), h'.comments.trans h.comments⟩

lemma ite {p : Prop} [Decidable p] (h : Advances o o') (h' : Advances o o'') :
    Advances o (if p then o' else o'') := by
  split_ifs
  · exact h
  · exact h'

end Advances

namespace Formatter

variable (f : Formatter)

/-- `emit_indent` with the level at the time -/
def emitIndent (level : Nat) (o : Output) : Output :=
  if o.suppressNextIndent then { o with suppressNextIndent := false }
  else o.emit (List.replicate level f.indentUnit).flatten

def emitComment (comment : PendingComment) (o : Output) : Output :=
  let text := trimEnd comment.text
  let lineComment := isLineComment (text.dropWhile isWhitespace)
  if comment.prevEndRow = some comment.startRow ∧ o.canTrail then
    let popped := o.endsWith '\n'
    let o := if popped then { o with out := o.out.dropLast } else o
    let o := if o.endsWith ' ' then o else o.emit [' ']
    let o := o.emit text
    -- A rejoined block comment has to restore the row break.
    if popped || lineComment then o.nl else o
  else
    let o := if !o.out.isEmpty && !o.endsWith '\n' then o.nl else o
    ((f.emitIndent f.level o).emit text).nl

/-- The loop of `flush_comments_before` over the comments from the cursor on. -/
def flushComments (byte : Nat) : List PendingComment → Output → Output
  | [], o => { o with comments := [] }
  | c :: cs, o =>
    if c.startByte < byte then flushComments byte cs (f.emitComment c o)
    else { o with comments := c :: cs }

def flushCommentsBefore (byte : Nat) (o : Output) : Output := f.flushComments byte o.comments o

def emitVerbatim (node : Node) (o : Output) : Output :=
  if node.label.missing then o
  else ((f.flushCommentsBefore node.start o).emit node.label.text).consumeCommentsBefore node.stop

/-- The kinds that the walk hands over to a formatter of their own, chains of operators among
them. -/
def hasOwnFormatter (kind : Kind) : Bool :=
  kind ∈ [.script, .funcDecl, .eventDecl, .classDecl, .structDecl, .stateDecl, .enumDecl,
    .memberVarDecl, .classDef, .structDef, .funcBlock, .ifStmt, .whileStmt, .doWhileStmt, .forStmt,
    .switchStmt, .exprStmt, .ternaryCondExpr, .funcCallExpr, .binaryOpExpr]

end Formatter

/-- The formatters of single kinds, as the walk calls them with the kind of the parent. Below a
field they write its default, where no column is asked for. -/
structure OwnFormatters where
  format : Formatter → Kind → Node → Output → Output
  advances : ∀ f parentKind node o, o.colonAlignCol = none →
    Advances o (format f parentKind node o)

namespace Formatter

variable (own : OwnFormatters) (f : Formatter)

/-- The alignment of a colon in `format_children`. -/
def alignColon (o : Output) : Output :=
  match o.colonAlignCol with
  | some col => { o with colonAlignCol := none }.padTo col
  | none => o

/-- What stands between two children. -/
def emitGap (prev : Option Kind) (ak parentKind : Kind) (o : Output) : Output :=
  match prev with
  | none => o
  | some bk =>
    -- A line comment forced a break; the continuation is indented.
    if o.endsWith '\n' then f.emitIndent (f.level + 1) o
    else if f.gapBetween bk ak parentKind then o.emit [' ']
    else o

mutual

/-- `format_operand` and the `format_node` behind it -/
def formatOperand (parentKind : Kind) : Node → Output → Output
  | .node label start stop children, o =>
    if label.missing then o
    else if hasOwnFormatter label.kind then
      own.format f parentKind (.node label start stop children) o
    else
      let o := f.flushCommentsBefore start o
      if label.kind = .error then (o.emit (trim label.text)).consumeCommentsBefore stop
      else if children.isEmpty then o.emit label.text
      else formatChildrenFrom label.kind none children o

/-- The loop of `format_children` from one of the children on. -/
def formatChildrenFrom (parentKind : Kind) (prev : Option Kind) : List Node → Output → Output
  | [], o => o
  | child :: children, o =>
    if child.label.missing ∨ child.label.kind = Kind.annotation then
      formatChildrenFrom parentKind prev children o
    else
      let o := f.flushCommentsBefore child.start o
      if child.label.kind = .comment then formatChildrenFrom parentKind prev children o
      else
        let o := if child.label.kind = .colon then alignColon o else o
        let o := f.emitGap prev child.label.kind parentKind o
        let o := if child.children.isEmpty then f.emitVerbatim child o
          else formatOperand parentKind child o
        formatChildrenFrom parentKind (some child.label.kind) children o

end

def formatChildren (node : Node) (o : Output) : Output :=
  formatChildrenFrom own f node.label.kind none node.children o

def isAddFieldAnnotation (ann : Node) : Bool :=
  (childOfKind ann .annotationIdent).any fun ident =>
    ident.label.text.dropWhile (· = '@') = ['a', 'd', 'd', 'F', 'i', 'e', 'l', 'd']

def annotationSameLineInSource (node ann : Node) : Bool :=
  (node.children.find? fun child => !child.label.missing && child.label.kind ≠ Kind.annotation).any
    fun child => child.label.startRow = ann.label.endRow

/-- An annotation without what comes behind it. -/
def emitAnnotationText (ann : Node) (o : Output) : Output :=
  ((f.emitIndent f.level (f.flushCommentsBefore ann.start o)).emit
    (f.renderNode ann)).consumeCommentsBefore ann.stop

/-- The annotation of a field, and whether the field goes on behind it. -/
def emitAnnotationFor (node : Node) (o : Output) : Bool × Output :=
  match childOfKind node Kind.annotation with
  | none => (false, o)
  | some ann =>
    let sameLine := isAddFieldAnnotation ann &&
      f.annotationPlacement.resolve (annotationSameLineInSource node ann)
    let o := f.emitAnnotationText ann o
    (sameLine, if sameLine then o.emit [' '] else o.nl)

/-- The default behind a field, at its column or behind the gap. -/
def formatTrailingDefault (trailingDefault : Option (Node × Option Nat)) (o : Output) : Output :=
  match trailingDefault with
  | none => o
  | some (defaultVal, some col) => formatChildren own f defaultVal (o.padTo col)
  | some (defaultVal, none) => formatChildren own f defaultVal (o.emit defaultGap)

def formatMemberVarDecl (node : Node) (colonAlignCol : Option Nat)
    (trailingDefault : Option (Node × Option Nat)) (o : Output) : Output :=
  let annotated := f.emitAnnotationFor node o
  let o := if annotated.1 then annotated.2 else f.emitIndent f.level annotated.2
  let o := formatChildren own f node { o with colonAlignCol := colonAlignCol }
  (formatTrailingDefault own f trailingDefault { o with colonAlignCol := none }).nl

def rendersVerbatim (node : Node) : Bool :=
  node.label.kind = .error || node.children.any fun n => n.label.kind = .comment

/-- The default that `format_class_def` writes behind a field, with its target. -/
def trailingDefault (members : List Node) (defaultTargets : List (Option Nat)) (idx : Nat) :
    Option (Node × Option Nat) :=
  match members[idx]?, members[idx + 1]? with
  | some member, some next =>
    if member.label.kind = .memberVarDecl ∧ ¬ rendersVerbatim member ∧
        next.label.kind = .memberDefaultVal ∧ f.defaultOnSameLine member next then
      some (next, (defaultTargets[idx]?).getD none)
    else none
  | _, _ => none

end Formatter

lemma currentLine_suffix (text : List Char) : currentLine text <:+ text :=
  List.rtakeWhile_suffix _ _

lemma currentLine_append_of_not_mem (text : List Char) {s : List Char} (h : '\n' ∉ s) :
    currentLine (text ++ s) = currentLine text ++ s := by
  rw [currentLine, List.rtakeWhile, List.reverse_append, List.takeWhile_append_of_pos,
    List.reverse_append, List.reverse_reverse]
  · rfl
  · intro c hc
    have hne : c ≠ '\n' := by
      rintro rfl
      exact h (List.mem_reverse.mp hc)
    simpa using hne

lemma currentLine_append_of_mem (text : List Char) {s : List Char} (h : '\n' ∈ s) :
    currentLine (text ++ s) = currentLine s := by
  have hshort : (s.reverse.takeWhile (· ≠ '\n')).length ≠ s.reverse.length := by
    intro hlength
    have hwhole := (List.takeWhile_prefix (p := (· ≠ '\n')) (l := s.reverse)).eq_of_length hlength
    have hall := List.takeWhile_eq_self_iff.mp hwhole '\n' (List.mem_reverse.mpr h)
    simp at hall
  rw [currentLine, List.rtakeWhile, List.reverse_append, List.takeWhile_append, if_neg hshort]
  rfl

/-- A text makes the line longer by its own length at most. -/
lemma utf8Bytes_currentLine_append_le (text s : List Char) :
    utf8Bytes (currentLine (text ++ s)) ≤ utf8Bytes (currentLine text) + utf8Bytes s := by
  by_cases h : '\n' ∈ s
  · rw [currentLine_append_of_mem text h]
    exact (utf8Bytes_le_of_suffix (currentLine_suffix s)).trans (Nat.le_add_left _ _)
  · rw [currentLine_append_of_not_mem text h, utf8Bytes_append]

namespace Formatter

lemma currentLineLen_emit_le (o : Output) (s : List Char) :
    (o.emit s).currentLineLen ≤ o.currentLineLen + utf8Bytes s :=
  utf8Bytes_currentLine_append_le _ _

lemma currentLineLen_padTo (o : Output) (col : Nat) :
    (o.padTo col).currentLineLen = max o.currentLineLen col := by
  have hblank : '\n' ∉ List.replicate (col - o.currentLineLen) ' ' := by
    intro h
    exact absurd (List.eq_of_mem_replicate h) (by decide)
  have hline : (o.padTo col).currentLineLen = o.currentLineLen + (col - o.currentLineLen) := by
    rw [Output.padTo, Output.currentLineLen, Output.emit,
      currentLine_append_of_not_mem _ hblank, utf8Bytes_append, utf8Bytes_replicate_blank]
    rfl
  rw [hline]
  omega

section

variable {o : Output}

lemma alignColon_of_some {col : Nat} (h : o.colonAlignCol = some col) :
    alignColon o = Output.padTo { o with colonAlignCol := none } col := by
  simp only [alignColon, h]

lemma alignColon_of_none (h : o.colonAlignCol = none) : alignColon o = o := by
  simp only [alignColon, h]

lemma colonAlignCol_alignColon (o : Output) : (alignColon o).colonAlignCol = none := by
  cases hcol : o.colonAlignCol with
  | none => rw [alignColon_of_none hcol, hcol]
  | some col =>
    rw [alignColon_of_some hcol]
    rfl

lemma alignColon_alignColon : alignColon (alignColon o) = alignColon o :=
  alignColon_of_none (colonAlignCol_alignColon o)

end

section

variable (own : OwnFormatters) (f : Formatter) {o : Output}

lemma advances_emitIndent (level : Nat) (o : Output) : Advances o (f.emitIndent level o) := by
  rw [emitIndent]
  split_ifs
  · exact ⟨rfl, rfl, fun _ => rfl, List.suffix_refl _⟩
  · exact Advances.emit o _

lemma advances_emitComment (comment : PendingComment) (o : Output) :
    Advances o (f.emitComment comment o) := by
  have hpop : Advances o (if o.endsWith '\n' then { o with out := o.out.dropLast } else o) :=
    Advances.ite ⟨rfl, rfl, id, List.suffix_refl _⟩ (Advances.refl o)
  have hblank : ∀ o : Output, Advances o (if o.endsWith ' ' then o else o.emit [' ']) :=
    fun o => (Advances.refl o).ite (Advances.emit o [' '])
  have hline : Advances o (if !o.out.isEmpty && !o.endsWith '\n' then o.nl else o) :=
    Advances.ite (Advances.emit o ['\n']) (Advances.refl o)
  have hrejoined := (hpop.trans (hblank _)).trans (Advances.emit _ (trimEnd comment.text))
  have howned := (hline.trans (advances_emitIndent f f.level _)).trans
    (Advances.emit _ (trimEnd comment.text))
  rw [emitComment]
  exact ((hrejoined.trans (Advances.emit _ ['\n'])).ite hrejoined).ite
    (howned.trans (Advances.emit _ ['\n']))

lemma comments_flushComments (byte : Nat) (cs : List PendingComment) (o : Output) :
    (f.flushComments byte cs o).comments = cs.dropWhile fun c => c.startByte < byte := by
  induction cs generalizing o with
  | nil => rfl
  | cons c cs ih =>
    by_cases hbefore : c.startByte < byte
    · rw [flushComments, if_pos hbefore, ih, List.dropWhile_cons_of_pos (by simpa using hbefore)]
    · rw [flushComments, if_neg hbefore, List.dropWhile_cons_of_neg (by simpa using hbefore)]

lemma advances_flushCommentsBefore (byte : Nat) (o : Output) :
    Advances o (f.flushCommentsBefore byte o) := by
  have hwritten : ∀ (cs : List PendingComment) (o : Output),
      (f.flushComments byte cs o).padded = o.padded ∧
        (f.flushComments byte cs o).colonAlignCol = o.colonAlignCol ∧
        (o.suppressNextIndent = false →
          (f.flushComments byte cs o).suppressNextIndent = false) := by
    intro cs
    induction cs with
    | nil => exact fun o => ⟨rfl, rfl, id⟩
    | cons c cs ih =>
      intro o
      rw [flushComments]
      split_ifs
      · have hcomment := advances_emitComment f c o
        obtain ⟨hpadded, hcol, hindented⟩ := ih (f.emitComment c o)
        exact ⟨hpadded.trans hcomment.padded, hcol.trans hcomment.colonAlignCol,
          fun h => hindented (hcomment.indented h)⟩
      · exact ⟨rfl, rfl, id⟩
  obtain ⟨hpadded, hcol, hindented⟩ := hwritten o.comments o
  refine ⟨hpadded, hcol, hindented, ?_⟩
  rw [flushCommentsBefore, comments_flushComments]
  exact List.dropWhile_suffix _

lemma advances_consumeCommentsBefore (byte : Nat) (o : Output) :
    Advances o (o.consumeCommentsBefore byte) :=
  ⟨rfl, rfl, id, List.dropWhile_suffix _⟩

lemma advances_emitVerbatim (node : Node) (o : Output) : Advances o (f.emitVerbatim node o) := by
  rw [emitVerbatim]
  exact (Advances.refl o).ite (((advances_flushCommentsBefore f node.start o).trans
    (Advances.emit _ node.label.text)).trans (advances_consumeCommentsBefore node.stop _))

lemma advances_emitGap (prev : Option Kind) (ak parentKind : Kind) (o : Output) :
    Advances o (f.emitGap prev ak parentKind o) := by
  cases prev with
  | none => exact Advances.refl o
  | some bk =>
    exact (advances_emitIndent f (f.level + 1) o).ite
      ((Advances.emit o [' ']).ite (Advances.refl o))

lemma advances_formatChildrenFrom_of (parentKind : Kind) (prev : Option Kind)
    {children : List Node} (hnode : ∀ c ∈ children, ∀ o : Output, o.colonAlignCol = none →
      Advances o (formatOperand own f parentKind c o)) (hcol : o.colonAlignCol = none) :
    Advances o (formatChildrenFrom own f parentKind prev children o) := by
  induction children generalizing prev o with
  | nil =>
    rw [formatChildrenFrom]
    exact Advances.refl o
  | cons child children ih =>
    obtain ⟨hchild, hrest⟩ := List.forall_mem_cons.mp hnode
    have hflush := advances_flushCommentsBefore f child.start o
    have hnone := hflush.colonAlignCol.trans hcol
    have halign : (if child.label.kind = .colon then
        alignColon (f.flushCommentsBefore child.start o) else f.flushCommentsBefore child.start o) =
          f.flushCommentsBefore child.start o := by
      split_ifs
      · exact alignColon_of_none hnone
      · rfl
    rw [formatChildrenFrom]
    simp only [halign]
    have hgap := hflush.trans (advances_emitGap f prev child.label.kind parentKind
      (f.flushCommentsBefore child.start o))
    have hwritten := (hgap.trans (advances_emitVerbatim f child _)).ite
      (p := child.children.isEmpty = true)
      (hgap.trans (hchild _ (hgap.colonAlignCol.trans hcol)))
    exact (ih prev hrest hcol).ite ((hflush.trans (ih prev hrest hnone)).ite
      (hwritten.trans (ih _ hrest (hwritten.colonAlignCol.trans hcol))))

lemma advances_formatOperand (parentKind : Kind) : ∀ (n : Node) (o : Output),
    o.colonAlignCol = none → Advances o (formatOperand own f parentKind n o)
  | .node label start stop children, o, hcol => by
    have hflush := advances_flushCommentsBefore f start o
    have hown := own.advances f parentKind (.node label start stop children) o hcol
    have hbelow := advances_formatChildrenFrom_of own f label.kind none
      (fun c (_ : c ∈ children) => advances_formatOperand label.kind c)
      (hflush.colonAlignCol.trans hcol)
    have herror := (hflush.trans (Advances.emit _ (trim label.text))).trans
      (advances_consumeCommentsBefore stop _)
    have hleaf := hflush.trans (Advances.emit _ label.text)
    rw [formatOperand]
    exact (Advances.refl o).ite (hown.ite (herror.ite (hleaf.ite (hflush.trans hbelow))))

lemma advances_formatChildren (node : Node) (hcol : o.colonAlignCol = none) :
    Advances o (formatChildren own f node o) :=
  advances_formatChildrenFrom_of own f node.label.kind none
    (fun c _ => advances_formatOperand own f node.label.kind c) hcol

end

end Formatter

end WitcherScriptLanguage.Formatting
