import WitcherScriptLanguage.Formatter.MemberAlignment

/-!
# Bodies of classes

The walk over the members of a class (`format_class_def` in `formatter/declarations.rs`). Each
member starts on a line of its own with the comments in front of it written, so that on the whole
way no column is asked for that the line is already past.
-/

namespace WitcherScriptLanguage.Formatting

open Library

/-- The formatters of the members that have lines of their own. -/
structure BodyFormatters where
  format : Formatter → Node → Output → Output
  advances : ∀ f node o, o.colonAlignCol = none → Advances o (format f node o)
  endsLine : ∀ f node o, currentLine o.out = [] → currentLine (format f node o).out = []

/-- Where the walk stands. -/
structure BodyWalk where
  prevEndRow : Option Nat := none
  prevWasComment : Bool := false
  prevMember : Option Node := none
  output : Output

def isTrailingComment (prev : Option Node) (comment : Node) : Bool :=
  prev.any fun p => p.label.endRow = comment.label.startRow

def isCallable (node : Node) : Bool := node.label.kind = .funcDecl || node.label.kind = .eventDecl

def isBodilessCallable (node : Node) : Bool :=
  isCallable node && !node.children.any fun n => n.label.kind = .funcBlock

namespace BodyWalk

def wantBlank (openRow : Nat) (member : Node) (walk : BodyWalk) : Bool :=
  Formatter.blankLineBetweenRows (walk.prevEndRow.getD openRow) member.label.startRow ||
    (isCallable member && walk.prevEndRow.isSome && !walk.prevWasComment &&
      !(isBodilessCallable member && walk.prevMember.any isBodilessCallable))

/-- The output, with the blank line in front of a member that wants one. -/
def opened (openRow : Nat) (member : Node) (walk : BodyWalk) : Output :=
  if walk.wantBlank openRow member then walk.output.nl else walk.output

end BodyWalk

namespace Formatter

variable (own : OwnFormatters) (bodies : BodyFormatters) (f : Formatter)

def formatClassMember (node : Node) (colonAlignCol : Option Nat) (o : Output) : Output :=
  let o := f.flushCommentsBefore node.start o
  if rendersVerbatim node then
    (((f.emitIndent f.level o).emit (originalNodeText node)).consumeCommentsBefore node.stop).nl
  else match node.label.kind with
    | .funcDecl | .eventDecl | .memberDefaultValBlock => bodies.format f node o
    | .memberVarDecl => formatMemberVarDecl own f node colonAlignCol none o
    | _ => (formatChildren own f node (f.emitIndent f.level o)).nl

/-- The loop of `format_class_def` over the members, with a bound on its rounds. -/
def formatMembers (members : List Node) (colonTargets defaultTargets : List (Option Nat))
    (openRow : Nat) : Nat → Nat → BodyWalk → Option BodyWalk
  | 0, idx, walk => if idx < members.length then none else some walk
  | rounds + 1, idx, walk =>
    if idx < members.length then do
      let member ← members[idx]?
      -- A trailing comment belongs to the line of the previous member.
      if member.label.kind = .comment ∧ isTrailingComment walk.prevMember member then
        formatMembers members colonTargets defaultTargets openRow rounds (idx + 1)
          { walk with output := f.flushCommentsBefore member.stop walk.output }
      else
        let o := walk.opened openRow member
        if member.label.kind = .comment then
          formatMembers members colonTargets defaultTargets openRow rounds (idx + 1)
            ⟨some member.label.endRow, true, some member, f.flushCommentsBefore member.stop o⟩
        else do
          let colonTarget ← colonTargets[idx]?
          match f.trailingDefault members defaultTargets idx with
          | some (default, target) =>
            formatMembers members colonTargets defaultTargets openRow rounds (idx + 2)
              ⟨some default.label.endRow, false, some member,
                formatMemberVarDecl own f member colonTarget (some (default, target)) o⟩
          | none =>
            formatMembers members colonTargets defaultTargets openRow rounds (idx + 1)
              ⟨some member.label.endRow, false, some member,
                formatClassMember own bodies f member colonTarget o⟩
    else some walk

variable {own bodies f} {o : Output}

lemma currentLine_nl (o : Output) : currentLine o.nl.out = [] := by
  rw [Output.nl, Output.emit, currentLine_append_of_mem o.out (List.mem_singleton_self '\n')]
  rfl

lemma endsWith_of_currentLine_eq_nil (h : currentLine o.out = []) (hne : o.out ≠ []) :
    o.endsWith '\n' = true := by
  have hlast := List.rtakeWhile_eq_nil_iff.mp h hne
  rw [Output.endsWith, List.getLast?_eq_some_getLast hne]
  simpa using hlast

/-- A comment at the start of a line leaves the next one at its start. -/
lemma currentLine_emitComment (comment : PendingComment) (h : currentLine o.out = []) :
    currentLine (f.emitComment comment o).out = [] := by
  by_cases htrail : comment.prevEndRow = some comment.startRow ∧ o.canTrail
  · have hne : o.out ≠ [] := by
      intro hnil
      have hcan := htrail.2
      rw [Output.canTrail, hnil] at hcan
      cases hcan
    -- The line end that the comment rejoins is put back behind it.
    simp only [emitComment, if_pos htrail, endsWith_of_currentLine_eq_nil h hne, Bool.true_or,
      if_true]
    exact currentLine_nl _
  · simp only [emitComment, if_neg htrail]
    exact currentLine_nl _

lemma currentLine_flushCommentsBefore (byte : Nat) (h : currentLine o.out = []) :
    currentLine (f.flushCommentsBefore byte o).out = [] := by
  rw [flushCommentsBefore]
  induction o.comments generalizing o with
  | nil => exact h
  | cons c cs ih =>
    rw [flushComments]
    split_ifs
    · exact ih (currentLine_emitComment c h)
    · exact h

/-- A body whose comments stand between its members, as far as they stand in it. -/
structure ClassBody (members : List Node) (stop : Nat) (comments : List PendingComment) :
    Prop where
  ordered : members.Pairwise fun a b => a.stop ≤ b.start
  spans : ∀ m ∈ members, m.start < m.stop ∧ m.stop ≤ stop
  fields : ∀ m ∈ members, isAlignableField m = true → PlainField m ∧ commentsOf m = []
  sorted : comments.Pairwise fun a b => a.startByte ≤ b.startByte
  between : ∀ c ∈ comments, stop ≤ c.startByte ∨
    ∃ m ∈ members, m.label.kind = .comment ∧ m.start = c.startByte

/-- A member is about to be written: it starts a line, and the comments that are still to come
are those of the members from it on. -/
structure AtMember (members : List Node) (stop idx : Nat) (o : Output) : Prop where
  line : currentLine o.out = []
  indented : o.suppressNextIndent = false
  colonAlignCol : o.colonAlignCol = none
  sorted : o.comments.Pairwise fun a b => a.startByte ≤ b.startByte
  pending : ∀ c ∈ o.comments, stop ≤ c.startByte ∨ ∃ j m, idx ≤ j ∧ members[j]? = some m ∧
    m.label.kind = .comment ∧ m.start = c.startByte

variable {members : List Node} {stop idx : Nat}

/-- No comment stands in front of the end of a member. -/
lemma AtMember.quiet {comments : List PendingComment} (h : AtMember members stop idx o)
    (hbody : ClassBody members stop comments) {m : Node} (hm : members[idx]? = some m)
    (hkind : m.label.kind ≠ .comment) : Quiet m.stop o := by
  intro c hc
  rcases h.pending c hc with hbehind | ⟨j, n, hle, hn, hcomment, hstart⟩
  · exact (hbody.spans m (List.mem_of_getElem? hm)).2.trans hbehind
  · have hlt : idx < j := by
      refine Nat.lt_of_le_of_ne hle ?_
      rintro rfl
      rw [hm, Option.some.injEq] at hn
      rw [hn] at hkind
      exact hkind hcomment
    rw [← hstart]
    obtain ⟨hidx, rfl⟩ := List.getElem?_eq_some_iff.mp hm
    obtain ⟨hj, rfl⟩ := List.getElem?_eq_some_iff.mp hn
    exact List.pairwise_iff_getElem.mp hbody.ordered idx j hidx hj hlt

/-- The walk goes on behind a member that is no comment. -/
lemma AtMember.next {o' : Output} (h : AtMember members stop idx o)
    (hkind : ∀ m, members[idx]? = some m → m.label.kind ≠ .comment)
    (hline : currentLine o'.out = []) (hindented : o'.suppressNextIndent = false)
    (hcol : o'.colonAlignCol = none) (hcomments : o'.comments <:+ o.comments) :
    AtMember members stop (idx + 1) o' where
  line := hline
  indented := hindented
  colonAlignCol := hcol
  sorted := h.sorted.sublist hcomments.sublist
  pending := by
    intro c hc
    refine (h.pending c (hcomments.subset hc)).imp_right ?_
    rintro ⟨j, n, hle, hn, hcomment, hstart⟩
    refine ⟨j, n, Nat.lt_of_le_of_ne hle ?_, hn, hcomment, hstart⟩
    rintro rfl
    exact hkind n hn hcomment

lemma le_of_mem_dropWhile {byte : Nat} {cs : List PendingComment}
    (hsorted : cs.Pairwise fun a b => a.startByte ≤ b.startByte) {c : PendingComment}
    (hc : c ∈ cs.dropWhile fun c => c.startByte < byte) : byte ≤ c.startByte := by
  induction cs with
  | nil => cases hc
  | cons d cs ih =>
    obtain ⟨hfirst, hrest⟩ := List.pairwise_cons.mp hsorted
    by_cases hbefore : d.startByte < byte
    · rw [List.dropWhile_cons_of_pos (by simpa using hbefore)] at hc
      exact ih hrest hc
    · rw [List.dropWhile_cons_of_neg (by simpa using hbefore)] at hc
      rcases List.mem_cons.mp hc with rfl | hc
      · exact Nat.le_of_not_lt hbefore
      · exact (Nat.le_of_not_lt hbefore).trans (hfirst c hc)

/-- The walk goes on behind a comment, which has been written with those in front of it. -/
lemma AtMember.flush {comments : List PendingComment} (h : AtMember members stop idx o)
    (hbody : ClassBody members stop comments) {m : Node} (hm : members[idx]? = some m) :
    AtMember members stop (idx + 1) (f.flushCommentsBefore m.stop o) where
  line := currentLine_flushCommentsBefore m.stop h.line
  indented := (advances_flushCommentsBefore f m.stop o).indented h.indented
  colonAlignCol := (advances_flushCommentsBefore f m.stop o).colonAlignCol.trans h.colonAlignCol
  sorted := h.sorted.sublist (advances_flushCommentsBefore f m.stop o).comments.sublist
  pending := by
    intro c hc
    rw [flushCommentsBefore, comments_flushComments] at hc
    have hbehind := le_of_mem_dropWhile h.sorted hc
    refine (h.pending c (List.dropWhile_sublist _ |>.subset hc)).imp_right ?_
    rintro ⟨j, n, hle, hn, hcomment, hstart⟩
    refine ⟨j, n, Nat.lt_of_le_of_ne hle ?_, hn, hcomment, hstart⟩
    rintro rfl
    rw [hm, Option.some.injEq] at hn
    rw [← hn] at hstart
    have hspan := (hbody.spans m (List.mem_of_getElem? hm)).1
    omega

/-- A member has been written: the next line is at its start, and comments were only passed. -/
structure Written (o o' : Output) : Prop where
  line : currentLine o'.out = []
  indented : o'.suppressNextIndent = false
  colonAlignCol : o'.colonAlignCol = none
  comments : o'.comments <:+ o.comments
  fits : Fits o o'

lemma written_of_advances {o' : Output} (h : Advances o o') (hstart : AtMember members stop idx o)
    (hline : currentLine o'.out = []) : Written o o' :=
  ⟨hline, h.indented hstart.indented, h.colonAlignCol.trans hstart.colonAlignCol, h.comments,
    fits_of_padded_eq h.padded⟩

lemma advances_emitAnnotationFor (node : Node) (o : Output) :
    Advances o (f.emitAnnotationFor node o).2 := by
  rw [emitAnnotationFor]
  cases childOfKind node Kind.annotation with
  | none => exact Advances.refl o
  | some ann =>
    have htext : Advances o (f.emitAnnotationText ann o) :=
      (((advances_flushCommentsBefore f ann.start o).trans (advances_emitIndent f f.level _)).trans
        (Advances.emit _ _)).trans (advances_consumeCommentsBefore ann.stop _)
    exact (htext.trans (Advances.emit _ [' '])).ite (htext.trans (Advances.emit _ ['\n']))

lemma advances_formatTrailingDefault {trailing : Option (Node × Option Nat)}
    (htrailing : ∀ default col, trailing ≠ some (default, some col))
    (hcol : o.colonAlignCol = none) : Advances o (formatTrailingDefault own f trailing o) := by
  match trailing with
  | none => exact Advances.refl o
  | some (default, none) =>
    exact (Advances.emit o defaultGap).trans (advances_formatChildren own f default hcol)
  | some (default, some col) => exact absurd rfl (htrailing default col)

/-- Without columns a field and its default are written like any other member. -/
lemma advances_formatMemberVarDecl (field : Node) {trailing : Option (Node × Option Nat)}
    (htrailing : ∀ default col, trailing ≠ some (default, some col))
    (hcol : o.colonAlignCol = none) :
    Advances o (formatMemberVarDecl own f field none trailing o) := by
  have hannotated := advances_emitAnnotationFor (f := f) field o
  have hindent := hannotated.ite (p := (f.emitAnnotationFor field o).1 = true)
    (hannotated.trans (advances_emitIndent f f.level _))
  simp only [formatMemberVarDecl]
  generalize (if (f.emitAnnotationFor field o).1 = true then (f.emitAnnotationFor field o).2
    else f.emitIndent f.level (f.emitAnnotationFor field o).2) = indented at hindent
  have hunset : Advances indented { indented with colonAlignCol := none } :=
    ⟨rfl, (hindent.colonAlignCol.trans hcol).symm, id, List.suffix_refl _⟩
  have hwritten := advances_formatChildren own f
    (o := { indented with colonAlignCol := none }) field rfl
  generalize formatChildren own f field { indented with colonAlignCol := none } = written
    at hwritten
  have hagain : Advances written { written with colonAlignCol := none } :=
    ⟨rfl, hwritten.colonAlignCol.symm, id, List.suffix_refl _⟩
  exact ((((hindent.trans hunset).trans hwritten).trans hagain).trans
    (advances_formatTrailingDefault htrailing rfl)).trans (Advances.emit _ ['\n'])

/-- The default goes on where the field ended, its column or not. -/
lemma formatTrailingDefault_goesOn (own : OwnFormatters) (f : Formatter)
    (trailing : Option (Node × Option Nat))
    (hindented : o.suppressNextIndent = false) (hcol : o.colonAlignCol = none) :
    (formatTrailingDefault own f trailing o).suppressNextIndent = false ∧
      (formatTrailingDefault own f trailing o).colonAlignCol = none ∧
      (formatTrailingDefault own f trailing o).comments <:+ o.comments := by
  match trailing with
  | none => exact ⟨hindented, hcol, List.suffix_refl _⟩
  | some (default, none) =>
    have hdefault := advances_formatChildren own f (o := o.emit defaultGap)
      default hcol
    exact ⟨hdefault.indented hindented, hdefault.colonAlignCol.trans hcol, hdefault.comments⟩
  | some (default, some col) =>
    have hdefault := advances_formatChildren own f (o := o.padTo col) default hcol
    exact ⟨hdefault.indented hindented, hdefault.colonAlignCol.trans hcol, hdefault.comments⟩

lemma suppressNextIndent_alignColon (o : Output) :
    (alignColon o).suppressNextIndent = o.suppressNextIndent := by
  cases hcol : o.colonAlignCol with
  | none => rw [alignColon_of_none hcol]
  | some col =>
    rw [alignColon_of_some hcol]
    rfl

lemma Writes.suppressNextIndent {width : Nat} {later : List PendingComment} {o' : Output}
    (h : Writes width later o o') : o'.suppressNextIndent = o.suppressNextIndent := by
  obtain ⟨s, -, rfl⟩ := h
  rfl

/-- Below a field its own comments are passed, and no others. -/
lemma formatChildren_goesOn (own : OwnFormatters) (f : Formatter) {field : Node}
    {later : List PendingComment} (hfield : PlainField field)
    (hcomments : o.comments = commentsOf field ++ later)
    (hlater : ∀ c ∈ later, field.stop ≤ c.startByte) :
    (formatChildren own f field o).suppressNextIndent = o.suppressNextIndent ∧
      (formatChildren own f field o).comments = later := by
  rcases hfield.formatChildren_cases own f hcomments hlater with
    hwrites | ⟨pending, before, width, -, hfront, hrest⟩
  · exact ⟨hwrites.suppressNextIndent, hwrites.comments⟩
  · exact ⟨hrest.suppressNextIndent.trans ((suppressNextIndent_alignColon before).trans
      hfront.suppressNextIndent), hrest.comments⟩

/-- A field with its columns is written too. -/
lemma written_formatMemberVarDecl {field : Node} {target : Option Nat}
    {trailing : Option (Node × Option Nat)} (hfield : PlainField field)
    (hstart : AtLineStart field o)
    (hfits : Fits o (formatMemberVarDecl own f field target trailing o)) :
    Written o (formatMemberVarDecl own f field target trailing o) := by
  obtain ⟨later, hcomments, hlater⟩ := hstart.comments
  have hindent := (advances_emitIndent f f.level o).indented hstart.indented
  obtain ⟨hsuppress, hpassed⟩ := formatChildren_goesOn own f
    (o := { f.emitIndent f.level o with colonAlignCol := target }) hfield
    ((comments_emitIndent hstart.indented).trans hcomments) hlater
  rw [formatMemberVarDecl_eq own f hfield.alignable] at hfits ⊢
  generalize formatChildren own f field { f.emitIndent f.level o with colonAlignCol := target } =
    written at hsuppress hpassed hfits ⊢
  obtain ⟨hindented, hcol, htrailing⟩ := formatTrailingDefault_goesOn own f
    (o := { written with colonAlignCol := none }) trailing (hsuppress.trans hindent) rfl
  have hsuffix : written.comments <:+ o.comments := ⟨commentsOf field, by rw [hpassed, hcomments]⟩
  exact ⟨currentLine_nl _, hindented, hcol, htrailing.trans hsuffix, hfits⟩

variable {colons defaults : RunPass Nat} {comments : List PendingComment}

/-- Only fields have targets. -/
lemma Columns.isAlignableField {pass : RunPass Nat} {needs : Nat → Node → Nat}
    (hpass : Columns f members pass needs) {m : Node} {col : Nat}
    (hm : members[idx]? = some m) (htarget : pass.targets[idx]? = some (some col)) :
    isAlignableField m = true := by
  obtain ⟨r, hr, -, hidx⟩ := hpass.aligned idx col htarget
  rcases (hpass.isRun r hr).kind with ⟨-, hpairs⟩ | ⟨-, hfields⟩
  · obtain ⟨varDecl, -, hvar, -, hfield, -⟩ := (hpairs idx hidx).exists_members
    rw [hm, Option.some.injEq] at hvar
    exact hvar ▸ hfield
  · obtain ⟨⟨m', hm', hfield⟩, -⟩ := (hfields idx hidx).exists_member
    rw [hm, Option.some.injEq] at hm'
    exact hm' ▸ hfield

lemma AtMember.atLineStart (h : AtMember members stop idx o)
    (hbody : ClassBody members stop comments) {m : Node} (hm : members[idx]? = some m)
    (hkind : m.label.kind ≠ .comment) (hnone : commentsOf m = []) : AtLineStart m o :=
  ⟨h.line, h.indented, o.comments, by rw [hnone, List.nil_append], h.quiet hbody hm hkind⟩

/-- A field with its targets, whatever they are. -/
lemma written_field (own : OwnFormatters) (haligned : AlignedBy f members colons defaults)
    (hbody : ClassBody members stop comments) (h : AtMember members stop idx o) {m : Node}
    {target : Option Nat} {trailing : Option (Node × Option Nat)} (hm : members[idx]? = some m)
    (hkind : m.label.kind ≠ .comment) (htarget : colons.targets[idx]? = some target)
    (htrailing : ∀ default col, trailing = some (default, some col) →
      defaults.targets[idx]? = some (some col)) :
    Written o (formatMemberVarDecl own f m target trailing o) := by
  by_cases hfield : Formatter.isAlignableField m = true
  · obtain ⟨hplain, hnone⟩ := hbody.fields m (List.mem_of_getElem? hm) hfield
    have hstart := h.atLineStart hbody hm hkind hnone
    exact written_formatMemberVarDecl hplain hstart
      (haligned.fits own hm htarget htrailing hplain hstart)
  · have hnone : target = none := by
      cases target with
      | none => rfl
      | some col => exact absurd (haligned.colon.isAlignableField hm htarget) hfield
    rw [hnone]
    refine written_of_advances (advances_formatMemberVarDecl m (fun default col hsome => ?_)
      h.colonAlignCol) h (currentLine_nl _)
    exact hfield (haligned.default.isAlignableField hm (htrailing default col hsome))

lemma written_formatClassMember (own : OwnFormatters) (bodies : BodyFormatters)
    (haligned : AlignedBy f members colons defaults)
    (hbody : ClassBody members stop comments) (h : AtMember members stop idx o) {m : Node}
    {target : Option Nat} (hm : members[idx]? = some m) (hkind : m.label.kind ≠ .comment)
    (htarget : colons.targets[idx]? = some target) :
    Written o (formatClassMember own bodies f m target o) := by
  have hquiet := h.quiet hbody hm hkind
  have hspan := hbody.spans m (List.mem_of_getElem? hm)
  have hindent := advances_emitIndent f f.level o
  have hverbatim := ((hindent.trans (Advances.emit _ (originalNodeText m))).trans
    (advances_consumeCommentsBefore m.stop _)).trans (Advances.emit _ ['\n'])
  have hother := ((hindent.trans (advances_formatChildren own f m
    (hindent.colonAlignCol.trans h.colonAlignCol))).trans (Advances.emit _ ['\n']))
  have hbodies := bodies.advances f m o h.colonAlignCol
  simp only [formatClassMember, flushCommentsBefore_of_quiet (hquiet.anti hspan.1.le)]
  split_ifs
  · exact written_of_advances hverbatim h (currentLine_nl _)
  · split
    · exact written_of_advances hbodies h (bodies.endsLine f m o h.line)
    · exact written_of_advances hbodies h (bodies.endsLine f m o h.line)
    · exact written_of_advances hbodies h (bodies.endsLine f m o h.line)
    · exact written_field own haligned hbody h hm hkind htarget fun _ _ hsome => by cases hsome
    · exact written_of_advances hother h (currentLine_nl _)

lemma AtMember.opened {walk : BodyWalk} (h : AtMember members stop idx walk.output) (openRow : Nat)
    (m : Node) : AtMember members stop idx (walk.opened openRow m) := by
  rw [BodyWalk.opened]
  split_ifs
  · exact ⟨currentLine_nl _, h.indented, h.colonAlignCol, h.sorted, h.pending⟩
  · exact h

lemma fits_opened (openRow : Nat) (m : Node) (walk : BodyWalk) :
    Fits walk.output (walk.opened openRow m) := by
  rw [BodyWalk.opened]
  split_ifs
  · exact fits_of_padded_eq rfl
  · exact fits_of_padded_eq rfl

lemma AtMember.written {o' : Output} (h : AtMember members stop idx o)
    (hkind : ∀ m, members[idx]? = some m → m.label.kind ≠ .comment) (hwritten : Written o o') :
    AtMember members stop (idx + 1) o' :=
  h.next hkind hwritten.line hwritten.indented hwritten.colonAlignCol hwritten.comments

lemma trailingDefault_kind {targets : List (Option Nat)} {trailing : Node × Option Nat}
    (h : f.trailingDefault members targets idx = some trailing) :
    ∃ next, members[idx + 1]? = some next ∧ next.label.kind = .memberDefaultVal := by
  rw [trailingDefault] at h
  split at h
  · rename_i hnext
    split_ifs at h with hdefault
    exact ⟨_, hnext, hdefault.2.2.1⟩
  · cases h

/-- From any member on the walk comes to its end, and no column is asked for that the line is
past. -/
theorem fits_formatMembers (own : OwnFormatters) (bodies : BodyFormatters)
    (haligned : AlignedBy f members colons defaults)
    (hbody : ClassBody members stop comments) (openRow rounds idx : Nat) (walk : BodyWalk)
    (h : AtMember members stop idx walk.output) (hrounds : members.length ≤ idx + rounds) :
    ∃ walk', formatMembers own bodies f members colons.targets defaults.targets openRow rounds idx
        walk = some walk' ∧ Fits walk.output walk'.output := by
  induction rounds generalizing idx walk with
  | zero =>
    have hend : members.length ≤ idx := hrounds
    exact ⟨walk, by rw [formatMembers, if_neg hend.not_gt], fits_of_padded_eq rfl⟩
  | succ rounds ih =>
    by_cases hidx : idx < members.length
    · obtain ⟨m, hm⟩ := exists_getElem?_eq hidx
      obtain ⟨target, htarget⟩ : ∃ target, colons.targets[idx]? = some target :=
        ⟨_, List.getElem?_eq_getElem (haligned.colon.length ▸ hidx)⟩
      have hblank := h.opened openRow m
      have hopened := fits_opened openRow m walk
      simp only [formatMembers, if_pos hidx, hm, htarget, Option.bind_eq_bind, Option.bind_some]
      generalize walk.opened openRow m = o at hblank hopened
      by_cases htrails : m.label.kind = .comment ∧ isTrailingComment walk.prevMember m = true
      · rw [if_pos htrails]
        obtain ⟨walk', hwalk, hfits⟩ := ih (idx + 1)
          { walk with output := f.flushCommentsBefore m.stop walk.output } (h.flush hbody hm)
          (by omega)
        exact ⟨walk', hwalk, (fits_of_padded_eq
          (advances_flushCommentsBefore f m.stop walk.output).padded).trans hfits⟩
      rw [if_neg htrails]
      by_cases hcomment : m.label.kind = .comment
      · rw [if_pos hcomment]
        obtain ⟨walk', hwalk, hfits⟩ := ih (idx + 1)
          ⟨some m.label.endRow, true, some m, f.flushCommentsBefore m.stop o⟩
          (hblank.flush hbody hm) (by omega)
        exact ⟨walk', hwalk, hopened.trans ((fits_of_padded_eq
          (advances_flushCommentsBefore f m.stop o).padded).trans hfits)⟩
      rw [if_neg hcomment]
      have hkind : ∀ n, members[idx]? = some n → n.label.kind ≠ .comment := by
        intro n hn
        rw [hm, Option.some.injEq] at hn
        exact hn ▸ hcomment
      cases htrailing : f.trailingDefault members defaults.targets idx with
      | none =>
        have hwritten :=
          written_formatClassMember own bodies haligned hbody hblank hm hcomment htarget
        obtain ⟨walk', hwalk, hfits⟩ := ih (idx + 1)
          ⟨some m.label.endRow, false, some m, formatClassMember own bodies f m target o⟩
          (hblank.written hkind hwritten) (by omega)
        exact ⟨walk', hwalk, hopened.trans (hwritten.fits.trans hfits)⟩
      | some trailing =>
        obtain ⟨default, defaultTarget⟩ := trailing
        obtain ⟨next, hnext, hnextKind⟩ := trailingDefault_kind htrailing
        have hwritten := written_field own haligned hbody hblank hm hcomment htarget
          fun default' col hsome => trailingDefault_eq (htrailing.trans hsome)
        have hpair := (hblank.written hkind hwritten).next (fun n hn => by
          rw [hnext, Option.some.injEq] at hn
          rw [← hn, hnextKind]
          decide) hwritten.line hwritten.indented hwritten.colonAlignCol (List.suffix_refl _)
        obtain ⟨walk', hwalk, hfits⟩ := ih (idx + 2)
          ⟨some default.label.endRow, false, some m,
            formatMemberVarDecl own f m target (some (default, defaultTarget)) o⟩ hpair (by omega)
        exact ⟨walk', hwalk, hopened.trans (hwritten.fits.trans hfits)⟩
    · exact ⟨walk, by rw [formatMembers, if_neg hidx], fits_of_padded_eq rfl⟩

/-- A body whose comments stand between its members is written to its end, with the columns of the
passes, and no column is asked for that the line is past. -/
theorem fits_classBody (own : OwnFormatters) (bodies : BodyFormatters) (f : Formatter)
    {members : List Node} {stop : Nat} (openRow : Nat) {o : Output}
    (hbody : ClassBody members stop o.comments) (hline : currentLine o.out = [])
    (hindented : o.suppressNextIndent = false) (hcol : o.colonAlignCol = none) :
    ∃ colons defaults walk, AlignedBy f members colons defaults ∧
      formatMembers own bodies f members colons.targets defaults.targets openRow members.length 0
        { output := o } = some walk ∧ Fits o walk.output := by
  obtain ⟨colons, defaults, haligned⟩ := exists_alignedBy f members
  have hstart : AtMember members stop 0 o := by
    refine ⟨hline, hindented, hcol, hbody.sorted, fun c hc => (hbody.between c hc).imp_right ?_⟩
    rintro ⟨m, hm, hcomment, hstart⟩
    obtain ⟨j, hj⟩ := List.mem_iff_getElem?.mp hm
    exact ⟨j, m, Nat.zero_le j, hj, hcomment, hstart⟩
  obtain ⟨walk, hwalk, hfits⟩ := fits_formatMembers own bodies haligned hbody openRow
    members.length 0 { output := o } hstart (Nat.zero_add _).ge
  exact ⟨colons, defaults, walk, haligned, hwalk, hfits⟩

end Formatter

end WitcherScriptLanguage.Formatting
