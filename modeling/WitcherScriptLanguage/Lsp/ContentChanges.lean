import WitcherScriptLanguage.Lsp.EditQueue
import WitcherScriptLanguage.Lsp.LinePositions

/-!
# Batches of content changes

The loop of `_did_change`: every change meets the text that the changes in front of it left, with
the line index of that text, and the prior tree is told the edits. A change out of range ends the
notification before anything is stored.
-/

namespace WitcherScriptLanguage

open Library

/-- What `latest_edit_state` hands out and the loop updates. The tree is known by the edits it has
been told. -/
structure EditState where
  source : String
  lineIndex : LineIndex
  priorTree : List InputEdit
  priorTreeValid : Bool
  /-- The line index is the one of the text. -/
  fits : lineIndex = .new source

namespace EditState

/-- The state at the start of a notification. -/
def latest (source : String) (priorTree : List InputEdit) : EditState where
  source := source
  lineIndex := .new source
  priorTree := priorTree
  priorTreeValid := true
  fits := rfl

/-- Takes over an applied change. -/
def advance (s : EditState) (next : String) (edit : Option InputEdit) : EditState where
  source := next
  lineIndex := .new next
  priorTree :=
    match edit with
    | some edit => if s.priorTreeValid then s.priorTree ++ [edit] else s.priorTree
    | none => s.priorTree
  priorTreeValid := s.priorTreeValid && edit.isSome
  fits := rfl

def applyChange (s : EditState) (change : ContentChange) : Option EditState :=
  (applyContentChange s.source s.lineIndex change).map fun (next, edit) => s.advance next edit

def applyChanges (s : EditState) (batch : List ContentChange) : Option EditState :=
  batch.foldlM applyChange s

variable {s t : EditState} {change : ContentChange} {batch : List ContentChange}

lemma applyChange_of_eq {next : String} {edit : Option InputEdit}
    (h : applyContentChange s.source (.new s.source) change = some (next, edit)) :
    s.applyChange change = some (s.advance next edit) := by
  rw [applyChange, s.fits, h, Option.map_some]

lemma applyChange_of_none (h : applyContentChange s.source (.new s.source) change = none) :
    s.applyChange change = none := by
  rw [applyChange, s.fits, h, Option.map_none]

lemma applyChanges_cons (s : EditState) (change : ContentChange) (batch : List ContentChange) :
    s.applyChanges (change :: batch) =
      (s.applyChange change).bind fun t => t.applyChanges batch := rfl

/-- The loop of the edit queue is this one without the tree. -/
lemma applyBatch_eq (s : EditState) (batch : List ContentChange) :
    applyBatch s.source s.priorTreeValid batch =
      (s.applyChanges batch).map fun t => (t.source, t.priorTreeValid) := by
  induction batch generalizing s with
  | nil => rfl
  | cons change batch ih =>
    rw [applyBatch, applyChanges_cons]
    cases happly : applyContentChange s.source (.new s.source) change with
    | none =>
      rw [applyChange_of_none happly]
      rfl
    | some result =>
      have hchange : s.applyChange change = some (s.advance result.1 result.2) :=
        applyChange_of_eq happly
      rw [hchange, Option.bind_some, ← ih]
      rfl

end EditState

/-- The point behind a text: the number of its complete lines, and the bytes of its last line. -/
def pointOf (text : List Char) : TreePoint :=
  ⟨(linesOf text).length - 1, utf8Length ((linesOf text).getLast?.getD [])⟩

/-- The edit of a text whose part `mid` behind `before` becomes `text`. Its new end is a place in
the new text. -/
def editBetween (before mid text : List Char) : InputEdit where
  startByte := utf8Length before
  oldEndByte := utf8Length (before ++ mid)
  newEndByte := utf8Length (before ++ text)
  startPosition := pointOf before
  oldEndPosition := pointOf (before ++ mid)
  newEndPosition := pointOf (before ++ text)

/-- The range delimits a part of the text, which the new text replaces. -/
def Replaces (source : String) (range : SourceRange) (text next : String) (edit : InputEdit) :
    Prop :=
  ∃ before mid after, source.toList = before ++ (mid ++ after) ∧
    LineIndex.Denotes source range.start before ∧
      LineIndex.Denotes source range.stop (before ++ mid) ∧
        next = String.ofList (before ++ text.toList ++ after) ∧
          edit = editBetween before mid text.toList

/-- Every change meets the text that the ones in front of it left. -/
inductive Folds : String → List ContentChange → String → List (Option InputEdit) → Prop
  | done {source} : Folds source [] source []
  | replaceAll {source text batch final edits} : Folds text batch final edits →
      Folds source (⟨none, text⟩ :: batch) final (none :: edits)
  | splice {source range text next edit batch final edits} :
      Replaces source range text next edit → Folds next batch final edits →
        Folds source (⟨some range, text⟩ :: batch) final (some edit :: edits)

/-- The edits in front of the first replacement of the whole text. -/
def told : List (Option InputEdit) → List InputEdit
  | some edit :: edits => edit :: told edits
  | _ => []

lemma pointOf_of_lines {front : List (List Char)} {col : List Char}
    (hfront : ∀ line ∈ front, Complete isNewline line) (hcol : Open isNewline col) :
    pointOf (front.flatten ++ col) = ⟨front.length, utf8Length col⟩ := by
  have hlines : linesOf (front.flatten ++ col) = front ++ [col] := lines_eq_concat hfront hcol
  rw [pointOf, hlines, List.length_append, List.getLast?_append]
  rfl

/-- A byte's point in the index of a text is the point behind the text in front of it. -/
lemma bytePoint_of_append {source : String} {before after : List Char}
    (hsource : source.toList = before ++ after) :
    bytePoint (.new source) (utf8Length before) = pointOf before := by
  obtain ⟨front, col, rfl, hfront, hcol⟩ := @exists_lines _ isNewline before
  rw [List.append_assoc] at hsource
  have hindex := LineIndex.partitionPoint_of_lines hsource hfront hcol
  have hstart := LineIndex.lineStart_of_lines hsource hfront
  have hcolumn : utf8Length (front.flatten ++ col) - utf8Length front.flatten = utf8Length col := by
    rw [utf8Length_append]
    omega
  unfold bytePoint
  simp only [hindex, hstart, Option.getD_some, hcolumn]
  rw [pointOf_of_lines hfront hcol]

lemma pointBehind_eq (before : List Char) : pointBehind before = pointOf before := by
  obtain ⟨front, col, rfl, hfront, hcol⟩ := @exists_lines _ isNewline before
  have hlines : linesOf (front.flatten ++ col) = front ++ [col] := lines_eq_concat hfront hcol
  have hlength := length_lineStarts (front.flatten ++ col) 0
  rw [hlines, List.length_append, List.length_singleton] at hlength
  have hlast := getElem?_lineStarts (front.flatten ++ col) 0 front.length
  have hline : (linesOf (front.flatten ++ col))[front.length]? = some col := by
    rw [hlines, List.getElem?_append_right (Nat.le_refl _), Nat.sub_self, List.getElem?_cons_zero]
  rw [hline, hlines, List.take_left, Option.map_some, Nat.zero_add] at hlast
  have hgetLast : (0 :: lineStartsFrom (front.flatten ++ col) 0).getLast (by simp) =
      utf8Length front.flatten := by
    have hpos : (0 :: lineStartsFrom (front.flatten ++ col) 0).length - 1 = front.length := by
      rw [List.length_cons]
      omega
    rw [← Option.some.injEq, ← List.getLast?_eq_some_getLast, List.getLast?_eq_getElem?, hpos, hlast]
  rw [pointOf_of_lines hfront hcol]
  unfold pointBehind
  simp only [hgetLast]
  congr 1
  · rw [List.length_cons]
    omega
  · rw [utf8Length_append]
    omega

/-- The text is spliced exactly when the range delimits a part of it. -/
lemma applyContentChange_eq_some {source text next : String} {range : SourceRange}
    {edit : Option InputEdit} :
    applyContentChange source (.new source) ⟨some range, text⟩ = some (next, edit) ↔
      ∃ e, edit = some e ∧ Replaces source range text next e := by
  constructor
  · intro h
    simp only [applyContentChange, Option.bind_eq_bind, Option.bind_eq_some_iff] at h
    obtain ⟨start, hstart, stop, hstop, h⟩ := h
    split_ifs at h with horder
    obtain ⟨before, hbefore, rfl⟩ := LineIndex.positionToByte_eq_some.mp hstart
    obtain ⟨upto, hupto, rfl⟩ := LineIndex.positionToByte_eq_some.mp hstop
    obtain ⟨rest, hrest⟩ := hbefore.exists_append
    obtain ⟨after, hafter⟩ := hupto.exists_append
    obtain ⟨mid, rfl⟩ := exists_append_of_utf8Length_le (hrest.symm.trans hafter) (by omega)
    have hsplit : splitAtByte source.toList (utf8Length before) = some (before, rest) := by
      rw [hrest, splitAtByte_length]
    have hsplit' : splitAtByte source.toList (utf8Length (before ++ mid)) =
        some (before ++ mid, after) := by
      rw [hafter, splitAtByte_length]
    simp only [hsplit, hsplit', Option.bind_some, Option.some.injEq, Prod.mk.injEq] at h
    obtain ⟨rfl, rfl⟩ := h
    have hsource : source.toList = before ++ (mid ++ after) := by
      rw [hafter, List.append_assoc]
    refine ⟨_, rfl, before, mid, after, hsource, hbefore, hupto, rfl, ?_⟩
    rw [bytePoint_of_append hrest, bytePoint_of_append hafter, pointBehind_eq, ← utf8Length_append]
    rfl
  · rintro ⟨_, rfl, before, mid, after, hsource, hbefore, hupto, rfl, rfl⟩
    have hsource' : source.toList = before ++ mid ++ after := by
      rw [hsource, List.append_assoc]
    have hstart := LineIndex.positionToByte_eq_some.mpr ⟨before, hbefore, rfl⟩
    have hstop := LineIndex.positionToByte_eq_some.mpr ⟨before ++ mid, hupto, rfl⟩
    have hsplit : splitAtByte source.toList (utf8Length before) = some (before, mid ++ after) := by
      rw [hsource, splitAtByte_length]
    have hsplit' : splitAtByte source.toList (utf8Length (before ++ mid)) =
        some (before ++ mid, after) := by
      rw [hsource', splitAtByte_length]
    have horder : ¬utf8Length (before ++ mid) < utf8Length before := by
      rw [utf8Length_append]
      omega
    simp only [applyContentChange, hstart, hstop, hsplit, hsplit', Option.bind_eq_bind,
      Option.bind_some, if_neg horder, bytePoint_of_append hsource, bytePoint_of_append hsource',
      pointBehind_eq, ← utf8Length_append]
    rfl

namespace EditState

variable {s t : EditState} {batch : List ContentChange} {final : String}
  {edits : List (Option InputEdit)}

/-- The tree after the edits of a batch. -/
def treeAfter (s : EditState) (edits : List (Option InputEdit)) : List InputEdit :=
  if s.priorTreeValid then s.priorTree ++ told edits else s.priorTree

lemma treeAfter_advance (s : EditState) (next : String) (edit : Option InputEdit)
    (edits : List (Option InputEdit)) :
    (s.advance next edit).treeAfter edits = s.treeAfter (edit :: edits) := by
  cases edit with
  | none => cases hvalid : s.priorTreeValid <;> simp [treeAfter, advance, told, hvalid]
  | some edit => cases hvalid : s.priorTreeValid <;> simp [treeAfter, advance, told, hvalid]

/-- A batch that can be folded is applied. -/
lemma applyChanges_of_folds (h : Folds s.source batch final edits) : ∃ t,
    s.applyChanges batch = some t ∧ t.source = final ∧ t.priorTree = s.treeAfter edits ∧
      t.priorTreeValid = (s.priorTreeValid && edits.all Option.isSome) := by
  generalize hsource : s.source = source at h
  induction h generalizing s with
  | done =>
    refine ⟨s, rfl, hsource, ?_, by simp⟩
    simp [treeAfter, told]
  | @replaceAll _ text batch final edits hrest ih =>
    obtain ⟨t, ht, hfinal, htree, hvalid⟩ := @ih (s.advance text none) rfl
    refine ⟨t, ?_, hfinal, by rw [htree, treeAfter_advance], ?_⟩
    · rw [applyChanges_cons, applyChange_of_eq rfl, Option.bind_some, ht]
    · rw [hvalid, List.all_cons, ← Bool.and_assoc]
      rfl
  | @splice _ range text next edit batch final edits hreplaces hrest ih =>
    rw [← hsource] at hreplaces
    obtain ⟨t, ht, hfinal, htree, hvalid⟩ := @ih (s.advance next (some edit)) rfl
    refine ⟨t, ?_, hfinal, by rw [htree, treeAfter_advance], ?_⟩
    · have hchange := applyContentChange_eq_some.mpr ⟨edit, rfl, hreplaces⟩
      rw [applyChanges_cons, applyChange_of_eq hchange, Option.bind_some, ht]
    · rw [hvalid, List.all_cons, ← Bool.and_assoc]
      rfl

/-- An applied batch can be folded. -/
lemma folds_of_applyChanges (h : s.applyChanges batch = some t) :
    ∃ edits, Folds s.source batch t.source edits := by
  induction batch generalizing s with
  | nil =>
    cases h
    exact ⟨[], .done⟩
  | cons change batch ih =>
    rw [applyChanges_cons, Option.bind_eq_some_iff] at h
    obtain ⟨next, hchange, hrest⟩ := h
    obtain ⟨edits, hfolds⟩ := ih hrest
    rw [applyChange, s.fits, Option.map_eq_some_iff] at hchange
    obtain ⟨⟨text, edit⟩, happly, rfl⟩ := hchange
    obtain ⟨range, newText⟩ := change
    cases range with
    | none =>
      cases happly
      exact ⟨none :: edits, .replaceAll hfolds⟩
    | some range =>
      obtain ⟨e, rfl, hreplaces⟩ := applyContentChange_eq_some.mp happly
      exact ⟨some e :: edits, .splice hreplaces hfolds⟩

end EditState

/-- The end of a notification whose batch leads to a text: it is queued with the edited tree, or
parsed anew behind a replacement of the whole text. -/
def Server.store (env : Env) (s : Server) (uri : Url) (t : EditState) : Server :=
  if t.priorTreeValid then { s with handler := .idle }.enqueueEdit env uri t.source
  else
    { s with handler := .idle, compilation := env.updateOpenDocument s.compilation uri t.source }

/-- A batch is the fold of its changes, each valid on the text that the ones in front of it left
and each known to the tree by its edit, or it is dropped and nothing is stored. -/
theorem applyChanges_atomic (source : String) (priorTree : List InputEdit)
    (batch : List ContentChange) :
    (∃ final edits t, Folds source batch final edits ∧
      (EditState.latest source priorTree).applyChanges batch = some t ∧ t.source = final ∧
        t.priorTree = priorTree ++ told edits ∧ t.priorTreeValid = edits.all Option.isSome ∧
          ∀ env s uri, Server.changeFinish env s uri batch source = s.store env uri t) ∨
    ((¬∃ final edits, Folds source batch final edits) ∧
      (EditState.latest source priorTree).applyChanges batch = none ∧
        ∀ env s uri, Server.changeFinish env s uri batch source = { s with handler := .idle }) := by
  have hbatch := EditState.applyBatch_eq (.latest source priorTree) batch
  cases happly : (EditState.latest source priorTree).applyChanges batch with
  | none =>
    right
    refine ⟨?_, rfl, ?_⟩
    · rintro ⟨final, edits, hfolds⟩
      obtain ⟨t, ht, -⟩ := @EditState.applyChanges_of_folds (.latest source priorTree) _ _ _ hfolds
      rw [happly] at ht
      cases ht
    · intro env s uri
      rw [happly, Option.map_none] at hbatch
      have hnone : applyBatch source true batch = none := hbatch
      rw [Server.changeFinish]
      simp only [hnone]
  | some t =>
    left
    obtain ⟨edits, hfolds⟩ := EditState.folds_of_applyChanges happly
    obtain ⟨t', ht', -, htree, hvalid⟩ := EditState.applyChanges_of_folds hfolds
    rw [happly] at ht'
    cases ht'
    refine ⟨t.source, edits, t, hfolds, rfl, rfl, htree, by rw [hvalid]; rfl, ?_⟩
    intro env s uri
    rw [happly, Option.map_some] at hbatch
    have hsome : applyBatch source true batch = some (t.source, t.priorTreeValid) := hbatch
    rw [Server.changeFinish, Server.store]
    cases hv : t.priorTreeValid <;> rw [hv] at hsome <;> simp [hsome]

end WitcherScriptLanguage
