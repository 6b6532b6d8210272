import Mathlib.Algebra.GroupWithZero.Nat
import Mathlib.Tactic.Lemma
import Mathlib.Tactic.SplitIfs
import WitcherScriptLanguage.Symbols

/-!
# Content changes

`line_index.rs` and `apply_content_change` of `document.rs`: a change names a range by line and
UTF-16 column, the text is cut at byte offsets, and a range that does not fit the text makes the
change, and with it its batch, fail.
-/

namespace WitcherScriptLanguage

structure LineIndex where
  lineStarts : List Nat
  deriving DecidableEq, Repr

def utf8Length (text : List Char) : Nat := (text.map Char.utf8Size).sum

def utf16Length (c : Char) : Nat := if c.val < 0x10000 then 1 else 2

/-- `text.get(..byte)` and `text.get(byte..)`, or `none` off a character boundary. -/
def splitAtByte : List Char → Nat → Option (List Char × List Char)
  | text, 0 => some ([], text)
  | [], _ + 1 => none
  | c :: text, byte + 1 =>
    if c.utf8Size ≤ byte + 1 then
      (splitAtByte text (byte + 1 - c.utf8Size)).map fun (before, after) => (c :: before, after)
    else none

/-- `text.get(start..stop)` -/
def sliceBytes (text : List Char) (start stop : Nat) : Option (List Char) :=
  if start ≤ stop then
    (splitAtByte text start).bind fun (_, after) =>
      (splitAtByte after (stop - start)).map fun (line, _) => line
  else none

/-- The offsets behind the line feeds of a text that starts at `offset`. -/
def lineStartsFrom : List Char → Nat → List Nat
  | [], _ => []
  | c :: text, offset =>
    if c = '\n' then (offset + 1) :: lineStartsFrom text (offset + 1)
    else lineStartsFrom text (offset + c.utf8Size)

namespace LineIndex

def new (source : String) : LineIndex := ⟨0 :: lineStartsFrom source.toList 0⟩

/-- The byte offset of a UTF-16 column of a line, or `none` inside a surrogate pair and behind
the line's end. -/
def columnToByte (targetUnits : Nat) : List Char → Nat → Nat → Option Nat
  | [], units, offset => if units = targetUnits then some offset else none
  | c :: line, units, offset =>
    if units = targetUnits then some offset
    else if targetUnits < units + utf16Length c then none
    else columnToByte targetUnits line (units + utf16Length c) (offset + c.utf8Size)

def positionToByte (index : LineIndex) (source : String) (position : SourcePosition) :
    Option Nat := do
  let lineStart ← index.lineStarts[position.line]?
  let lineEnd := (index.lineStarts[position.line + 1]?).getD (utf8Length source.toList)
  let line ← sliceBytes source.toList lineStart lineEnd
  columnToByte position.character line 0 lineStart

end LineIndex

/-- A tree-sitter `Point`: a row and a column in bytes. -/
structure TreePoint where
  row : Nat
  column : Nat
  deriving DecidableEq, Repr

structure InputEdit where
  startByte : Nat
  oldEndByte : Nat
  newEndByte : Nat
  startPosition : TreePoint
  oldEndPosition : TreePoint
  newEndPosition : TreePoint
  deriving DecidableEq, Repr

def bytePoint (index : LineIndex) (byte : Nat) : TreePoint :=
  let row := (index.lineStarts.takeWhile (· ≤ byte)).length - 1
  ⟨row, byte - (index.lineStarts[row]?).getD 0⟩

/-- `byte_point_in`, on the text in front of the byte. -/
def pointBehind (before : List Char) : TreePoint :=
  let starts := 0 :: lineStartsFrom before 0
  ⟨starts.length - 1, utf8Length before - starts.getLast (by simp [starts])⟩

structure ContentChange where
  range : Option SourceRange
  text : String
  deriving DecidableEq, Repr

/-- The new text, with the edit of the tree unless the change replaces the whole document. -/
def applyContentChange (source : String) (index : LineIndex) (change : ContentChange) :
    Option (String × Option InputEdit) :=
  match change.range with
  | none => some (change.text, none)
  | some range => do
    let start ← index.positionToByte source range.start
    let stop ← index.positionToByte source range.stop
    if stop < start then none
    else do
      let (before, _) ← splitAtByte source.toList start
      let (_, after) ← splitAtByte source.toList stop
      some (String.ofList (before ++ change.text.toList ++ after), some {
        startByte := start
        oldEndByte := stop
        newEndByte := start + utf8Length change.text.toList
        startPosition := bytePoint index start
        oldEndPosition := bytePoint index stop
        newEndPosition := pointBehind (before ++ change.text.toList) })

/-- The loop of `_did_change` over a batch: the text after it and whether the prior tree still
fits, or `none` when a change is out of range. -/
def applyBatch : String → Bool → List ContentChange → Option (String × Bool)
  | source, priorTreeValid, [] => some (source, priorTreeValid)
  | source, priorTreeValid, change :: batch =>
    match applyContentChange source (LineIndex.new source) change with
    | none => none
    | some (next, edit) => applyBatch next (priorTreeValid && edit.isSome) batch

/-- The text after a batch. One that is out of range changes nothing. -/
def afterBatch (text : String) (batch : List ContentChange) : String :=
  ((applyBatch text true batch).map (·.1)).getD text

/-- The text after all batches in the order received. -/
def foldBatches (text : String) (batches : List (List ContentChange)) : String :=
  batches.foldl afterBatch text

@[simp] lemma foldBatches_nil (text : String) : foldBatches text [] = text := rfl

lemma foldBatches_snoc (text : String) (batches : List (List ContentChange))
    (batch : List ContentChange) :
    foldBatches text (batches ++ [batch]) = afterBatch (foldBatches text batches) batch := by
  simp [foldBatches, List.foldl_append]

lemma afterBatch_eq {text next : String} {valid : Bool} {batch : List ContentChange}
    (h : applyBatch text true batch = some (next, valid)) : afterBatch text batch = next := by
  simp [afterBatch, h]

lemma afterBatch_outOfRange {text : String} {batch : List ContentChange}
    (h : applyBatch text true batch = none) : afterBatch text batch = text := by
  simp [afterBatch, h]

lemma splitAtByte_append {text before after : List Char} {byte : Nat}
    (h : splitAtByte text byte = some (before, after)) :
    text = before ++ after ∧ utf8Length before = byte := by
  induction text generalizing byte before with
  | nil =>
    cases byte with
    | zero =>
      cases h
      exact ⟨rfl, rfl⟩
    | succ byte => cases h
  | cons c text ih =>
    cases byte with
    | zero =>
      cases h
      exact ⟨rfl, rfl⟩
    | succ byte =>
      rw [splitAtByte] at h
      split_ifs at h with hsize
      obtain ⟨⟨before', after'⟩, hrest, hcons⟩ := Option.map_eq_some_iff.mp h
      obtain ⟨rfl, rfl⟩ := Prod.mk.inj hcons
      obtain ⟨rfl, hlength⟩ := ih hrest
      refine ⟨rfl, ?_⟩
      have hcons' : utf8Length (c :: before') = c.utf8Size + utf8Length before' := by
        simp [utf8Length]
      omega

example : LineIndex.new "a\nbc" = ⟨[0, 2]⟩ := by decide

example : (applyContentChange "a\nbc" (LineIndex.new "a\nbc") ⟨some ⟨⟨1, 1⟩, ⟨1, 2⟩⟩, "xy"⟩).map
    (·.1) = some "a\nbxy" := by decide

lemma eq_nil_of_utf8Length {text : List Char} (h : utf8Length text = 0) : text = [] := by
  cases text with
  | nil => rfl
  | cons c text =>
    have hpos := c.utf8Size_pos
    simp [utf8Length] at h
    omega

/-- Of two parts in front of a text the shorter one is in front of the other. -/
lemma exists_append_of_utf8Length_le {before rest upto after : List Char}
    (h : before ++ rest = upto ++ after) (hle : utf8Length before ≤ utf8Length upto) :
    ∃ mid, upto = before ++ mid := by
  rcases List.append_eq_append_iff.mp h with ⟨mid, hmid, -⟩ | ⟨mid, hmid, -⟩
  · exact ⟨mid, hmid⟩
  · have hlength : utf8Length before = utf8Length upto + utf8Length mid := by
      simp [hmid, utf8Length]
    have hnil := eq_nil_of_utf8Length (show utf8Length mid = 0 by omega)
    exact ⟨[], by simp [hmid, hnil]⟩

/-- An accepted incremental change keeps the text in front of its range and behind it. -/
theorem applyContentChange_splices {source next : String} {index : LineIndex}
    {change : ContentChange} {edit : InputEdit}
    (h : applyContentChange source index change = some (next, some edit)) :
    ∃ before mid after, source.toList = before ++ mid ++ after ∧
      next.toList = before ++ change.text.toList ++ after ∧
      utf8Length before = edit.startByte ∧ utf8Length (before ++ mid) = edit.oldEndByte := by
  unfold applyContentChange at h
  cases hrange : change.range with
  | none => simp [hrange] at h
  | some range =>
    simp only [hrange, Option.bind_eq_bind, Option.bind_eq_some_iff] at h
    obtain ⟨start, -, stop, -, h⟩ := h
    split_ifs at h with horder
    simp only [Option.bind_eq_some_iff, Option.some.injEq, Prod.exists, Prod.mk.injEq] at h
    obtain ⟨before, rest, hbefore, upto, after, hafter, rfl, rfl⟩ := h
    obtain ⟨hsource, hstart⟩ := splitAtByte_append hbefore
    obtain ⟨hsource', hstop⟩ := splitAtByte_append hafter
    have hprefix := exists_append_of_utf8Length_le (hsource.symm.trans hsource') (by omega)
    obtain ⟨mid, rfl⟩ := hprefix
    exact ⟨before, mid, after, hsource', by simp, hstart, hstop⟩

/-- Appends `text` to the one-line document that ends at `column`. -/
def appendAt (column : Nat) (text : String) : ContentChange where
  range := some ⟨⟨0, column⟩, ⟨0, column⟩⟩
  text := text

end WitcherScriptLanguage
