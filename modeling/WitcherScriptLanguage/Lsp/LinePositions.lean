import WitcherScriptLanguage.Library.Lines
import WitcherScriptLanguage.Library.Splices
import WitcherScriptLanguage.Lsp.TextChange

/-!
# Bytes, lines and columns

The conversions of `line_index.rs` between byte offsets and positions, against the lines of the
text: a position is a line and a number of UTF-16 units in front of it in that line.
-/

namespace WitcherScriptLanguage

open Library

def isNewline (c : Char) : Bool := c == '\n'

/-- The lines of a text with their line feeds; the last line has none. -/
abbrev linesOf (text : List Char) : List (List Char) := lines isNewline text

def utf16Units (text : List Char) : Nat := (text.map utf16Length).sum

@[simp] lemma utf8Length_nil : utf8Length [] = 0 := rfl

@[simp] lemma utf8Length_cons (c : Char) (text : List Char) :
    utf8Length (c :: text) = c.utf8Size + utf8Length text := by
  simp [utf8Length]

@[simp] lemma utf8Length_append (a b : List Char) :
    utf8Length (a ++ b) = utf8Length a + utf8Length b := by
  simp [utf8Length]

@[simp] lemma utf16Units_nil : utf16Units [] = 0 := rfl

@[simp] lemma utf16Units_cons (c : Char) (text : List Char) :
    utf16Units (c :: text) = utf16Length c + utf16Units text := by
  simp [utf16Units]

@[simp] lemma utf16Units_append (a b : List Char) :
    utf16Units (a ++ b) = utf16Units a + utf16Units b := by
  simp [utf16Units]

lemma utf16Length_pos (c : Char) : 0 < utf16Length c := by
  unfold utf16Length
  split_ifs <;> omega

lemma utf16Length_le_two (c : Char) : utf16Length c ≤ 2 := by
  unfold utf16Length
  split_ifs <;> omega

/-- No character has more UTF-16 units than bytes. -/
lemma utf16Length_le_utf8Size (c : Char) : utf16Length c ≤ c.utf8Size := by
  unfold utf16Length
  have hpos := c.utf8Size_pos
  split_ifs with hsmall
  · omega
  · have hne : c.utf8Size ≠ 1 := fun h => hsmall (UInt32.lt_of_le_of_lt
      (Char.utf8Size_eq_one_iff.mp h) (by decide : (127 : UInt32) < 0x10000))
    omega

lemma utf16Units_le_utf8Length (text : List Char) : utf16Units text ≤ utf8Length text := by
  induction text with
  | nil => exact le_refl 0
  | cons c text ih =>
    have hc := utf16Length_le_utf8Size c
    rw [utf16Units_cons, utf8Length_cons]
    omega

lemma length_le_utf8Length (text : List Char) : text.length ≤ utf8Length text := by
  induction text with
  | nil => exact le_refl 0
  | cons c text ih =>
    have hc := c.utf8Size_pos
    rw [List.length_cons, utf8Length_cons]
    omega

lemma eq_nil_of_utf16Units {text : List Char} (h : utf16Units text = 0) : text = [] := by
  cases text with
  | nil => rfl
  | cons c text =>
    have hpos := utf16Length_pos c
    rw [utf16Units_cons] at h
    omega

/-- The units of a part in front of a line are not those up to the middle of a pair. -/
lemma not_between_units {c : Char} {col rest col' rest' : List Char}
    (hline : col ++ rest = col' ++ c :: rest') (hc : utf16Length c = 2)
    (hunits : utf16Units col = utf16Units col' + 1) : False := by
  rcases List.append_eq_append_iff.mp hline with ⟨mid, rfl, -⟩ | ⟨mid, rfl, hmid⟩
  · rw [utf16Units_append] at hunits
    omega
  · rw [utf16Units_append] at hunits
    cases mid with
    | nil =>
      rw [utf16Units_nil] at hunits
      omega
    | cons d mid =>
      rw [List.cons_append] at hmid
      have hd : c = d := (List.cons.inj hmid).1
      rw [utf16Units_cons, ← hd] at hunits
      omega

lemma utf8Size_of_isNewline {c : Char} (h : isNewline c = true) : c.utf8Size = 1 := by
  rw [beq_iff_eq.mp h]
  rfl

lemma lineStartsFrom_cons (c : Char) (text : List Char) (offset : Nat) :
    lineStartsFrom (c :: text) offset =
      if isNewline c then (offset + c.utf8Size) :: lineStartsFrom text (offset + c.utf8Size)
      else lineStartsFrom text (offset + c.utf8Size) := by
  rw [lineStartsFrom]
  by_cases hc : c = '\n'
  · have hnewline : isNewline c = true := beq_iff_eq.mpr hc
    rw [if_pos hc, if_pos hnewline, utf8Size_of_isNewline hnewline]
  · have hnewline : ¬isNewline c = true := fun h => hc (beq_iff_eq.mp h)
    rw [if_neg hc, if_neg hnewline]

lemma lineStartsFrom_append (before after : List Char) (offset : Nat) :
    lineStartsFrom (before ++ after) offset =
      lineStartsFrom before offset ++ lineStartsFrom after (offset + utf8Length before) := by
  induction before generalizing offset with
  | nil => rfl
  | cons c before ih =>
    rw [List.cons_append, lineStartsFrom_cons, lineStartsFrom_cons, ih, utf8Length_cons,
      ← Nat.add_assoc]
    split_ifs <;> rfl

/-- The starts lie behind the start of the text and not behind its end. -/
lemma mem_lineStartsFrom {text : List Char} {offset start : Nat}
    (h : start ∈ lineStartsFrom text offset) : offset < start ∧ start ≤ offset + utf8Length text := by
  induction text generalizing offset with
  | nil => cases h
  | cons c text ih =>
    have hc := c.utf8Size_pos
    rw [lineStartsFrom_cons] at h
    rw [utf8Length_cons]
    have hrest : start ∈ lineStartsFrom text (offset + c.utf8Size) →
        offset < start ∧ start ≤ offset + (c.utf8Size + utf8Length text) := by
      intro hmem
      have hih := ih hmem
      omega
    split_ifs at h with hnewline
    · rcases List.mem_cons.mp h with rfl | hmem
      · omega
      · exact hrest hmem
    · exact hrest h

/-- The start of a line is the length of the lines in front of it. -/
lemma getElem?_lineStarts (text : List Char) (offset k : Nat) :
    (offset :: lineStartsFrom text offset)[k]? =
      (linesOf text)[k]?.map fun _ => offset + utf8Length ((linesOf text).take k).flatten := by
  induction text generalizing offset k with
  | nil => cases k <;> rfl
  | cons c text ih =>
    rw [lineStartsFrom_cons, linesOf, lines]
    cases k with
    | zero => split_ifs <;> rfl
    | succ k =>
      rw [List.getElem?_cons_succ]
      split_ifs with hnewline
      · rw [ih, List.getElem?_cons_succ, List.take_succ_cons, List.flatten_cons,
          List.singleton_append, utf8Length_cons]
        simp only [Nat.add_assoc]
      · obtain ⟨line, rest, hlines⟩ :=
          List.exists_cons_of_length_pos (@length_lines_pos _ isNewline text)
        have hstarts := ih (offset + c.utf8Size) (k + 1)
        rw [linesOf, List.getElem?_cons_succ, hlines] at hstarts
        rw [hstarts, hlines]
        simp only [List.getElem?_cons_succ, List.take_succ_cons, List.flatten_cons,
          List.headD_cons, List.tail_cons, utf8Length_append, utf8Length_cons, Nat.add_assoc]

lemma length_lineStarts (text : List Char) (offset : Nat) :
    (lineStartsFrom text offset).length + 1 = (linesOf text).length := by
  induction text generalizing offset with
  | nil => rfl
  | cons c text ih =>
    have hih := ih (offset + c.utf8Size)
    rw [lineStartsFrom_cons, linesOf, lines]
    split_ifs
    · rw [List.length_cons, List.length_cons, hih]
    · rw [List.length_cons, List.length_tail, hih, linesOf]
      have hpos := @length_lines_pos _ isNewline text
      omega

/-- The starts that are not behind an offset are those of the text in front of it. -/
lemma takeWhile_lineStarts (before after : List Char) :
    (0 :: lineStartsFrom (before ++ after) 0).takeWhile
        (fun start => decide (start ≤ utf8Length before)) =
      0 :: lineStartsFrom before 0 := by
  have hfront : ∀ start ∈ 0 :: lineStartsFrom before 0,
      decide (start ≤ utf8Length before) = true := by
    intro start hstart
    apply decide_eq_true
    rcases List.mem_cons.mp hstart with rfl | h
    · exact Nat.zero_le _
    · have hbound := mem_lineStartsFrom h
      omega
  have hback : (lineStartsFrom after (0 + utf8Length before)).takeWhile
      (fun start => decide (start ≤ utf8Length before)) = [] := by
    cases hstarts : lineStartsFrom after (0 + utf8Length before) with
    | nil => rfl
    | cons start rest =>
      have hmem : start ∈ lineStartsFrom after (0 + utf8Length before) := by
        rw [hstarts]
        exact List.mem_cons_self
      have hbound := mem_lineStartsFrom hmem
      have hlt : ¬decide (start ≤ utf8Length before) = true := by
        rw [decide_eq_true_eq]
        omega
      rw [List.takeWhile_cons, if_neg hlt]
  rw [lineStartsFrom_append, ← List.cons_append, List.takeWhile_append_of_pos hfront, hback,
    List.append_nil]

lemma splitAtByte_eq_cut (text : List Char) (byte : Nat) :
    splitAtByte text byte = cut Char.utf8Size text byte := by
  induction text generalizing byte with
  | nil => cases byte <;> rfl
  | cons c text ih =>
    cases byte with
    | zero => rfl
    | succ byte =>
      rw [splitAtByte, cut, ih]

lemma splitAtByte_length (before after : List Char) :
    splitAtByte (before ++ after) (utf8Length before) = some (before, after) := by
  rw [splitAtByte_eq_cut]
  exact cut_append Char.utf8Size_pos before after

lemma sliceBytes_length (front middle after : List Char) :
    sliceBytes (front ++ (middle ++ after)) (utf8Length front) (utf8Length (front ++ middle)) =
      some middle := by
  have hlength : utf8Length (front ++ middle) - utf8Length front = utf8Length middle := by
    rw [utf8Length_append]
    omega
  have hfront : utf8Length front ≤ utf8Length (front ++ middle) := by
    rw [utf8Length_append]
    omega
  rw [sliceBytes, if_pos hfront, hlength]
  simp only [splitAtByte_length, Option.bind_some, Option.map_some]

/-- Positions are 32-bit numbers, and larger ones are cut off. -/
def SourcePosition.new (line character : Nat) : SourcePosition :=
  ⟨min line (2 ^ 32 - 1), min character (2 ^ 32 - 1)⟩

/-- The position of an offset, or `none` where it is no character boundary. -/
def LineIndex.byteToPosition (index : LineIndex) (source : String) (byte : Nat) :
    Option SourcePosition :=
  let lineIndex := (index.lineStarts.takeWhile (· ≤ byte)).length - 1
  let lineStart := (index.lineStarts[lineIndex]?).getD 0
  (sliceBytes source.toList lineStart byte).map fun before =>
    SourcePosition.new lineIndex (utf16Units before)

namespace LineIndex

variable {source : String} {front : List (List Char)} {col rest after : List Char}

lemma lineStarts_new (source : String) :
    (new source).lineStarts = 0 :: lineStartsFrom source.toList 0 := rfl

/-- A line starts behind the lines in front of it. -/
lemma lineStarts_of_lines {k : Nat} (hk : k < (linesOf source.toList).length) :
    (new source).lineStarts[k]? = some (utf8Length ((linesOf source.toList).take k).flatten) := by
  rw [lineStarts_new, getElem?_lineStarts, List.getElem?_eq_getElem hk, Option.map_some,
    Nat.zero_add]

/-- The line of an offset behind complete lines and a part of a line. -/
lemma partitionPoint_of_lines (hsource : source.toList = front.flatten ++ (col ++ after))
    (hfront : ∀ line ∈ front, Complete isNewline line) (hcol : Open isNewline col) :
    ((new source).lineStarts.takeWhile
      (· ≤ utf8Length (front.flatten ++ col))).length - 1 = front.length := by
  have hbefore : linesOf (front.flatten ++ col) = front ++ [col] := lines_eq_concat hfront hcol
  have hlength := length_lineStarts (front.flatten ++ col) 0
  rw [hbefore, List.length_append, List.length_singleton] at hlength
  have hstarts := takeWhile_lineStarts (front.flatten ++ col) after
  rw [lineStarts_new, hsource, ← List.append_assoc]
  rw [hstarts, List.length_cons]
  omega

lemma lineStart_of_lines (hsource : source.toList = front.flatten ++ (col ++ after))
    (hfront : ∀ line ∈ front, Complete isNewline line) :
    (new source).lineStarts[front.length]? = some (utf8Length front.flatten) := by
  have hlines : linesOf source.toList = front ++ linesOf (col ++ after) := by
    rw [hsource]
    exact lines_flatten_append hfront _
  have hlt : front.length < (linesOf source.toList).length := by
    have hpos : 0 < (linesOf (col ++ after)).length := length_lines_pos _
    rw [hlines, List.length_append]
    omega
  rw [lineStarts_of_lines hlt, hlines, List.take_left]

/-- The position behind complete lines and a part of a line. -/
lemma byteToPosition_of_lines (hsource : source.toList = front.flatten ++ (col ++ after))
    (hfront : ∀ line ∈ front, Complete isNewline line) (hcol : Open isNewline col) :
    (new source).byteToPosition source (utf8Length (front.flatten ++ col)) =
      some (.new front.length (utf16Units col)) := by
  have hindex := partitionPoint_of_lines hsource hfront hcol
  have hstart := lineStart_of_lines hsource hfront
  unfold byteToPosition
  simp only [hindex, hstart, Option.getD_some]
  rw [hsource, sliceBytes_length]
  rfl

/-- A column is the UTF-16 length of a part in front of the line. -/
lemma columnToByte_of_append (units offset : Nat) :
    columnToByte (units + utf16Units col) (col ++ rest) units offset =
      some (offset + utf8Length col) := by
  induction col generalizing units offset with
  | nil =>
    cases rest with
    | nil => simp [columnToByte]
    | cons c rest => simp [columnToByte]
  | cons c col ih =>
    have hc := utf16Length_pos c
    have hne : ¬units = units + utf16Units (c :: col) := by
      rw [utf16Units_cons]
      omega
    have hge : ¬units + utf16Units (c :: col) < units + utf16Length c := by
      rw [utf16Units_cons]
      omega
    have hih := ih (units + utf16Length c) (offset + c.utf8Size)
    rw [Nat.add_assoc, Nat.add_assoc, ← utf16Units_cons, ← utf8Length_cons] at hih
    rw [List.cons_append, columnToByte, if_neg hne, if_neg hge, hih]

/-- Conversely, an accepted column is one between two characters. -/
lemma columnToByte_eq_some {target units offset byte : Nat} {line : List Char}
    (h : columnToByte target line units offset = some byte) : ∃ col rest,
      line = col ++ rest ∧ target = units + utf16Units col ∧ byte = offset + utf8Length col := by
  induction line generalizing units offset with
  | nil =>
    rw [columnToByte] at h
    split_ifs at h with heq
    exact ⟨[], [], rfl, heq.symm, (Option.some.inj h).symm⟩
  | cons c line ih =>
    rw [columnToByte] at h
    split_ifs at h with heq hlt
    · exact ⟨[], c :: line, rfl, heq.symm, (Option.some.inj h).symm⟩
    · obtain ⟨col, rest, hline, htarget, hbyte⟩ := ih h
      refine ⟨c :: col, rest, by rw [hline]; rfl, ?_, ?_⟩
      · rw [utf16Units_cons]
        omega
      · rw [utf8Length_cons]
        omega

/-- A refused column is inside a surrogate pair or behind the line. -/
lemma columnToByte_eq_none {target units offset : Nat} {line : List Char}
    (h : columnToByte target line units offset = none) (hle : units ≤ target) :
    (∃ col c rest, line = col ++ c :: rest ∧ utf16Length c = 2 ∧
      target = units + utf16Units col + 1) ∨ units + utf16Units line < target := by
  induction line generalizing units offset with
  | nil =>
    rw [columnToByte] at h
    split_ifs at h with heq
    right
    rw [utf16Units_nil]
    omega
  | cons c line ih =>
    rw [columnToByte] at h
    split_ifs at h with heq hlt
    · left
      have htwo := utf16Length_le_two c
      refine ⟨[], c, line, rfl, by omega, ?_⟩
      rw [utf16Units_nil]
      omega
    · rcases ih h (by omega) with ⟨col, d, rest, hline, hd, htarget⟩ | hbehind
      · left
        refine ⟨c :: col, d, rest, by rw [hline]; rfl, hd, ?_⟩
        rw [utf16Units_cons]
        omega
      · right
        rw [utf16Units_cons]
        omega

/-! ### Round trips -/

/-- The source's positions are too few for longer texts. -/
def Addressable (source : String) : Prop := utf8Length source.toList < 2 ^ 32

lemma Addressable.length_lines_le {source : String} (h : Addressable source) :
    (linesOf source.toList).length ≤ 2 ^ 32 := by
  have hle : (linesOf source.toList).length ≤ source.toList.length + 1 :=
    Library.length_lines_le _
  have hbytes := length_le_utf8Length source.toList
  have hsize : utf8Length source.toList < 2 ^ 32 := h
  omega

/-- `source.is_char_boundary(byte)` -/
def Boundary (source : String) (byte : Nat) : Prop :=
  ∃ before after, source.toList = before ++ after ∧ utf8Length before = byte

lemma boundary_iff {source : String} {byte : Nat} :
    Boundary source byte ↔ (splitAtByte source.toList byte).isSome = true := by
  constructor
  · rintro ⟨before, after, hsource, rfl⟩
    rw [hsource, splitAtByte_length]
    rfl
  · intro h
    obtain ⟨⟨before, after⟩, hsplit⟩ := Option.isSome_iff_exists.mp h
    obtain ⟨hsource, hbyte⟩ := splitAtByte_append hsplit
    exact ⟨before, after, hsource, hbyte⟩

instance (source : String) (byte : Nat) : Decidable (Boundary source byte) :=
  decidable_of_iff _ boundary_iff.symm

/-- The position behind the line feed of its own line. -/
def PastNewline (source : String) (position : SourcePosition) : Prop :=
  ∃ line, (linesOf source.toList)[position.line]? = some line ∧ Complete isNewline line ∧
    position.character = utf16Units line

/-- The position between the two units of a character. -/
def InsidePair (source : String) (position : SourcePosition) : Prop :=
  ∃ col c rest, (linesOf source.toList)[position.line]? = some (col ++ c :: rest) ∧
    utf16Length c = 2 ∧ position.character = utf16Units col + 1

/-- The position is on no line, or behind the last unit of its line. -/
def BeyondText (source : String) (position : SourcePosition) : Prop :=
  ∀ line, (linesOf source.toList)[position.line]? = some line →
    utf16Units line < position.character

lemma mk_new {line character : Nat} (hline : line < 2 ^ 32) (hcharacter : character < 2 ^ 32) :
    SourcePosition.new line character = ⟨line, character⟩ := by
  rw [SourcePosition.new, Nat.min_eq_left (by omega), Nat.min_eq_left (by omega)]

/-- A line of the text, between the lines in front of it and those behind it. -/
lemma append_of_getElem?_lines {text line : List Char} {k : Nat}
    (hline : (linesOf text)[k]? = some line) :
    text = ((linesOf text).take k).flatten ++ (line ++ ((linesOf text).drop (k + 1)).flatten) := by
  obtain ⟨hlt, hget⟩ := List.getElem?_eq_some_iff.mp hline
  have hdrop : (linesOf text).drop k = line :: (linesOf text).drop (k + 1) := by
    rw [List.drop_eq_getElem_cons hlt, hget]
  have hflatten : (linesOf text).flatten = text := flatten_lines text
  calc text = (linesOf text).flatten := hflatten.symm
    _ = ((linesOf text).take k).flatten ++ ((linesOf text).drop k).flatten := by
        rw [← List.flatten_append, List.take_append_drop]
    _ = _ := by rw [hdrop, List.flatten_cons]

/-- A line ends where the next one starts, and the last one at the end of the text. -/
lemma lineEnd_of_lines {line : List Char} {k : Nat}
    (hline : (linesOf source.toList)[k]? = some line) :
    ((new source).lineStarts[k + 1]?).getD (utf8Length source.toList) =
      utf8Length (((linesOf source.toList).take k).flatten ++ line) := by
  obtain ⟨hlt, hget⟩ := List.getElem?_eq_some_iff.mp hline
  by_cases hnext : k + 1 < (linesOf source.toList).length
  · rw [lineStarts_of_lines hnext, Option.getD_some, List.take_succ_eq_append_getElem hlt, hget,
      List.flatten_append, List.flatten_singleton]
  · have hnone : (new source).lineStarts[k + 1]? = none := by
      rw [lineStarts_new, getElem?_lineStarts, List.getElem?_eq_none (by omega), Option.map_none]
    have hlast : (linesOf source.toList).drop (k + 1) = [] := List.drop_eq_nil_of_le (by omega)
    have htext := append_of_getElem?_lines hline
    rw [hlast, List.flatten_nil, List.append_nil] at htext
    rw [hnone, Option.getD_none, ← htext]

/-- A position is looked up in the lines of the text. -/
lemma positionToByte_eq (source : String) (position : SourcePosition) :
    (new source).positionToByte source position =
      (linesOf source.toList)[position.line]?.bind fun line =>
        columnToByte position.character line 0
          (utf8Length ((linesOf source.toList).take position.line).flatten) := by
  cases hline : (linesOf source.toList)[position.line]? with
  | none =>
    have hstart : (new source).lineStarts[position.line]? = none := by
      rw [lineStarts_new, getElem?_lineStarts, hline, Option.map_none]
    unfold positionToByte
    rw [hstart]
    rfl
  | some line =>
    have hlt := (List.getElem?_eq_some_iff.mp hline).1
    have hslice : sliceBytes source.toList
        (utf8Length ((linesOf source.toList).take position.line).flatten)
        (utf8Length (((linesOf source.toList).take position.line).flatten ++ line)) =
          some line := by
      have hcut := sliceBytes_length ((linesOf source.toList).take position.line).flatten line
        ((linesOf source.toList).drop (position.line + 1)).flatten
      rwa [← append_of_getElem?_lines hline] at hcut
    unfold positionToByte
    simp only [lineStarts_of_lines hlt, lineEnd_of_lines hline, hslice, Option.bind_eq_bind,
      Option.bind_some]

/-- The text in front of a position: lines, and a part of the position's line. -/
def Denotes (source : String) (position : SourcePosition) (before : List Char) : Prop :=
  ∃ col rest, (linesOf source.toList)[position.line]? = some (col ++ rest) ∧
    position.character = utf16Units col ∧
      before = ((linesOf source.toList).take position.line).flatten ++ col

/-- The accepted positions are those that denote a part in front of the text. -/
lemma positionToByte_eq_some {position : SourcePosition} {byte : Nat} :
    (new source).positionToByte source position = some byte ↔
      ∃ before, Denotes source position before ∧ utf8Length before = byte := by
  rw [positionToByte_eq, Option.bind_eq_some_iff]
  constructor
  · rintro ⟨line, hline, hcolumn⟩
    obtain ⟨col, rest, rfl, hcharacter, hbyte⟩ := columnToByte_eq_some hcolumn
    refine ⟨_, ⟨col, rest, hline, by rw [hcharacter, Nat.zero_add], rfl⟩, ?_⟩
    rw [hbyte, utf8Length_append]
  · rintro ⟨before, ⟨col, rest, hline, hcharacter, rfl⟩, rfl⟩
    refine ⟨col ++ rest, hline, ?_⟩
    have hcolumn := @columnToByte_of_append col rest 0
      (utf8Length ((linesOf source.toList).take position.line).flatten)
    rwa [Nat.zero_add, ← hcharacter, ← utf8Length_append] at hcolumn

lemma Denotes.exists_append {position : SourcePosition} {before : List Char}
    (h : Denotes source position before) : ∃ after, source.toList = before ++ after := by
  obtain ⟨col, rest, hline, -, rfl⟩ := h
  have htext := append_of_getElem?_lines hline
  rw [List.append_assoc, ← List.append_assoc] at htext
  exact ⟨_, htext⟩

/-- The position of a boundary has no saturated number. -/
lemma byteToPosition_of_addressable (haddr : Addressable source)
    (hsource : source.toList = front.flatten ++ (col ++ after))
    (hfront : ∀ line ∈ front, Complete isNewline line) (hcol : Open isNewline col) :
    (new source).byteToPosition source (utf8Length (front.flatten ++ col)) =
      some ⟨front.length, utf16Units col⟩ := by
  have hlines : linesOf source.toList = front ++ (col ++ (linesOf after).headD []) ::
      (linesOf after).tail := by
    rw [hsource, linesOf, lines_flatten_append hfront, lines_append_of_open hcol]
  have hlength : front.length < 2 ^ 32 := by
    have hbound := haddr.length_lines_le
    rw [hlines, List.length_append, List.length_cons] at hbound
    omega
  have hunits : utf16Units col < 2 ^ 32 := by
    have hle := utf16Units_le_utf8Length col
    have hsize : utf8Length source.toList < 2 ^ 32 := haddr
    rw [hsource, utf8Length_append, utf8Length_append] at hsize
    omega
  rw [byteToPosition_of_lines hsource hfront hcol, mk_new hlength hunits]

/-- A word moves the position within its line. -/
lemma byteToPosition_append_word (haddr : Addressable source) {before word rest : List Char}
    (hsource : source.toList = before ++ (word ++ rest)) (hword : Open isNewline word) :
    ∃ line units, (new source).byteToPosition source (utf8Length before) = some ⟨line, units⟩ ∧
      (new source).byteToPosition source (utf8Length (before ++ word)) =
        some ⟨line, units + utf16Units word⟩ := by
  obtain ⟨front, col, rfl, hfront, hcol⟩ := @exists_lines _ isNewline before
  rw [List.append_assoc] at hsource
  have hlong : Open isNewline (col ++ word) := by
    intro c hc
    rcases List.mem_append.mp hc with hc | hc
    · exact hcol c hc
    · exact hword c hc
  refine ⟨front.length, utf16Units col,
    byteToPosition_of_addressable haddr hsource hfront hcol, ?_⟩
  rw [← List.append_assoc col] at hsource
  rw [List.append_assoc, ← utf16Units_append]
  exact byteToPosition_of_addressable haddr hsource hfront hlong

/-- Later boundaries have later positions. -/
lemma byteToPosition_mono (haddr : Addressable source) {byte byte' : Nat}
    {position position' : SourcePosition} (hbyte : Boundary source byte)
    (hbyte' : Boundary source byte') (hle : byte ≤ byte')
    (h : (new source).byteToPosition source byte = some position)
    (h' : (new source).byteToPosition source byte' = some position') :
    position.line < position'.line ∨
      position.line = position'.line ∧ position.character ≤ position'.character := by
  obtain ⟨before, rest, hsource, rfl⟩ := hbyte
  obtain ⟨upto, after, hsource', rfl⟩ := hbyte'
  obtain ⟨mid, rfl⟩ := exists_append_of_utf8Length_le (hsource.symm.trans hsource') hle
  obtain ⟨front, col, rfl, hfront, hcol⟩ := @exists_lines _ isNewline before
  obtain ⟨below, last, rfl, hbelow, hlast⟩ := @exists_lines _ isNewline mid
  rw [List.append_assoc] at hsource
  rw [byteToPosition_of_addressable haddr hsource hfront hcol, Option.some.injEq] at h
  cases below with
  | nil =>
    right
    have hlong : Open isNewline (col ++ last) := by
      intro c hc
      rcases List.mem_append.mp hc with hc | hc
      · exact hcol c hc
      · exact hlast c hc
    simp only [List.flatten_nil, List.nil_append, List.append_assoc] at hsource' h'
    rw [← List.append_assoc col] at hsource'
    rw [byteToPosition_of_addressable haddr hsource' hfront hlong, Option.some.injEq] at h'
    rw [← h, ← h', utf16Units_append]
    exact ⟨rfl, Nat.le_add_right _ _⟩
  | cons line below =>
    left
    have hjoined : Complete isNewline (col ++ line) :=
      (hbelow line List.mem_cons_self).append_left hcol
    have hall : ∀ l ∈ front ++ (col ++ line) :: below, Complete isNewline l := by
      intro l hl
      rcases List.mem_append.mp hl with hl | hl
      · exact hfront l hl
      · rcases List.mem_cons.mp hl with rfl | hl
        · exact hjoined
        · exact hbelow l (List.mem_cons_of_mem line hl)
    have hupto : front.flatten ++ col ++ ((line :: below).flatten ++ last) =
        (front ++ (col ++ line) :: below).flatten ++ last := by
      simp only [List.flatten_append, List.flatten_cons, List.append_assoc]
    rw [hupto] at hsource' h'
    rw [List.append_assoc] at hsource'
    rw [byteToPosition_of_addressable haddr hsource' hall hlast, Option.some.injEq] at h'
    rw [← h, ← h', List.length_append, List.length_cons]
    simp only
    omega

/-- From a character boundary to its position and back. -/
lemma positionToByte_byteToPosition (haddr : Addressable source) {byte : Nat}
    (hbyte : Boundary source byte) : ∃ position,
      (new source).byteToPosition source byte = some position ∧
        (new source).positionToByte source position = some byte := by
  obtain ⟨before, after, hsource, rfl⟩ := hbyte
  obtain ⟨front, col, rfl, hfront, hcol⟩ := @exists_lines _ isNewline before
  rw [List.append_assoc] at hsource
  have hlines : linesOf source.toList = front ++ (col ++ (linesOf after).headD []) ::
      (linesOf after).tail := by
    rw [hsource, linesOf, lines_flatten_append hfront, lines_append_of_open hcol]
  refine ⟨_, byteToPosition_of_addressable haddr hsource hfront hcol, ?_⟩
  rw [positionToByte_eq, hlines]
  have hcolumn := @columnToByte_of_append col ((linesOf after).headD []) 0
    (utf8Length front.flatten)
  rw [Nat.zero_add, ← utf8Length_append] at hcolumn
  rw [List.getElem?_append_right (Nat.le_refl _), Nat.sub_self, List.getElem?_cons_zero,
    Option.bind_some, List.take_left, hcolumn]

/-- From an accepted position to its byte and back, unless it is past a line feed: then the way
back leads to the next line. -/
lemma byteToPosition_positionToByte (haddr : Addressable source) {position : SourcePosition}
    {byte : Nat} (h : (new source).positionToByte source position = some byte) :
    (new source).byteToPosition source byte = some position ↔ ¬PastNewline source position := by
  obtain ⟨before, ⟨col, rest, hline, hcharacter, rfl⟩, rfl⟩ := positionToByte_eq_some.mp h
  have htext := append_of_getElem?_lines hline
  have hmem := List.mem_of_getElem? hline
  have hlt := (List.getElem?_eq_some_iff.mp hline).1
  have hfront : ∀ line ∈ (linesOf source.toList).take position.line, Complete isNewline line :=
    complete_of_mem_take hlt
  have hlength : ((linesOf source.toList).take position.line).length = position.line :=
    List.length_take_of_le (Nat.le_of_lt hlt)
  by_cases hcol : Open isNewline col
  · have hforth : (new source).byteToPosition source
        (utf8Length (((linesOf source.toList).take position.line).flatten ++ col)) =
          some position := by
      rw [List.append_assoc col] at htext
      rw [byteToPosition_of_lines htext hfront hcol, hlength, ← hcharacter]
      congr 1
      apply mk_new
      · have hbound := haddr.length_lines_le
        omega
      · rw [hcharacter]
        have hsize : utf8Length source.toList < 2 ^ 32 := haddr
        have hle := utf16Units_le_utf8Length col
        rw [htext] at hsize
        simp only [utf8Length_append] at hsize
        omega
    refine iff_of_true hforth ?_
    rintro ⟨line, hline', hcomplete, hunits⟩
    rw [hline, Option.some.injEq] at hline'
    have hrest : rest = [] := by
      apply eq_nil_of_utf16Units
      rw [← hline', utf16Units_append] at hunits
      omega
    rw [hrest, List.append_nil] at hline'
    exact hcomplete.not_open (hline' ▸ hcol)
  · have hrest : rest = [] := by
      by_contra hne
      rcases complete_or_open hmem with hcomplete | hopen
      · exact hcol (hcomplete.open_of_append hne)
      · exact hcol fun c hc => hopen c (List.mem_append_left rest hc)
    subst hrest
    rw [List.append_nil] at hline hmem
    have hcomplete : Complete isNewline col := (complete_or_open hmem).resolve_right hcol
    have hforth : (new source).byteToPosition source
        (utf8Length (((linesOf source.toList).take position.line).flatten ++ col)) =
          some (.new (position.line + 1) 0) := by
      have hall : ∀ line ∈ (linesOf source.toList).take position.line ++ [col],
          Complete isNewline line := by
        intro line hin
        rcases List.mem_append.mp hin with hin | hin
        · exact hfront line hin
        · rwa [List.mem_singleton.mp hin]
      have hnext : source.toList = ((linesOf source.toList).take position.line ++ [col]).flatten ++
          ([] ++ ((linesOf source.toList).drop (position.line + 1)).flatten) := by
        simp only [List.flatten_append, List.flatten_singleton, List.nil_append, List.append_assoc]
        rwa [List.append_nil] at htext
      have hposition := byteToPosition_of_lines hnext hall (List.forall_mem_nil _)
      rwa [List.append_nil, List.flatten_append, List.flatten_singleton, List.length_append,
        hlength] at hposition
    refine iff_of_false ?_ fun hnot => hnot ⟨col, hline, hcomplete, hcharacter⟩
    rw [hforth, Option.some.injEq]
    intro heq
    have hzero : position.character = 0 := by
      rw [← heq]
      rfl
    have hnil : col = [] := eq_nil_of_utf16Units (hcharacter ▸ hzero)
    exact hcol (hnil ▸ List.forall_mem_nil _)

/-- The refused positions lie inside a surrogate pair or beyond the text. -/
lemma positionToByte_eq_none (source : String) (position : SourcePosition) :
    (new source).positionToByte source position = none ↔
      InsidePair source position ∨ BeyondText source position := by
  rw [positionToByte_eq]
  cases hline : (linesOf source.toList)[position.line]? with
  | none =>
    refine iff_of_true rfl (.inr ?_)
    intro line hline'
    rw [hline] at hline'
    cases hline'
  | some line =>
    rw [Option.bind_some]
    constructor
    · intro hnone
      rcases columnToByte_eq_none hnone (Nat.zero_le _) with
        ⟨col, c, rest, rfl, hc, hcharacter⟩ | hbehind
      · exact .inl ⟨col, c, rest, hline, hc, by omega⟩
      · right
        intro line' hline'
        rw [hline, Option.some.injEq] at hline'
        rw [← hline']
        omega
    · intro hrefused
      cases hcolumn : columnToByte position.character line 0
          (utf8Length ((linesOf source.toList).take position.line).flatten) with
      | none => rfl
      | some byte =>
        exfalso
        obtain ⟨col, rest, hcut, hcharacter, -⟩ := columnToByte_eq_some hcolumn
        rcases hrefused with ⟨col', c, rest', hline', hc, hinside⟩ | hbeyond
        · rw [hline, Option.some.injEq, hcut] at hline'
          exact not_between_units hline' hc (by omega)
        · have hlt := hbeyond line hline
          rw [hcut, utf16Units_append] at hlt
          omega

/-- On texts of fewer than 2^32 bytes the offsets of the character boundaries are recovered from
their positions, and the accepted positions from their offsets, except past a line feed. The
refused positions are inside a surrogate pair or beyond the text. -/
theorem roundTrips (haddr : Addressable source) :
    (∀ byte, Boundary source byte → ∃ position,
      (new source).byteToPosition source byte = some position ∧
        (new source).positionToByte source position = some byte) ∧
    (∀ position byte, (new source).positionToByte source position = some byte →
      ((new source).byteToPosition source byte = some position ↔
        ¬PastNewline source position)) ∧
    ∀ position, (new source).positionToByte source position = none ↔
      InsidePair source position ∨ BeyondText source position :=
  ⟨fun _ => positionToByte_byteToPosition haddr, fun _ _ => byteToPosition_positionToByte haddr,
    positionToByte_eq_none source⟩

theorem roundTrips_astral : Addressable "a\r\n😀" ∧
    (∃ position, (new "a\r\n😀").byteToPosition "a\r\n😀" 7 = some position ∧
      (new "a\r\n😀").positionToByte "a\r\n😀" position = some 7) ∧
    ((new "a\r\n😀").positionToByte "a\r\n😀" ⟨1, 1⟩ = none ↔
      InsidePair "a\r\n😀" ⟨1, 1⟩ ∨ BeyondText "a\r\n😀" ⟨1, 1⟩) := by
  have haddr : Addressable "a\r\n😀" := by
    show utf8Length "a\r\n😀".toList < 2 ^ 32
    decide
  have hend : Boundary "a\r\n😀" 7 := ⟨"a\r\n😀".toList, [], by decide, by decide⟩
  have htrips := @roundTrips "a\r\n😀" haddr
  exact ⟨haddr, htrips.1 7 hend, htrips.2.2 ⟨1, 1⟩⟩

end LineIndex

end WitcherScriptLanguage
