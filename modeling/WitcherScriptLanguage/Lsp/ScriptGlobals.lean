import WitcherScriptLanguage.Lsp.LinePositions
import WitcherScriptLanguage.Resolve.Inference
import WitcherScriptLanguage.Types.NormalForm

/-!
# Script globals

`parse_globals` (`script_env.rs`) reads the globals from the `[globals]` sections of an INI file
and records where their names stand. It counts bytes for the offsets and for the columns alike,
so a column is a UTF-16 column where the bytes in front of it are ASCII.
-/

namespace WitcherScriptLanguage.ScriptGlobals

open Library

/-- A line without the line feed, or carriage return and line feed, that ends it. -/
def stripLineEnding (line : List Char) : List Char :=
  if line.getLast? = some '\n' then
    if line.dropLast.getLast? = some '\r' then line.dropLast.dropLast else line.dropLast
  else line

/-- `content.lines()`: nothing behind the last line feed is no line. -/
def contentLines (content : List Char) : List (List Char) :=
  (if (linesOf content).getLast? = some [] then (linesOf content).dropLast
    else linesOf content).map stripLineEnding

def splitOnce (delimiter : Char) (s : List Char) : Option (List Char × List Char) :=
  match s.dropWhile (· ≠ delimiter) with
  | [] => none
  | _ :: val => some (s.takeWhile (· ≠ delimiter), val)

/-- The byte offset of the first occurrence of a text. -/
def find (needle : List Char) : List Char → Option Nat
  | [] => if needle.isEmpty then some 0 else none
  | c :: rest =>
    if needle.isPrefixOf (c :: rest) then some 0
    else (find needle rest).map (· + c.utf8Size)

/-- A line that declares a global. -/
structure Entry where
  line : List Char
  lineIdx : Nat
  name : List Char
  typeName : List Char
  deriving DecidableEq

/-- The lines from which the loop of `parse_globals` makes globals. -/
def entriesFrom : Bool → List (List Char × Nat) → List Entry
  | _, [] => []
  | inGlobals, (line, lineIdx) :: rest =>
    let trimmed := trim line
    if trimmed.head? = some '[' then
      entriesFrom (trimmed.map Char.toLower == "[globals]".toList) rest
    else if !inGlobals || trimmed.head? = some ';' || trimmed.isEmpty then
      entriesFrom inGlobals rest
    else match splitOnce '=' trimmed with
      | none => entriesFrom inGlobals rest
      | some (key, val) =>
        if (trim key).isEmpty || (trim val).isEmpty then entriesFrom inGlobals rest
        else ⟨line, lineIdx, trim key, trim val⟩ :: entriesFrom inGlobals rest

def globalEntries (content : String) : List Entry :=
  entriesFrom false (contentLines content.toList).zipIdx

def globalSymbol (name typeName : List Char) (range : SourceRange) (byteRange : ByteRange) :
    Symbol where
  id := ⟨0⟩
  name := String.ofList name
  kind := .variable
  byteRange := byteRange
  selectionByteRange := byteRange
  selectionRange := range
  typeAnnotation := some (fromAnnotationText typeName)

def globalOf (lineStarts : List Nat) (iniUri : String) (e : Entry) : ScriptGlobal :=
  let keyCol := (find e.name e.line).getD 0
  let lineStart := (lineStarts[e.lineIdx]?).getD 0
  let byteStart := lineStart + keyCol
  let byteEnd := byteStart + utf8Length e.name
  let start := SourcePosition.new e.lineIdx keyCol
  let stop := SourcePosition.new e.lineIdx (keyCol + utf8Length e.name)
  { name := String.ofList e.name
    typeName := String.ofList e.typeName
    iniUri := iniUri
    symbol := globalSymbol e.name e.typeName ⟨start, stop⟩ ⟨byteStart, byteEnd⟩ }

def parseGlobals (content iniUri : String) : List ScriptGlobal :=
  (globalEntries content).map (globalOf (LineIndex.new content).lineStarts iniUri)

/-- The recorded bytes spell the name. -/
def SpellsName (content : String) (g : ScriptGlobal) : Prop :=
  sliceBytes content.toList g.symbol.byteRange.start g.symbol.byteRange.stop = some g.name.toList

/-- The recorded positions are those of the recorded bytes. -/
def PositionsRight (content : String) (g : ScriptGlobal) : Prop :=
  (LineIndex.new content).byteToPosition content g.symbol.byteRange.start =
      some g.symbol.selectionRange.start ∧
    (LineIndex.new content).byteToPosition content g.symbol.byteRange.stop =
      some g.symbol.selectionRange.stop

/-- The white space in front of the name. -/
def Entry.indent (e : Entry) : List Char := e.line.takeWhile isWhitespace

/-- The bytes of a text are as many as its UTF-16 units, or both are too many for a position. -/
def SameColumn (text : List Char) : Prop :=
  (∀ c ∈ text, c.val ≤ 127) ∨ 2 ^ 32 - 1 ≤ utf16Units text

/-- The text in front of the name, and up to its end, has one column in both counts. -/
def Entry.SameColumns (e : Entry) : Prop := SameColumn e.indent ∧ SameColumn (e.indent ++ e.name)

lemma utf16Length_eq_utf8Size_iff (c : Char) : utf16Length c = c.utf8Size ↔ c.val ≤ 127 := by
  rw [← Char.utf8Size_eq_one_iff]
  constructor
  · intro h
    by_cases hsmall : c.val < 0x10000
    · rw [← h, utf16Length, if_pos hsmall]
    · rw [utf16Length, if_neg hsmall] at h
      have hrange := Char.utf8Size_eq_two_iff.mp h.symm
      exact absurd (UInt32.lt_of_le_of_lt hrange.2 (by decide)) hsmall
  · intro h
    have hle := utf16Length_le_utf8Size c
    have hpos := utf16Length_pos c
    omega

lemma utf8Length_eq_utf16Units_iff (text : List Char) :
    utf8Length text = utf16Units text ↔ ∀ c ∈ text, c.val ≤ 127 := by
  induction text with
  | nil => simp
  | cons c text ih =>
    have hc := utf16Length_le_utf8Size c
    have htext := utf16Units_le_utf8Length text
    rw [utf8Length_cons, utf16Units_cons, List.forall_mem_cons, ← ih,
      ← utf16Length_eq_utf8Size_iff]
    omega

lemma new_eq_new_iff (line a b : Nat) :
    SourcePosition.new line a = SourcePosition.new line b ↔
      a = b ∨ 2 ^ 32 - 1 ≤ a ∧ 2 ^ 32 - 1 ≤ b := by
  unfold SourcePosition.new
  rw [SourcePosition.mk.injEq]
  omega

lemma new_utf16Units_eq_iff (line : Nat) (text : List Char) :
    SourcePosition.new line (utf16Units text) = SourcePosition.new line (utf8Length text) ↔
      SameColumn text := by
  have hle := utf16Units_le_utf8Length text
  rw [new_eq_new_iff, SameColumn, ← utf8Length_eq_utf16Units_iff]
  omega

lemma exists_eq_stripLineEnding (line : List Char) :
    ∃ ending, line = stripLineEnding line ++ ending := by
  have hdrop : ∀ l : List Char, ∃ ending, l = l.dropLast ++ ending := fun l =>
    let ⟨ending, h⟩ := List.dropLast_prefix l
    ⟨ending, h.symm⟩
  obtain ⟨last, hlast⟩ := hdrop line
  obtain ⟨last', hlast'⟩ := hdrop line.dropLast
  unfold stripLineEnding
  split_ifs
  · exact ⟨last' ++ last, by rw [← List.append_assoc, ← hlast', ← hlast]⟩
  · exact ⟨last, hlast⟩
  · exact ⟨[], (List.append_nil line).symm⟩

/-- A line of the content has no line feed. -/
lemma open_stripLineEnding {text line : List Char} (h : line ∈ linesOf text) :
    Open isNewline (stripLineEnding line) := by
  rcases complete_or_open h with ⟨body, a, rfl, hbody, ha⟩ | hopen
  · obtain rfl : a = '\n' := beq_iff_eq.mp ha
    rw [stripLineEnding, List.getLast?_concat, if_pos rfl, List.dropLast_concat]
    split_ifs
    · exact fun c hc => hbody c (List.dropLast_subset body hc)
    · exact hbody
  · have hlast : line.getLast? ≠ some '\n' := fun hlast =>
      Bool.false_ne_true ((hopen '\n' (List.mem_of_getLast? hlast)).symm)
    rw [stripLineEnding, if_neg hlast]
    exact hopen

/-- Where a line of the content stands in the text. -/
lemma exists_of_contentLines {content line : List Char} {k : Nat}
    (h : (contentLines content)[k]? = some line) :
    ∃ (front : List (List Char)) (rest : List Char),
      content = front.flatten ++ (line ++ rest) ∧ front.length = k ∧
      (∀ l ∈ front, Complete isNewline l) ∧ Open isNewline line := by
  have hraw : ∃ raw, (linesOf content)[k]? = some raw ∧ stripLineEnding raw = line := by
    rw [contentLines, List.getElem?_map, Option.map_eq_some_iff] at h
    obtain ⟨raw, hraw, hline⟩ := h
    refine ⟨raw, ?_, hline⟩
    split_ifs at hraw
    · rw [List.getElem?_dropLast] at hraw
      split_ifs at hraw
      exact hraw
    · exact hraw
  obtain ⟨raw, hraw, rfl⟩ := hraw
  obtain ⟨hk, hget⟩ := List.getElem?_eq_some_iff.mp hraw
  obtain ⟨ending, hending⟩ := exists_eq_stripLineEnding raw
  refine ⟨(linesOf content).take k, ending ++ ((linesOf content).drop (k + 1)).flatten, ?_, ?_,
    complete_of_mem_take hk, open_stripLineEnding (List.mem_of_getElem? hraw)⟩
  · have hsplit : linesOf content =
        (linesOf content).take k ++ raw :: (linesOf content).drop (k + 1) := by
      rw [← hget, ← List.drop_eq_getElem_cons hk, List.take_append_drop]
    have hflatten := congrArg List.flatten hsplit
    rw [flatten_lines, List.flatten_append, List.flatten_cons] at hflatten
    rw [← List.append_assoc (stripLineEnding raw), ← hending]
    exact hflatten
  · rw [List.length_take]
    omega

/-- A text that begins with no white space is found behind the white space. -/
lemma find_append {indent name rest : List Char} {a : Char}
    (hindent : ∀ c ∈ indent, isWhitespace c = true) (ha : isWhitespace a = false) :
    find (a :: name) (indent ++ (a :: name ++ rest)) = some (utf8Length indent) := by
  induction indent with
  | nil =>
    rw [List.nil_append, List.cons_append, find, if_pos]
    · rfl
    · rw [← List.cons_append]
      exact List.isPrefixOf_iff_prefix.mpr (List.prefix_append _ rest)
  | cons c indent ih =>
    have hc : c ≠ a := by
      rintro rfl
      rw [hindent c List.mem_cons_self] at ha
      cases ha
    have hno : (a :: name).isPrefixOf (c :: (indent ++ (a :: name ++ rest))) = false := by
      simp [List.isPrefixOf, Ne.symm hc]
    rw [List.cons_append, find, hno, if_neg Bool.false_ne_true,
      ih fun c' hc' => hindent c' (List.mem_cons_of_mem c hc'), Option.map_some, utf8Length_cons,
      Nat.add_comm]

lemma eq_append_of_splitOnce {delimiter : Char} {s key val : List Char}
    (h : splitOnce delimiter s = some (key, val)) : ∃ rest, s = key ++ rest := by
  unfold splitOnce at h
  split at h
  · cases h
  · obtain ⟨rfl, -⟩ := Prod.mk.inj (Option.some.inj h)
    exact ⟨_, List.takeWhile_append_dropWhile.symm⟩

/-- A declared name stands behind the white space of its line, and begins with none. -/
structure Entry.Stands (e : Entry) : Prop where
  line : ∃ rest, e.line = e.indent ++ (e.name ++ rest)
  name : ∃ a name, e.name = a :: name ∧ isWhitespace a = false

lemma stands_of_trim {line key val typeName : List Char} {lineIdx : Nat}
    (hsplit : splitOnce '=' (trim line) = some (key, val)) (hne : trim key ≠ []) :
    Entry.Stands ⟨line, lineIdx, trim key, typeName⟩ := by
  obtain ⟨⟨a, name, hname, ha⟩, -⟩ := ends_of_trim_eq (trim_trim key) hne
  refine ⟨?_, a, name, hname, ha⟩
  obtain ⟨l, r, hline, hl, -⟩ := exists_eq_trim line
  obtain ⟨l', r', hkey, hl', -⟩ := exists_eq_trim key
  obtain ⟨rest, hrest⟩ := eq_append_of_splitOnce hsplit
  have hsplitLine : line = (l ++ l') ++ (a :: name ++ (r' ++ (rest ++ r))) := by
    rw [hrest, hkey, hname] at hline
    simpa using hline
  have hindent : line.takeWhile isWhitespace = l ++ l' := by
    have hall : ∀ c ∈ l ++ l', isWhitespace c = true := fun c hc =>
      (List.mem_append.mp hc).elim (hl c) (hl' c)
    rw [hsplitLine, List.takeWhile_append_of_pos hall, List.cons_append,
      List.takeWhile_cons_of_neg (by simp [ha]), List.append_nil]
  refine ⟨r' ++ (rest ++ r), ?_⟩
  rw [Entry.indent, hindent]
  simpa [hname] using hsplitLine

/-- Every entry is one of the lines, with its name in it. -/
lemma mem_entriesFrom {inGlobals : Bool} {ls : List (List Char × Nat)} {e : Entry}
    (h : e ∈ entriesFrom inGlobals ls) : (e.line, e.lineIdx) ∈ ls ∧ e.Stands := by
  induction ls generalizing inGlobals with
  | nil => cases h
  | cons entry ls ih =>
    obtain ⟨line, lineIdx⟩ := entry
    have hlater : ∀ inGlobals', e ∈ entriesFrom inGlobals' ls →
        (e.line, e.lineIdx) ∈ (line, lineIdx) :: ls ∧ e.Stands := fun inGlobals' h =>
      ⟨List.mem_cons_of_mem _ (ih h).1, (ih h).2⟩
    rw [entriesFrom] at h
    split_ifs at h
    · exact hlater _ h
    · exact hlater _ h
    · split at h
      · exact hlater _ h
      · rename_i key val hsplit
        split_ifs at h with hempty
        · exact hlater _ h
        · rcases List.mem_cons.mp h with rfl | h
          · have hne : trim key ≠ [] := fun hkey => hempty (by simp [hkey])
            exact ⟨List.mem_cons_self, stands_of_trim hsplit hne⟩
          · exact hlater _ h

/-- Where the name of an entry stands in the text. -/
lemma exists_of_globalEntries {content : String} {e : Entry} (h : e ∈ globalEntries content) :
    ∃ (front : List (List Char)) (rest : List Char),
      content.toList = front.flatten ++ (e.indent ++ (e.name ++ rest)) ∧
      front.length = e.lineIdx ∧ (∀ l ∈ front, Complete isNewline l) ∧
      Open isNewline (e.indent ++ e.name) ∧ find e.name e.line = some (utf8Length e.indent) := by
  obtain ⟨hmem, ⟨rest, hline⟩, a, name, hname, ha⟩ := mem_entriesFrom h
  have hget : (contentLines content.toList)[e.lineIdx]? = some e.line := by
    simpa using List.mem_zipIdx_iff_getElem?.mp hmem
  obtain ⟨front, rest', hcontent, hlength, hfront, hopen⟩ := exists_of_contentLines hget
  refine ⟨front, rest ++ rest', ?_, hlength, hfront, ?_, ?_⟩
  · rw [hcontent, hline]
    simp
  · intro c hc
    refine hopen c ?_
    rw [hline, ← List.append_assoc]
    exact List.mem_append_left _ hc
  · conv_lhs => rw [hline, hname]
    exact find_append (fun c hc => List.mem_takeWhile_imp hc) ha

lemma coordinates_of_entry {content : String} {e : Entry} (iniUri : String)
    (h : e ∈ globalEntries content) :
    SpellsName content (globalOf (LineIndex.new content).lineStarts iniUri e) ∧
      (PositionsRight content (globalOf (LineIndex.new content).lineStarts iniUri e) ↔
        e.SameColumns) := by
  obtain ⟨front, rest, hcontent, hlength, hfront, hopen, hfind⟩ := exists_of_globalEntries h
  have hstart : (LineIndex.new content).lineStarts[e.lineIdx]? = some (utf8Length front.flatten) := by
    rw [← hlength]
    exact LineIndex.lineStart_of_lines hcontent hfront
  have hindent : Open isNewline e.indent := fun c hc => hopen c (List.mem_append_left _ hc)
  have hbyteStart := LineIndex.byteToPosition_of_lines hcontent hfront hindent
  have hcontent' : content.toList = front.flatten ++ ((e.indent ++ e.name) ++ rest) := by
    rw [hcontent, List.append_assoc]
  have hbyteStop := LineIndex.byteToPosition_of_lines hcontent' hfront hopen
  have hrange : (globalOf (LineIndex.new content).lineStarts iniUri e).symbol.byteRange =
      ⟨utf8Length (front.flatten ++ e.indent),
        utf8Length (front.flatten ++ (e.indent ++ e.name))⟩ := by
    simp [globalOf, globalSymbol, hfind, hstart, Nat.add_assoc]
  have hpositions : (globalOf (LineIndex.new content).lineStarts iniUri e).symbol.selectionRange =
      ⟨.new e.lineIdx (utf8Length e.indent), .new e.lineIdx (utf8Length (e.indent ++ e.name))⟩ := by
    simp [globalOf, globalSymbol, hfind]
  constructor
  · unfold SpellsName
    rw [hrange, hcontent, ← List.append_assoc front.flatten, ← List.append_assoc front.flatten,
      sliceBytes_length]
    simp [globalOf]
  · unfold PositionsRight Entry.SameColumns
    rw [hrange, hpositions, hbyteStart, hbyteStop, hlength, Option.some_inj, Option.some_inj,
      new_utf16Units_eq_iff, new_utf16Units_eq_iff]

/-- The recorded bytes of every global spell its name. The recorded positions are the UTF-16
positions of these bytes on every line just when what stands in front of the name there, and the
name, are ASCII. -/
theorem parseGlobals_coordinates_iff (content iniUri : String) :
    (∀ g ∈ parseGlobals content iniUri, SpellsName content g) ∧
    ((∀ g ∈ parseGlobals content iniUri, SpellsName content g ∧ PositionsRight content g) ↔
      ∀ e ∈ globalEntries content, e.SameColumns) := by
  constructor
  · intro g hg
    obtain ⟨e, he, rfl⟩ := List.mem_map.mp hg
    exact (coordinates_of_entry iniUri he).1
  · constructor
    · intro h e he
      exact (coordinates_of_entry iniUri he).2.mp (h _ (List.mem_map_of_mem he)).2
    · intro h g hg
      obtain ⟨e, he, rfl⟩ := List.mem_map.mp hg
      obtain ⟨hspells, hpositions⟩ := coordinates_of_entry iniUri he
      exact ⟨hspells, hpositions.mpr (h e he)⟩

/-- The end of a name with a letter of two bytes is recorded one unit too far. -/
theorem not_positionsRight_accentedName :
    ¬ ∀ content iniUri : String, ∀ g ∈ parseGlobals content iniUri,
      SpellsName content g ∧ PositionsRight content g := by
  intro h
  let content := "[globals]\n\u00e9=CR4Game\n"
  let e : Entry := ⟨"\u00e9=CR4Game".toList, 1, "\u00e9".toList, "CR4Game".toList⟩
  have he : e ∈ globalEntries content := by decide
  have hright := h content "file:///redscripts.ini" _ (List.mem_map_of_mem he)
  have hcolumns := (coordinates_of_entry "file:///redscripts.ini" he).2.mp hright.2
  rcases hcolumns.2 with hascii | hlong
  · exact absurd (hascii '\u00e9' (by decide)) (by decide)
  · exact absurd hlong (by decide)

end WitcherScriptLanguage.ScriptGlobals
