import WitcherScriptLanguage.Lsp.ScriptGlobals

/-!
# The layout of native declarations

The engine's types have no sources; `builtins/native_layout.rs` writes declarations for them and
marks where each of them stands. The build script keeps the marks and drops the text, the server
writes the text again when a declaration is opened. A mark counts its column in bytes.
-/

namespace WitcherScriptLanguage.Native

open Library

inductive TypeRecord
  | native | «class» | struct | «enum»
  deriving DecidableEq, Repr

inductive MemberRecord
  | field | method | enumOption
  deriving DecidableEq, Repr

inductive Abstraction
  | abstract | concrete
  deriving DecidableEq, Repr

structure Mark where
  byte : Nat
  line : Nat
  column : Nat
  deriving DecidableEq, Repr

structure Span where
  start : Mark
  stop : Mark
  deriving DecidableEq, Repr

structure DeclarationSpans where
  range : Span
  selection : Span
  deriving DecidableEq, Repr

structure TypeHeader where
  record : TypeRecord
  name : List Char
  base : Option (List Char)
  abstraction : Abstraction
  deriving DecidableEq, Repr

structure Member where
  record : MemberRecord
  name : List Char
  detail : List Char
  deriving DecidableEq, Repr

structure LayoutWriter where
  text : List Char := []
  line : Nat := 0
  lineStart : Nat := 0
  deriving DecidableEq, Repr

namespace LayoutWriter

variable (w : LayoutWriter)

def push (fragment : List Char) : LayoutWriter :=
  (lineStartsFrom fragment (utf8Length w.text)).foldl
    (fun w start => { w with line := w.line + 1, lineStart := start })
    { w with text := w.text ++ fragment }

/-- Panics where the text is too long for 32 bits. -/
def mark : Option Mark :=
  if utf8Length w.text < 2 ^ 32 then
    some ⟨utf8Length w.text, w.line, utf8Length w.text - w.lineStart⟩
  else none

def pushSpanned (fragment : List Char) : Option (Span × LayoutWriter) :=
  w.mark.bind fun start => (w.push fragment).mark.map fun stop => (⟨start, stop⟩, w.push fragment)

def spansFrom (start : Mark) (selection : Span) : Option DeclarationSpans :=
  w.mark.map fun stop => ⟨⟨start, stop⟩, selection⟩

end LayoutWriter

/-- The line of a member up to its name, the name with its span, and the rest of the line. -/
def pushMember (w : LayoutWriter) (member : Member) : Option (Span × LayoutWriter) :=
  match member.record with
  | .field =>
    ((w.push "import var ".toList).pushSpanned member.name).map fun (selection, w) =>
      (selection, ((w.push " : ".toList).push member.detail).push ";".toList)
  | .method =>
    ((w.push "import function ".toList).pushSpanned member.name).map fun (selection, w) =>
      (selection, w.push "(...);".toList)
  | .enumOption =>
    (w.pushSpanned member.name).map fun (selection, w) =>
      (selection, (w.push " = ".toList).push member.detail)

def renderMember (w : LayoutWriter) (index : Nat) (member : Member) :
    Option (DeclarationSpans × LayoutWriter) :=
  let w := if member.record = .enumOption ∧ 0 < index then w.push ",".toList else w
  let w := w.push "\n    ".toList
  w.mark.bind fun start => (pushMember w member).bind fun (selection, w) =>
    (w.spansFrom start selection).map fun spans => (spans, w)

/-- The loop over the members, with the spans that it reports. -/
def renderMembers : LayoutWriter → Nat → List Member →
    Option (List DeclarationSpans × LayoutWriter)
  | w, _, [] => some ([], w)
  | w, index, member :: members =>
    (renderMember w index member).bind fun (spans, w) =>
      (renderMembers w (index + 1) members).map fun (rest, w) => (spans :: rest, w)

/-- A rendered type: its text, the spans of its members and those of the type itself, which are
reported last. -/
structure RenderedType where
  text : List Char
  members : List DeclarationSpans
  header : DeclarationSpans
  deriving DecidableEq, Repr

def TypeRecord.keyword : TypeRecord → List Char
  | .struct => "struct ".toList
  | .enum => "enum ".toList
  | .native | .class => "class ".toList

def renderType (header : TypeHeader) (members : List Member) : Option RenderedType :=
  let w : LayoutWriter := {}
  w.mark.bind fun start =>
    let w := if header.abstraction = .abstract then w.push "abstract ".toList else w
    ((w.push header.record.keyword).pushSpanned header.name).bind fun (headerSelection, w) =>
      let w := match header.base with
        | some base => (w.push " extends ".toList).push base
        | none => w
      (renderMembers (w.push " \x7b".toList) 0 members).bind fun (spans, w) =>
        let w := if members = [] then w else w.push "\n".toList
        let w := w.push "\x7d\n".toList
        (w.spansFrom start headerSelection).map fun headerSpans => ⟨w.text, spans, headerSpans⟩

/-- The loop over the global functions, with the spans that it reports. -/
def renderGlobalsFrom : LayoutWriter → List (List Char) →
    Option (List DeclarationSpans × LayoutWriter)
  | w, [] => some ([], w)
  | w, name :: names =>
    w.mark.bind fun start =>
      ((w.push "import function ".toList).pushSpanned name).bind fun (selection, w) =>
        let w := w.push "(...);".toList
        (w.spansFrom start selection).bind fun spans =>
          (renderGlobalsFrom (w.push "\n".toList) names).map fun (rest, w) => (spans :: rest, w)

def renderGlobals (names : List (List Char)) : Option (List Char × List DeclarationSpans) :=
  (renderGlobalsFrom {} names).map fun (spans, w) => (w.text, spans)

/-- The writer that has written a text. -/
def writerOf (text : List Char) : LayoutWriter :=
  ⟨text, (lineStartsFrom text 0).length, ((lineStartsFrom text 0).getLast?).getD 0⟩

/-- The mark at the end of a text. -/
def markOf (text : List Char) : Mark :=
  ⟨utf8Length text, (writerOf text).line, utf8Length text - (writerOf text).lineStart⟩

lemma foldl_starts (w : LayoutWriter) (starts : List Nat) :
    starts.foldl (fun w start => { w with line := w.line + 1, lineStart := start }) w =
      { w with
        line := w.line + starts.length
        lineStart := (starts.getLast?).getD w.lineStart } := by
  induction starts generalizing w with
  | nil => rfl
  | cons start starts ih =>
    rw [List.foldl_cons, ih]
    cases starts with
    | nil => rfl
    | cons next starts =>
      have hcount : w.line + 1 + (next :: starts).length =
          w.line + (start :: next :: starts).length := by
        simp only [List.length_cons]
        omega
      have hlast : (next :: starts).getLast? = (start :: next :: starts).getLast? := by
        rw [List.getLast?_cons_cons]
      have hsome : ((next :: starts).getLast?).isSome := by simp
      obtain ⟨last, hsome⟩ := Option.isSome_iff_exists.mp hsome
      rw [hcount, ← hlast, hsome]
      rfl

@[simp] lemma push_writerOf (text fragment : List Char) :
    (writerOf text).push fragment = writerOf (text ++ fragment) := by
  have hstarts : lineStartsFrom (text ++ fragment) 0 =
      lineStartsFrom text 0 ++ lineStartsFrom fragment (utf8Length text) := by
    rw [lineStartsFrom_append, Nat.zero_add]
  unfold LayoutWriter.push
  rw [foldl_starts]
  unfold writerOf
  rw [hstarts, List.length_append, List.getLast?_append]
  cases (lineStartsFrom fragment (utf8Length text)).getLast? <;> rfl

lemma writerOf_nil : ({} : LayoutWriter) = writerOf [] := rfl

lemma text_writerOf (text : List Char) : (writerOf text).text = text := rfl

lemma mark_writerOf {text : List Char} {m : Mark} :
    (writerOf text).mark = some m ↔ utf8Length text < 2 ^ 32 ∧ markOf text = m := by
  unfold LayoutWriter.mark
  rw [text_writerOf]
  by_cases hfits : utf8Length text < 2 ^ 32
  · rw [if_pos hfits, Option.some.injEq]
    exact ⟨fun h => ⟨hfits, h⟩, fun h => h.2⟩
  · rw [if_neg hfits]
    exact ⟨fun h => absurd h (Option.some_ne_none m).symm, fun h => absurd h.1 hfits⟩

/-- The marks of a declaration behind `front`: `before` stands in it in front of its name, and
`behind` behind the name. -/
def spansAt (front before name behind : List Char) : DeclarationSpans where
  range := ⟨markOf front, markOf (front ++ (before ++ (name ++ behind)))⟩
  selection := ⟨markOf (front ++ before), markOf (front ++ (before ++ name))⟩

lemma pushSpanned_writerOf {text name : List Char} {pushed : Span × LayoutWriter} :
    (writerOf text).pushSpanned name = some pushed ↔ utf8Length (text ++ name) < 2 ^ 32 ∧
      pushed = (⟨markOf text, markOf (text ++ name)⟩, writerOf (text ++ name)) := by
  unfold LayoutWriter.pushSpanned
  rw [push_writerOf, Option.bind_eq_some_iff]
  simp only [mark_writerOf, Option.map_eq_some_iff]
  constructor
  · rintro ⟨start, ⟨-, rfl⟩, stop, ⟨hfits, rfl⟩, rfl⟩
    exact ⟨hfits, rfl⟩
  · rintro ⟨hfits, rfl⟩
    have hshort : utf8Length text < 2 ^ 32 := by
      rw [utf8Length_append] at hfits
      omega
    exact ⟨_, ⟨hshort, rfl⟩, _, ⟨hfits, rfl⟩, rfl⟩

/-- What stands in front of a member's name. -/
def MemberRecord.keywords : MemberRecord → List Char
  | .field => "import var ".toList
  | .method => "import function ".toList
  | .enumOption => []

/-- What stands behind a member's name. -/
def Member.rest (member : Member) : List Char :=
  match member.record with
  | .field => " : ".toList ++ (member.detail ++ ";".toList)
  | .method => "(...);".toList
  | .enumOption => " = ".toList ++ member.detail

/-- What stands in front of a member. -/
def Member.lead (index : Nat) (member : Member) : List Char :=
  (if member.record = .enumOption ∧ 0 < index then ",".toList else []) ++ "\n    ".toList

/-- The declaration of a member. -/
def Member.declaration (member : Member) : List Char :=
  member.record.keywords ++ (member.name ++ member.rest)

lemma pushMember_writerOf {text : List Char} {member : Member} {pushed : Span × LayoutWriter}
    (h : pushMember (writerOf text) member = some pushed) :
    pushed = (⟨markOf (text ++ member.record.keywords),
      markOf (text ++ (member.record.keywords ++ member.name))⟩,
      writerOf (text ++ member.declaration)) := by
  unfold pushMember at h
  unfold Member.declaration Member.rest MemberRecord.keywords
  cases hrecord : member.record with
  | field =>
    rw [hrecord] at h
    simp only [push_writerOf, Option.map_eq_some_iff, pushSpanned_writerOf] at h
    obtain ⟨selected, ⟨-, rfl⟩, rfl⟩ := h
    simp only [push_writerOf, List.append_assoc]
  | method =>
    rw [hrecord] at h
    simp only [push_writerOf, Option.map_eq_some_iff, pushSpanned_writerOf] at h
    obtain ⟨selected, ⟨-, rfl⟩, rfl⟩ := h
    simp only [push_writerOf, List.append_assoc]
  | enumOption =>
    rw [hrecord] at h
    simp only [Option.map_eq_some_iff, pushSpanned_writerOf] at h
    obtain ⟨selected, ⟨-, rfl⟩, rfl⟩ := h
    simp only [push_writerOf, List.append_assoc, List.append_nil, List.nil_append]

/-- A member stands behind its lead, and the writer goes on behind its declaration. -/
lemma renderMember_writerOf {text : List Char} {index : Nat} {member : Member}
    {rendered : DeclarationSpans × LayoutWriter}
    (h : renderMember (writerOf text) index member = some rendered) :
    rendered.1 = spansAt (text ++ member.lead index) member.record.keywords member.name member.rest ∧
      rendered.2 = writerOf (text ++ (member.lead index ++ member.declaration)) := by
  have hlead : ((if member.record = .enumOption ∧ 0 < index then (writerOf text).push ",".toList
      else writerOf text).push "\n    ".toList) = writerOf (text ++ member.lead index) := by
    unfold Member.lead
    split_ifs
    · rw [push_writerOf, push_writerOf, List.append_assoc]
    · rw [push_writerOf, List.nil_append]
  unfold renderMember at h
  simp only [hlead, Option.bind_eq_some_iff, mark_writerOf] at h
  obtain ⟨start, ⟨-, rfl⟩, pushed, hpushed, hspans⟩ := h
  rw [pushMember_writerOf hpushed] at hspans
  simp only [LayoutWriter.spansFrom, Option.map_eq_some_iff, mark_writerOf] at hspans
  obtain ⟨spans, ⟨stop, ⟨-, rfl⟩, rfl⟩, rfl⟩ := hspans
  unfold spansAt
  constructor
  · simp only [Member.declaration, List.append_assoc]
  · simp only [List.append_assoc]

/-- The text of the members from one of them on. -/
def membersText : Nat → List Member → List Char
  | _, [] => []
  | index, member :: members =>
    member.lead index ++ (member.declaration ++ membersText (index + 1) members)

/-- The spans of the members behind a text. -/
def membersSpans (text : List Char) : Nat → List Member → List DeclarationSpans
  | _, [] => []
  | index, member :: members =>
    spansAt (text ++ member.lead index) member.record.keywords member.name member.rest ::
      membersSpans (text ++ (member.lead index ++ member.declaration)) (index + 1) members

lemma renderMembers_writerOf {text : List Char} {index : Nat} {members : List Member}
    {rendered : List DeclarationSpans × LayoutWriter}
    (h : renderMembers (writerOf text) index members = some rendered) :
    rendered = (membersSpans text index members, writerOf (text ++ membersText index members)) := by
  induction members generalizing text index rendered with
  | nil =>
    obtain rfl := Option.some.inj h
    rw [membersText, List.append_nil, membersSpans]
  | cons member members ih =>
    rw [renderMembers, Option.bind_eq_some_iff] at h
    obtain ⟨⟨spans, w⟩, hmember, hrest⟩ := h
    obtain ⟨hspans, hw⟩ := renderMember_writerOf hmember
    simp only at hspans hw
    subst hspans hw
    obtain ⟨rest, hmembers, rfl⟩ := Option.map_eq_some_iff.mp hrest
    rw [ih hmembers, membersSpans, membersText]
    simp only [List.append_assoc]

/-- What stands in front of a type's name. -/
def TypeHeader.lead (header : TypeHeader) : List Char :=
  (if header.abstraction = .abstract then "abstract ".toList else []) ++ header.record.keyword

/-- What stands between a type's name and its members. -/
def TypeHeader.opening (header : TypeHeader) : List Char :=
  (match header.base with
    | some base => " extends ".toList ++ base
    | none => []) ++ " \x7b".toList

/-- What stands behind the members of a type. -/
def closing (members : List Member) : List Char :=
  (if members = [] then [] else "\n".toList) ++ "\x7d\n".toList

def typeText (header : TypeHeader) (members : List Member) : List Char :=
  header.lead ++ (header.name ++ (header.opening ++ (membersText 0 members ++ closing members)))

lemma renderType_eq_some {header : TypeHeader} {members : List Member} {rendered : RenderedType}
    (h : renderType header members = some rendered) :
    rendered.text = typeText header members ∧ utf8Length (typeText header members) < 2 ^ 32 ∧
      rendered.members =
        membersSpans (header.lead ++ (header.name ++ header.opening)) 0 members ∧
      rendered.header = spansAt [] header.lead header.name
        (header.opening ++ (membersText 0 members ++ closing members)) := by
  have hlead : (if header.abstraction = .abstract then (writerOf []).push "abstract ".toList
      else writerOf []).push header.record.keyword = writerOf header.lead := by
    unfold TypeHeader.lead
    split_ifs <;> simp only [push_writerOf, List.nil_append]
  have hopening : ∀ text : List Char, (match header.base with
      | some base => ((writerOf text).push " extends ".toList).push base
      | none => writerOf text).push " \x7b".toList = writerOf (text ++ header.opening) := by
    intro text
    unfold TypeHeader.opening
    cases header.base <;> simp only [push_writerOf, List.append_assoc, List.nil_append]
  have hclosing : ∀ text : List Char, (if members = [] then writerOf text
      else (writerOf text).push "\n".toList).push "\x7d\n".toList =
        writerOf (text ++ closing members) := by
    intro text
    unfold closing
    split_ifs <;> simp only [push_writerOf, List.append_assoc, List.nil_append]
  unfold renderType at h
  simp only [writerOf_nil, hlead, Option.bind_eq_some_iff, mark_writerOf,
    pushSpanned_writerOf] at h
  obtain ⟨start, ⟨-, rfl⟩, pushed, ⟨-, rfl⟩, written, hmembers, hheader⟩ := h
  rw [hopening] at hmembers
  rw [renderMembers_writerOf hmembers] at hheader
  simp only [hclosing, LayoutWriter.spansFrom, Option.map_eq_some_iff, mark_writerOf] at hheader
  obtain ⟨spans, ⟨stop, ⟨hfits, rfl⟩, rfl⟩, rfl⟩ := hheader
  have htext : header.lead ++ header.name ++ header.opening ++ membersText 0 members ++
      closing members = typeText header members := by
    simp only [typeText, List.append_assoc]
  rw [htext] at hfits ⊢
  refine ⟨rfl, hfits, ?_, rfl⟩
  simp only [List.append_assoc]

def globalKeywords : List Char := "import function ".toList

def globalRest : List Char := "(...);".toList

/-- The line of a global function. -/
def globalLine (name : List Char) : List Char :=
  globalKeywords ++ (name ++ (globalRest ++ "\n".toList))

def globalsText (names : List (List Char)) : List Char := (names.map globalLine).flatten

@[simp] lemma globalsText_cons (name : List Char) (names : List (List Char)) :
    globalsText (name :: names) = globalLine name ++ globalsText names := by
  rw [globalsText, List.map_cons, List.flatten_cons, ← globalsText]

/-- The spans of the global functions behind a text. -/
def globalsSpans (text : List Char) : List (List Char) → List DeclarationSpans
  | [] => []
  | name :: names =>
    spansAt text globalKeywords name globalRest ::
      globalsSpans (text ++ globalLine name) names

lemma renderGlobalsFrom_cons (w : LayoutWriter) (name : List Char) (names : List (List Char)) :
    renderGlobalsFrom w (name :: names) = w.mark.bind fun start =>
      ((w.push globalKeywords).pushSpanned name).bind fun (selection, w) =>
        ((w.push globalRest).spansFrom start selection).bind fun spans =>
          (renderGlobalsFrom ((w.push globalRest).push "\n".toList) names).map fun (rest, w) =>
            (spans :: rest, w) := rfl

lemma renderGlobalsFrom_writerOf {text : List Char} {names : List (List Char)}
    {rendered : List DeclarationSpans × LayoutWriter}
    (h : renderGlobalsFrom (writerOf text) names = some rendered) :
    rendered = (globalsSpans text names, writerOf (text ++ globalsText names)) ∧
      ∀ spans ∈ rendered.1, spans.range.stop.byte < 2 ^ 32 := by
  induction names generalizing text rendered with
  | nil =>
    obtain rfl := Option.some.inj h
    rw [globalsSpans, globalsText, List.map_nil, List.flatten_nil, List.append_nil]
    exact ⟨rfl, List.forall_mem_nil _⟩
  | cons name names ih =>
    rw [renderGlobalsFrom_cons] at h
    simp only [Option.bind_eq_some_iff, mark_writerOf, push_writerOf, pushSpanned_writerOf,
      LayoutWriter.spansFrom, Option.map_eq_some_iff] at h
    obtain ⟨start, ⟨-, rfl⟩, pushed, ⟨-, rfl⟩, h⟩ := h
    simp only [push_writerOf, mark_writerOf, List.append_assoc] at h
    obtain ⟨spans, ⟨stop, ⟨hfits, rfl⟩, rfl⟩, rest, hrest, rfl⟩ := h
    obtain ⟨rfl, hall⟩ := ih hrest
    rw [globalsSpans, globalsText_cons, ← List.append_assoc text (globalLine name)]
    exact ⟨rfl, List.forall_mem_cons.mpr ⟨hfits, hall⟩⟩

/-! ### Declarations in a source -/

/-- The spans are those of a declaration of the name in the source. -/
def Declares (source name : List Char) (spans : DeclarationSpans) : Prop :=
  ∃ front before behind after, source = front ++ (before ++ (name ++ (behind ++ after))) ∧
    spans = spansAt front before name behind ∧ spans.range.stop.byte < 2 ^ 32

section Declares

variable {source name : List Char} {spans : DeclarationSpans}

/-- The selected bytes spell the name. -/
lemma Declares.slice (h : Declares source name spans) :
    sliceBytes source spans.selection.start.byte spans.selection.stop.byte = some name := by
  obtain ⟨front, before, behind, after, rfl, rfl, -⟩ := h
  have hslice := sliceBytes_length (front ++ before) name (behind ++ after)
  rwa [List.append_assoc, List.append_assoc] at hslice

lemma Declares.ordered (h : Declares source name spans) :
    spans.range.start.byte ≤ spans.selection.start.byte ∧
      spans.selection.stop.byte ≤ spans.range.stop.byte ∧
      spans.range.stop.byte ≤ utf8Length source := by
  obtain ⟨front, before, behind, after, rfl, rfl, -⟩ := h
  simp only [spansAt, markOf, utf8Length_append]
  omega

/-- The position stands on the line of the byte, and counts its column in bytes. -/
def CountsBytes (source : List Char) (byte : Nat) (position : SourcePosition) : Prop :=
  ∃ lineStart, (0 :: lineStartsFrom source 0)[position.line]? = some lineStart ∧
    lineStart + position.character = byte ∧
    ∀ next, (0 :: lineStartsFrom source 0)[position.line + 1]? = some next → byte < next

lemma countsBytes_markOf (text rest : List Char) :
    CountsBytes (text ++ rest) (markOf text).byte ⟨(markOf text).line, (markOf text).column⟩ := by
  unfold CountsBytes markOf writerOf
  dsimp only
  rw [lineStartsFrom_append, Nat.zero_add, ← List.cons_append]
  have hlength : (0 :: lineStartsFrom text 0).length = (lineStartsFrom text 0).length + 1 :=
    List.length_cons
  refine ⟨((lineStartsFrom text 0).getLast?).getD 0, ?_, ?_, ?_⟩
  · have hlast : (0 :: lineStartsFrom text 0).getLast? =
        some (((lineStartsFrom text 0).getLast?).getD 0) := List.getLast?_cons
    rw [List.getElem?_append_left (by omega), ← hlast, List.getLast?_eq_getElem?, hlength,
      Nat.add_sub_cancel]
  · have hle : ((lineStartsFrom text 0).getLast?).getD 0 ≤ utf8Length text := by
      cases hlast : (lineStartsFrom text 0).getLast? with
      | none => exact Nat.zero_le _
      | some lineStart =>
        have hbounds := mem_lineStartsFrom (List.mem_of_getLast? hlast)
        rw [Nat.zero_add] at hbounds
        exact hbounds.2
    omega
  · intro next hnext
    rw [List.getElem?_append_right (by omega)] at hnext
    exact (mem_lineStartsFrom (List.mem_of_getElem? hnext)).1

/-- The selected positions stand on the lines of the selected bytes. -/
lemma Declares.countsBytes (h : Declares source name spans) :
    CountsBytes source spans.selection.start.byte
        ⟨spans.selection.start.line, spans.selection.start.column⟩ ∧
      CountsBytes source spans.selection.stop.byte
        ⟨spans.selection.stop.line, spans.selection.stop.column⟩ := by
  obtain ⟨front, before, behind, after, rfl, rfl, -⟩ := h
  have hstart := countsBytes_markOf (front ++ before) (name ++ (behind ++ after))
  have hstop := countsBytes_markOf (front ++ (before ++ name)) (behind ++ after)
  simp only [List.append_assoc] at hstart hstop
  exact ⟨hstart, hstop⟩

/-- The position of a mark is that of its byte, where the text is ASCII. -/
lemma byteToPosition_markOf {text rest : List Char} (hascii : ∀ c ∈ text, c.val ≤ 127)
    (hfits : utf8Length text < 2 ^ 32) :
    (LineIndex.new (String.ofList (text ++ rest))).byteToPosition (String.ofList (text ++ rest))
      (markOf text).byte = some ⟨(markOf text).line, (markOf text).column⟩ := by
  obtain ⟨front, col, rfl, hfront, hcol⟩ := @exists_lines _ isNewline text
  have hlines : linesOf (front.flatten ++ col) = front ++ [col] := lines_eq_concat hfront hcol
  have hcount : (lineStartsFrom (front.flatten ++ col) 0).length = front.length := by
    have hlength := length_lineStarts (front.flatten ++ col) 0
    rw [hlines, List.length_append, List.length_singleton] at hlength
    omega
  have hstart : ((lineStartsFrom (front.flatten ++ col) 0).getLast?).getD 0 =
      utf8Length front.flatten := by
    have hlast := getElem?_lineStarts (front.flatten ++ col) 0 front.length
    rw [hlines, List.getElem?_concat_length, Option.map_some, List.take_left,
      Nat.zero_add] at hlast
    have hend : (0 :: lineStartsFrom (front.flatten ++ col) 0).getLast? =
        some (utf8Length front.flatten) := by
      rw [List.getLast?_eq_getElem?, List.length_cons, hcount, Nat.add_sub_cancel, hlast]
    rw [List.getLast?_cons] at hend
    exact Option.some.inj hend
  have hsource : (String.ofList (front.flatten ++ col ++ rest)).toList =
      front.flatten ++ (col ++ rest) := by
    rw [String.toList_ofList, List.append_assoc]
  have hunits : utf8Length col = utf16Units col :=
    (ScriptGlobals.utf8Length_eq_utf16Units_iff col).mpr fun c hc =>
      hascii c (List.mem_append_right _ hc)
  have hline : front.length < 2 ^ 32 := by
    have hle := length_le_utf8Length (front.flatten ++ col)
    have hlength : (linesOf (front.flatten ++ col)).length ≤
      (front.flatten ++ col).length + 1 := Library.length_lines_le _
    rw [hlines, List.length_append, List.length_singleton] at hlength
    omega
  have hcolumn : utf8Length (front.flatten ++ col) - utf8Length front.flatten =
      utf16Units col := by
    rw [utf8Length_append, hunits]
    omega
  have hcharacter : utf16Units col < 2 ^ 32 := by omega
  rw [markOf, writerOf, hcount, hstart, hcolumn,
    LineIndex.byteToPosition_of_lines hsource hfront hcol]
  exact congrArg some (LineIndex.mk_new hline hcharacter)

/-- The selected positions are those of the selected bytes, where the source is ASCII. -/
lemma Declares.positions (h : Declares source name spans) (hascii : ∀ c ∈ source, c.val ≤ 127) :
    (LineIndex.new (String.ofList source)).byteToPosition (String.ofList source)
        spans.selection.start.byte =
      some ⟨spans.selection.start.line, spans.selection.start.column⟩ ∧
    (LineIndex.new (String.ofList source)).byteToPosition (String.ofList source)
        spans.selection.stop.byte =
      some ⟨spans.selection.stop.line, spans.selection.stop.column⟩ := by
  obtain ⟨front, before, behind, after, rfl, rfl, hfits⟩ := h
  simp only [spansAt, markOf, utf8Length_append] at hfits
  have hstart := @byteToPosition_markOf (front ++ before) (name ++ (behind ++ after))
    (fun c hc => hascii c (by
      rw [← List.append_assoc]
      exact List.mem_append_left _ hc))
    (by
      rw [utf8Length_append]
      omega)
  have hstop := @byteToPosition_markOf (front ++ (before ++ name)) (behind ++ after)
    (fun c hc => hascii c (by
      rw [← List.append_assoc before, ← List.append_assoc front]
      exact List.mem_append_left _ hc))
    (by
      rw [utf8Length_append, utf8Length_append]
      omega)
  simp only [List.append_assoc] at hstart hstop
  exact ⟨hstart, hstop⟩

end Declares

/-- Every member is declared where its spans say. -/
lemma declares_members {text rest : List Char} {index : Nat} {members : List Member}
    (hfits : utf8Length (text ++ (membersText index members ++ rest)) < 2 ^ 32) :
    List.Forall₂ (fun member spans =>
        Declares (text ++ (membersText index members ++ rest)) member.name spans)
      members (membersSpans text index members) := by
  induction members generalizing text index with
  | nil => exact .nil
  | cons member members ih =>
    have htext : text ++ (membersText index (member :: members) ++ rest) =
        text ++ (member.lead index ++ member.declaration) ++
          (membersText (index + 1) members ++ rest) := by
      simp only [membersText, List.append_assoc]
    rw [htext] at hfits ⊢
    rw [membersSpans]
    constructor
    · refine ⟨text ++ member.lead index, member.record.keywords, member.rest,
        membersText (index + 1) members ++ rest, ?_, rfl, ?_⟩
      · simp only [Member.declaration, List.append_assoc]
      · simp only [spansAt, markOf, Member.declaration, utf8Length_append] at hfits ⊢
        omega
    · exact ih hfits

/-- Members stand behind the text, in front of what follows, and one behind the other. -/
lemma pairwise_membersSpans (text : List Char) (index : Nat) (members : List Member) :
    (∀ spans ∈ membersSpans text index members,
      utf8Length text < spans.range.start.byte ∧
        spans.range.stop.byte ≤ utf8Length (text ++ membersText index members)) ∧
      (membersSpans text index members).Pairwise fun a b =>
        a.range.stop.byte < b.range.start.byte := by
  induction members generalizing text index with
  | nil => exact ⟨List.forall_mem_nil _, .nil⟩
  | cons member members ih =>
    obtain ⟨hbounds, hpairwise⟩ :=
      ih (text ++ (member.lead index ++ member.declaration)) (index + 1)
    have hlead : 0 < utf8Length (member.lead index) := by
      unfold Member.lead
      rw [utf8Length_append]
      have hindent : utf8Length "\n    ".toList = 5 := rfl
      omega
    rw [membersSpans, membersText]
    constructor
    · rw [List.forall_mem_cons]
      constructor
      · simp only [spansAt, markOf, Member.declaration, utf8Length_append]
        omega
      · intro spans hspans
        have hbound := hbounds spans hspans
        simp only [utf8Length_append] at hbound ⊢
        omega
    · rw [List.pairwise_cons]
      constructor
      · intro spans hspans
        have hbound := (hbounds spans hspans).1
        simp only [spansAt, markOf, Member.declaration, utf8Length_append] at hbound ⊢
        omega
      · exact hpairwise

/-- A rendered type declares its members inside its header, one behind the other. -/
structure RenderedType.Declared (rendered : RenderedType) (header : TypeHeader)
    (members : List Member) : Prop where
  header : Declares rendered.text header.name rendered.header
  members : List.Forall₂ (fun member spans => Declares rendered.text member.name spans) members
    rendered.members
  inside : ∀ spans ∈ rendered.members, rendered.header.range.start.byte ≤ spans.range.start.byte ∧
    spans.range.stop.byte ≤ rendered.header.range.stop.byte
  ordered : rendered.members.Pairwise fun a b => a.range.stop.byte < b.range.start.byte

lemma declared_renderType {header : TypeHeader} {members : List Member} {rendered : RenderedType}
    (h : renderType header members = some rendered) : rendered.Declared header members := by
  obtain ⟨htext, hfits, hmembers, hheader⟩ := renderType_eq_some h
  have hmemberText : typeText header members =
      header.lead ++ (header.name ++ header.opening) ++
        (membersText 0 members ++ closing members) := by
    simp only [typeText, List.append_assoc]
  obtain ⟨hbounds, hpairwise⟩ :=
    pairwise_membersSpans (header.lead ++ (header.name ++ header.opening)) 0 members
  constructor
  · rw [htext, hheader]
    refine ⟨[], header.lead, header.opening ++ (membersText 0 members ++ closing members), [],
      ?_, rfl, ?_⟩
    · simp only [typeText, List.nil_append, List.append_nil]
    · exact hfits
  · rw [htext, hmembers, hmemberText]
    rw [hmemberText] at hfits
    exact declares_members hfits
  · rw [hmembers, hheader]
    intro spans hspans
    have hbound := hbounds spans hspans
    simp only [spansAt, markOf, utf8Length_append, utf8Length_nil] at hbound ⊢
    omega
  · rw [hmembers]
    exact hpairwise

lemma declares_globals {text : List Char} {names : List (List Char)}
    (hfits : ∀ spans ∈ globalsSpans text names, spans.range.stop.byte < 2 ^ 32) :
    List.Forall₂ (fun name spans => Declares (text ++ globalsText names) name spans) names
      (globalsSpans text names) := by
  induction names generalizing text with
  | nil => exact .nil
  | cons name names ih =>
    rw [globalsSpans, List.forall_mem_cons] at hfits
    rw [globalsSpans, globalsText_cons]
    constructor
    · refine ⟨text, globalKeywords, globalRest, "\n".toList ++ globalsText names,
        ?_, rfl, hfits.1⟩
      simp only [globalLine, List.append_assoc]
    · rw [← List.append_assoc]
      exact ih hfits.2

lemma pairwise_globalsSpans (text : List Char) (names : List (List Char)) :
    (∀ spans ∈ globalsSpans text names, utf8Length text ≤ spans.range.start.byte) ∧
      (globalsSpans text names).Pairwise fun a b => a.range.stop.byte < b.range.start.byte := by
  induction names generalizing text with
  | nil => exact ⟨List.forall_mem_nil _, .nil⟩
  | cons name names ih =>
    obtain ⟨hbounds, hpairwise⟩ := ih (text ++ globalLine name)
    have hnewline : utf8Length "\n".toList = 1 := rfl
    rw [globalsSpans]
    constructor
    · rw [List.forall_mem_cons]
      constructor
      · exact Nat.le_refl _
      · intro spans hspans
        have hbound := hbounds spans hspans
        rw [utf8Length_append] at hbound
        omega
    · rw [List.pairwise_cons]
      constructor
      · intro spans hspans
        have hbound := hbounds spans hspans
        simp only [spansAt, markOf, globalLine, utf8Length_append] at hbound ⊢
        omega
      · exact hpairwise

lemma declared_renderGlobals {names : List (List Char)} {text : List Char}
    {spans : List DeclarationSpans} (h : renderGlobals names = some (text, spans)) :
    List.Forall₂ (fun name spans => Declares text name spans) names spans ∧
      spans.Pairwise fun a b => a.range.stop.byte < b.range.start.byte := by
  obtain ⟨written, hwritten, hrendered⟩ := Option.map_eq_some_iff.mp h
  rw [writerOf_nil] at hwritten
  obtain ⟨rfl, hfits⟩ := renderGlobalsFrom_writerOf hwritten
  rw [Prod.mk.injEq] at hrendered
  obtain ⟨rfl, rfl⟩ := hrendered
  exact ⟨declares_globals hfits, (pairwise_globalsSpans [] names).2⟩

end WitcherScriptLanguage.Native
