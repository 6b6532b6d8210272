import Mathlib.Data.List.Forall2
import Mathlib.Data.List.Triplewise
import WitcherScriptLanguage.Builtins.NativeLayout
import WitcherScriptLanguage.Lsp.EditQueue
import WitcherScriptLanguage.Resolve.CatalogIds
import WitcherScriptLanguage.Symbols.TableShape

/-!
# Native declarations in the index and in their sources

`build.rs` reads the table of the engine's types and keeps the marks of their declarations.
`builtins.rs` makes the symbols of the index from the marks, and renders the source of a document
only when the editor asks for it. The index must speak about the source that is served.
-/

namespace WitcherScriptLanguage.Native

open Library

structure ParsedType where
  header : TypeHeader
  members : List Member := []
  deriving DecidableEq, Repr

structure ParsedTable where
  types : List ParsedType := []
  globals : List (List Char) := []
  deriving DecidableEq, Repr

def parseType (record : TypeRecord) (name : List Char) (columns : List (List Char)) :
    ParsedType where
  header := {
    record := record
    name := name
    base := columns.head?.filter (!·.isEmpty)
    abstraction := if 'a' ∈ (columns[1]?).getD [] then .abstract else .concrete }

/-- Panics where no type stands in front of the member. -/
def pushMemberRow (types : List ParsedType) (record : MemberRecord) (name : List Char)
    (columns : List (List Char)) : Option (List ParsedType) :=
  types.getLast?.map fun owner =>
    types.dropLast ++
      [{ owner with members := owner.members ++ [⟨record, name, columns.head?.getD []⟩] }]

/-- Panics where a line has no name or an unknown tag. -/
def parseLine (parsed : ParsedTable) (line : List Char) : Option ParsedTable :=
  if line.isEmpty then some parsed
  else match line.splitOn '\t' with
    | tag :: name :: columns =>
      let pushType record : Option ParsedTable :=
        some { parsed with types := parsed.types ++ [parseType record name columns] }
      let pushMember record : Option ParsedTable :=
        (pushMemberRow parsed.types record name columns).map fun types =>
          { parsed with types := types }
      if name.isEmpty then none
      else if tag = "N".toList then pushType .native
      else if tag = "C".toList then pushType .class
      else if tag = "S".toList then pushType .struct
      else if tag = "E".toList then pushType .enum
      else if tag = "F".toList then pushMember .field
      else if tag = "M".toList then pushMember .method
      else if tag = "O".toList then pushMember .enumOption
      else if tag = "G".toList then some { parsed with globals := parsed.globals ++ [name] }
      else none
    | _ => none

def parseTable (table : List Char) : Option ParsedTable :=
  (ScriptGlobals.contentLines table).foldlM parseLine {}

structure NativeTypeRow where
  header : TypeHeader
  spans : DeclarationSpans
  membersStart : Nat
  membersStop : Nat
  deriving DecidableEq, Repr

structure NativeMemberRow where
  member : Member
  spans : DeclarationSpans
  deriving DecidableEq, Repr

structure NativeGlobalRow where
  name : List Char
  spans : DeclarationSpans
  deriving DecidableEq, Repr

structure NativeTables where
  types : List NativeTypeRow
  members : List NativeMemberRow
  globals : List NativeGlobalRow
  deriving DecidableEq, Repr

/-- The loop over the parsed types, behind as many members as it has counted. -/
def emitTypes : Nat → List ParsedType → Option (List NativeTypeRow × List NativeMemberRow)
  | _, [] => some ([], [])
  | memberCount, parsedType :: types =>
    (renderType parsedType.header parsedType.members).bind fun rendered =>
      let stop := memberCount + parsedType.members.length
      (emitTypes stop types).map fun (typeRows, memberRows) =>
        (⟨parsedType.header, rendered.header, memberCount, stop⟩ :: typeRows,
          List.zipWith NativeMemberRow.mk parsedType.members rendered.members ++ memberRows)

def emitTables (parsed : ParsedTable) : Option NativeTables :=
  (emitTypes 0 parsed.types).bind fun (types, members) =>
    (renderGlobals parsed.globals).map fun (_, spans) =>
      ⟨types, members, List.zipWith NativeGlobalRow.mk parsed.globals spans⟩

/-- The tables that the build script generates. -/
def generate (table : List Char) : Option NativeTables := (parseTable table).bind emitTables

def typeKind : TypeRecord → SymbolKind
  | .native => .nativeType
  | .struct => .struct
  | .enum => .enum
  | .class => .class

def importOnly : Specifiers := Specifiers.empty.insert .import

def Span.byteRange (span : Span) : ByteRange := ⟨span.start.byte, span.stop.byte⟩

def Span.sourceRange (span : Span) : SourceRange :=
  ⟨⟨span.start.line, span.start.column⟩, ⟨span.stop.line, span.stop.column⟩⟩

def nativeSymbol (id : SymbolId) (kind : SymbolKind) (name : List Char)
    (spans : DeclarationSpans) : Symbol where
  id := id
  name := String.ofList name
  kind := kind
  byteRange := spans.range.byteRange
  selectionByteRange := spans.selection.byteRange
  selectionRange := spans.selection.sourceRange
  specifiers := importOnly
  origin := .native

/-- The symbol of a member row of a type, in the table of the type's document. -/
def memberSymbol (typeName : List Char) (id : SymbolId) (row : NativeMemberRow) : Symbol :=
  let symbol : Symbol := match row.member.record with
    | .field =>
      { nativeSymbol id .field row.member.name row.spans with
        typeAnnotation := some (fromAnnotationText row.member.detail) }
    | .method => nativeSymbol id .method row.member.name row.spans
    | .enumOption =>
      { nativeSymbol id .enumMember row.member.name row.spans with specifiers := .empty }
  { symbol with container := some ⟨0⟩, containerName := some (String.ofList typeName) }

namespace NativeTables

variable (tables : NativeTables)

def memberRows (row : NativeTypeRow) : List NativeMemberRow :=
  (tables.members.drop row.membersStart).take (row.membersStop - row.membersStart)

def typeSymbols (row : NativeTypeRow) : List Symbol :=
  { nativeSymbol ⟨0⟩ (typeKind row.header.record) row.header.name row.spans with
    baseClass := row.header.base.map String.ofList
    specifiers := if row.header.abstraction = .abstract then importOnly.insert .abstract
      else importOnly } ::
    (tables.memberRows row).mapIdx fun index member =>
      memberSymbol row.header.name ⟨index + 1⟩ member

def globalSymbols : List Symbol :=
  tables.globals.mapIdx fun index row => nativeSymbol ⟨index⟩ .function row.name row.spans

def globalsDocument : List Char := "globals".toList

def documents : List (List Char × List Symbol) :=
  tables.types.map (fun row => (row.header.name, tables.typeSymbols row)) ++
    [(globalsDocument, tables.globalSymbols)]

/-- `TYPE_BY_NAME`, where the last row of a name stays. -/
def typeByName (name : List Char) : Option NativeTypeRow :=
  tables.types.reverse.find? fun row => row.header.name = name

/-- The source of a document, without the spans. -/
def render (document : List Char) : Option (List Char) :=
  if document = globalsDocument then (renderGlobals (tables.globals.map (·.name))).map (·.1)
  else (tables.typeByName document).bind fun row =>
    (renderType row.header ((tables.memberRows row).map (·.member))).map (·.text)

end NativeTables

def builtinDocumentExtension : List Char := ".ws".toList

def builtinUri (name : List Char) : String :=
  String.ofList (builtinUriPrefix.toList ++ (name ++ builtinDocumentExtension))

/-- The generic documents as `generic_document` parses them from their embedded sources. -/
structure GenericDocuments where
  array : ParsedDocument
  map : ParsedDocument

namespace GenericDocuments

variable (generics : GenericDocuments)

def sources : List (String × ParsedDocument) :=
  [("witcherscript-builtin:/array.ws", generics.array),
    ("witcherscript-builtin:/map.ws", generics.map)]

def genericSource (uri : String) : Option (List Char) :=
  (generics.sources.find? (·.1 = uri)).map (·.2.source.toList)

end GenericDocuments

/-- `insert_synthetic` -/
def insertSynthetic (H : Hasher) (ix : WorkspaceIndex) (uri : String) (symbols : List Symbol) :
    WorkspaceIndex :=
  (ix.applyContribution uri
    ⟨symbols, ∅, docSurfaceHash H uri symbols, outwardHashMap H symbols⟩).2

def buildBuiltinsIndex (H : Hasher) (tables : NativeTables) (generics : GenericDocuments) :
    WorkspaceIndex :=
  let index := ({} : WorkspaceIndex).beginBulkCatalogUpdate
  let index := tables.documents.foldl
    (fun index document => insertSynthetic H index (builtinUri document.1) document.2) index
  let index := generics.sources.foldl
    (fun index source => (index.updateDocument H source.1 source.2).2) index
  index.endBulkCatalogUpdate

def builtinSource (tables : NativeTables) (generics : GenericDocuments) (uri : String) :
    Option (List Char) :=
  match generics.genericSource uri with
  | some source => some source
  | none => ((uri.toList.dropPrefix? builtinUriPrefix.toList).bind
      (·.dropSuffix? builtinDocumentExtension)).bind tables.render

/-- Rows made of items and their spans give both back, and keep what relates them. -/
lemma zipWith_rows {α ρ : Type} {R : α → DeclarationSpans → Prop} {mk : α → DeclarationSpans → ρ}
    {item : ρ → α} {spansOf : ρ → DeclarationSpans} (hitem : ∀ a spans, item (mk a spans) = a)
    (hspansOf : ∀ a spans, spansOf (mk a spans) = spans) {items : List α}
    {spans : List DeclarationSpans} (h : List.Forall₂ R items spans) :
    (List.zipWith mk items spans).map item = items ∧
      (List.zipWith mk items spans).map spansOf = spans ∧
      ∀ row ∈ List.zipWith mk items spans, R (item row) (spansOf row) := by
  induction h with
  | nil => exact ⟨rfl, rfl, List.forall_mem_nil _⟩
  | cons hhead htail ih =>
    obtain ⟨hitems, hspans, hrows⟩ := ih
    simp only [List.zipWith_cons_cons, List.map_cons, hitem, hspansOf, hitems, hspans,
      List.forall_mem_cons]
    exact ⟨trivial, trivial, hhead, hrows⟩

lemma zipWith_memberRows {R : Member → DeclarationSpans → Prop} {members : List Member}
    {spans : List DeclarationSpans} (h : List.Forall₂ R members spans) :
    (List.zipWith NativeMemberRow.mk members spans).map (·.member) = members ∧
      (List.zipWith NativeMemberRow.mk members spans).map (·.spans) = spans ∧
      ∀ row ∈ List.zipWith NativeMemberRow.mk members spans, R row.member row.spans :=
  zipWith_rows (fun _ _ => rfl) (fun _ _ => rfl) h

/-- What a type row says about the text that is rendered for it. -/
structure TypeRendered (tables : NativeTables) (row : NativeTypeRow) (rendered : RenderedType) :
    Prop where
  render : renderType row.header ((tables.memberRows row).map (·.member)) = some rendered
  header : row.spans = rendered.header
  members : (tables.memberRows row).map (·.spans) = rendered.members

/-- The member rows of every type row are the members that it was rendered with. -/
lemma typeRendered_emitTypes {types : List ParsedType} {typeRows : List NativeTypeRow}
    {memberRows front : List NativeMemberRow} {tables : NativeTables}
    (h : emitTypes front.length types = some (typeRows, memberRows))
    (htables : tables.members = front ++ memberRows) :
    ∀ row ∈ typeRows, ∃ rendered, TypeRendered tables row rendered := by
  induction types generalizing front typeRows memberRows with
  | nil =>
    rw [emitTypes, Option.some.injEq, Prod.mk.injEq] at h
    rw [← h.1]
    exact List.forall_mem_nil _
  | cons parsedType types ih =>
    simp only [emitTypes, Option.bind_eq_some_iff, Option.map_eq_some_iff] at h
    obtain ⟨rendered, hrendered, ⟨typeRows, rest⟩, hrest, heq⟩ := h
    obtain ⟨rfl, rfl⟩ := Prod.mk.inj heq
    have hforall := (declared_renderType hrendered).members
    obtain ⟨hmembers, hspans, -⟩ := zipWith_memberRows hforall
    have hlength : (List.zipWith NativeMemberRow.mk parsedType.members rendered.members).length =
        parsedType.members.length := by
      have hmap := congrArg List.length hmembers
      rwa [List.length_map] at hmap
    rw [List.forall_mem_cons]
    constructor
    · have hrows : tables.memberRows ⟨parsedType.header, rendered.header, front.length,
          front.length + parsedType.members.length⟩ =
          List.zipWith NativeMemberRow.mk parsedType.members rendered.members := by
        rw [NativeTables.memberRows, htables, List.drop_left, Nat.add_sub_cancel_left, ← hlength,
          List.take_left]
      refine ⟨rendered, ?_, rfl, ?_⟩
      · rw [hrows, hmembers]
        exact hrendered
      · rw [hrows]
        exact hspans
    · refine @ih typeRows rest (front ++
        List.zipWith NativeMemberRow.mk parsedType.members rendered.members) ?_ ?_
      · rw [List.length_append, hlength]
        exact hrest
      · rw [htables, List.append_assoc]

lemma typeRendered_emitTables {parsed : ParsedTable} {tables : NativeTables}
    (h : emitTables parsed = some tables) {row : NativeTypeRow} (hrow : row ∈ tables.types) :
    ∃ rendered, TypeRendered tables row rendered := by
  simp only [emitTables, Option.bind_eq_some_iff, Option.map_eq_some_iff] at h
  obtain ⟨⟨types, members⟩, htypes, globals, -, rfl⟩ := h
  exact @typeRendered_emitTypes _ _ _ [] _ htypes rfl row hrow

lemma zipWith_globalRows {R : List Char → DeclarationSpans → Prop} {names : List (List Char)}
    {spans : List DeclarationSpans} (h : List.Forall₂ R names spans) :
    (List.zipWith NativeGlobalRow.mk names spans).map (·.name) = names ∧
      (List.zipWith NativeGlobalRow.mk names spans).map (·.spans) = spans ∧
      ∀ row ∈ List.zipWith NativeGlobalRow.mk names spans, R row.name row.spans :=
  zipWith_rows (fun _ _ => rfl) (fun _ _ => rfl) h

lemma globals_emitTables {parsed : ParsedTable} {tables : NativeTables}
    (h : emitTables parsed = some tables) :
    ∃ text, renderGlobals (tables.globals.map (·.name)) =
      some (text, tables.globals.map (·.spans)) := by
  simp only [emitTables, Option.bind_eq_some_iff, Option.map_eq_some_iff] at h
  obtain ⟨-, -, ⟨text, spans⟩, hglobals, rfl⟩ := h
  obtain ⟨hnames, hspans, -⟩ := zipWith_globalRows (declared_renderGlobals hglobals).1
  refine ⟨text, ?_⟩
  rw [hnames, hspans]
  exact hglobals

/-! ### Symbols and sources -/

/-- The symbols of a document stand in its source: the table is well formed, every selection
spells its name, declarations that do not contain one another are apart, and the positions of the
selections count bytes, so that they are those of the editor where the source is ASCII. -/
structure StandsIn (source : List Char) (symbols : List Symbol) : Prop where
  wellFormed : WellFormedTable symbols
  inside : ∀ s ∈ symbols, s.byteRange.stop ≤ utf8Length source
  spelled : ∀ s ∈ symbols,
    sliceBytes source s.selectionByteRange.start s.selectionByteRange.stop = some s.name.toList
  apart : ∀ s ∈ symbols, ∀ t ∈ symbols, s.id.val < t.id.val →
    t.container = some s.id ∨ s.byteRange.stop < t.byteRange.start
  lines : ∀ s ∈ symbols,
    CountsBytes source s.selectionByteRange.start s.selectionRange.start ∧
      CountsBytes source s.selectionByteRange.stop s.selectionRange.stop
  positions : (∀ c ∈ source, c.val ≤ 127) → ∀ s ∈ symbols,
    (LineIndex.new (String.ofList source)).byteToPosition (String.ofList source)
        s.selectionByteRange.start = some s.selectionRange.start ∧
      (LineIndex.new (String.ofList source)).byteToPosition (String.ofList source)
        s.selectionByteRange.stop = some s.selectionRange.stop

/-- The parts of a symbol that come from its declaration. -/
def FromSpans (s : Symbol) (spans : DeclarationSpans) : Prop :=
  s.byteRange = spans.range.byteRange ∧ s.selectionByteRange = spans.selection.byteRange ∧
    s.selectionRange = spans.selection.sourceRange ∧ s.kind ≠ .parameter

lemma StandsIn.of_declared {source : List Char} {symbols : List Symbol}
    (hpositioned : Positioned symbols)
    (hdeclared : ∀ s ∈ symbols, ∃ spans, FromSpans s spans ∧ Declares source s.name.toList spans)
    (hcontainers : ∀ s ∈ symbols, ∀ id ∈ s.container, id.val < s.id.val ∧
      ∃ t, symbols[id.val]? = some t ∧ s.byteRange.Inside t.byteRange)
    (hapart : ∀ s ∈ symbols, ∀ t ∈ symbols, s.id.val < t.id.val →
      t.container = some s.id ∨ s.byteRange.stop < t.byteRange.start) :
    StandsIn source symbols := by
  constructor
  · constructor
    · exact hpositioned
    · exact hcontainers
    · intro s hs
      obtain ⟨spans, ⟨hrange, hselection, -, -⟩, hdeclares⟩ := hdeclared s hs
      rw [hrange, hselection]
      exact ⟨hdeclares.ordered.1, hdeclares.ordered.2.1⟩
    · intro s hs hparameter
      obtain ⟨spans, ⟨-, -, -, hkind⟩, -⟩ := hdeclared s hs
      exact absurd hparameter hkind
  · intro s hs
    obtain ⟨spans, ⟨hrange, -, -, -⟩, hdeclares⟩ := hdeclared s hs
    rw [hrange]
    exact hdeclares.ordered.2.2
  · intro s hs
    obtain ⟨spans, ⟨-, hselection, -, -⟩, hdeclares⟩ := hdeclared s hs
    rw [hselection]
    exact hdeclares.slice
  · exact hapart
  · intro s hs
    obtain ⟨spans, ⟨-, hselection, hposition, -⟩, hdeclares⟩ := hdeclared s hs
    rw [hselection, hposition]
    exact hdeclares.countsBytes
  · intro hascii s hs
    obtain ⟨spans, ⟨-, hselection, hposition, -⟩, hdeclares⟩ := hdeclared s hs
    rw [hselection, hposition]
    exact hdeclares.positions hascii

lemma typeKind_ne_parameter (record : TypeRecord) : typeKind record ≠ .parameter := by
  cases record <;> exact SymbolKind.noConfusion

lemma memberSymbol_spec (typeName : List Char) (id : SymbolId) (row : NativeMemberRow) :
    (memberSymbol typeName id row).id = id ∧
      (memberSymbol typeName id row).container = some ⟨0⟩ ∧
      (memberSymbol typeName id row).name.toList = row.member.name ∧
      FromSpans (memberSymbol typeName id row) row.spans := by
  have hname : (String.ofList row.member.name).toList = row.member.name :=
    String.toList_ofList
  unfold memberSymbol
  cases row.member.record with
  | field => exact ⟨rfl, rfl, hname, rfl, rfl, rfl, SymbolKind.noConfusion⟩
  | method => exact ⟨rfl, rfl, hname, rfl, rfl, rfl, SymbolKind.noConfusion⟩
  | enumOption => exact ⟨rfl, rfl, hname, rfl, rfl, rfl, SymbolKind.noConfusion⟩

section Types

variable {tables : NativeTables} {row : NativeTypeRow} {rendered : RenderedType}

/-- A symbol of a type's document is that of the type or of one of its members. -/
lemma mem_typeSymbols {s : Symbol} (hs : s ∈ tables.typeSymbols row) :
    (s.id = ⟨0⟩ ∧ s.container = none ∧ s.name.toList = row.header.name ∧
        FromSpans s row.spans ∧ (tables.typeSymbols row)[0]? = some s) ∨
      ∃ (index : Nat) (hindex : index < (tables.memberRows row).length),
        s = memberSymbol row.header.name ⟨index + 1⟩ (tables.memberRows row)[index] := by
  rcases List.mem_cons.mp hs with rfl | hmem
  · left
    exact ⟨rfl, rfl, String.toList_ofList, ⟨rfl, rfl, rfl, typeKind_ne_parameter _⟩, rfl⟩
  · right
    obtain ⟨index, hindex, rfl⟩ := List.mem_mapIdx.mp hmem
    exact ⟨index, hindex, rfl⟩

lemma positioned_typeSymbols : Positioned (tables.typeSymbols row) := by
  intro i s hs
  cases i with
  | zero =>
    obtain rfl := Option.some.inj hs
    rfl
  | succ index =>
    rw [NativeTables.typeSymbols, List.getElem?_cons_succ, List.getElem?_mapIdx,
      Option.map_eq_some_iff] at hs
    obtain ⟨member, -, rfl⟩ := hs
    exact (memberSymbol_spec _ _ _).1

lemma standsIn_typeSymbols (h : TypeRendered tables row rendered) :
    StandsIn rendered.text (tables.typeSymbols row) := by
  have hdeclared := declared_renderType h.render
  have hmembers := hdeclared.members
  rw [← h.members, List.forall₂_map_left_iff, List.forall₂_map_right_iff] at hmembers
  have hdeclares : ∀ (index : Nat) (hindex : index < (tables.memberRows row).length),
      Declares rendered.text ((tables.memberRows row)[index]).member.name
        ((tables.memberRows row)[index]).spans := by
    intro index hindex
    exact hmembers.get hindex hindex
  apply StandsIn.of_declared positioned_typeSymbols
  · intro s hs
    rcases mem_typeSymbols hs with ⟨-, -, hname, hspans, -⟩ | ⟨index, hindex, rfl⟩
    · refine ⟨row.spans, hspans, ?_⟩
      rw [hname, h.header]
      exact hdeclared.header
    · obtain ⟨-, -, hname, hspans⟩ := memberSymbol_spec row.header.name ⟨index + 1⟩
        (tables.memberRows row)[index]
      refine ⟨_, hspans, ?_⟩
      rw [hname]
      exact hdeclares index hindex
  · intro s hs id hid
    rcases mem_typeSymbols hs with ⟨-, hnone, -⟩ | ⟨index, hindex, rfl⟩
    · rw [hnone] at hid
      exact absurd hid (Option.not_mem_none id)
    · obtain ⟨hsid, hcontainer, -, hrange, -⟩ := memberSymbol_spec row.header.name ⟨index + 1⟩
        (tables.memberRows row)[index]
      rw [hcontainer, Option.mem_some_iff] at hid
      subst hid
      rw [hsid]
      refine ⟨Nat.succ_pos index, _, rfl, ?_⟩
      rw [hrange]
      have hmem : ((tables.memberRows row)[index]).spans ∈ rendered.members := by
        rw [← h.members]
        exact List.mem_map_of_mem (List.getElem_mem hindex)
      have hinside := hdeclared.inside _ hmem
      rw [← h.header] at hinside
      exact hinside
  · intro s hs t ht hlt
    rcases mem_typeSymbols ht with ⟨hid, -⟩ | ⟨j, hj, rfl⟩
    · rw [hid] at hlt
      exact absurd hlt (Nat.not_lt_zero _)
    · obtain ⟨hidj, hcontainer, -, hrangej, -⟩ := memberSymbol_spec row.header.name ⟨j + 1⟩
        (tables.memberRows row)[j]
      rcases mem_typeSymbols hs with ⟨hid, -⟩ | ⟨i, hi, rfl⟩
      · left
        rw [hcontainer, hid]
      · right
        obtain ⟨hidi, -, -, hrangei, -⟩ := memberSymbol_spec row.header.name ⟨i + 1⟩
          (tables.memberRows row)[i]
        rw [hidi, hidj] at hlt
        rw [hrangei, hrangej]
        have hordered := hdeclared.ordered
        rw [← h.members, List.pairwise_map, List.pairwise_iff_getElem] at hordered
        exact hordered i j hi hj (Nat.lt_of_succ_lt_succ hlt)

end Types

lemma standsIn_globalSymbols {tables : NativeTables} {text : List Char}
    (h : renderGlobals (tables.globals.map (·.name)) =
      some (text, tables.globals.map (·.spans))) : StandsIn text tables.globalSymbols := by
  obtain ⟨hforall, hordered⟩ := declared_renderGlobals h
  rw [List.forall₂_map_left_iff, List.forall₂_map_right_iff] at hforall
  have hmem : ∀ s ∈ tables.globalSymbols, ∃ (index : Nat) (hindex : index < tables.globals.length),
      s = nativeSymbol ⟨index⟩ .function (tables.globals[index]).name
        (tables.globals[index]).spans := by
    intro s hs
    obtain ⟨index, hindex, rfl⟩ := List.mem_mapIdx.mp hs
    exact ⟨index, hindex, rfl⟩
  apply StandsIn.of_declared
  · intro i s hs
    rw [NativeTables.globalSymbols, List.getElem?_mapIdx, Option.map_eq_some_iff] at hs
    obtain ⟨row, -, rfl⟩ := hs
    rfl
  · intro s hs
    obtain ⟨index, hindex, rfl⟩ := hmem s hs
    refine ⟨_, ⟨rfl, rfl, rfl, SymbolKind.noConfusion⟩, ?_⟩
    rw [nativeSymbol, String.toList_ofList]
    exact hforall.get hindex hindex
  · intro s hs id hid
    obtain ⟨index, hindex, rfl⟩ := hmem s hs
    exact absurd hid (Option.not_mem_none id)
  · intro s hs t ht hlt
    obtain ⟨i, hi, rfl⟩ := hmem s hs
    obtain ⟨j, hj, rfl⟩ := hmem t ht
    right
    rw [List.pairwise_map, List.pairwise_iff_getElem] at hordered
    exact hordered i j hi hj hlt

/-- The name of the document that a URI names. -/
def documentName (uri : String) : Option (List Char) :=
  (uri.toList.dropPrefix? builtinUriPrefix.toList).bind (·.dropSuffix? builtinDocumentExtension)

lemma documentName_eq_some {uri : String} {name : List Char} :
    documentName uri = some name ↔ builtinUri name = uri := by
  unfold documentName
  rw [Option.bind_eq_some_iff]
  constructor
  · intro h
    obtain ⟨rest, hprefix, hsuffix⟩ := h
    obtain ⟨front, huri, hfront⟩ := List.dropPrefix?_eq_some_iff.mp hprefix
    obtain ⟨back, hrest, hback⟩ := List.dropSuffix?_eq_some_iff.mp hsuffix
    rw [builtinUri, ← beq_iff_eq.mp hfront, ← beq_iff_eq.mp hback, ← hrest, ← huri,
      String.ofList_toList]
  · intro h
    refine ⟨name ++ builtinDocumentExtension, ?_, ?_⟩
    · rw [← h, builtinUri, String.toList_ofList]
      exact List.dropPrefix?_eq_some_iff.mpr ⟨builtinUriPrefix.toList, rfl, BEq.rfl⟩
    · exact List.dropSuffix?_eq_some_iff.mpr ⟨builtinDocumentExtension, rfl, BEq.rfl⟩

lemma builtinUri_injective {name name' : List Char} (h : builtinUri name = builtinUri name') :
    name = name' :=
  Option.some.inj ((documentName_eq_some.mpr h).symm.trans (documentName_eq_some.mpr rfl))

/-- Of the documents with one URI the last stays in the index. -/
lemma lookup_foldl_insertSynthetic (H : Hasher) (documents : List (List Char × List Symbol))
    (index : WorkspaceIndex) (uri : String) :
    (documents.foldl (fun index document =>
        insertSynthetic H index (builtinUri document.1) document.2) index).documents.lookup uri =
      ((documents.reverse.find? fun document => builtinUri document.1 = uri).map (·.2)).or
        (index.documents.lookup uri) := by
  induction documents generalizing index with
  | nil => rfl
  | cons document documents ih =>
    rw [List.foldl_cons, ih, insertSynthetic, documents_applyContribution_lookup,
      List.reverse_cons, List.find?_append, Option.map_or, Option.or_assoc]
    congr 1
    by_cases huri : builtinUri document.1 = uri
    · rw [if_pos huri.symm, List.find?_singleton, if_pos (by simpa using huri)]
      rfl
    · rw [if_neg (Ne.symm huri), List.find?_singleton, if_neg (by simpa using huri)]
      rfl

lemma lookup_updates (H : Hasher) (generics : GenericDocuments) (index : WorkspaceIndex)
    (uri : String) (huri : generics.genericSource uri = none) :
    (generics.sources.foldl (fun index source =>
      (index.updateDocument H source.1 source.2).2) index).documents.lookup uri =
        index.documents.lookup uri := by
  rw [GenericDocuments.genericSource, Option.map_eq_none_iff, List.find?_eq_none] at huri
  generalize generics.sources = sources at huri
  induction sources generalizing index with
  | nil => rfl
  | cons source sources ih =>
    rw [List.forall_mem_cons] at huri
    have hne : uri ≠ source.1 := fun h => huri.1 (by simpa using h.symm)
    rw [List.foldl_cons, ih _ huri.2, WorkspaceIndex.updateDocument,
      documents_applyContribution_lookup, if_neg hne]

lemma documents_endBulk (index : WorkspaceIndex) :
    index.endBulkCatalogUpdate.documents = index.documents := by
  have hforget := congrArg WorkspaceIndex.documents (WorkspaceIndex.forgetCatalog_endBulk index)
  exact hforget

/-- What a native URI finds in the index. -/
lemma lookup_buildBuiltinsIndex (H : Hasher) (tables : NativeTables) (generics : GenericDocuments)
    {uri : String} (huri : generics.genericSource uri = none) :
    (buildBuiltinsIndex H tables generics).documents.lookup uri =
      (documentName uri).bind fun name =>
        if name = NativeTables.globalsDocument then some tables.globalSymbols
        else (tables.typeByName name).map tables.typeSymbols := by
  have hempty : ({} : WorkspaceIndex).beginBulkCatalogUpdate.documents.lookup uri = none := rfl
  rw [buildBuiltinsIndex, documents_endBulk, lookup_updates H generics _ uri huri,
    lookup_foldl_insertSynthetic, hempty, Option.or_none, NativeTables.documents,
    List.reverse_append, List.reverse_singleton, List.singleton_append, List.find?_cons,
    ← List.map_reverse, List.find?_map]
  cases hname : documentName uri with
  | none =>
    have hother : ∀ name, builtinUri name ≠ uri := fun name h => by
      rw [← documentName_eq_some, hname] at h
      exact absurd h (Option.some_ne_none name).symm
    simp [hother, Function.comp_def]
  | some name =>
    rw [documentName_eq_some] at hname
    have hsame : ∀ name', builtinUri name' = uri ↔ name' = name := fun name' =>
      ⟨fun h => builtinUri_injective (h.trans hname.symm), fun h => by rw [h, hname]⟩
    simp only [hsame, Function.comp_def, Option.bind_some, NativeTables.typeByName]
    by_cases hglobals : NativeTables.globalsDocument = name
    · simp [hglobals]
    · simp [hglobals, Ne.symm hglobals, Option.map_map, Function.comp_def]

/-- Every native document of the index is served, and its symbols stand in the source that is
served; and only documents of the index are served. -/
theorem native_documents_served (H : Hasher) {table : List Char} {tables : NativeTables}
    (generics : GenericDocuments) (h : generate table = some tables) {uri : String}
    (huri : generics.genericSource uri = none) :
    (∀ symbols, (buildBuiltinsIndex H tables generics).documents.lookup uri = some symbols →
      ∃ source, builtinSource tables generics uri = some source ∧ StandsIn source symbols) ∧
    ((builtinSource tables generics uri).isSome →
      uri ∈ (buildBuiltinsIndex H tables generics).documents) := by
  obtain ⟨parsed, -, htables⟩ := Option.bind_eq_some_iff.mp h
  have hsource : builtinSource tables generics uri = (documentName uri).bind tables.render := by
    rw [builtinSource, huri, documentName]
  rw [hsource, ← AList.lookup_isSome, lookup_buildBuiltinsIndex H tables generics huri]
  cases documentName uri with
  | none => exact ⟨fun symbols h => absurd h (Option.some_ne_none symbols).symm, id⟩
  | some name =>
    rw [Option.bind_some, Option.bind_some, NativeTables.render]
    by_cases hglobals : name = NativeTables.globalsDocument
    · rw [if_pos hglobals, if_pos hglobals]
      obtain ⟨text, hrendered⟩ := globals_emitTables htables
      constructor
      · intro symbols hsymbols
        obtain rfl := Option.some.inj hsymbols
        rw [hrendered]
        exact ⟨text, rfl, standsIn_globalSymbols hrendered⟩
      · exact fun _ => rfl
    · rw [if_neg hglobals, if_neg hglobals]
      cases hrow : tables.typeByName name with
      | none => exact ⟨fun symbols h => absurd h (Option.some_ne_none symbols).symm, id⟩
      | some row =>
        have hmem : row ∈ tables.types := List.mem_reverse.mp (List.mem_of_find?_eq_some hrow)
        obtain ⟨rendered, hrendered⟩ := typeRendered_emitTables htables hmem
        constructor
        · intro symbols hsymbols
          obtain rfl := Option.some.inj hsymbols
          rw [Option.bind_some, hrendered.render]
          exact ⟨rendered.text, rfl, standsIn_typeSymbols hrendered⟩
        · exact fun _ => rfl

def vectorTable : List Char := "S\tVector\nF\tx\tFloat".toList

def vectorRow : NativeTypeRow where
  header := ⟨.struct, "Vector".toList, none, .concrete⟩
  spans := ⟨⟨⟨0, 0, 0⟩, ⟨44, 3, 0⟩⟩, ⟨⟨7, 0, 7⟩, ⟨13, 0, 13⟩⟩⟩
  membersStart := 0
  membersStop := 1

def vectorTables : NativeTables where
  types := [vectorRow]
  members := [⟨⟨.field, "x".toList, "Float".toList⟩,
    ⟨⟨⟨20, 1, 4⟩, ⟨41, 1, 25⟩⟩, ⟨⟨31, 1, 15⟩, ⟨32, 1, 16⟩⟩⟩⟩]
  globals := []

lemma generate_vectorTable : generate vectorTable = some vectorTables := by decide +kernel

theorem native_documents_served_vector :
    ∃ source, builtinSource vectorTables ⟨⟨"", [], [], 0⟩, ⟨"", [], [], 0⟩⟩
        (builtinUri "Vector".toList) = some source ∧
      StandsIn source (vectorTables.typeSymbols vectorRow) := by
  let H : Hasher := ⟨fun _ => 0, fun _ _ => 0, fun _ _ => 0⟩
  have huri : GenericDocuments.genericSource ⟨⟨"", [], [], 0⟩, ⟨"", [], [], 0⟩⟩
      (builtinUri "Vector".toList) = none := by decide +kernel
  apply (native_documents_served H _ generate_vectorTable huri).1
  rw [lookup_buildBuiltinsIndex H vectorTables _ huri, documentName_eq_some.mpr rfl,
    Option.bind_some, if_neg (by decide +kernel)]
  decide +kernel

end WitcherScriptLanguage.Native
