import WitcherScriptLanguage.Diagnostics.WorkspaceRules
import WitcherScriptLanguage.Resolve.Inference
import WitcherScriptLanguage.Symbols.Extractor
import WitcherScriptLanguage.Symbols.TableShape

/-!
# The tables of a document's symbols

`DocumentSymbols` of `symbols/types.rs`: the symbols of a document with the tables that
`build_indexes` makes of them. The accessors index the symbols by the ids in the tables; an id out
of range would be a panic.
-/

namespace WitcherScriptLanguage

open Library

/-- The tables hold ids of symbols. -/
structure DocumentSymbols where
  symbols : List Symbol := []
  byStartByte : List SymbolId := []
  topLevelByName : BucketMap String SymbolId := ∅
  typeByName : BucketMap String SymbolId := ∅
  membersByContainer : NestedBucketMap SymbolId String SymbolId := ∅
  localsInFunction : SymbolId → String → List SymbolId := fun _ _ => []

namespace DocumentSymbols

/-- Ids in the order of a key of their symbols. -/
def sortIdsBy (symbols : List Symbol) (key : Symbol → Nat) (ids : List SymbolId) : List SymbolId :=
  let keyOf (id : SymbolId) : Nat := ((symbols[id.val]?).map key).getD 0
  ids.insertionSort fun a b => keyOf a ≤ keyOf b

def indexSymbol (t : DocumentSymbols) (sym : Symbol) : DocumentSymbols :=
  let t := match sym.container with
    | none =>
      if sym.annotationTargetClassSafe.isSome then t
      else { t with topLevelByName := t.topLevelByName.push sym.typeName sym.id }
    | some container =>
      { t with membersByContainer := t.membersByContainer.push container sym.name sym.id }
  if sym.kind.isObjectType then { t with typeByName := t.typeByName.push sym.typeName sym.id } else t

def indexLocal (symbols : List Symbol) (locals : NestedBucketMap SymbolId String SymbolId)
    (sym : Symbol) : NestedBucketMap SymbolId String SymbolId :=
  if sym.kind = .variable ∨ sym.kind = .parameter then
    match enclosingCallableId symbols sym with
    | none => locals
    | some function => locals.push function sym.name sym.id
  else locals

def buildIndexes (symbols : List Symbol) : DocumentSymbols :=
  let byStartByte :=
    sortIdsBy symbols (·.byteRange.start) ((List.range symbols.length).map SymbolId.mk)
  let locals := symbols.foldl (indexLocal symbols) ∅
  { symbols.foldl indexSymbol { symbols, byStartByte } with
    localsInFunction := fun function name =>
      sortIdsBy symbols (·.selectionByteRange.start) (locals.bucket function name) }

variable (t : DocumentSymbols)

/-- `symbols[id.0]`; `none` is a panic, as in the accessors below. -/
def symbolAt (id : SymbolId) : Option Symbol := t.symbols[id.val]?

/-- The first accepted one of some symbols. -/
def findAmong (accept : Symbol → Bool) : List SymbolId → Option (Option Symbol)
  | [] => some none
  | id :: ids => do
    let sym ← t.symbolAt id
    if accept sym then some (some sym) else findAmong accept ids

/-- The first one that is no state, else the first one. -/
def preferNonState (ids : List SymbolId) : Option (Option Symbol) := do
  match ← t.findAmong (fun s => s.kind ≠ .state) ids with
  | some sym => some (some sym)
  | none =>
    match ids with
    | [] => some none
    | id :: _ => (t.symbolAt id).map some

def topLevelNamed (name : String) : Option (Option Symbol) :=
  t.preferNonState (t.topLevelByName.bucket name)

def topLevelNamedFiltered (name : String) (accept : SymbolKind → Bool) : Option (Option Symbol) :=
  t.findAmong (fun s => accept s.kind) (t.topLevelByName.bucket name)

def typeNamed (name : String) : Option (Option Symbol) :=
  t.preferNonState (t.typeByName.bucket name)

def typeNamedFiltered (name : String) (accept : SymbolKind → Bool) : Option (Option Symbol) :=
  t.findAmong (fun s => accept s.kind) (t.typeByName.bucket name)

def membersNamed (container : SymbolId) (name : String) : Option (List Symbol) :=
  (t.membersByContainer.bucket container name).mapM t.symbolAt

/-- The latest one in front of the byte. -/
def localAtByte (function : SymbolId) (name : String) (beforeByte : Nat) :
    Option (Option Symbol) :=
  t.findAmong (fun s => s.selectionByteRange.start ≤ beforeByte)
    (t.localsInFunction function name).reverse

/-- From a symbol out to its containers, for a number of rounds. -/
def climb (accept : Symbol → Bool) : Nat → SymbolId → Option (Option Symbol)
  | 0, _ => none
  | rounds + 1, id => do
    let sym ← t.symbolAt id
    if accept sym then some (some sym)
    else match sym.container with
      | none => some none
      | some container => climb accept rounds container

def enclosingSymbolAt (byteOffset : Nat) (kinds : List SymbolKind) : Option (Option Symbol) := do
  let sorted ← t.byStartByte.mapM t.symbolAt
  let upper := (sorted.takeWhile fun s => s.byteRange.start ≤ byteOffset).length
  if upper = 0 then some none
  else
    let id ← t.byStartByte[upper - 1]?
    t.climb (fun s => byteOffset ≤ s.byteRange.stop && kinds.contains s.kind)
      (t.symbols.length + 1) id

/-- No accessor indexes out of range or climbs for ever. -/
structure NeverPanics : Prop where
  enclosing : ∀ byteOffset kinds, (t.enclosingSymbolAt byteOffset kinds).isSome
  topLevel : ∀ name, (t.topLevelNamed name).isSome
  topLevelFiltered : ∀ name accept, (t.topLevelNamedFiltered name accept).isSome
  type : ∀ name, (t.typeNamed name).isSome
  typeFiltered : ∀ name accept, (t.typeNamedFiltered name accept).isSome
  members : ∀ container name, (t.membersNamed container name).isSome
  locals : ∀ function name beforeByte, (t.localAtByte function name beforeByte).isSome

def InRange (symbols : List Symbol) (ids : List SymbolId) : Prop :=
  ∀ id ∈ ids, id.val < symbols.length

lemma inRange_nil (symbols : List Symbol) : InRange symbols [] := fun _ hid => by cases hid

lemma InRange.sortIdsBy {symbols : List Symbol} {ids : List SymbolId} (h : InRange symbols ids)
    (key : Symbol → Nat) : InRange symbols (sortIdsBy symbols key ids) :=
  fun id hid => h id ((List.perm_insertionSort _ ids).mem_iff.mp hid)

lemma InRange.bucket_push {K : Type} [DecidableEq K] {symbols : List Symbol}
    {m : BucketMap K SymbolId} (h : ∀ k, InRange symbols (m.bucket k)) {id : SymbolId}
    (hid : id.val < symbols.length) (k k' : K) : InRange symbols ((m.push k id).bucket k') := by
  intro id' hid'
  rw [BucketMap.bucket_push] at hid'
  rcases List.mem_append.mp hid' with hold | hnew
  · exact h k' id' hold
  · split_ifs at hnew
    · rwa [List.mem_singleton.mp hnew]
    · cases hnew

lemma InRange.nested_push {symbols : List Symbol} {m : NestedBucketMap SymbolId String SymbolId}
    (h : ∀ k name, InRange symbols (m.bucket k name)) {id : SymbolId}
    (hid : id.val < symbols.length) (k k' : SymbolId) (name name' : String) :
    InRange symbols ((m.push k name id).bucket k' name') := by
  intro id' hid'
  rw [NestedBucketMap.bucket_push] at hid'
  rcases List.mem_append.mp hid' with hold | hnew
  · exact h k' name' id' hold
  · split_ifs at hnew
    · rwa [List.mem_singleton.mp hnew]
    · cases hnew

/-- All tables hold ids of the symbols. -/
structure TablesInRange (symbols : List Symbol) (t : DocumentSymbols) : Prop where
  symbols_eq : t.symbols = symbols
  byStartByte : InRange symbols t.byStartByte
  topLevel : ∀ name, InRange symbols (t.topLevelByName.bucket name)
  types : ∀ name, InRange symbols (t.typeByName.bucket name)
  members : ∀ container name, InRange symbols (t.membersByContainer.bucket container name)

lemma TablesInRange.indexSymbol {symbols : List Symbol} {t : DocumentSymbols}
    (h : TablesInRange symbols t) {sym : Symbol} (hsym : sym.id.val < symbols.length) :
    TablesInRange symbols (t.indexSymbol sym) := by
  have htypes {t : DocumentSymbols} (h : TablesInRange symbols t) : TablesInRange symbols
      (if sym.kind.isObjectType then
        { t with typeByName := t.typeByName.push sym.typeName sym.id } else t) := by
    split_ifs
    · exact { h with types := InRange.bucket_push h.types hsym _ }
    · exact h
  unfold DocumentSymbols.indexSymbol
  cases sym.container with
  | none =>
    refine htypes ?_
    split_ifs
    · exact h
    · exact { h with topLevel := InRange.bucket_push h.topLevel hsym _ }
  | some container =>
    have hmembers : TablesInRange symbols
        { t with membersByContainer := t.membersByContainer.push container sym.name sym.id } :=
      { h with members := fun k name => InRange.nested_push h.members hsym _ _ _ _ }
    exact htypes hmembers

lemma TablesInRange.foldl {symbols l : List Symbol} {t : DocumentSymbols}
    (h : TablesInRange symbols t) (hl : ∀ sym ∈ l, sym.id.val < symbols.length) :
    TablesInRange symbols (l.foldl DocumentSymbols.indexSymbol t) := by
  induction l generalizing t with
  | nil => exact h
  | cons sym l ih =>
    exact ih (h.indexSymbol (hl sym List.mem_cons_self))
      fun s hs => hl s (List.mem_cons_of_mem _ hs)

lemma inRange_foldl_indexLocal {symbols l : List Symbol}
    {locals : NestedBucketMap SymbolId String SymbolId}
    (h : ∀ k name, InRange symbols (locals.bucket k name))
    (hl : ∀ sym ∈ l, sym.id.val < symbols.length) (k : SymbolId) (name : String) :
    InRange symbols ((l.foldl (indexLocal symbols) locals).bucket k name) := by
  induction l generalizing locals with
  | nil => exact h k name
  | cons sym l ih =>
    refine ih (fun k name => ?_) fun s hs => hl s (List.mem_cons_of_mem _ hs)
    unfold indexLocal
    split_ifs
    · cases enclosingCallableId symbols sym with
      | none => exact h k name
      | some function => exact InRange.nested_push h (hl sym List.mem_cons_self) _ _ _ _
    · exact h k name

lemma id_lt_of_positioned {symbols : List Symbol} (h : Positioned symbols) :
    ∀ sym ∈ symbols, sym.id.val < symbols.length := by
  intro sym hsym
  obtain ⟨i, hi⟩ := List.mem_iff_getElem?.mp hsym
  rw [h i sym hi]
  exact (List.getElem?_eq_some_iff.mp hi).1

lemma tablesInRange_buildIndexes {symbols : List Symbol} (h : Positioned symbols) :
    TablesInRange symbols (buildIndexes symbols) ∧
      ∀ function name, InRange symbols ((buildIndexes symbols).localsInFunction function name) := by
  have hstart : InRange symbols (sortIdsBy symbols (·.byteRange.start)
      ((List.range symbols.length).map SymbolId.mk)) := by
    refine InRange.sortIdsBy (fun id hid => ?_) _
    obtain ⟨i, hi, rfl⟩ := List.mem_map.mp hid
    exact List.mem_range.mp hi
  have hempty {ids : List SymbolId} (hids : InRange symbols ids) :
      TablesInRange symbols { symbols, byStartByte := ids } :=
    ⟨rfl, hids, fun _ => inRange_nil symbols, fun _ => inRange_nil symbols,
      fun _ _ => inRange_nil symbols⟩
  have hall := (hempty hstart).foldl (id_lt_of_positioned h)
  refine ⟨⟨hall.symbols_eq, hall.byStartByte, hall.topLevel, hall.types, hall.members⟩, ?_⟩
  intro function name
  exact InRange.sortIdsBy (inRange_foldl_indexLocal (fun _ _ => inRange_nil symbols)
    (id_lt_of_positioned h) function name) _

section Returns

variable {t : DocumentSymbols} {ids : List SymbolId}

lemma findAmong_isSome (accept : Symbol → Bool) (h : InRange t.symbols ids) :
    (t.findAmong accept ids).isSome := by
  induction ids with
  | nil => rfl
  | cons id ids ih =>
    have hid := h id List.mem_cons_self
    rw [findAmong, symbolAt, List.getElem?_eq_getElem hid, Option.bind_eq_bind, Option.bind_some]
    split_ifs
    · rfl
    · exact ih fun id' hid' => h id' (List.mem_cons_of_mem _ hid')

lemma preferNonState_isSome (h : InRange t.symbols ids) : (t.preferNonState ids).isSome := by
  obtain ⟨found, hfound⟩ := Option.isSome_iff_exists.mp
    (findAmong_isSome (fun s => decide (s.kind ≠ .state)) h)
  unfold preferNonState
  rw [hfound, Option.bind_eq_bind, Option.bind_some]
  cases found with
  | some sym => rfl
  | none =>
    cases ids with
    | nil => rfl
    | cons id ids =>
      have hid := h id List.mem_cons_self
      simp [symbolAt, hid]

lemma exists_mapM_symbolAt (h : InRange t.symbols ids) :
    ∃ found, ids.mapM t.symbolAt = some found ∧ found.length = ids.length ∧
      ∀ i : Nat, found[i]? = (ids[i]?).bind t.symbolAt := by
  induction ids with
  | nil => exact ⟨[], rfl, rfl, fun i => rfl⟩
  | cons id ids ih =>
    obtain ⟨rest, hrest, hlength, hall⟩ := ih fun id' hid' => h id' (List.mem_cons_of_mem _ hid')
    have hid := h id List.mem_cons_self
    refine ⟨t.symbols[id.val] :: rest, ?_, congrArg (· + 1) hlength, fun i => ?_⟩
    · rw [List.mapM_cons, symbolAt, List.getElem?_eq_getElem hid, hrest]
      rfl
    · cases i with
      | zero => simp [symbolAt, hid]
      | succ i => exact hall i

/-- A container has a smaller id, so a climb is no longer than the id it starts from. -/
lemma climb_isSome (h : WellFormedTable t.symbols) (accept : Symbol → Bool) {rounds : Nat}
    {id : SymbolId} (hid : id.val < t.symbols.length) (hrounds : id.val < rounds) :
    (t.climb accept rounds id).isSome := by
  induction rounds generalizing id with
  | zero => omega
  | succ rounds ih =>
    rw [climb, symbolAt, List.getElem?_eq_getElem hid, Option.bind_eq_bind, Option.bind_some]
    split_ifs
    · rfl
    · cases hcontainer : t.symbols[id.val].container with
      | none => rfl
      | some container =>
        have hself := h.positioned id.val _ (List.getElem?_eq_getElem hid)
        obtain ⟨hlt, -⟩ := h.containers _ (List.getElem_mem hid) container hcontainer
        rw [hself] at hlt
        have hlt' : container.val < id.val := hlt
        exact ih (hlt'.trans hid) (by omega)

end Returns

/-- On a well-formed table no accessor panics. -/
theorem neverPanics_buildIndexes {symbols : List Symbol} (h : WellFormedTable symbols) :
    (buildIndexes symbols).NeverPanics := by
  obtain ⟨hall, hlocals⟩ := tablesInRange_buildIndexes h.positioned
  have hsymbols := hall.symbols_eq
  have hrange {ids : List SymbolId} (hids : InRange symbols ids) :
      InRange (buildIndexes symbols).symbols ids := by rwa [hsymbols]
  have htable : WellFormedTable (buildIndexes symbols).symbols := by rwa [hsymbols]
  refine ⟨fun byteOffset kinds => ?_, fun name => preferNonState_isSome (hrange (hall.topLevel name)),
    fun name accept => findAmong_isSome _ (hrange (hall.topLevel name)),
    fun name => preferNonState_isSome (hrange (hall.types name)),
    fun name accept => findAmong_isSome _ (hrange (hall.types name)),
    fun container name => ?_,
    fun function name beforeByte => findAmong_isSome _ fun id hid =>
      hrange (hlocals function name) id (List.mem_reverse.mp hid)⟩
  · obtain ⟨sorted, hsorted, hlength, -⟩ := exists_mapM_symbolAt (hrange hall.byStartByte)
    rw [enclosingSymbolAt, hsorted, Option.bind_eq_bind, Option.bind_some]
    dsimp only
    split_ifs with hupper
    · rfl
    · have hle := (List.takeWhile_sublist (l := sorted)
        fun s => decide (s.byteRange.start ≤ byteOffset)).length_le
      have hlt : (sorted.takeWhile fun s => decide (s.byteRange.start ≤ byteOffset)).length - 1 <
          (buildIndexes symbols).byStartByte.length := by omega
      rw [List.getElem?_eq_getElem hlt, Option.bind_eq_bind, Option.bind_some]
      have hid := hrange hall.byStartByte _ (List.getElem_mem hlt)
      exact climb_isSome htable _ hid (by omega)
  · obtain ⟨found, hfound, -⟩ := exists_mapM_symbolAt (hrange (hall.members container name))
    rw [membersNamed, hfound]
    rfl

end DocumentSymbols

/-- The tree of a parsed document, whatever errors it has: the parser puts every node inside the
range of its parent. -/
structure NestedTree where
  root : SyntaxNode
  nested : root.Nested

/-- Extraction takes no unreachable branch and makes a well-formed table, on which no accessor
panics. -/
theorem extraction_wellFormed (tree : NestedTree) :
    ∃ e, walk tree.root.toTree (extractorVisitor tree.root) (some {}) = some (some e) ∧
      WellFormedTable e.symbols ∧ (DocumentSymbols.buildIndexes e.symbols).NeverPanics := by
  obtain ⟨e, hwalk, hsymbols, -⟩ := walk_extractorVisitor tree.root
  have htable := wellFormedTable_extractSymbols tree.nested
  rw [← hsymbols] at htable
  exact ⟨e, hwalk, htable, DocumentSymbols.neverPanics_buildIndexes htable⟩

end WitcherScriptLanguage
