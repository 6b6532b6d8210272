import WitcherScriptLanguage.Library.Runs
import WitcherScriptLanguage.Resolve.ChangedKeys
import WitcherScriptLanguage.Resolve.MemberPurity

/-!
# Symbol ids in the completion catalog

The catalog copies definitions and keeps the copies until an outward key of a top-level
declaration or of an enum member changes (`resolve/workspace_index/mod.rs`). The id of a copy is a
position in the symbol table of its document. An edit inside a body moves the symbols behind it
and changes no outward key, so a copy stays valid only while its position keeps its symbol.
-/

namespace WitcherScriptLanguage

open Library

def CompletionCatalog.definitions (catalog : CompletionCatalog) : List Definition :=
  catalog.callables ++ catalog.types ++ catalog.enumMembers

/-- The definition's document is indexed, and in its current table the definition's id is that of
a symbol with the same name and kind, whose parameters are found through the id. -/
def WorkspaceIndex.Denotes (ix : WorkspaceIndex) (d : Definition) : Prop :=
  ∃ symbols, ix.documents.lookup d.uri = some symbols ∧
    ∃ s, symbols[d.symbol.id.val]? = some s ∧ s.name = d.symbol.name ∧ s.kind = d.symbol.kind ∧
      ix.fullParametersOf d.uri d.symbol.id = parametersOf symbols s.id

def WorkspaceIndex.CatalogCurrent (ix : WorkspaceIndex) : Prop :=
  ∀ d ∈ ix.completionCatalog.definitions, ix.Denotes d

/-- The number of bulk updates that are open behind the operation; none can be closed that was not
begun. -/
def IndexOp.openBulks (depth : Nat) : IndexOp → Option Nat
  | beginBulk => some (depth + 1)
  | endBulk => if depth = 0 then none else some (depth - 1)
  | _ => some depth

/-- An operation on an index with a number of open bulk updates. -/
def bulkStep (H : Hasher) (s : WorkspaceIndex × Nat) (op : IndexOp) :
    Option (WorkspaceIndex × Nat) :=
  (op.openBulks s.2).map fun depth => (op.step H s.1, depth)

/-- The position keeps the name and the kind of its symbol. -/
def StaysAt (old new : List Symbol) (id : SymbolId) : Prop :=
  (new[id.val]?).map (fun s => (s.name, s.kind)) = (old[id.val]?).map fun s => (s.name, s.kind)

instance (old new : List Symbol) (id : SymbolId) : Decidable (StaysAt old new id) :=
  inferInstanceAs (Decidable (_ = _))

/-- The catalog awaits a rebuild, or the contribution reports a key that asks for one, or the
catalogued symbols of the document keep their positions. -/
def KeepsCatalogued (ix : WorkspaceIndex) (uri : String) (c : DocContribution) : Prop :=
  ix.completionCatalogDirty = true ∨
    globalCatalogChanged (diffOutwardKeys (ix.docOutwardHashes.lookup uri) c.outward) = true ∨
    ∀ d ∈ ix.completionCatalog.definitions, d.uri = uri →
      StaysAt ((ix.documents.lookup uri).getD []) c.symbols d.symbol.id

instance (ix : WorkspaceIndex) (uri : String) (c : DocContribution) :
    Decidable (KeepsCatalogued ix uri c) :=
  inferInstanceAs (Decidable (_ ∨ _ ∨ _))

/-- Only an update can move a catalogued symbol. -/
def IndexOp.KeepsCatalogued (H : Hasher) (ix : WorkspaceIndex) : IndexOp → Prop
  | update uri document =>
    WitcherScriptLanguage.KeepsCatalogued ix uri (WorkspaceIndex.computeContribution H uri document)
  | apply uri c => WitcherScriptLanguage.KeepsCatalogued ix uri c
  | _ => True

instance (H : Hasher) (ix : WorkspaceIndex) : (op : IndexOp) → Decidable (op.KeepsCatalogued H ix)
  | .update uri _ => inferInstanceAs (Decidable (KeepsCatalogued ix uri _))
  | .apply uri c => inferInstanceAs (Decidable (KeepsCatalogued ix uri c))
  | .remove _ => .isTrue trivial
  | .beginBulk => .isTrue trivial
  | .endBulk => .isTrue trivial

/-- The slots that the catalog is built from. -/
def Slot.feedsCatalog : Slot → Bool
  | .topLevel _ | .enumMember _ => true
  | _ => false

lemma inserted_of_feedsCatalog {uri : String} {sym : Symbol} {σ : Slot} {e : IndexEntry}
    (hσ : σ.feedsCatalog) (h : (σ, e) ∈ Indices.insertedAt uri sym) :
    e = .decl ⟨uri, sym⟩ ∧ sym.injectedInBody = false ∧
      (sym.kind = .enumMember ∨ sym.container.isNone) := by
  have hnotInjected : sym.injectedInBody = false := by
    by_contra hinjected
    obtain ⟨target, -, heq⟩ :=
      Indices.insertedAt_of_injectedInBody uri (Bool.eq_true_of_not_eq_false hinjected)
    rw [heq, List.mem_singleton] at h
    cases h
    cases hσ
  refine ⟨?_, hnotInjected, ?_⟩
  · grind [Indices.insertedAt, Slot.feedsCatalog]
  · grind [Indices.insertedAt, Slot.feedsCatalog]

/-- What is filed under the slots of the catalog comes from the current documents, whose outward
keys are recorded. -/
structure OwnedSlots (H : Hasher) (ix : WorkspaceIndex) : Prop where
  owned : ∀ σ : Slot, σ.feedsCatalog → ∀ e ∈ ix.bucket σ, ∃ symbols,
    ix.documents.lookup e.uri = some symbols ∧ (σ, e) ∈ Indices.insertedBy e.uri symbols
  hashed : ∀ uri, ix.docOutwardHashes.lookup uri =
    (ix.documents.lookup uri).map (outwardHashMap H)

/-- The removal of a document takes out its entries from the slots that feed the catalog. -/
lemma OwnedSlots.takesOut {H : Hasher} {ix : WorkspaceIndex} (h : OwnedSlots H ix) {σ : Slot}
    (hσ : σ.feedsCatalog) {e : IndexEntry} (he : e ∈ ix.bucket σ) :
    ∃ symbols, ix.documents.lookup e.uri = some symbols ∧ ∃ sym ∈ symbols,
      σ ∈ Indices.visitedByRemoval sym ∧ Indices.ownedBy e.uri sym σ e = true := by
  obtain ⟨symbols, hlookup, hinserted⟩ := h.owned σ hσ e he
  obtain ⟨sym, hsym, hat⟩ := List.mem_flatMap.mp hinserted
  obtain ⟨-, hinjected, -⟩ := inserted_of_feedsCatalog hσ hat
  exact ⟨symbols, hlookup, sym, hsym, Indices.visited_of_insertedAt e.uri hinjected _ hat⟩

lemma OwnedSlots.mem_removeFromIndices {H : Hasher} {ix : WorkspaceIndex} (h : OwnedSlots H ix)
    {uri : String} {σ : Slot} (hσ : σ.feedsCatalog) {e : IndexEntry}
    (he : e ∈ (ix.removeFromIndices uri).bucket σ) : e ∈ ix.bucket σ ∧ e.uri ≠ uri := by
  have hmem := WorkspaceIndex.mem_of_mem_removeFromIndices he
  refine ⟨hmem, ?_⟩
  rintro rfl
  obtain ⟨symbols, hlookup, sym, hsym, hvisited, howned⟩ := h.takesOut hσ hmem
  exact WorkspaceIndex.notMem_removeFromIndices hlookup hsym hvisited howned he

lemma OwnedSlots.of_forgetCatalog {H : Hasher} {ix ix' : WorkspaceIndex} (h : OwnedSlots H ix)
    (heq : ix'.forgetCatalog = ix.forgetCatalog) : OwnedSlots H ix' := by
  have hs : OwnedSlots H ix'.forgetCatalog := by
    rw [heq]
    exact ⟨h.owned, h.hashed⟩
  exact ⟨hs.owned, hs.hashed⟩

lemma documents_applyContribution_lookup (ix : WorkspaceIndex) (uri u : String)
    (c : DocContribution) : (ix.applyContribution uri c).2.documents.lookup u =
      if u = uri then some c.symbols else ix.documents.lookup u := by
  rw [WorkspaceIndex.documents_applyContribution]
  split_ifs with hu
  · rw [hu, AList.lookup_insert]
  · rw [AList.lookup_insert_ne hu]

lemma documents_removeDocument_lookup (ix : WorkspaceIndex) (uri u : String) :
    (ix.removeDocument uri).2.documents.lookup u =
      if u = uri then none else ix.documents.lookup u := by
  rw [WorkspaceIndex.documents_removeDocument]
  split_ifs with hu
  · rw [hu, AList.lookup_erase]
  · rw [AList.lookup_erase_ne hu]

lemma OwnedSlots.applyContribution {H : Hasher} {ix : WorkspaceIndex} (h : OwnedSlots H ix)
    (uri : String) (document : ParsedDocument) : OwnedSlots H
      (ix.applyContribution uri (WorkspaceIndex.computeContribution H uri document)).2 where
  owned σ hσ e he := by
    rw [bucket_applyContribution, List.mem_append] at he
    rw [documents_applyContribution_lookup]
    rcases he with hkept | hnew
    · obtain ⟨hold, hne⟩ := h.mem_removeFromIndices hσ hkept
      rw [if_neg hne]
      exact h.owned σ hσ e hold
    · have huri := contributed_uri hnew
      rw [if_pos huri, huri]
      exact ⟨_, rfl, mem_contributed.mp hnew⟩
  hashed u := by
    rw [documents_applyContribution_lookup, WorkspaceIndex.applyContribution]
    dsimp only
    rw [docOutwardHashes_noteChangedKeys]
    dsimp only
    rw [docOutwardHashes_removeFromIndices]
    split_ifs with hu
    · rw [hu, AList.lookup_insert]
      rfl
    · rw [AList.lookup_insert_ne hu, h.hashed]

lemma OwnedSlots.removeDocument {H : Hasher} {ix : WorkspaceIndex} (h : OwnedSlots H ix)
    (uri : String) : OwnedSlots H (ix.removeDocument uri).2 where
  owned σ hσ e he := by
    rw [bucket_removeDocument] at he
    obtain ⟨hold, hne⟩ := h.mem_removeFromIndices hσ he
    rw [documents_removeDocument_lookup, if_neg hne]
    exact h.owned σ hσ e hold
  hashed u := by
    rw [documents_removeDocument_lookup, WorkspaceIndex.removeDocument]
    dsimp only
    rw [docOutwardHashes_noteChangedKeys]
    dsimp only
    rw [docOutwardHashes_removeFromIndices]
    split_ifs with hu
    · rw [hu, AList.lookup_erase]
      rfl
    · rw [AList.lookup_erase_ne hu, h.hashed]

lemma ownedSlots_empty (H : Hasher) : OwnedSlots H {} where
  owned σ _ e he := by
    rw [Indices.bucket_empty] at he
    cases he
  hashed _ := rfl

/-- What the index records about its documents, as far as the catalog depends on it. -/
structure FeedsCatalog (H : Hasher) (ix : WorkspaceIndex) : Prop extends OwnedSlots H ix where
  positioned : ∀ uri symbols, ix.documents.lookup uri = some symbols → Positioned symbols

lemma FeedsCatalog.of_forgetCatalog {H : Hasher} {ix ix' : WorkspaceIndex}
    (h : FeedsCatalog H ix) (heq : ix'.forgetCatalog = ix.forgetCatalog) :
    FeedsCatalog H ix' := by
  have hpositioned : ∀ uri symbols, ix'.forgetCatalog.documents.lookup uri = some symbols →
      Positioned symbols := by
    rw [heq]
    exact h.positioned
  exact ⟨h.toOwnedSlots.of_forgetCatalog heq, hpositioned⟩

lemma FeedsCatalog.applyContribution {H : Hasher} {ix : WorkspaceIndex} (h : FeedsCatalog H ix)
    (uri : String) (document : ParsedDocument) (hpositioned : Positioned document.symbols) :
    FeedsCatalog H
      (ix.applyContribution uri (WorkspaceIndex.computeContribution H uri document)).2 where
  toOwnedSlots := h.toOwnedSlots.applyContribution uri document
  positioned u symbols hlookup := by
    rw [documents_applyContribution_lookup] at hlookup
    split_ifs at hlookup
    · cases hlookup
      exact hpositioned
    · exact h.positioned u symbols hlookup

lemma FeedsCatalog.removeDocument {H : Hasher} {ix : WorkspaceIndex} (h : FeedsCatalog H ix)
    (uri : String) : FeedsCatalog H (ix.removeDocument uri).2 where
  toOwnedSlots := h.toOwnedSlots.removeDocument uri
  positioned u symbols hlookup := by
    rw [documents_removeDocument_lookup] at hlookup
    split_ifs at hlookup
    exact h.positioned u symbols hlookup

/-! ### The invariant -/

/-- The definition's id is at a symbol of its name and kind, in a document with a key for which
the catalog is rebuilt. -/
def WorkspaceIndex.Anchored (H : Hasher) (ix : WorkspaceIndex) (d : Definition) : Prop :=
  ∃ symbols, ix.documents.lookup d.uri = some symbols ∧
    (symbols[d.symbol.id.val]?).map (fun s => (s.name, s.kind)) =
      some (d.symbol.name, d.symbol.kind) ∧
    globalCatalogChanged (outwardHashMap H symbols).keys = true

structure CatalogInv (H : Hasher) (ix : WorkspaceIndex) : Prop extends FeedsCatalog H ix where
  /-- Outside bulk updates nothing awaits a rebuild. -/
  settled : ix.catalogRebuildSuppressed = 0 → ix.completionCatalogDirty = false
  anchored : ix.completionCatalogDirty = false →
    ∀ d ∈ ix.completionCatalog.definitions, ix.Anchored H d

lemma globalCatalogChanged_iff {keys : List ObservedKey} :
    globalCatalogChanged keys = true ↔ ∃ key ∈ keys, globalCatalogChanged [key] = true := by
  simp [globalCatalogChanged, List.any_eq_true]

/-- A symbol that is filed in a slot of the catalog has a key for which the catalog is rebuilt. -/
lemma global_of_outward (H : Hasher) {symbols : List Symbol} {s : Symbol} (hs : s ∈ symbols)
    (hvisible : isOutwardVisible s) (hglobal : s.kind = .enumMember ∨ s.container.isNone) :
    globalCatalogChanged (outwardHashMap H symbols).keys = true := by
  refine globalCatalogChanged_iff.mpr ⟨outwardKeyFor s, ?_, ?_⟩
  · rw [← AList.mem_keys, ← AList.lookup_isSome, Option.isSome_iff_ne_none]
    intro hnone
    have hmem : (outwardKeyFor s, HashedEntry.symbol s.fields) ∈ hashedEntries symbols :=
      List.mem_append_left _ (List.mem_map_of_mem (List.mem_filter.mpr ⟨hs, hvisible⟩))
    have hunder : HashedEntry.symbol s.fields ∈ entriesUnder symbols (outwardKeyFor s) :=
      List.mem_map.mpr ⟨_, List.mem_filter.mpr ⟨hmem, by simp⟩, rfl⟩
    rw [(lookup_eq_none_iff H symbols _).mp hnone] at hunder
    cases hunder
  · rcases hglobal with hkind | hcontainer
    · rw [outwardKeyFor, hkind, if_pos rfl]
      split_ifs <;> rfl
    · rw [outwardKeyFor, if_pos hcontainer]
      rfl

lemma FeedsCatalog.anchored_of_mem {H : Hasher} {ix : WorkspaceIndex} (h : FeedsCatalog H ix)
    {σ : Slot} (hσ : σ.feedsCatalog) {d : Definition} (hd : .decl d ∈ ix.bucket σ)
    (hvisible : isOutwardVisible d.symbol) : ix.Anchored H d := by
  obtain ⟨symbols, hlookup, hinserted⟩ := h.owned σ hσ _ hd
  obtain ⟨sym, hsym, hat⟩ := List.mem_flatMap.mp hinserted
  obtain ⟨heq, -, hglobal⟩ := inserted_of_feedsCatalog hσ hat
  have hsymbol : d.symbol = sym := congrArg Definition.symbol (IndexEntry.decl.inj heq)
  obtain ⟨i, hi, hget⟩ := List.getElem_of_mem hsym
  have hat? : symbols[i]? = some sym := List.getElem?_eq_some_iff.mpr ⟨hi, hget⟩
  have hid : sym.id = ⟨i⟩ := h.positioned _ _ hlookup i sym hat?
  rw [hsymbol] at hvisible
  refine ⟨symbols, hlookup, ?_, global_of_outward H hsym hvisible hglobal⟩
  rw [hsymbol, hid, hat?]
  rfl

/-- A rebuilt catalog holds what the maps hold. -/
lemma FeedsCatalog.anchored_rebuild {H : Hasher} {ix : WorkspaceIndex} (h : FeedsCatalog H ix) :
    ∀ d ∈ ix.rebuildCompletionCatalog.completionCatalog.definitions, ix.Anchored H d := by
  have htop : ∀ d ∈ ix.topLevelByName.entries.flatMap (·.2), isOutwardVisible d.symbol →
      ix.Anchored H d := by
    intro d hd hvisible
    obtain ⟨⟨k, l⟩, hentry, hmem⟩ := List.mem_flatMap.mp hd
    have hlookup : ix.topLevelByName.lookup k = some l := AList.mem_lookup_iff.mpr hentry
    refine h.anchored_of_mem (σ := .topLevel k) rfl ?_ hvisible
    rw [Indices.bucket, BucketMap.bucket, hlookup]
    exact List.mem_map_of_mem hmem
  intro d hd
  rw [CompletionCatalog.definitions, List.mem_append, List.mem_append] at hd
  rcases hd with (hcallable | htype) | hmember
  · obtain ⟨hmem, hcallable⟩ := List.mem_filter.mp hcallable
    refine htop d hmem ?_
    rw [isCatalogCallable, Bool.and_eq_true, decide_eq_true_iff] at hcallable
    rw [isOutwardVisible, hcallable.1]
  · obtain ⟨hmem, htype⟩ := List.mem_filter.mp htype
    refine htop d hmem ?_
    cases hkind : d.symbol.kind <;> simp_all [SymbolKind.isType, isOutwardVisible]
  · obtain ⟨⟨k, l⟩, hentry, hlast⟩ := List.mem_filterMap.mp hmember
    have hlookup : ix.enumMemberByName.lookup k = some l := AList.mem_lookup_iff.mpr hentry
    have hd : .decl d ∈ ix.bucket (.enumMember k) := by
      rw [Indices.bucket, BucketMap.bucket, hlookup]
      exact List.mem_map_of_mem (List.mem_of_getLast? hlast)
    obtain ⟨symbols, -, hinserted⟩ := h.owned (.enumMember k) rfl _ hd
    obtain ⟨sym, -, hat⟩ := List.mem_flatMap.mp hinserted
    have hkind : d.symbol.kind = .enumMember := by
      grind [Indices.insertedAt]
    exact h.anchored_of_mem (σ := .enumMember k) rfl hd (by rw [isOutwardVisible, hkind])

/-- Noting changed keys leaves the catalog alone, marks it or rebuilds it. -/
lemma noteChangedKeys_cases (ix : WorkspaceIndex) (keys : List ObservedKey) :
    (globalCatalogChanged keys = false ∧ ix.noteChangedKeys keys = ix) ∨
      (ix.catalogRebuildSuppressed ≠ 0 ∧
        ix.noteChangedKeys keys = { ix with completionCatalogDirty := true }) ∨
      ix.noteChangedKeys keys = ix.rebuildCompletionCatalog := by
  unfold WorkspaceIndex.noteChangedKeys WorkspaceIndex.maybeRebuildCompletionCatalog
  cases globalCatalogChanged keys with
  | false => exact .inl ⟨rfl, rfl⟩
  | true =>
    by_cases hsuppressed : ix.catalogRebuildSuppressed = 0
    · exact .inr (.inr (by simp [hsuppressed, WorkspaceIndex.rebuildCompletionCatalog]))
    · exact .inr (.inl ⟨hsuppressed, by simp [hsuppressed]⟩)

/-- The catalog stays right when the step rebuilds it, when it awaits a rebuild, and when the
kept definitions stay anchored. -/
lemma CatalogInv.noteChangedKeys {H : Hasher} {ix ix' : WorkspaceIndex} (h : CatalogInv H ix)
    (keys : List ObservedKey) (hfeeds : FeedsCatalog H (ix'.noteChangedKeys keys))
    (hcatalog : ix'.completionCatalog = ix.completionCatalog)
    (hdirty : ix'.completionCatalogDirty = ix.completionCatalogDirty)
    (hsuppressed : ix'.catalogRebuildSuppressed = ix.catalogRebuildSuppressed)
    (hkept : ix.completionCatalogDirty = false → globalCatalogChanged keys = false →
      ∀ d ∈ ix.completionCatalog.definitions, ix'.Anchored H d) :
    CatalogInv H (ix'.noteChangedKeys keys) where
  toFeedsCatalog := hfeeds
  settled := by
    rcases noteChangedKeys_cases ix' keys with ⟨-, heq⟩ | ⟨hne, heq⟩ | heq
    · rw [heq, hdirty, hsuppressed]
      exact h.settled
    · rw [heq]
      exact fun hzero => absurd hzero hne
    · rw [heq]
      exact fun _ => rfl
  anchored := by
    rcases noteChangedKeys_cases ix' keys with ⟨hglobal, heq⟩ | ⟨-, heq⟩ | heq
    · rw [heq, hdirty, hcatalog]
      exact fun hclean => hkept hclean hglobal
    · rw [heq]
      intro hclean
      cases hclean
    · have hfeeds' : FeedsCatalog H ix' := hfeeds.of_forgetCatalog (by rw [heq]; rfl)
      rw [heq]
      exact fun _ d hd => hfeeds'.anchored_rebuild d hd

lemma catalog_removeFromIndices (ix : WorkspaceIndex) (uri : String) :
    (ix.removeFromIndices uri).completionCatalog = ix.completionCatalog ∧
      (ix.removeFromIndices uri).completionCatalogDirty = ix.completionCatalogDirty ∧
      (ix.removeFromIndices uri).catalogRebuildSuppressed = ix.catalogRebuildSuppressed := by
  rw [WorkspaceIndex.removeFromIndices_eq]
  exact ⟨rfl, rfl, rfl⟩

/-- When no key of the catalog is reported, such keys stay. -/
lemma global_of_unreported {H : Hasher} {old new : List Symbol}
    (hglobal : globalCatalogChanged (outwardHashMap H old).keys = true)
    (hunreported : globalCatalogChanged
      (diffOutwardKeys (some (outwardHashMap H old)) (outwardHashMap H new)) = false) :
    globalCatalogChanged (outwardHashMap H new).keys = true := by
  obtain ⟨key, hkey, hof⟩ := globalCatalogChanged_iff.mp hglobal
  refine globalCatalogChanged_iff.mpr ⟨key, ?_, hof⟩
  by_contra hnew
  have hreported : key ∈ diffOutwardKeys (some (outwardHashMap H old)) (outwardHashMap H new) := by
    rw [diffOutwardKeys, List.mem_append]
    exact .inr (List.mem_filter.mpr ⟨hkey, by simpa using hnew⟩)
  rw [globalCatalogChanged_iff.mpr ⟨key, hreported, hof⟩] at hunreported
  cases hunreported

lemma CatalogInv.applyContribution {H : Hasher} {ix : WorkspaceIndex} (h : CatalogInv H ix)
    (uri : String) (document : ParsedDocument) (hpositioned : Positioned document.symbols)
    (hkeeps : KeepsCatalogued ix uri (WorkspaceIndex.computeContribution H uri document)) :
    CatalogInv H
      (ix.applyContribution uri (WorkspaceIndex.computeContribution H uri document)).2 := by
  obtain ⟨hcatalog, hdirty, hsuppressed⟩ := catalog_removeFromIndices ix uri
  have hfeeds := h.toFeedsCatalog.applyContribution uri document hpositioned
  have hdocuments := documents_applyContribution_lookup ix uri
  rw [WorkspaceIndex.applyContribution] at hfeeds ⊢
  simp only [WorkspaceIndex.applyContribution,
    WorkspaceIndex.documents_noteChangedKeys] at hdocuments
  refine h.noteChangedKeys _ hfeeds hcatalog hdirty hsuppressed fun hclean hunreported d hd => ?_
  rw [docOutwardHashes_removeFromIndices] at hunreported
  obtain ⟨symbols, hlookup, hat, hglobal⟩ := h.anchored hclean d hd
  by_cases huri : d.uri = uri
  · rcases hkeeps with hdirty | hreported | hstays
    · rw [hclean] at hdirty
      cases hdirty
    · rw [hunreported] at hreported
      cases hreported
    · have hstay := hstays d hd huri
      rw [← huri, hlookup, Option.getD_some, StaysAt, hat] at hstay
      refine ⟨document.symbols, ?_, hstay, ?_⟩
      · rw [hdocuments, if_pos huri]
        rfl
      · rw [← huri, h.hashed, hlookup] at hunreported
        exact global_of_unreported hglobal hunreported
  · refine ⟨symbols, ?_, hat, hglobal⟩
    rw [hdocuments, if_neg huri, hlookup]

lemma CatalogInv.removeDocument {H : Hasher} {ix : WorkspaceIndex} (h : CatalogInv H ix)
    (uri : String) : CatalogInv H (ix.removeDocument uri).2 := by
  obtain ⟨hcatalog, hdirty, hsuppressed⟩ := catalog_removeFromIndices ix uri
  have hfeeds := h.toFeedsCatalog.removeDocument uri
  have hdocuments := documents_removeDocument_lookup ix uri
  rw [WorkspaceIndex.removeDocument] at hfeeds ⊢
  simp only [WorkspaceIndex.removeDocument,
    WorkspaceIndex.documents_noteChangedKeys] at hdocuments
  refine h.noteChangedKeys _ hfeeds hcatalog hdirty hsuppressed fun hclean hunreported d hd => ?_
  rw [docOutwardHashes_removeFromIndices] at hunreported
  obtain ⟨symbols, hlookup, hat, hglobal⟩ := h.anchored hclean d hd
  by_cases huri : d.uri = uri
  · rw [← huri, h.hashed, hlookup] at hunreported
    rw [Option.map_some, Option.map_some, Option.getD_some, hglobal] at hunreported
    cases hunreported
  · refine ⟨symbols, ?_, hat, hglobal⟩
    rw [hdocuments, if_neg huri, hlookup]

lemma CatalogInv.endBulk {H : Hasher} {ix : WorkspaceIndex} (h : CatalogInv H ix) :
    CatalogInv H ix.endBulkCatalogUpdate := by
  have hfeeds := h.toFeedsCatalog.of_forgetCatalog (WorkspaceIndex.forgetCatalog_endBulk ix)
  refine ⟨hfeeds, ?_, ?_⟩
  · unfold WorkspaceIndex.endBulkCatalogUpdate WorkspaceIndex.maybeRebuildCompletionCatalog
    dsimp only
    split_ifs with hrebuilds
    · exact fun _ => rfl
    · intro hzero
      have hnotSuppressed : ix.catalogRebuildSuppressed - 1 = 0 := hzero
      rw [hnotSuppressed, beq_self_eq_true, Bool.and_true] at hrebuilds
      exact Bool.eq_false_of_not_eq_true hrebuilds
  · unfold WorkspaceIndex.endBulkCatalogUpdate WorkspaceIndex.maybeRebuildCompletionCatalog
    dsimp only
    split_ifs with hrebuilds
    · exact fun _ d hd => h.toFeedsCatalog.anchored_rebuild d hd
    · exact h.anchored

lemma catalogInv_empty (H : Hasher) : CatalogInv H {} where
  toOwnedSlots := ownedSlots_empty H
  positioned _ _ hlookup := by cases hlookup
  settled _ := rfl
  anchored _ d hd := by cases hd

/-- One operation; the bulk updates that it opens and closes are counted. -/
lemma CatalogInv.step {H : Hasher} {ix : WorkspaceIndex} (h : CatalogInv H ix) {op : IndexOp}
    (hcomputed : op.Computed H) (hextracted : op.Extracted) (hkeeps : op.KeepsCatalogued H ix) :
    CatalogInv H (op.step H ix) := by
  cases op with
  | update uri document =>
    obtain ⟨root, hroot⟩ := hextracted document.symbols rfl
    exact h.applyContribution uri document (hroot ▸ positioned_extractSymbols root) hkeeps
  | apply uri c =>
    obtain ⟨document, rfl⟩ := hcomputed
    obtain ⟨root, hroot⟩ := hextracted document.symbols rfl
    exact h.applyContribution uri document (hroot ▸ positioned_extractSymbols root) hkeeps
  | remove uri => exact h.removeDocument uri
  | beginBulk =>
    refine ⟨h.toFeedsCatalog.of_forgetCatalog rfl, fun hzero => ?_, h.anchored⟩
    have hpositive : min (ix.catalogRebuildSuppressed + 1) WorkspaceIndex.maxSuppressed = 0 := hzero
    rw [WorkspaceIndex.maxSuppressed] at hpositive
    omega
  | endBulk => exact h.endBulk

lemma suppressed_noteChangedKeys (ix : WorkspaceIndex) (keys : List ObservedKey) :
    (ix.noteChangedKeys keys).catalogRebuildSuppressed = ix.catalogRebuildSuppressed := by
  rcases noteChangedKeys_cases ix keys with ⟨-, heq⟩ | ⟨-, heq⟩ | heq
  · rw [heq]
  · rw [heq]
  · rw [heq]
    rfl

lemma suppressed_applyContribution (ix : WorkspaceIndex) (uri : String) (c : DocContribution) :
    (ix.applyContribution uri c).2.catalogRebuildSuppressed = ix.catalogRebuildSuppressed := by
  rw [WorkspaceIndex.applyContribution]
  exact (suppressed_noteChangedKeys ..).trans (catalog_removeFromIndices ix uri).2.2

/-- No more rebuilds are suppressed than bulk updates are open. -/
lemma suppressed_le_openBulks (H : Hasher) {ix : WorkspaceIndex} {op : IndexOp}
    {depth depth' : Nat} (h : ix.catalogRebuildSuppressed ≤ depth)
    (hopen : op.openBulks depth = some depth') :
    (op.step H ix).catalogRebuildSuppressed ≤ depth' := by
  cases op with
  | update uri document =>
    cases hopen
    exact (suppressed_applyContribution ix uri _).trans_le h
  | apply uri c =>
    cases hopen
    exact (suppressed_applyContribution ix uri c).trans_le h
  | remove uri =>
    cases hopen
    have hsame : (ix.removeDocument uri).2.catalogRebuildSuppressed =
        ix.catalogRebuildSuppressed := by
      rw [WorkspaceIndex.removeDocument]
      exact (suppressed_noteChangedKeys ..).trans (catalog_removeFromIndices ix uri).2.2
    exact hsame.trans_le h
  | beginBulk =>
    cases hopen
    exact (Nat.min_le_left _ _).trans (Nat.succ_le_succ h)
  | endBulk =>
    rw [IndexOp.openBulks] at hopen
    split_ifs at hopen with hdepth
    cases hopen
    have hsame : ix.endBulkCatalogUpdate.catalogRebuildSuppressed =
        ix.catalogRebuildSuppressed - 1 := by
      unfold WorkspaceIndex.endBulkCatalogUpdate WorkspaceIndex.maybeRebuildCompletionCatalog
      split_ifs <;> rfl
    rw [IndexOp.step, hsame]
    omega

lemma CatalogInv.denotes {H : Hasher} {ix : WorkspaceIndex} (h : CatalogInv H ix)
    {d : Definition} (hd : ix.Anchored H d) : ix.Denotes d := by
  obtain ⟨symbols, hlookup, hat, -⟩ := hd
  obtain ⟨s, hs, hsame⟩ := Option.map_eq_some_iff.mp hat
  have hid : s.id = d.symbol.id := h.positioned _ _ hlookup _ s hs
  refine ⟨symbols, hlookup, s, hs, congrArg Prod.fst hsame, congrArg Prod.snd hsame, ?_⟩
  rw [WorkspaceIndex.fullParametersOf, hlookup, hid]
  rfl

/-- After any run of updates and removals with all bulk updates closed, the catalog denotes
current symbols, provided that no step moves a catalogued symbol of an unreported document. -/
theorem catalogCurrent_of_keepsCatalogued (H : Hasher) {ops : List IndexOp}
    (hops : ∀ op ∈ ops, op.Computed H ∧ op.Extracted) {ix : WorkspaceIndex}
    (hrun : run (bulkStep H) ({}, 0) ops = some (ix, 0))
    (hkeeps : AllSteps (bulkStep H) (fun s op => op.KeepsCatalogued H s.1) ({}, 0) ops) :
    ix.CatalogCurrent := by
  have hinv : CatalogInv H ix ∧ ix.catalogRebuildSuppressed ≤ 0 := by
    refine run_invariant (I := fun s => CatalogInv H s.1 ∧ s.1.catalogRebuildSuppressed ≤ s.2) ?_
      ⟨catalogInv_empty H, le_rfl⟩ (hkeeps.and_mem hops) hrun
    rintro ⟨jx, depth⟩ op ⟨jx', depth'⟩ ⟨hcatalog, hdepth⟩ ⟨hkept, hcomputed, hextracted⟩ hstep
    obtain ⟨opened, hopen, heq⟩ := Option.map_eq_some_iff.mp hstep
    cases heq
    exact ⟨hcatalog.step hcomputed hextracted hkept, suppressed_le_openBulks H hdepth hopen⟩
  intro d hd
  have hsettled : ix.completionCatalogDirty = false :=
    hinv.1.settled (Nat.le_zero.mp hinv.2)
  exact hinv.1.denotes (hinv.1.anchored hsettled d hd)

lemma globalCatalogChanged_diff_self (outward : OutwardHashes) :
    globalCatalogChanged (diffOutwardKeys (some outward) outward) = false := by
  have hnone : diffOutwardKeys (some outward) outward = [] :=
    List.eq_nil_iff_forall_not_mem.mpr fun key hkey => mem_diffOutwardKeys.mp hkey rfl
  rw [hnone]
  rfl

/-- An update with the outward hashes of the indexed document keeps the catalog. -/
lemma catalog_update_of_same_hashes (H : Hasher) (uri : String) (old new : ParsedDocument)
    (hpositioned : Positioned old.symbols)
    (h : outwardHashMap H new.symbols = outwardHashMap H old.symbols) :
    (runIndex H [.update uri old, .update uri new]).completionCatalog =
      (runIndex H [.update uri old]).completionCatalog := by
  have hfeeds : FeedsCatalog H (runIndex H [.update uri old]) :=
    (catalogInv_empty H).toFeedsCatalog.applyContribution uri old hpositioned
  have hhashes : (runIndex H [.update uri old]).docOutwardHashes.lookup uri =
      some (outwardHashMap H new.symbols) := by
    rw [hfeeds.hashed, h]
    exact congrArg _ ((documents_applyContribution_lookup {} uri uri _).trans (if_pos rfl))
  have hunreported : globalCatalogChanged (diffOutwardKeys
      ((runIndex H [.update uri old]).docOutwardHashes.lookup uri)
      (outwardHashMap H new.symbols)) = false := by
    rw [hhashes]
    exact globalCatalogChanged_diff_self _
  rw [show runIndex H [.update uri old, .update uri new] =
      ((runIndex H [.update uri old]).updateDocument H uri new).2 from rfl,
    WorkspaceIndex.updateDocument, WorkspaceIndex.applyContribution,
    docOutwardHashes_removeFromIndices, WorkspaceIndex.computeContribution,
    WorkspaceIndex.noteChangedKeys, hunreported]
  exact (catalog_removeFromIndices _ uri).1

/-- `function name() {}`, with `var x : int;` in its body when it has a local. -/
def functionTree (start : Nat) (name : String) (hasLocal : Bool) : SyntaxNode :=
  let body := if hasLocal then "{ var x : int; }" else "{}"
  let locals := if hasLocal then
      [branch .localVarDeclStmt "var x : int;" (start + 15)
        [leaf .ident "x" (start + 19) (some .names), leaf .typeAnnot "int" (start + 23)]]
    else []
  branch .funcDecl ("function " ++ name ++ "() " ++ body) start
    [leaf .ident name (start + 9), branch .funcParams "()" (start + 10) [],
      branch .funcBlock body (start + 13) locals]

/-- The functions `a` and `b`, one after the other. -/
def functionsAB (localInA localInB : Bool) : SyntaxNode :=
  let a := functionTree 0 "a" localInA
  let b := functionTree (a.range.stop + 1) "b" localInB
  branch .other (a.text ++ " " ++ b.text) 0 [a, b]

lemma run_two_updates (H : Hasher) (uri : String) (old new : ParsedDocument) :
    run (bulkStep H) ({}, 0) [.update uri old, .update uri new] =
      some (runIndex H [.update uri old, .update uri new], 0) := rfl

/-- The symbol of `b` behind the function `a` without a local. -/
def functionB : Symbol where
  id := ⟨1⟩
  name := "b"
  kind := .function
  byteRange := ⟨16, 31⟩
  selectionByteRange := ⟨25, 26⟩

/-- The local is added to the body of `a` only. -/
def addLocalInA : List IndexOp :=
  [.update "file:///a.ws" (extractedDocument (functionsAB false false)),
    .update "file:///a.ws" (extractedDocument (functionsAB true false))]

lemma extracted_update (uri : String) (root : SyntaxNode) :
    (IndexOp.update uri (extractedDocument root)).Extracted := by
  rintro symbols ⟨⟩
  exact ⟨root, rfl⟩

lemma addLocalInA_extracted (H : Hasher) : ∀ op ∈ addLocalInA, op.Computed H ∧ op.Extracted := by
  intro op hop
  rcases List.mem_pair.mp hop with rfl | rfl
  · exact ⟨trivial, extracted_update _ _⟩
  · exact ⟨trivial, extracted_update _ _⟩

lemma hashedEntries_functionsAB :
    hashedEntries (extractedDocument (functionsAB true false)).symbols =
      hashedEntries (extractedDocument (functionsAB false false)).symbols := by
  decide +kernel

/-- A local is not hashed, so that no key is reported and the catalog is kept. -/
lemma functionB_mem_catalog (H : Hasher) : ⟨"file:///a.ws", functionB⟩ ∈
    (runIndex H addLocalInA).completionCatalog.definitions := by
  have hhashes : outwardHashMap H (extractedDocument (functionsAB true false)).symbols =
      outwardHashMap H (extractedDocument (functionsAB false false)).symbols := by
    rw [outwardHashMap_eq, outwardHashMap_eq]
    exact congrArg _ (hashedEntries_functionsAB)
  have hkept := catalog_update_of_same_hashes H "file:///a.ws"
    (extractedDocument (functionsAB false false)) (extractedDocument (functionsAB true false))
    (positioned_extractSymbols _) hhashes
  rw [addLocalInA, hkept]
  exact List.mem_of_getElem? (i := 0) rfl

lemma lookup_addLocalInA (H : Hasher) : (runIndex H addLocalInA).documents.lookup "file:///a.ws" =
    some (extractSymbols (functionsAB true false)) :=
  (documents_applyContribution_lookup _ _ _ _).trans (if_pos rfl)

/-- The local of `a` takes the position that the catalog has for `b`, whatever the hasher is. -/
theorem not_catalogCurrent_localInA :
    ¬∃ H : Hasher, ∀ (ops : List IndexOp) (ix : WorkspaceIndex),
      (∀ op ∈ ops, op.Computed H ∧ op.Extracted) → run (bulkStep H) ({}, 0) ops = some (ix, 0) →
        ix.CatalogCurrent := by
  rintro ⟨H, h⟩
  have hrun := run_two_updates H "file:///a.ws" (extractedDocument (functionsAB false false))
    (extractedDocument (functionsAB true false))
  have hcurrent := h addLocalInA (runIndex H addLocalInA) (addLocalInA_extracted H) hrun
  obtain ⟨symbols, hsymbols, s, hs, -, hkind, -⟩ := hcurrent _ (functionB_mem_catalog H)
  obtain rfl := Option.some.inj ((lookup_addLocalInA H).symm.trans hsymbols)
  have hlocal : ((extractSymbols (functionsAB true false))[1]?).map (·.kind) = some .variable := rfl
  have hfound : (extractSymbols (functionsAB true false))[1]? = some s := hs
  rw [hfound, Option.map_some, hkind] at hlocal
  cases hlocal

/-- A bulk update of both bodies, in which `b` keeps its position, and an edit of `b` after it. -/
def editInB : List IndexOp :=
  [.update "file:///a.ws" (extractedDocument (functionsAB false false)), .beginBulk,
    .update "file:///b.ws" (extractedDocument (functionsAB true false)), .remove "file:///b.ws",
    .endBulk, .update "file:///a.ws" (extractedDocument (functionsAB false true))]

lemma editInB_extracted : ∀ op ∈ editInB, op.Computed zeroHasher ∧ op.Extracted := by
  intro op hop
  simp only [editInB, List.mem_cons, List.not_mem_nil, or_false] at hop
  rcases hop with rfl | rfl | rfl | rfl | rfl | rfl
  · exact ⟨trivial, extracted_update _ _⟩
  · exact ⟨trivial, fun _ h => by cases h⟩
  · exact ⟨trivial, extracted_update _ _⟩
  · exact ⟨trivial, fun _ h => by cases h⟩
  · exact ⟨trivial, fun _ h => by cases h⟩
  · exact ⟨trivial, extracted_update _ _⟩

theorem catalogCurrent_editInB : (runIndex zeroHasher editInB).CatalogCurrent := by
  have hrun : run (bulkStep zeroHasher) ({}, 0) editInB =
      some (runIndex zeroHasher editInB, 0) := rfl
  refine catalogCurrent_of_keepsCatalogued zeroHasher editInB_extracted hrun ?_
  decide

end WitcherScriptLanguage
