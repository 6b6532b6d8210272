import WitcherScriptLanguage.Resolve.CatalogIds
import WitcherScriptLanguage.Resolve.IndexWithout

/-!
# Rebuilt completion catalogs

Outside bulk updates an operation either rebuilds the completion catalog, for a global key that it
changes, or leaves it alone. What a rebuild lists depends on the buckets of the top-level names and
of the enum members, and the removal of a document without global keys changes nothing in it.
-/

namespace WitcherScriptLanguage

open Library

namespace CompletionCatalog

variable {catalog catalog' catalog'' : CompletionCatalog}

lemma Alike.refl (catalog : CompletionCatalog) : catalog.Alike catalog :=
  ⟨List.Perm.refl _, List.Perm.refl _, List.Perm.refl _⟩

lemma Alike.symm (h : catalog.Alike catalog') : catalog'.Alike catalog :=
  ⟨h.callables.symm, h.types.symm, h.enumMembers.symm⟩

lemma Alike.trans (h : catalog.Alike catalog') (h' : catalog'.Alike catalog'') :
    catalog.Alike catalog'' :=
  ⟨h.callables.trans h'.callables, h.types.trans h'.types, h.enumMembers.trans h'.enumMembers⟩

end CompletionCatalog

/-- An entry that may be reported, and that a catalog may list. -/
def IndexEntry.visible : IndexEntry → Bool
  | .decl d => isOutwardVisible d.symbol
  | .edge .. => false

lemma isOutwardVisible_of_callable {d : Definition} (h : isCatalogCallable d = true) :
    isOutwardVisible d.symbol = true := by
  rw [isCatalogCallable, Bool.and_eq_true, decide_eq_true_iff] at h
  rw [isOutwardVisible, h.1]

lemma isOutwardVisible_of_isType {s : Symbol} (h : s.kind.isType = true) :
    isOutwardVisible s = true := by
  unfold isOutwardVisible
  cases hkind : s.kind <;> simp_all [SymbolKind.isType]

namespace WorkspaceIndex

/-- The catalog that a rebuild gives. -/
def rebuiltCatalog (ix : WorkspaceIndex) : CompletionCatalog :=
  ix.rebuildCompletionCatalog.completionCatalog

/-- The outward keys that the index holds for a document. -/
def outwardKeys (ix : WorkspaceIndex) (uri : String) : List ObservedKey :=
  ((ix.docOutwardHashes.lookup uri).map AList.keys).getD []

/-- An index between two publications: no bulk update is open and no rebuild is due. -/
structure Standing (H : Hasher) (ix : WorkspaceIndex) : Prop extends OwnedSlots H ix where
  unsuppressed : ix.catalogRebuildSuppressed = 0
  settled : ix.completionCatalogDirty = false

lemma standing_empty (H : Hasher) : Standing H {} := ⟨ownedSlots_empty H, rfl, rfl⟩

variable {H : Hasher} {ix ix' : WorkspaceIndex}

lemma rebuiltCatalog_congr (h : ix'.toIndices = ix.toIndices) :
    ix'.rebuiltCatalog = ix.rebuiltCatalog := by
  unfold rebuiltCatalog rebuildCompletionCatalog
  dsimp only
  rw [h]

end WorkspaceIndex

section Rebuilds

variable {H : Hasher} {ix ix' : WorkspaceIndex}

lemma bucket_topLevel_filter {p : Definition → Bool} (name : String)
    (hp : ∀ d, p d = true → isOutwardVisible d.symbol = true)
    (hsame : (ix.bucket (.topLevel name)).filter IndexEntry.visible =
      (ix'.bucket (.topLevel name)).filter IndexEntry.visible) :
    (ix.topLevelByName.bucket name).filter p = (ix'.topLevelByName.bucket name).filter p := by
  have hvisible : (ix.topLevelByName.bucket name).filter (fun d => isOutwardVisible d.symbol) =
      (ix'.topLevelByName.bucket name).filter fun d => isOutwardVisible d.symbol := by
    have hmap : ∀ l : List Definition, (l.map IndexEntry.decl).filter IndexEntry.visible =
        (l.filter fun d => isOutwardVisible d.symbol).map IndexEntry.decl :=
      fun l => List.filter_map ..
    have hdecl : Function.Injective IndexEntry.decl := fun _ _ h => IndexEntry.decl.inj h
    rw [Indices.bucket, Indices.bucket, hmap, hmap] at hsame
    exact hdecl.list_map hsame
  have hfilter : ∀ l : List Definition,
      l.filter p = (l.filter fun d => isOutwardVisible d.symbol).filter p := by
    intro l
    rw [List.filter_filter]
    apply List.filter_congr
    intro d _
    cases hd : p d with
    | true => simp [hp d hd]
    | false => rfl
  rw [hfilter, hvisible, ← hfilter]

/-- Every enum member that is filed may be listed. -/
lemma OwnedSlots.visible_enumMember (h : OwnedSlots H ix) {name : String} {e : IndexEntry}
    (he : e ∈ ix.bucket (.enumMember name)) : e.visible = true := by
  obtain ⟨symbols, -, hinserted⟩ := h.owned (.enumMember name) rfl e he
  obtain ⟨sym, -, hat⟩ := List.mem_flatMap.mp hinserted
  have hkind : sym.kind = .enumMember := by
    grind [Indices.insertedAt]
  obtain ⟨heq, -, -⟩ := inserted_of_feedsCatalog rfl hat
  rw [heq, IndexEntry.visible, isOutwardVisible, hkind]

/-- Rebuilds list the same where the slots that feed the catalog hold the same. -/
lemma OwnedSlots.rebuiltCatalog_alike (h : OwnedSlots H ix) (h' : OwnedSlots H ix')
    (hsame : ∀ σ : Slot, σ.feedsCatalog → (ix.bucket σ).filter IndexEntry.visible =
      (ix'.bucket σ).filter IndexEntry.visible) :
    ix.rebuiltCatalog.Alike ix'.rebuiltCatalog := by
  have henum : ∀ name, ix.enumMemberByName.bucket name = ix'.enumMemberByName.bucket name := by
    intro name
    have hall := hsame (.enumMember name) rfl
    rw [List.filter_eq_self.mpr fun e he => h.visible_enumMember he,
      List.filter_eq_self.mpr fun e he => h'.visible_enumMember he] at hall
    have hdecl : Function.Injective IndexEntry.decl := fun _ _ h => IndexEntry.decl.inj h
    exact hdecl.list_map hall
  refine ⟨?_, ?_, ?_⟩
  · have hperm := BucketMap.flatMap_perm (g := List.filter isCatalogCallable) rfl fun name =>
      bucket_topLevel_filter name (fun _ => isOutwardVisible_of_callable)
        (hsame (.topLevel name) rfl)
    simpa only [WorkspaceIndex.rebuiltCatalog, WorkspaceIndex.rebuildCompletionCatalog,
      buildCallables, List.filter_flatMap] using hperm
  · have hperm := BucketMap.flatMap_perm (g := List.filter fun d => d.symbol.kind.isType) rfl
      fun name => bucket_topLevel_filter name (fun _ => isOutwardVisible_of_isType)
        (hsame (.topLevel name) rfl)
    simpa only [WorkspaceIndex.rebuiltCatalog, WorkspaceIndex.rebuildCompletionCatalog,
      buildTypes, List.filter_flatMap] using hperm
  · have hperm := BucketMap.flatMap_perm (g := fun l : List Definition => l.getLast?.toList) rfl
      fun name => congrArg (fun l => l.getLast?.toList) (henum name)
    have hlisted : ∀ m : BucketMap String Definition, buildEnumMembers m =
        m.entries.flatMap fun e => e.2.getLast?.toList :=
      fun m => List.filterMap_eq_flatMap_toList ..
    rw [← hlisted, ← hlisted] at hperm
    exact hperm

/-- A visible entry of a slot that feeds the catalog has a global key. -/
lemma OwnedSlots.global_of_mem (h : OwnedSlots H ix) {σ : Slot} (hσ : σ.feedsCatalog)
    {e : IndexEntry} (he : e ∈ ix.bucket σ) (hvisible : e.visible = true) :
    globalCatalogChanged (ix.outwardKeys e.uri) = true := by
  obtain ⟨symbols, hlookup, hinserted⟩ := h.owned σ hσ e he
  obtain ⟨sym, hsym, hat⟩ := List.mem_flatMap.mp hinserted
  obtain ⟨heq, -, hglobal⟩ := inserted_of_feedsCatalog hσ hat
  rw [heq, IndexEntry.visible] at hvisible
  rw [WorkspaceIndex.outwardKeys, h.hashed, hlookup]
  exact global_of_outward H hsym hvisible hglobal

/-- The removal of a document without global keys leaves what a rebuild lists. -/
lemma OwnedSlots.rebuiltCatalog_removeDocument (h : OwnedSlots H ix) {uri : String}
    (hquiet : globalCatalogChanged (ix.outwardKeys uri) = false) :
    (ix.removeDocument uri).2.rebuiltCatalog.Alike ix.rebuiltCatalog := by
  refine (h.removeDocument uri).rebuiltCatalog_alike h fun σ hσ => ?_
  rw [WorkspaceIndex.bucket_removeDocument_eq, List.filter_filter]
  apply List.filter_congr
  intro e he
  cases hvisible : e.visible with
  | false => rfl
  | true =>
    have huri : e.uri ≠ uri := by
      rintro rfl
      rw [h.global_of_mem hσ he hvisible] at hquiet
      cases hquiet
    simp [huri]

/-- Without the same of its documents, rebuilds list the same. -/
lemma rebuiltCatalog_without {gone gone' : String → Bool} {jx jx' : WorkspaceIndex}
    (h : OwnedSlots H ix) (hjx : OwnedSlots H jx) (hjx' : OwnedSlots H jx')
    (hgone : Without gone ix jx) (hgone' : Without gone' ix jx')
    (hsame : ∀ u ∈ ix.documents, gone u = gone' u) :
    jx.rebuiltCatalog.Alike jx'.rebuiltCatalog := by
  refine hjx.rebuiltCatalog_alike hjx' fun σ hσ => ?_
  have hbucket : jx.bucket σ = jx'.bucket σ := by
    rw [hgone.buckets, hgone'.buckets]
    apply List.filter_congr
    intro e he
    obtain ⟨symbols, hlookup, -⟩ := h.owned σ hσ e he
    rw [hsame e.uri (AList.lookup_isSome.mp (by rw [hlookup]; rfl))]
  rw [hbucket]

end Rebuilds

namespace WorkspaceIndex

variable {H : Hasher} {ix ix' : WorkspaceIndex}

lemma catalog_noteChangedKeys (hzero : ix.catalogRebuildSuppressed = 0)
    (keys : List ObservedKey) : (ix.noteChangedKeys keys).completionCatalog =
      if globalCatalogChanged keys then ix.rebuiltCatalog else ix.completionCatalog := by
  unfold noteChangedKeys maybeRebuildCompletionCatalog
  split_ifs with hglobal hrebuilds
  · rfl
  · simp [hzero] at hrebuilds
  · rfl

lemma settled_noteChangedKeys (hzero : ix.catalogRebuildSuppressed = 0)
    (hsettled : ix.completionCatalogDirty = false) (keys : List ObservedKey) :
    (ix.noteChangedKeys keys).completionCatalogDirty = false := by
  unfold noteChangedKeys maybeRebuildCompletionCatalog
  split_ifs with hglobal hrebuilds
  · rfl
  · simp [hzero] at hrebuilds
  · exact hsettled

lemma Standing.applyContribution (h : Standing H ix) (uri : String) (document : ParsedDocument) :
    Standing H (ix.applyContribution uri (computeContribution H uri document)).2 := by
  obtain ⟨-, hdirty, hsuppressed⟩ := catalog_removeFromIndices ix uri
  refine ⟨h.toOwnedSlots.applyContribution uri document, ?_, ?_⟩
  · exact (suppressed_applyContribution ix uri _).trans h.unsuppressed
  · refine settled_noteChangedKeys ?_ ?_ _
    · exact hsuppressed.trans h.unsuppressed
    · exact hdirty.trans h.settled

lemma Standing.removeDocument (h : Standing H ix) (uri : String) :
    Standing H (ix.removeDocument uri).2 := by
  obtain ⟨-, hdirty, hsuppressed⟩ := catalog_removeFromIndices ix uri
  refine ⟨h.toOwnedSlots.removeDocument uri, ?_, ?_⟩
  · exact (suppressed_noteChangedKeys ..).trans (hsuppressed.trans h.unsuppressed)
  · refine settled_noteChangedKeys ?_ ?_ _
    · exact hsuppressed.trans h.unsuppressed
    · exact hdirty.trans h.settled

/-- An update rebuilds the catalog for a global key that it changes. -/
lemma Standing.catalog_applyContribution (h : Standing H ix) (uri : String)
    (c : DocContribution) : (ix.applyContribution uri c).2.completionCatalog =
      if globalCatalogChanged (diffOutwardKeys (ix.docOutwardHashes.lookup uri) c.outward) then
        (ix.applyContribution uri c).2.rebuiltCatalog
      else ix.completionCatalog := by
  obtain ⟨hcatalog, -, hsuppressed⟩ := catalog_removeFromIndices ix uri
  have hsame : (ix.applyContribution uri c).2.rebuiltCatalog = _ :=
    rebuiltCatalog_congr (toIndices_noteChangedKeys _ _)
  rw [hsame, ← docOutwardHashes_removeFromIndices ix uri, ← hcatalog]
  refine catalog_noteChangedKeys ?_ _
  exact hsuppressed.trans h.unsuppressed

/-- A removal rebuilds the catalog for a document with a global key. -/
lemma Standing.catalog_removeDocument (h : Standing H ix) (uri : String) :
    (ix.removeDocument uri).2.completionCatalog =
      if globalCatalogChanged (ix.outwardKeys uri) then
        (ix.removeDocument uri).2.rebuiltCatalog
      else ix.completionCatalog := by
  obtain ⟨hcatalog, -, hsuppressed⟩ := catalog_removeFromIndices ix uri
  have hsame : (ix.removeDocument uri).2.rebuiltCatalog = _ :=
    rebuiltCatalog_congr (toIndices_noteChangedKeys _ _)
  rw [hsame, outwardKeys, ← docOutwardHashes_removeFromIndices ix uri, ← hcatalog]
  refine catalog_noteChangedKeys ?_ _
  exact hsuppressed.trans h.unsuppressed

/-- A bulk update of a standing index ends in one. -/
lemma standing_endBulk (h : OwnedSlots H ix) (hone : ix.catalogRebuildSuppressed = 1) :
    Standing H ix.endBulkCatalogUpdate := by
  refine ⟨h.of_forgetCatalog (forgetCatalog_endBulk ix), ?_, ?_⟩
  · unfold endBulkCatalogUpdate maybeRebuildCompletionCatalog
    split_ifs <;> simp [rebuildCompletionCatalog, hone]
  · unfold endBulkCatalogUpdate maybeRebuildCompletionCatalog
    split_ifs with hrebuilds
    · rfl
    · simpa [hone] using hrebuilds

end WorkspaceIndex

end WitcherScriptLanguage
