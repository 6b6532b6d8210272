import WitcherScriptLanguage.Resolve.IndexHistory

/-!
# Indexes without some documents

What removals leave of an index, in whatever order they come. Two indexes are compared by their
buckets, by the maps that they hold for each document and by the cached completion catalog; the
generation counter is left aside.
-/

namespace WitcherScriptLanguage

open Library

/-- Whether the removal of its document takes the entry out of the slot. -/
def WorkspaceIndex.takesOut (ix : WorkspaceIndex) (σ : Slot) (e : IndexEntry) : Bool :=
  ((ix.documents.lookup e.uri).getD []).any fun sym =>
    decide (σ ∈ Indices.visitedByRemoval sym) && Indices.ownedBy e.uri sym σ e

/-- The second index is the first one without the entries of some documents. -/
structure Without (gone : String → Bool) (ix ix' : WorkspaceIndex) : Prop where
  buckets : ∀ σ, ix'.bucket σ = (ix.bucket σ).filter fun e => !(gone e.uri && ix.takesOut σ e)
  documents : ∀ u, ix'.documents.lookup u = if gone u then none else ix.documents.lookup u
  idents : ∀ u, ix'.docIdents.lookup u = if gone u then none else ix.docIdents.lookup u
  surfaces : ∀ u,
    ix'.docSurfaceHashes.lookup u = if gone u then none else ix.docSurfaceHashes.lookup u
  outward : ∀ u,
    ix'.docOutwardHashes.lookup u = if gone u then none else ix.docOutwardHashes.lookup u

/-- Both list the same; the order is that of a hash map. -/
structure CompletionCatalog.Alike (catalog catalog' : CompletionCatalog) : Prop where
  callables : catalog.callables.Perm catalog'.callables
  types : catalog.types.Perm catalog'.types
  enumMembers : catalog.enumMembers.Perm catalog'.enumMembers

instance (catalog catalog' : CompletionCatalog) : Decidable (catalog.Alike catalog') :=
  decidable_of_iff (catalog.callables.Perm catalog'.callables ∧
      catalog.types.Perm catalog'.types ∧ catalog.enumMembers.Perm catalog'.enumMembers)
    ⟨fun h => ⟨h.1, h.2.1, h.2.2⟩, fun h => ⟨h.callables, h.types, h.enumMembers⟩⟩

/-- Every lookup has the same answer in both. -/
structure SameIndex (ix ix' : WorkspaceIndex) : Prop where
  buckets : ∀ σ, ix.bucket σ = ix'.bucket σ
  documents : ∀ u, ix.documents.lookup u = ix'.documents.lookup u
  idents : ∀ u, ix.docIdents.lookup u = ix'.docIdents.lookup u
  surfaces : ∀ u, ix.docSurfaceHashes.lookup u = ix'.docSurfaceHashes.lookup u
  outward : ∀ u, ix.docOutwardHashes.lookup u = ix'.docOutwardHashes.lookup u
  surface : ix.surfaceHash = ix'.surfaceHash
  catalog : ix.completionCatalog.Alike ix'.completionCatalog
  dirty : ix.completionCatalogDirty = ix'.completionCatalogDirty
  suppressed : ix.catalogRebuildSuppressed = ix'.catalogRebuildSuppressed

namespace WorkspaceIndex

variable (ix : WorkspaceIndex) (H : Hasher) (uri u : String) (document : ParsedDocument) (σ : Slot)

lemma bucket_removeFromIndices_eq : (ix.removeFromIndices uri).bucket σ =
    (ix.bucket σ).filter fun e => !(decide (e.uri = uri) && ix.takesOut σ e) := by
  rw [bucket_removeFromIndices]
  apply List.filter_congr
  intro e _
  by_cases he : e.uri = uri
  · rw [takesOut, he, decide_eq_true rfl, Bool.true_and]
  · have hnone : ((ix.documents.lookup uri).getD []).any (fun sym =>
        decide (σ ∈ Indices.visitedByRemoval sym) && Indices.ownedBy uri sym σ e) = false := by
      rw [Bool.eq_false_iff]
      exact fun hany => he (uri_of_any_owned hany)
    rw [hnone, decide_eq_false he, Bool.false_and]

lemma bucket_updateDocument : (ix.updateDocument H uri document).2.bucket σ =
    ((ix.bucket σ).filter fun e => !(decide (e.uri = uri) && ix.takesOut σ e)) ++
      contributed uri document.symbols σ := by
  rw [updateDocument, bucket_applyContribution, bucket_removeFromIndices_eq]
  rfl

lemma bucket_removeDocument_eq : (ix.removeDocument uri).2.bucket σ =
    (ix.bucket σ).filter fun e => !(decide (e.uri = uri) && ix.takesOut σ e) := by
  rw [bucket_removeDocument, bucket_removeFromIndices_eq]

/-- What an update does to the maps of documents, and to the hash over all of them. -/
lemma maps_updateDocument :
    (ix.updateDocument H uri document).2.documents = ix.documents.insert uri document.symbols ∧
      (ix.updateDocument H uri document).2.docIdents =
        (ix.docIdents.erase uri).insert uri (scanIdentOccurrences document) ∧
      (ix.updateDocument H uri document).2.docSurfaceHashes =
        ix.docSurfaceHashes.insert uri (docSurfaceHash H uri document.symbols) ∧
      (ix.updateDocument H uri document).2.docOutwardHashes =
        ix.docOutwardHashes.insert uri (outwardHashMap H document.symbols) ∧
      (ix.updateDocument H uri document).2.surfaceHash =
        (match ix.docSurfaceHashes.lookup uri with
          | some oldHash => ix.surfaceHash ^^^ oldHash
          | none => ix.surfaceHash) ^^^ docSurfaceHash H uri document.symbols := by
  have hnoted : ∃ jx : WorkspaceIndex,
      (ix.updateDocument H uri document).2.forgetCatalog = jx.forgetCatalog ∧
        jx.documents = ix.documents.insert uri document.symbols ∧
        jx.docIdents = (ix.docIdents.erase uri).insert uri (scanIdentOccurrences document) ∧
        jx.docSurfaceHashes =
          ix.docSurfaceHashes.insert uri (docSurfaceHash H uri document.symbols) ∧
        jx.docOutwardHashes = ix.docOutwardHashes.insert uri (outwardHashMap H document.symbols) ∧
        jx.surfaceHash = (match ix.docSurfaceHashes.lookup uri with
          | some oldHash => ix.surfaceHash ^^^ oldHash
          | none => ix.surfaceHash) ^^^ docSurfaceHash H uri document.symbols := by
    refine ⟨_, forgetCatalog_noteChangedKeys _ _, ?_⟩
    rw [removeFromIndices_eq]
    exact ⟨rfl, rfl, rfl, rfl, rfl⟩
  obtain ⟨jx, hforget, hdocuments, hidents, hsurfaces, houtward, hsurface⟩ := hnoted
  exact ⟨(congrArg documents hforget).trans hdocuments, (congrArg docIdents hforget).trans hidents,
    (congrArg docSurfaceHashes hforget).trans hsurfaces,
    (congrArg docOutwardHashes hforget).trans houtward,
    (congrArg surfaceHash hforget).trans hsurface⟩

/-- What a removal does to them. -/
lemma maps_removeDocument :
    (ix.removeDocument uri).2.documents = ix.documents.erase uri ∧
      (ix.removeDocument uri).2.docIdents = ix.docIdents.erase uri ∧
      (ix.removeDocument uri).2.docSurfaceHashes = ix.docSurfaceHashes.erase uri ∧
      (ix.removeDocument uri).2.docOutwardHashes = ix.docOutwardHashes.erase uri ∧
      (ix.removeDocument uri).2.surfaceHash = (match ix.docSurfaceHashes.lookup uri with
        | some oldHash => ix.surfaceHash ^^^ oldHash
        | none => ix.surfaceHash) := by
  have hnoted : ∃ jx : WorkspaceIndex,
      (ix.removeDocument uri).2.forgetCatalog = jx.forgetCatalog ∧
        jx.documents = ix.documents.erase uri ∧ jx.docIdents = ix.docIdents.erase uri ∧
        jx.docSurfaceHashes = ix.docSurfaceHashes.erase uri ∧
        jx.docOutwardHashes = ix.docOutwardHashes.erase uri ∧
        jx.surfaceHash = (match ix.docSurfaceHashes.lookup uri with
          | some oldHash => ix.surfaceHash ^^^ oldHash
          | none => ix.surfaceHash) := by
    refine ⟨_, forgetCatalog_noteChangedKeys _ _, ?_⟩
    rw [removeFromIndices_eq]
    exact ⟨rfl, rfl, rfl, rfl, rfl⟩
  obtain ⟨jx, hforget, hdocuments, hidents, hsurfaces, houtward, hsurface⟩ := hnoted
  exact ⟨(congrArg documents hforget).trans hdocuments, (congrArg docIdents hforget).trans hidents,
    (congrArg docSurfaceHashes hforget).trans hsurfaces,
    (congrArg docOutwardHashes hforget).trans houtward,
    (congrArg surfaceHash hforget).trans hsurface⟩

/-- The hash over all documents without what the single documents have put into it. -/
def hashResidue : UInt64 :=
  ix.surfaceHash ^^^ xorAll (ix.docSurfaceHashes.entries.map fun s => s.2)

lemma xor_cancel (a b c : UInt64) : (a ^^^ c) ^^^ (b ^^^ c) = a ^^^ b := by
  rw [UInt64.xor_comm b c, ← UInt64.xor_assoc, UInt64.xor_assoc a c c, UInt64.xor_self,
    UInt64.xor_zero]

lemma hashResidue_removeDocument : (ix.removeDocument uri).2.hashResidue = ix.hashResidue := by
  obtain ⟨-, -, hsurfaces, -, hsurface⟩ := ix.maps_removeDocument uri
  have hsum := xorAll_erase (fun hash => hash) ix.docSurfaceHashes uri
  rw [hashResidue, hashResidue, hsurfaces, hsurface, hsum]
  cases ix.docSurfaceHashes.lookup uri with
  | none => rfl
  | some oldHash => exact xor_cancel _ _ _

lemma hashResidue_updateDocument :
    (ix.updateDocument H uri document).2.hashResidue = ix.hashResidue := by
  obtain ⟨-, -, hsurfaces, -, hsurface⟩ := ix.maps_updateDocument H uri document
  obtain ⟨-, -, hremoved, -, hremovedSurface⟩ := ix.maps_removeDocument uri
  have hsum : xorAll ((ix.docSurfaceHashes.insert uri
        (docSurfaceHash H uri document.symbols)).entries.map fun s => s.2) =
      xorAll ((ix.docSurfaceHashes.erase uri).entries.map fun s => s.2) ^^^
        docSurfaceHash H uri document.symbols :=
    xorAll_insert (fun hash => hash) ix.docSurfaceHashes uri _
  rw [← hashResidue_removeDocument ix uri, hashResidue, hashResidue, hsurfaces, hsurface, hsum,
    xor_cancel, hremoved, hremovedSurface]

/-- With the same hashes of documents, indexes of the same residue have the same hash. -/
lemma surfaceHash_eq {ix ix' : WorkspaceIndex} (hresidue : ix.hashResidue = ix'.hashResidue)
    (h : ∀ u, ix.docSurfaceHashes.lookup u = ix'.docSurfaceHashes.lookup u) :
    ix.surfaceHash = ix'.surfaceHash := by
  have hperm : ix.docSurfaceHashes.entries.Perm ix'.docSurfaceHashes.entries := by
    refine List.lookup_ext ix.docSurfaceHashes.nodupKeys ix'.docSurfaceHashes.nodupKeys ?_
    intro u hash
    have hu := h u
    rw [AList.lookup, AList.lookup] at hu
    rw [hu]
  have hsum := xorAll_perm (hperm.map fun s => s.2)
  rw [hashResidue, hashResidue, hsum] at hresidue
  have hcancelled := congrArg
    (· ^^^ xorAll (ix'.docSurfaceHashes.entries.map fun s => s.2)) hresidue
  simpa only [UInt64.xor_assoc, UInt64.xor_self, UInt64.xor_zero] using hcancelled

end WorkspaceIndex

section Without

variable {gone : String → Bool} {ix ix' : WorkspaceIndex}

lemma Without.refl (ix : WorkspaceIndex) : Without (fun _ => false) ix ix where
  buckets _ := (List.filter_eq_self.mpr fun _ _ => rfl).symm
  documents _ := rfl
  idents _ := rfl
  surfaces _ := rfl
  outward _ := rfl

lemma Without.takesOut (h : Without gone ix ix') (σ : Slot) (e : IndexEntry) :
    ix'.takesOut σ e = (!gone e.uri && ix.takesOut σ e) := by
  rw [WorkspaceIndex.takesOut, h.documents]
  cases gone e.uri <;> rfl

/-- A further removal. -/
lemma Without.removeDocument (h : Without gone ix ix') (uri : String) :
    Without (fun u => gone u || decide (u = uri)) ix (ix'.removeDocument uri).2 := by
  obtain ⟨hdocuments, hidents, hsurfaces, houtward, -⟩ := ix'.maps_removeDocument uri
  have hlookup : ∀ {β : Type} (m : AList fun _ : String => β) (g : String → Option β),
      (∀ u, m.lookup u = if gone u then none else g u) → ∀ u, (m.erase uri).lookup u =
        if gone u || decide (u = uri) then none else g u := by
    intro β m g hm u
    by_cases hu : u = uri
    · rw [hu, AList.lookup_erase, decide_eq_true rfl, Bool.or_true, if_pos rfl]
    · rw [AList.lookup_erase_ne hu, hm, decide_eq_false hu, Bool.or_false]
  refine ⟨fun σ => ?_, ?_, ?_, ?_, ?_⟩
  · rw [WorkspaceIndex.bucket_removeDocument_eq, h.buckets, List.filter_filter]
    apply List.filter_congr
    intro e _
    rw [h.takesOut]
    cases gone e.uri <;> cases decide (e.uri = uri) <;> simp
  · rw [hdocuments]
    exact hlookup _ _ h.documents
  · rw [hidents]
    exact hlookup _ _ h.idents
  · rw [hsurfaces]
    exact hlookup _ _ h.surfaces
  · rw [houtward]
    exact hlookup _ _ h.outward

/-- An update puts its document back and keeps the other removals. -/
lemma Without.updateDocument (h : Without gone ix ix') (H : Hasher) (uri : String)
    (document : ParsedDocument) : Without (fun u => gone u && decide (u ≠ uri))
      (ix.updateDocument H uri document).2 (ix'.updateDocument H uri document).2 := by
  obtain ⟨hdocuments, hidents, hsurfaces, houtward, -⟩ := ix.maps_updateDocument H uri document
  obtain ⟨hdocuments', hidents', hsurfaces', houtward', -⟩ :=
    ix'.maps_updateDocument H uri document
  have hlookup : ∀ {β : Type} (m m' : AList fun _ : String => β) (value : β),
      (∀ u, m'.lookup u = if gone u then none else m.lookup u) → ∀ u,
        (m'.insert uri value).lookup u =
          if gone u && decide (u ≠ uri) then none else (m.insert uri value).lookup u := by
    intro β m m' value hm u
    by_cases hu : u = uri
    · rw [hu, AList.lookup_insert, AList.lookup_insert, decide_eq_false (by simp),
        Bool.and_false, if_neg Bool.false_ne_true]
    · rw [AList.lookup_insert_ne hu, AList.lookup_insert_ne hu, hm, decide_eq_true hu,
        Bool.and_true]
  refine ⟨fun σ => ?_, ?_, ?_, ?_, ?_⟩
  · rw [WorkspaceIndex.bucket_updateDocument, WorkspaceIndex.bucket_updateDocument, h.buckets,
      List.filter_append, List.filter_filter, List.filter_filter]
    have htakes : ∀ e : IndexEntry, e.uri ≠ uri →
        (ix.updateDocument H uri document).2.takesOut σ e = ix.takesOut σ e := by
      intro e he
      rw [WorkspaceIndex.takesOut, WorkspaceIndex.takesOut, hdocuments, AList.lookup_insert_ne he]
    congr 1
    · apply List.filter_congr
      intro e _
      by_cases he : e.uri = uri
      · rw [h.takesOut, decide_eq_true he, decide_eq_false (not_not.mpr he)]
        cases gone e.uri <;> simp
      · rw [htakes e he, decide_eq_false he, decide_eq_true he]
        simp
    · refine (List.filter_eq_self.mpr fun e he => ?_).symm
      rw [contributed_uri he]
      simp
  · rw [hdocuments, hdocuments']
    exact hlookup _ _ _ h.documents
  · rw [hidents, hidents']
    refine hlookup _ _ _ fun u => ?_
    by_cases hu : u = uri
    · rw [hu, AList.lookup_erase, AList.lookup_erase]
      simp
    · rw [AList.lookup_erase_ne hu, AList.lookup_erase_ne hu, h.idents]
  · rw [hsurfaces, hsurfaces']
    exact hlookup _ _ _ h.surfaces
  · rw [houtward, houtward']
    exact hlookup _ _ _ h.outward

/-- Without the same documents, an index is the same up to its catalog. -/
lemma Without.sameIndex {jx jx' : WorkspaceIndex} (h : Without gone ix jx)
    (h' : Without gone ix jx') (hresidue : jx.hashResidue = jx'.hashResidue)
    (hcatalog : jx.completionCatalog.Alike jx'.completionCatalog)
    (hdirty : jx.completionCatalogDirty = jx'.completionCatalogDirty)
    (hsuppressed : jx.catalogRebuildSuppressed = jx'.catalogRebuildSuppressed) :
    SameIndex jx jx' where
  buckets σ := by rw [h.buckets, h'.buckets]
  documents u := by rw [h.documents, h'.documents]
  idents u := by rw [h.idents, h'.idents]
  surfaces u := by rw [h.surfaces, h'.surfaces]
  outward u := by rw [h.outward, h'.outward]
  surface := WorkspaceIndex.surfaceHash_eq hresidue fun u => by rw [h.surfaces, h'.surfaces]
  catalog := hcatalog
  dirty := hdirty
  suppressed := hsuppressed

end Without

end WitcherScriptLanguage
