import WitcherScriptLanguage.Lsp.BaseScripts
import WitcherScriptLanguage.Lsp.WatchedBatches
import WitcherScriptLanguage.Resolve.RebuiltCatalogs

/-!
# Batches of file events and the completion catalog

A catalog lists the files as the last operation that changes a global key has found them. A batch
and its events one at a time may have that operation at different places, and a file that is
rewritten between them without a change to its keys is then listed from different texts.
-/

namespace WitcherScriptLanguage

open Library

namespace Env

variable {env : Env} {ix : WorkspaceIndex}

lemma updateAll_concat (files : List DiskFile) (file : DiskFile) :
    env.updateAll ix (files ++ [file]) =
      ((env.updateAll ix files).updateDocument env.hasher file.1 file.2).2 := List.foldl_concat ..

lemma removeAll_concat (uris : List String) (uri : String) :
    removeAll ix (uris ++ [uri]) = ((removeAll ix uris).removeDocument uri).2 :=
  List.foldl_concat ..

lemma standing_updateAll (h : ix.Standing env.hasher) (files : List DiskFile) :
    (env.updateAll ix files).Standing env.hasher := by
  induction files using List.reverseRecOn with
  | nil => exact h
  | append_singleton files file ih =>
    rw [updateAll_concat]
    exact ih.applyContribution file.1 file.2

lemma standing_removeAll (h : ix.Standing env.hasher) (uris : List String) :
    (removeAll ix uris).Standing env.hasher := by
  induction uris using List.reverseRecOn with
  | nil => exact h
  | append_singleton uris uri ih =>
    rw [removeAll_concat]
    exact ih.removeDocument uri

lemma standing_indexOpenDocument (h : ix.Standing env.hasher) (uri : Url)
    (document : ParsedDocument) :
    (env.indexOpenDocument ix uri document).2.Standing env.hasher := by
  unfold indexOpenDocument
  dsimp only
  split_ifs
  · exact (h.removeDocument uri).applyContribution _ document
  · exact h.applyContribution _ document

lemma standing_removeDocumentAllSpellings (h : ix.Standing env.hasher) (uri : Url) :
    (env.removeDocumentAllSpellings ix uri).2.Standing env.hasher := by
  unfold removeDocumentAllSpellings
  dsimp only
  split_ifs
  · exact (h.removeDocument uri).removeDocument _
  · exact h.removeDocument uri

lemma standing_reindexInto (h : ix.Standing env.hasher) (docs : DocumentMap) (uri canonical : Url)
    (parsed : Option ParsedDocument) :
    (env.reindexInto ix docs uri canonical parsed).2.1.Standing env.hasher := by
  have hdropped : (if uri ≠ canonical then ix.removeDocument uri else ([], ix)).2.Standing
      env.hasher := by
    split_ifs
    · exact h.removeDocument uri
    · exact h
  cases parsed with
  | none => exact hdropped.removeDocument canonical
  | some document => exact hdropped.applyContribution canonical document

variable {c : Compilation}

lemma standing_publishOpenDocument (h : c.workspaceIndex.Standing env.hasher) (uri : Url)
    (document : ParsedDocument) :
    (env.publishOpenDocument c uri document).workspaceIndex.Standing env.hasher := by
  unfold publishOpenDocument
  cases env.fileScopeOf uri with
  | additionalBase | outOfScope | singleFile => exact standing_removeDocumentAllSpellings h uri
  | inProject | legacyOverride | legacyNew => exact standing_indexOpenDocument h uri document

lemma standing_commitOpen (h : c.workspaceIndex.Standing env.hasher) (uri : Url)
    (plan : OpenPlan) : (env.commitOpen c uri plan).workspaceIndex.Standing env.hasher := by
  cases plan with
  | unchanged | reuse existing => exact h
  | publish document => exact standing_publishOpenDocument h uri document

lemma standing_commitClose (h : c.workspaceIndex.Standing env.hasher) (uri : Url)
    (plan : ClosePlan) : (env.commitClose c uri plan).workspaceIndex.Standing env.hasher := by
  cases plan with
  | dropLoose => exact h
  | dropExcluded => exact standing_removeDocumentAllSpellings h uri
  | unedited isBase refresh => cases refresh <;> cases isBase <;> exact h
  | reindex isBase parsed =>
    cases isBase with
    | true => exact h
    | false => exact standing_reindexInto h _ uri _ parsed

/-- The writes of a scan or of a legacy sync are one bulk update. -/
lemma standing_commitSync (h : c.workspaceIndex.Standing env.hasher) (files : List DiskFile) :
    (env.commitSync c files).workspaceIndex.Standing env.hasher := by
  have hbulk : OwnedSlots env.hasher (env.updateAll c.workspaceIndex.beginBulkCatalogUpdate files) ∧
      (env.updateAll c.workspaceIndex.beginBulkCatalogUpdate files).catalogRebuildSuppressed =
        1 := by
    induction files using List.reverseRecOn with
    | nil =>
      refine ⟨h.toOwnedSlots.of_forgetCatalog (WorkspaceIndex.forgetCatalog_beginBulk _), ?_⟩
      have hone : c.workspaceIndex.beginBulkCatalogUpdate.catalogRebuildSuppressed =
          min (c.workspaceIndex.catalogRebuildSuppressed + 1) WorkspaceIndex.maxSuppressed := rfl
      rw [updateAll, List.foldl_nil, hone, h.unsuppressed, WorkspaceIndex.maxSuppressed]
      omega
    | append_singleton files file ih =>
      rw [updateAll_concat]
      exact ⟨ih.1.applyContribution file.1 file.2,
        (suppressed_applyContribution _ _ _).trans ih.2⟩
  exact WorkspaceIndex.standing_endBulk hbulk.1 hbulk.2

lemma standing_commitWatched (h : c.workspaceIndex.Standing env.hasher) (updates : List DiskFile)
    (removals : List String) :
    (env.commitWatched c updates removals).workspaceIndex.Standing env.hasher :=
  standing_removeAll (standing_updateAll h updates) removals

end Env

namespace Indexing

variable {env : Env} {s s' : Indexing}

lemma standing_resume (h : s.compilation.workspaceIndex.Standing env.hasher)
    (task : IndexingTask) :
    (s.resume env task).1.compilation.workspaceIndex.Standing env.hasher := by
  cases task with
  | opening uri plan => exact @Env.standing_commitOpen (s.current env) _ h uri plan
  | closing uri priorSource diskText => exact h
  | closingTo uri diskText plan => exact @Env.standing_commitClose (s.current env) _ h uri plan
  | scanned files =>
    have hscan := congrArg Compilation.workspaceIndex
      (@Env.commitScan_eq_commitSync env s.compilation files)
    exact hscan ▸ Env.standing_commitSync h files
  | syncing parsed => exact h
  | synced files current => exact Env.standing_commitSync h files
  | pruning current => exact h
  | pruned stale => exact Env.standing_removeAll h stale
  | watching openCanonical events => exact h
  | watched updates removals manifests => exact Env.standing_commitWatched h updates removals
  | manifests events => exact h

lemma standing_step (h : s.compilation.workspaceIndex.Standing env.hasher) {e : Event}
    (hstep : s.step env e = some s') : s'.compilation.workspaceIndex.Standing env.hasher := by
  cases e with
  | didOpen uri text =>
    cases hstep
    unfold Indexing.didOpen
    split_ifs
    · exact h
    · dsimp only
      split_ifs <;> exact h
  | publishEdit uri edit =>
    cases hstep
    unfold Env.processPendingEdit
    cases (s.current env).parse edit.source with
    | none => exact h
    | some document => exact @Env.standing_publishOpenDocument (s.current env) _ h uri _
  | didClose uri diskText =>
    cases hstep
    unfold Indexing.didClose
    split_ifs
    · exact h
    · exact h
    · dsimp only
      split_ifs <;> exact h
  | scanWorkspace files =>
    simp only [Indexing.step] at hstep
    split_ifs at hstep <;> cases hstep <;> exact h
  | watchFiles events =>
    cases hstep
    exact h
  | advance i =>
    simp only [Indexing.step] at hstep
    cases htask : s.inFlight[i]? with
    | none => simp [htask] at hstep
    | some task =>
      simp only [htask, Option.some.injEq] at hstep
      subst hstep
      exact standing_resume h task

end Indexing

namespace Backend

variable {env : Env} {builtins : WorkspaceIndex} {s s' : Backend}

lemma standing_step (h : s.compilation.workspaceIndex.Standing env.hasher) {e : Event}
    (hstep : s.step env builtins e = some s') :
    s'.compilation.workspaceIndex.Standing env.hasher := by
  cases e with
  | indexing e =>
    obtain ⟨indexing, hindexing, rfl⟩ := Option.map_eq_some_iff.mp hstep
    exact Indexing.standing_step h hindexing
  | refreshLegacyOverrideMaps =>
    cases hstep
    exact h
  | indexBaseScripts globals base legacy =>
    simp only [Backend.step] at hstep
    split_ifs at hstep
    cases hstep
    exact h
  | advance i =>
    simp only [Backend.step] at hstep
    cases htask : s.baseTasks[i]? with
    | none => simp [htask] at hstep
    | some task =>
      simp only [htask, Option.some.injEq] at hstep
      subst hstep
      cases task with
      | clearingLoose next => cases next <;> exact h
      | _ => exact h
  | request uri =>
    cases hstep
    exact h
  | complete i =>
    simp only [Backend.step] at hstep
    cases hrequest : s.requests[i]? with
    | none => simp [hrequest] at hstep
    | some request =>
      simp only [hrequest, Option.some.injEq] at hstep
      subst hstep
      unfold mergedCompletionCache setSlot
      cases (s.slot env request.1).filter (·.matchesHandles request.2) with
      | some cached => exact h
      | none =>
        dsimp only
        split_ifs <;> exact h

/-- Between its publications, the workspace index of the server is a standing one. -/
theorem standing_run (manifestLegacyDirs : AList (fun _ : String => FilePath)) {es : List Event}
    (hrun : run (step env builtins) (initial manifestLegacyDirs) es = some s) :
    s.compilation.workspaceIndex.Standing env.hasher := by
  have hinitial : (initial manifestLegacyDirs).compilation.workspaceIndex.Standing env.hasher :=
    WorkspaceIndex.standing_empty env.hasher
  have hsteps : AllSteps (step env builtins) (fun _ _ => True) (initial manifestLegacyDirs) es :=
    allSteps_of_forall (fun _ _ => trivial) _ es
  exact run_invariant (fun _ _ _ h _ hstep => standing_step h hstep) hinitial hsteps hrun

end Backend

/-! ### Where a catalog is built -/

/-- Files written and files taken out since a state. -/
structure CatalogPoint where
  written : List DiskFile
  gone : String → Bool := fun _ => false

namespace Env

variable (env : Env) (s : Indexing)

/-- The hashed outward keys of a file at the point. -/
def outwardAt (p : CatalogPoint) (key : String) : Option OutwardHashes :=
  if p.gone key then none
  else ((latest p.written key).map fun document => outwardHashMap env.hasher document.symbols).or
    (s.compilation.workspaceIndex.docOutwardHashes.lookup key)

/-- A write at the point changes a global key of its file. -/
def writesGlobalKey (p : CatalogPoint) (file : DiskFile) : Bool :=
  globalCatalogChanged
    (diffOutwardKeys (env.outwardAt s p file.1) (outwardHashMap env.hasher file.2.symbols))

/-- One of the files that are taken out at the point has a global key. -/
def removesGlobalKey (p : CatalogPoint) (gone : String → Bool) : Bool :=
  (p.written.map Prod.fst ++ s.compilation.workspaceIndex.docOutwardHashes.keys).any fun key =>
    gone key && globalCatalogChanged (((env.outwardAt s p key).map AList.keys).getD [])

/-- The last operation of a batch that changes a global key: the removals together, or a write. -/
def pointAtOnce (events : List FileEvent) : Option CatalogPoint :=
  let openCanonical := env.openCanonical s.compilation
  let updates := (env.readEvents openCanonical events).updates
  let gone (key : String) : Bool :=
    decide (TakenOut (IsIndexed s key) (env.actsOn openCanonical key events))
  if env.removesGlobalKey s { written := updates } gone then some { written := updates, gone }
  else (upToLast (fun before file => env.writesGlobalKey s { written := before } file) updates).map
    fun written => { written }

/-- The files behind events one at a time. -/
def pointBehind (events : List FileEvent) : CatalogPoint where
  written := (env.readEvents (env.openCanonical s.compilation) events).updates
  gone key := decide (OutInTurn (IsIndexed s key)
    (env.actsOn (env.openCanonical s.compilation) key events))

/-- The event changes a global key behind the events before it. -/
def changesGlobalKey (before : List FileEvent) (event : FileEvent) : Bool :=
  (env.readEvents (env.openCanonical s.compilation) [event]).updates.any
      (env.writesGlobalKey s (env.pointBehind s before)) ||
    env.removesGlobalKey s (env.pointBehind s before) (env.pointBehind s (before ++ [event])).gone

/-- The last event that changes a global key, one at a time. -/
def pointInTurn (events : List FileEvent) : Option CatalogPoint :=
  (upToLast (env.changesGlobalKey s) events).map (env.pointBehind s)

/-- What a catalog built at the point lists, and the catalog that is there without one. -/
def catalogAt : Option CatalogPoint → CompletionCatalog
  | none => s.compilation.workspaceIndex.completionCatalog
  | some p =>
    let index := env.updateAll s.compilation.workspaceIndex p.written
    (removeAll index (index.documents.keys.filter p.gone)).rebuiltCatalog

/-- The files at the last operation of the batch that changes a global key and at the last such
event, one at a time, declare the same for the catalog. -/
def KeepsCatalog (events : List FileEvent) : Prop :=
  (env.catalogAt s (env.pointAtOnce s events)).Alike (env.catalogAt s (env.pointInTurn s events))

instance (events : List FileEvent) : Decidable (env.KeepsCatalog s events) :=
  inferInstanceAs (Decidable (CompletionCatalog.Alike _ _))

end Env

namespace Env

variable {env : Env} {ix : WorkspaceIndex}

lemma docOutwardHashes_updateAll (files : List DiskFile) (key : String) :
    (env.updateAll ix files).docOutwardHashes.lookup key =
      ((latest files key).map fun document => outwardHashMap env.hasher document.symbols).or
        (ix.docOutwardHashes.lookup key) := by
  induction files using List.reverseRecOn with
  | nil => rfl
  | append_singleton files file ih =>
    obtain ⟨-, -, -, hhashes, -⟩ :=
      (env.updateAll ix files).maps_updateDocument env.hasher file.1 file.2
    rw [updateAll_concat, hhashes, Indexing.latest_append, latest, latest, Option.none_or]
    by_cases hkey : file.1 = key
    · rw [if_pos hkey, hkey, AList.lookup_insert]
      rfl
    · rw [if_neg hkey, AList.lookup_insert_ne (Ne.symm hkey), ih, Option.none_or]

/-- The write changes a global key of the file that the writes before it leave. -/
def writeIsLoud (env : Env) (ix : WorkspaceIndex) (before : List DiskFile) (file : DiskFile) :
    Bool :=
  globalCatalogChanged (diffOutwardKeys ((env.updateAll ix before).docOutwardHashes.lookup file.1)
    (outwardHashMap env.hasher file.2.symbols))

/-- Writes leave the catalog that the last loud one has built. -/
lemma catalog_updateAll (h : ix.Standing env.hasher) (files : List DiskFile) :
    (env.updateAll ix files).completionCatalog = ((upToLast (env.writeIsLoud ix) files).map
      fun before => (env.updateAll ix before).rebuiltCatalog).getD ix.completionCatalog := by
  induction files using List.reverseRecOn with
  | nil => rfl
  | append_singleton files file ih =>
    have hstep : (env.updateAll ix (files ++ [file])).completionCatalog =
        if env.writeIsLoud ix files file then (env.updateAll ix (files ++ [file])).rebuiltCatalog
        else (env.updateAll ix files).completionCatalog := by
      rw [updateAll_concat]
      exact (standing_updateAll h files).catalog_applyContribution file.1
        (WorkspaceIndex.computeContribution env.hasher file.1 file.2)
    rw [upToLast_concat, hstep]
    split_ifs with hloud
    · rfl
    · exact ih

lemma outwardKeys_removeAll (uris : List String) (uri : String) :
    (removeAll ix uris).outwardKeys uri = if uri ∈ uris then [] else ix.outwardKeys uri := by
  have hwithout := Indexing.without_removeAll uris (Without.refl ix)
  rw [WorkspaceIndex.outwardKeys, hwithout.outward, Bool.false_or]
  by_cases huri : uri ∈ uris
  · rw [decide_eq_true huri, if_pos rfl, if_pos huri]
    rfl
  · rw [decide_eq_false huri, if_neg Bool.false_ne_true, if_neg huri]
    rfl

/-- Removals rebuild the catalog together, or leave it and what a rebuild would list alone. -/
lemma catalog_removeAll (h : ix.Standing env.hasher) (uris : List String) :
    ((∃ uri ∈ uris, globalCatalogChanged (ix.outwardKeys uri) = true) ∧
        (removeAll ix uris).completionCatalog.Alike (removeAll ix uris).rebuiltCatalog) ∨
      ((∀ uri ∈ uris, globalCatalogChanged (ix.outwardKeys uri) = false) ∧
        (removeAll ix uris).completionCatalog = ix.completionCatalog ∧
        (removeAll ix uris).rebuiltCatalog.Alike ix.rebuiltCatalog) := by
  induction uris using List.reverseRecOn with
  | nil => exact .inr ⟨nofun, rfl, .refl _⟩
  | append_singleton uris uri ih =>
    have hstanding := standing_removeAll h uris
    have hcatalog := hstanding.catalog_removeDocument uri
    have hkeys := @outwardKeys_removeAll ix uris uri
    rw [removeAll_concat]
    cases hloud : globalCatalogChanged ((removeAll ix uris).outwardKeys uri) with
    | true =>
      rw [hloud, if_pos rfl] at hcatalog
      have hglobal : globalCatalogChanged (ix.outwardKeys uri) = true := by
        rw [hkeys] at hloud
        split_ifs at hloud
        · cases hloud
        · exact hloud
      refine .inl ⟨⟨uri, List.mem_append_right _ List.mem_cons_self, hglobal⟩, ?_⟩
      rw [hcatalog]
      exact .refl _
    | false =>
      rw [hloud, if_neg Bool.false_ne_true] at hcatalog
      have hrebuilt := hstanding.toOwnedSlots.rebuiltCatalog_removeDocument hloud
      rcases ih with ⟨⟨other, hother, hglobal⟩, hcurrent⟩ | ⟨hquiet, hkept, hlisted⟩
      · refine .inl ⟨⟨other, List.mem_append_left _ hother, hglobal⟩, ?_⟩
        rw [hcatalog]
        exact hcurrent.trans hrebuilt.symm
      · refine .inr ⟨fun other hother => ?_, hcatalog.trans hkept, hrebuilt.trans hlisted⟩
        rcases List.mem_append.mp hother with hold | hnew
        · exact hquiet other hold
        · rw [List.mem_singleton.mp hnew]
          by_cases hbefore : uri ∈ uris
          · exact hquiet uri hbefore
          · rw [hkeys, if_neg hbefore] at hloud
            exact hloud

end Env

namespace Indexing

variable {env : Env} {s t : Indexing} {events : List FileEvent}

/-- The index behind a batch. -/
lemma workspaceIndex_watchFilesAtOnce : (s.watchFilesAtOnce env events).compilation.workspaceIndex =
    Env.removeAll (env.updateAll s.compilation.workspaceIndex
      (env.readEvents (env.openCanonical s.compilation) events).updates)
      (s.removalsAtOnce env events) := by
  rw [watchFilesAtOnce_eq]
  rfl

lemma standing_watchFilesAtOnce (h : s.compilation.workspaceIndex.Standing env.hasher)
    (events : List FileEvent) :
    (s.watchFilesAtOnce env events).compilation.workspaceIndex.Standing env.hasher := by
  rw [workspaceIndex_watchFilesAtOnce]
  exact Env.standing_removeAll (Env.standing_updateAll h _) _

lemma standing_watchFilesInTurn (h : s.compilation.workspaceIndex.Standing env.hasher)
    (events : List FileEvent) :
    (s.watchFilesInTurn env events).compilation.workspaceIndex.Standing env.hasher := by
  induction events using List.reverseRecOn with
  | nil => exact h
  | append_singleton events event ih =>
    rw [watchFilesInTurn_concat]
    exact standing_watchFilesAtOnce ih [event]

/-- A rebuild over the files that are accounted for lists what the point declares. -/
lemma Accounted.rebuiltCatalog {out : String → Prop} (h : Accounted env s out events t)
    (hs : s.compilation.workspaceIndex.Standing env.hasher)
    (ht : t.compilation.workspaceIndex.Standing env.hasher) {gone : String → Bool}
    (hgone : ∀ key, gone key = true ↔ out key) :
    t.compilation.workspaceIndex.rebuiltCatalog.Alike (env.catalogAt s (some {
      written := (env.readEvents (env.openCanonical s.compilation) events).updates, gone })) := by
  obtain ⟨⟨gone', hgone', hreached⟩, -⟩ := h
  have hwritten := Env.standing_updateAll hs
    (env.readEvents (env.openCanonical s.compilation) events).updates
  refine rebuiltCatalog_without hwritten.toOwnedSlots ht.toOwnedSlots
    (Env.standing_removeAll hwritten _).toOwnedSlots hreached.index
    (without_removeAll _ (Without.refl _)) fun u hu => ?_
  have hsame : gone' u = gone u := by
    rw [Bool.eq_iff_iff, hgone, hgone']
  rw [Bool.false_or, hsame]
  cases hgoneU : gone u with
  | false => simp [hgoneU]
  | true =>
    refine (decide_eq_true ?_).symm
    exact List.mem_filter.mpr ⟨AList.mem_keys.mp hu, hgoneU⟩

/-- What the point says about a file is what the index records. -/
lemma Accounted.outwardKeys {out : String → Prop} (h : Accounted env s out events t)
    {gone : String → Bool} (hgone : ∀ key, gone key = true ↔ out key) (key : String) :
    t.compilation.workspaceIndex.docOutwardHashes.lookup key = env.outwardAt s {
      written := (env.readEvents (env.openCanonical s.compilation) events).updates, gone } key := by
  obtain ⟨⟨gone', hgone', hreached⟩, -⟩ := h
  have hsame : gone' key = gone key := by
    rw [Bool.eq_iff_iff, hgone, hgone']
  rw [hreached.index.outward, Env.docOutwardHashes_updateAll, Env.outwardAt, hsame]

lemma removesGlobalKey_iff {p : CatalogPoint} {gone : String → Bool} :
    env.removesGlobalKey s p gone = true ↔ ∃ key, gone key = true ∧
      globalCatalogChanged (((env.outwardAt s p key).map AList.keys).getD []) = true := by
  rw [Env.removesGlobalKey, List.any_eq_true]
  constructor
  · rintro ⟨key, -, hkey⟩
    exact ⟨key, Bool.and_eq_true_iff.mp hkey⟩
  · rintro ⟨key, hgone, hglobal⟩
    refine ⟨key, ?_, Bool.and_eq_true_iff.mpr ⟨hgone, hglobal⟩⟩
    unfold Env.outwardAt at hglobal
    split_ifs at hglobal
    · cases hglobal
    · rw [List.mem_append, ← isSome_latest]
      cases hlatest : Env.latest p.written key with
      | some document => exact .inl rfl
      | none =>
        rw [hlatest, Option.map_none, Option.none_or] at hglobal
        refine .inr (AList.mem_keys.mp (AList.lookup_isSome.mp ?_))
        cases hlookup : s.compilation.workspaceIndex.docOutwardHashes.lookup key with
        | some hashes => rfl
        | none =>
          rw [hlookup] at hglobal
          cases hglobal

lemma outwardAt_written (files : List DiskFile) (key : String) :
    env.outwardAt s { written := files } key =
      (env.updateAll s.compilation.workspaceIndex files).docOutwardHashes.lookup key :=
  (Env.docOutwardHashes_updateAll files key).symm

/-- One of the files that the batch takes out has a global key. -/
lemma removesGlobalKey_updates (s : Indexing) (events : List FileEvent) :
    env.removesGlobalKey s
        { written := (env.readEvents (env.openCanonical s.compilation) events).updates }
        (fun key => decide (TakenOut (Env.IsIndexed s key)
          (env.actsOn (env.openCanonical s.compilation) key events))) = true ↔
      ∃ uri ∈ s.removalsAtOnce env events, globalCatalogChanged
        ((env.updateAll s.compilation.workspaceIndex (env.readEvents
          (env.openCanonical s.compilation) events).updates).outwardKeys uri) = true := by
  rw [removesGlobalKey_iff]
  simp only [decide_eq_true_iff, ← mem_removalsAtOnce, outwardAt_written]
  rfl

/-- The removals come last, so the files stand there as they do behind the batch. -/
lemma pointAtOnce_of_removes {events : List FileEvent}
    (h : ∃ uri ∈ s.removalsAtOnce env events, globalCatalogChanged
      ((env.updateAll s.compilation.workspaceIndex (env.readEvents
        (env.openCanonical s.compilation) events).updates).outwardKeys uri) = true) :
    env.pointAtOnce s events = some {
      written := (env.readEvents (env.openCanonical s.compilation) events).updates
      gone := fun key => decide (TakenOut (Env.IsIndexed s key)
        (env.actsOn (env.openCanonical s.compilation) key events)) } := by
  unfold Env.pointAtOnce
  exact if_pos ((removesGlobalKey_updates s events).mpr h)

lemma pointAtOnce_of_quiet {events : List FileEvent}
    (h : ∀ uri ∈ s.removalsAtOnce env events, globalCatalogChanged
      ((env.updateAll s.compilation.workspaceIndex (env.readEvents
        (env.openCanonical s.compilation) events).updates).outwardKeys uri) = false) :
    env.pointAtOnce s events = (upToLast (env.writeIsLoud s.compilation.workspaceIndex)
      (env.readEvents (env.openCanonical s.compilation) events).updates).map
        fun written => { written } := by
  have hnone : ¬ env.removesGlobalKey s
      { written := (env.readEvents (env.openCanonical s.compilation) events).updates }
      (fun key => decide (TakenOut (Env.IsIndexed s key)
        (env.actsOn (env.openCanonical s.compilation) key events))) = true := by
    rw [removesGlobalKey_updates]
    rintro ⟨uri, huri, hglobal⟩
    rw [h uri huri] at hglobal
    cases hglobal
  have hwrites : (fun before file => env.writesGlobalKey s { written := before } file) =
      env.writeIsLoud s.compilation.workspaceIndex := by
    funext before file
    rw [Env.writesGlobalKey, outwardAt_written]
    rfl
  unfold Env.pointAtOnce
  rw [← hwrites]
  exact if_neg hnone

/-- A batch leaves the catalog built at its last operation that changes a global key. -/
theorem catalog_watchFilesAtOnce (hs : s.compilation.workspaceIndex.Standing env.hasher)
    (events : List FileEvent) :
    (s.watchFilesAtOnce env events).compilation.workspaceIndex.completionCatalog.Alike
      (env.catalogAt s (env.pointAtOnce s events)) := by
  have hstanding := Env.standing_updateAll hs
    (env.readEvents (env.openCanonical s.compilation) events).updates
  have hcatalog := Env.catalog_removeAll hstanding (s.removalsAtOnce env events)
  have hbuilt := (accounted_watchFilesAtOnce env s events).rebuiltCatalog hs
    (standing_watchFilesAtOnce hs events) fun key => decide_eq_true_iff
  rw [workspaceIndex_watchFilesAtOnce] at hbuilt ⊢
  rcases hcatalog with ⟨hloud, hcurrent⟩ | ⟨hquiet, hkept, -⟩
  · rw [pointAtOnce_of_removes hloud]
    exact hcurrent.trans hbuilt
  · rw [hkept, Env.catalog_updateAll hs, pointAtOnce_of_quiet hquiet]
    cases upToLast (env.writeIsLoud s.compilation.workspaceIndex)
        (env.readEvents (env.openCanonical s.compilation) events).updates with
    | none => exact .refl _
    | some before =>
      rw [Option.map_some, Option.map_some, Option.getD_some, Env.catalogAt, List.filter_false]
      exact .refl _

/-! ### The catalog behind events one at a time -/

/-- One event writes a file or takes files out. -/
lemma readEvents_singleton (env : Env) (openCanonical : List String) (event : FileEvent) :
    (env.readEvents openCanonical [event]).updates = [] ∨
      ∃ file, env.readEvents openCanonical [event] = { updates := [file] } := by
  rw [Env.readEvents, List.filter_cons, List.filter_nil]
  split_ifs
  · rw [List.foldl_cons, List.foldl_nil]
    unfold Env.readWatchedEvent
    rcases env.classifyWatchedEvent event openCanonical with
      _ | ⟨canonical, diskText⟩ | canonical | path
    · exact .inl rfl
    · dsimp only
      cases diskText.bind env.parse with
      | none => exact .inl rfl
      | some document => exact .inr ⟨(canonical, document), rfl⟩
    · exact .inl rfl
    · exact .inl rfl
  · exact .inl rfl

lemma removalsAtOnce_of_updates {event : FileEvent} {file : DiskFile}
    (hread : env.readEvents (env.openCanonical t.compilation) [event] = { updates := [file] }) :
    t.removalsAtOnce env [event] = [] := by
  refine List.eq_nil_iff_forall_not_mem.mpr fun key hkey => ?_
  have hholds := Env.holds_readEvents env (env.openCanonical t.compilation) key [event]
  rw [mem_removalsAtOnce, TakenOut, ← hholds.removes, ← hholds.removesIndexed, hread] at hkey
  have hempty := (@Env.holds_empty env (env.openCanonical t.compilation) key).removesIndexed
  rcases hkey with hremoved | ⟨htree, -⟩
  · cases hremoved
  · cases hempty.mp htree

/-- The files that one event takes out are those whose keys it may remove. -/
lemma removesGlobalKey_event (event : FileEvent) :
    env.removesGlobalKey s (env.pointBehind s events)
      (env.pointBehind s (events ++ [event])).gone = true ↔
    ∃ uri ∈ (s.watchFilesInTurn env events).removalsAtOnce env [event], globalCatalogChanged
      ((s.watchFilesInTurn env events).compilation.workspaceIndex.outwardKeys uri) = true := by
  have haccounted := accounted_watchFilesInTurn env s events
  have hkeys : ∀ key,
      (s.watchFilesInTurn env events).compilation.workspaceIndex.docOutwardHashes.lookup key =
        env.outwardAt s (env.pointBehind s events) key :=
    haccounted.outwardKeys fun key => decide_eq_true_iff
  obtain ⟨⟨gone, hgone, hreached⟩, -⟩ := haccounted
  have hopen : env.openCanonical (s.watchFilesInTurn env events).compilation =
      env.openCanonical s.compilation := openCanonical_eq hreached.outside
  rw [removesGlobalKey_iff]
  refine exists_congr fun key => ?_
  rw [WorkspaceIndex.outwardKeys, hkeys]
  refine and_congr_left fun hglobal => ?_
  have hpresent : ¬ OutInTurn (Env.IsIndexed s key)
      (env.actsOn (env.openCanonical s.compilation) key events) := by
    intro hout
    rw [Env.outwardAt, Env.pointBehind, if_pos (decide_eq_true hout)] at hglobal
    cases hglobal
  have hholds := Env.holds_readEvents env (env.openCanonical s.compilation) key events
  have hindexed := hreached.isIndexed key
  rw [hholds.writes, ← Bool.not_eq_true, hgone] at hindexed
  have hconcat := outInTurn_concat event hopen hindexed
  rw [Env.pointBehind, decide_eq_true_iff, hconcat]
  exact ⟨fun h => h.resolve_left fun hout => hpresent hout.1, .inr⟩

/-- One event rebuilds the catalog for a global key that it changes, or leaves it. -/
lemma catalog_event (hs : s.compilation.workspaceIndex.Standing env.hasher) (event : FileEvent) :
    (env.changesGlobalKey s events event = true ∧
      (s.watchFilesInTurn env
          (events ++ [event])).compilation.workspaceIndex.completionCatalog.Alike
        (s.watchFilesInTurn env (events ++ [event])).compilation.workspaceIndex.rebuiltCatalog) ∨
    (env.changesGlobalKey s events event = false ∧
      (s.watchFilesInTurn env (events ++ [event])).compilation.workspaceIndex.completionCatalog =
        (s.watchFilesInTurn env events).compilation.workspaceIndex.completionCatalog) := by
  have haccounted := accounted_watchFilesInTurn env s events
  have hstanding := standing_watchFilesInTurn hs events
  have hremoves := @removesGlobalKey_event env s events event
  have hkeys : ∀ key,
      (s.watchFilesInTurn env events).compilation.workspaceIndex.docOutwardHashes.lookup key =
        env.outwardAt s (env.pointBehind s events) key :=
    haccounted.outwardKeys fun key => decide_eq_true_iff
  obtain ⟨⟨gone, hgone, hreached⟩, -⟩ := haccounted
  have hopen : env.openCanonical (s.watchFilesInTurn env events).compilation =
      env.openCanonical s.compilation := openCanonical_eq hreached.outside
  rw [watchFilesInTurn_concat, workspaceIndex_watchFilesAtOnce, hopen, Env.changesGlobalKey]
  rcases readEvents_singleton env (env.openCanonical s.compilation) event with
    hnone | ⟨file, hread⟩
  · rw [hnone, List.any_nil, Bool.false_or]
    rcases Env.catalog_removeAll hstanding
        ((s.watchFilesInTurn env events).removalsAtOnce env [event]) with
      ⟨hloud, hcurrent⟩ | ⟨hquiet, hkept, -⟩
    · exact .inl ⟨hremoves.mpr hloud, hcurrent⟩
    · refine .inr ⟨Bool.eq_false_iff.mpr fun hloud => ?_, hkept⟩
      obtain ⟨uri, huri, hglobal⟩ := hremoves.mp hloud
      rw [hquiet uri huri] at hglobal
      cases hglobal
  · have hnone : (s.watchFilesInTurn env events).removalsAtOnce env [event] = [] :=
      removalsAtOnce_of_updates (by rw [hopen]; exact hread)
    have hkept : env.removesGlobalKey s (env.pointBehind s events)
        (env.pointBehind s (events ++ [event])).gone = false := by
      refine Bool.eq_false_iff.mpr fun hloud => ?_
      obtain ⟨uri, huri, -⟩ := hremoves.mp hloud
      rw [hnone] at huri
      cases huri
    have hwrite := hstanding.catalog_applyContribution file.1
      (WorkspaceIndex.computeContribution env.hasher file.1 file.2)
    rw [hread, hkept, hnone, List.any_cons, List.any_nil, Bool.or_false, Bool.or_false,
      Env.writesGlobalKey, ← hkeys]
    cases hloud : globalCatalogChanged (diffOutwardKeys
        ((s.watchFilesInTurn env events).compilation.workspaceIndex.docOutwardHashes.lookup file.1)
        (outwardHashMap env.hasher file.2.symbols)) with
    | true =>
      refine .inl ⟨rfl, ?_⟩
      have hcurrent := hwrite.trans (if_pos hloud)
      exact hcurrent ▸ .refl _
    | false =>
      exact .inr ⟨rfl, hwrite.trans (if_neg (Bool.eq_false_iff.mp hloud))⟩

/-- Events one at a time leave the catalog built at the last one that changes a global key. -/
theorem catalog_watchFilesInTurn (hs : s.compilation.workspaceIndex.Standing env.hasher)
    (events : List FileEvent) :
    (s.watchFilesInTurn env events).compilation.workspaceIndex.completionCatalog.Alike
      (env.catalogAt s (env.pointInTurn s events)) := by
  induction events using List.reverseRecOn with
  | nil => exact .refl _
  | append_singleton events event ih =>
    rw [Env.pointInTurn, upToLast_concat]
    rcases @catalog_event env s events hs event with ⟨hloud, hcurrent⟩ | ⟨hquiet, hkept⟩
    · rw [hloud, if_pos rfl, Option.map_some]
      refine hcurrent.trans ?_
      exact (accounted_watchFilesInTurn env s (events ++ [event])).rebuiltCatalog hs
        (standing_watchFilesInTurn hs _) fun key => decide_eq_true_iff
    · rw [hquiet, if_neg Bool.false_ne_true, hkept]
      exact ih

/-- Two files are created, each with a function. -/
def createdTwo : List Backend.Event :=
  [.indexing (.watchFiles [{ uri := "b.ws", typ := .created, diskText := some "b" },
      { uri := "c.ws", typ := .created, diskText := some "c" }]),
    .indexing (.advance 0), .indexing (.advance 0), .indexing (.advance 0)]

lemma createdTwo_runs :
    (run (Backend.step functionEnv {}) (.initial ∅) createdTwo).isSome = true := by decide

def serverOfTwo : Backend :=
  (run (Backend.step functionEnv {}) (.initial ∅) createdTwo).get createdTwo_runs

/-- The function of one file moves, and the other file is deleted. -/
def movedThenDeleted : List FileEvent :=
  [{ uri := "b.ws", typ := .changed, diskText := some "b " }, { uri := "c.ws", typ := .deleted }]

-- The other way round, the deletion alone rebuilds the catalog, from where the function was.
example : ¬ functionEnv.KeepsCatalog serverOfTwo.indexing movedThenDeleted.reverse := by decide

/-- A delete of one file and a create of it, in one batch. -/
def deletedThenCreated : List FileEvent :=
  [{ uri := "a.ws", typ := .deleted }, { uri := "a.ws", typ := .created, diskText := some "0" }]

end Indexing

end WitcherScriptLanguage
