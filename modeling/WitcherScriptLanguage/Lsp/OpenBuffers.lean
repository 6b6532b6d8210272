import WitcherScriptLanguage.Lsp.BaseScripts
import WitcherScriptLanguage.Lsp.OpenDocuments

/-!
# Open documents beside `index_base_scripts`

`index_base_scripts` publishes a base index built from the disk, merges the open base documents
into it in a later step, and then starts the legacy sync; a manifest event of a watched-file batch
spawns it. Open documents stay indexed from their buffers as long as each publication finds what
its task has read still true.
-/

namespace WitcherScriptLanguage

open Library

namespace Env

variable {env : Env} {c c' : Compilation} {uri u : Url} {view : FileView}

/-- The files of a base index that is built anew, and its index. -/
structure BaseFilesOk (env : Env) (index : WorkspaceIndex) (documents : DocumentMap) : Prop where
  entry : ∀ key, index.entry key = (documents.lookup key).map (env.contribution key)
  files : ∀ key document, documents.lookup key = some document → env.DiskOk (key, document)

/-- The files are base scripts, and among them are the open ones with the text of their buffers. -/
structure RebuildsBase (env : Env) (c : Compilation) (documents : DocumentMap) : Prop where
  kinds : ∀ key ∈ documents.keys, env.indexKindOf key = .base
  buffers : ∀ v ∈ c.documents.keys, env.indexKindOf v = .base →
    (documents.lookup (env.canonicalUri v)).map (·.source) = c.openText v

/-- The document is still open with the text that was read or, closed, is held with that text if
at all. -/
structure MergesBase (env : Env) (c : Compilation) (file : Url × ParsedDocument) : Prop where
  only : env.OnlySpelling c file.1
  kind : env.indexKindOf file.1 = .base
  text : match c.openText file.1 with
    | some text => text = file.2.source
    | none => ∀ copy ∈ c.baseScriptsDocuments.lookup (env.canonicalUri file.1),
        copy.source = file.2.source

instance (env : Env) (c : Compilation) (documents : DocumentMap) :
    Decidable (env.RebuildsBase c documents) :=
  decidable_of_iff ((∀ key ∈ documents.keys, env.indexKindOf key = .base) ∧
      ∀ v ∈ c.documents.keys, env.indexKindOf v = .base →
        (documents.lookup (env.canonicalUri v)).map (·.source) = c.openText v)
    ⟨fun h => ⟨h.1, h.2⟩, fun h => ⟨h.kinds, h.buffers⟩⟩

instance (text : Option String) (held : Option ParsedDocument) (source : String) :
    Decidable (match text with
      | some text => text = source
      | none => ∀ copy ∈ held, copy.source = source) :=
  match text with
  | some text => inferInstanceAs (Decidable (text = source))
  | none => inferInstanceAs (Decidable (∀ copy ∈ held, copy.source = source))

instance (env : Env) (c : Compilation) (file : Url × ParsedDocument) :
    Decidable (env.MergesBase c file) :=
  decidable_of_iff (env.OnlySpelling c file.1 ∧ env.indexKindOf file.1 = .base ∧
      match c.openText file.1 with
      | some text => text = file.2.source
      | none => ∀ copy ∈ c.baseScriptsDocuments.lookup (env.canonicalUri file.1),
          copy.source = file.2.source)
    ⟨fun h => ⟨h.1, h.2.1, h.2.2⟩, fun h => ⟨h.only, h.kind, h.text⟩⟩

lemma baseFilesOk_empty : env.BaseFilesOk {} ∅ where
  entry _ := rfl
  files _ _ := nofun

lemma baseFilesOk_indexBaseFiles {parsed : List DiskFile} (h : ∀ file ∈ parsed, env.DiskOk file) :
    env.BaseFilesOk (env.indexBaseFiles parsed) (insertAll ∅ parsed) where
  entry key := by
    have hindex : env.indexBaseFiles parsed = (env.updateAll
        ({} : WorkspaceIndex).beginBulkCatalogUpdate parsed).endBulkCatalogUpdate := by
      unfold indexBaseFiles updateAll
      dsimp only
      rw [List.foldl_map]
      rfl
    rw [hindex, WorkspaceIndex.entry_endBulk, entry_updateAll, lookup_insertAll]
    cases latest parsed key <;> rfl
  files key document hdocument := by
    rw [lookup_insertAll] at hdocument
    refine h _ (mem_of_latest ?_)
    cases hlatest : latest parsed key with
    | none =>
      rw [hlatest] at hdocument
      cases hdocument
    | some d =>
      rw [hlatest] at hdocument
      exact hdocument

section

variable {excluded : Bool} {index : WorkspaceIndex} {documents : DocumentMap}

lemma RebuildsBase.lookup_eq_none (h : env.RebuildsBase c documents)
    (hkind : env.indexKindOf uri ≠ .base) : documents.lookup (env.canonicalUri uri) = none := by
  refine lookup_eq_none_of_notMem fun hmem => hkind ?_
  rw [← indexKindOf_canonicalUri]
  exact h.kinds _ hmem

/-- A file that is no base script is not in the base index from the disk. -/
lemma Consistent.misplaced_rebuildBase (h : env.Consistent uri excluded (env.view c uri))
    (hfiles : env.BaseFilesOk index documents) (hrebuilds : env.RebuildsBase c documents)
    (kind : IndexKind) (hkind : kind ≠ env.indexKindOf uri) :
    (env.view { c with baseScriptsIndex := index, baseScriptsDocuments := documents } uri).entry
      kind = none := by
  cases kind with
  | base =>
    refine (hfiles.entry _).trans ?_
    rw [hrebuilds.lookup_eq_none hkind.symm]
    rfl
  | workspace => exact h.misplaced .workspace hkind
  | loose => exact h.misplaced .loose hkind

/-- In the file's own index: the entry of a base script from the disk, and no change to another. -/
lemma Consistent.entry_rebuildBase (h : env.Consistent uri excluded (env.view c uri))
    (hfiles : env.BaseFilesOk index documents) (hrebuilds : env.RebuildsBase c documents)
    {document : ParsedDocument}
    (hheld : env.indexKindOf uri = .base → ∃ d,
      documents.lookup (env.canonicalUri uri) = some d ∧
        env.contribution (env.canonicalUri uri) d =
          env.contribution (env.canonicalUri uri) document)
    (hkept : env.indexKindOf uri ≠ .base → (env.view c uri).entry =
      env.placed uri (some (env.contribution (env.canonicalUri uri) document))) :
    (env.view { c with baseScriptsIndex := index, baseScriptsDocuments := documents } uri).entry =
      env.placed uri (some (env.contribution (env.canonicalUri uri) document)) := by
  funext kind
  by_cases hkind : kind = env.indexKindOf uri
  · subst hkind
    rw [placed, if_pos rfl]
    by_cases hscope : env.indexKindOf uri = .base
    · obtain ⟨d, hd, hcontribution⟩ := hheld hscope
      rw [hscope]
      refine (hfiles.entry _).trans ?_
      rw [hd, Option.map_some, hcontribution]
    · have hold := congrFun (hkept hscope) (env.indexKindOf uri)
      rw [placed, if_pos rfl] at hold
      rw [← hold]
      cases hk : env.indexKindOf uri with
      | base => exact absurd hk hscope
      | workspace => rfl
      | loose => rfl
  · rw [h.misplaced_rebuildBase hfiles hrebuilds kind hkind, placed, if_neg hkind]

/-- The base index from the disk goes under equal buffers. -/
lemma Consistent.rebuildBase (h : env.Consistent uri excluded (env.view c uri))
    (hfiles : env.BaseFilesOk index documents) (hrebuilds : env.RebuildsBase c documents) :
    env.Consistent uri excluded (env.view
      { c with baseScriptsIndex := index, baseScriptsDocuments := documents } uri) := by
  refine ⟨fun openDoc hopen => ?_, h.workspaceCopy, fun copy hcopy => ?_,
    h.misplaced_rebuildBase hfiles hrebuilds, ?_⟩
  · obtain ⟨hparsed, hentry⟩ := h.buffer openDoc hopen
    refine ⟨hparsed, h.entry_rebuildBase hfiles hrebuilds (fun hscope => ?_) fun _ => hentry⟩
    have htext := hrebuilds.buffers uri (mem_keys_of_lookup hopen) hscope
    have hopen' : c.documents.lookup uri = some openDoc := hopen
    rw [Compilation.openText, hopen', Option.map_some] at htext
    obtain ⟨d, hd, hsource⟩ := Option.map_eq_some_iff.mp htext
    exact ⟨d, hd, contribution_congr (hfiles.files _ d hd).2 hparsed hsource _⟩
  · refine ⟨?_, (hfiles.files _ copy hcopy).2⟩
    rw [← indexKindOf_canonicalUri]
    exact hrebuilds.kinds _ (mem_keys_of_lookup hcopy)
  · intro hclosed hincluded copy hcopy
    have hheld : (c.workspaceDocuments.lookup (env.canonicalUri uri)).or
        (documents.lookup (env.canonicalUri uri)) = some copy := hcopy
    refine h.entry_rebuildBase hfiles hrebuilds (fun hscope => ?_) fun hscope => ?_
    · have hnone : c.workspaceDocuments.lookup (env.canonicalUri uri) = none :=
        h.workspaceCopy_eq_none (by rw [hscope]; decide)
      rw [hnone, Option.none_or] at hheld
      exact ⟨copy, hheld, rfl⟩
    · rw [hrebuilds.lookup_eq_none hscope, Option.or_none] at hheld
      refine h.cached hclosed hincluded copy ?_
      rw [h.baseCopy_eq_none hscope, Option.or_none]
      exact hheld

lemma FilesOk.rebuildBase (h : env.FilesOk c) (hfiles : env.BaseFilesOk index documents)
    (hrebuilds : env.RebuildsBase c documents) :
    env.FilesOk { c with baseScriptsIndex := index, baseScriptsDocuments := documents } where
  consistent uri huri := (h.consistent uri huri).rebuildBase hfiles hrebuilds
  unique := h.unique
  canonical key hkey kind := by
    cases kind with
    | base =>
      refine (hfiles.entry key).trans ?_
      cases hdocument : documents.lookup key with
      | none => rfl
      | some document => exact absurd (hfiles.files key document hdocument).1 hkey
    | workspace => exact h.canonical key hkey .workspace
    | loose => exact h.canonical key hkey .loose

end

lemma view_indexBase (document : ParsedDocument) :
    env.view { c with
      baseScriptsIndex := (env.indexOpenDocument c.baseScriptsIndex u document).2 } u =
      { env.view c u with entry := fun kind =>
          if kind = .base then some (env.contribution (env.canonicalUri u) document)
          else (env.view c u).entry kind } := by
  rw [view, view]
  congr 1
  funext kind
  cases kind with
  | base => exact (entry_indexOpenDocument _ _ _ _).trans (if_pos rfl)
  | workspace => rfl
  | loose => rfl

/-- One open base document is merged. -/
lemma FilesOk.mergeBase (h : env.FilesOk c) {file : Url × ParsedDocument}
    (hmerges : env.MergesBase c file) (hparsed : env.Parsed file.2) :
    env.FilesOk { c with
      baseScriptsIndex := (env.indexOpenDocument c.baseScriptsIndex file.1 file.2).2 } := by
  obtain ⟨u, document⟩ := file
  obtain ⟨honly, hkind, htext⟩ := hmerges
  refine h.publication honly (fun v hv => ?_) (fun _ _ => rfl) (fun hview => ?_)
    (fun key hkey kind => ?_)
  · obtain ⟨hcanonical, hspelling, -⟩ := ne_of_canonicalUri_ne hv
    rw [view, view]
    congr 1
    funext kind
    cases kind with
    | base =>
      refine (entry_indexOpenDocument _ _ _ _).trans ?_
      rw [if_neg hcanonical, if_neg hspelling]
      rfl
    | workspace => rfl
    | loose => rfl
  · have hentry : ∀ d, env.Parsed d → d.source = document.source → (fun kind =>
        if kind = .base then some (env.contribution (env.canonicalUri u) document)
        else (env.view c u).entry kind) =
          env.placed u (some (env.contribution (env.canonicalUri u) d)) := by
      intro d hd hsource
      funext kind
      rw [placed, hkind]
      split_ifs with hbase
      · rw [contribution_congr hparsed hd hsource.symm]
      · exact hview.misplaced kind (by rw [hkind]; exact hbase)
    rw [view_indexBase]
    refine ⟨fun d hd => ?_, hview.workspaceCopy, hview.baseCopy, fun kind hne => ?_, ?_⟩
    · obtain ⟨hdParsed, -⟩ := hview.buffer d hd
      have hopen : c.documents.lookup u = some d := hd
      simp only [Compilation.openText, hopen, Option.map_some] at htext
      exact ⟨hdParsed, hentry d hdParsed htext⟩
    · rw [hkind] at hne
      exact (if_neg hne).trans (hview.misplaced kind (by rw [hkind]; exact hne))
    · intro hclosed _ copy hcopy
      have hopen : c.documents.lookup u = none := hclosed
      simp only [Compilation.openText, hopen, Option.map_none] at htext
      have hnone : (env.view c u).workspaceCopy = none :=
        hview.workspaceCopy_eq_none (by rw [hkind]; decide)
      have hheld : (env.view c u).baseCopy = some copy := by
        have hor : (env.view c u).workspaceCopy.or (env.view c u).baseCopy = some copy := hcopy
        rw [hnone, Option.none_or] at hor
        exact hor
      exact hentry copy (hview.baseCopy copy hheld).2 (htext copy hheld)
  · cases kind with
    | base =>
      have hmerged := @entry_indexOpenDocument env c.baseScriptsIndex u document key
      rw [if_neg fun heq => hkey (by rw [heq, canonicalUri_canonicalUri])] at hmerged
      split_ifs at hmerged
      · exact .inl hmerged
      · exact .inr hmerged
    | workspace => exact .inr rfl
    | loose => exact .inr rfl

lemma FilesOk.mergeOpenBase (h : env.FilesOk c) {files : List (Url × ParsedDocument)}
    (hmerges : ∀ file ∈ files, env.MergesBase c file)
    (hparsed : ∀ file ∈ files, env.Parsed file.2) :
    env.FilesOk { c with
      baseScriptsIndex := env.indexOpenDocuments c.baseScriptsIndex files } := by
  induction files generalizing c with
  | nil => exact h
  | cons file files ih =>
    have hmerged := h.mergeBase (hmerges file List.mem_cons_self) (hparsed file List.mem_cons_self)
    exact ih hmerged (fun other hother => ⟨(hmerges other (List.mem_cons_of_mem _ hother)).only,
        (hmerges other (List.mem_cons_of_mem _ hother)).kind,
        (hmerges other (List.mem_cons_of_mem _ hother)).text⟩)
      fun other hother => hparsed other (List.mem_cons_of_mem _ hother)

end Env

namespace Indexing

/-- The manifests' script directories behind a step. -/
def manifestDirsAfter (env : Env) (s : Indexing) : Event → AList (fun _ : String => FilePath)
  | .advance i =>
    match s.inFlight[i]? with
    | some (.manifests events) => events.foldl env.applyManifestEvent s.manifestLegacyDirs
    | _ => s.manifestLegacyDirs
  | _ => s.manifestLegacyDirs

lemma manifestLegacyDirs_step {env : Env} {s s' : Indexing} {e : Event}
    (hstep : s.step env e = some s') : s'.manifestLegacyDirs = s.manifestDirsAfter env e := by
  cases e with
  | didOpen uri text =>
    cases hstep
    unfold Indexing.didOpen
    split_ifs
    · rfl
    · dsimp only
      split_ifs <;> rfl
  | publishEdit uri edit =>
    cases hstep
    rfl
  | didClose uri diskText =>
    cases hstep
    unfold Indexing.didClose
    split_ifs
    · rfl
    · rfl
    · dsimp only
      split_ifs <;> rfl
  | scanWorkspace files =>
    simp only [Indexing.step] at hstep
    split_ifs at hstep <;> cases hstep <;> rfl
  | watchFiles events =>
    cases hstep
    rfl
  | advance i =>
    unfold manifestDirsAfter
    simp only [Indexing.step] at hstep
    cases htask : s.inFlight[i]? with
    | none => simp [htask] at hstep
    | some task =>
      simp only [htask, Option.some.injEq] at hstep
      subst hstep
      dsimp only
      rw [htask]
      cases task <;> rfl

end Indexing

namespace Backend

/-- The task of the index that the task starts at its end. -/
def laterTask : BaseTask → Option IndexingTask
  | .pairing _ | .suppressing _ => none
  | .environment _ next | .indexed _ _ _ next | .mergingOpen next | .mergedOpen _ next =>
    laterTask next
  | .rebuilding next | .clearingWorkspace next | .clearingLoose next => next

/-- The files whose scope the legacy sync behind the task has read. -/
def laterFiles (task : BaseTask) : List String :=
  (laterTask task).toList.flatMap Indexing.scopedFiles

/-- What the task has read is still true of the base files that it publishes. -/
def Fresh (env : Env) (s : Backend) : BaseTask → Prop
  | .indexed _ documents _ _ => (s.current env).RebuildsBase s.compilation documents
  | .mergedOpen files _ => ∀ file ∈ files, (s.current env).MergesBase s.compilation file
  | _ => True

instance (env : Env) (s : Backend) : (task : BaseTask) → Decidable (s.Fresh env task)
  | .indexed .. => inferInstanceAs (Decidable (Env.RebuildsBase _ _ _))
  | .mergedOpen files _ => inferInstanceAs (Decidable (∀ file ∈ files, _))
  | .pairing _ | .suppressing _ | .environment .. | .mergingOpen _ | .rebuilding _
  | .clearingWorkspace _ | .clearingLoose _ => inferInstanceAs (Decidable True)

/-- The publication that the step makes, if any, is fresh; the files of a legacy sync that is to
come keep their index. -/
def PublishesFresh (env : Env) (s : Backend) : Event → Prop
  | .indexing e => s.indexing.PublishesFresh env e ∧ ∀ key ∈ s.baseTasks.flatMap laterFiles,
      (env.withLegacyDirs (s.indexing.manifestDirsAfter env e)).indexKindOf key =
        (s.current env).indexKindOf key
  | .advance i => ∀ task ∈ s.baseTasks[i]?, s.Fresh env task
  | _ => True

instance (env : Env) (s : Backend) : (e : Event) → Decidable (s.PublishesFresh env e)
  | .indexing _ => inferInstanceAs (Decidable (_ ∧ ∀ key ∈ s.baseTasks.flatMap laterFiles, _))
  | .advance i => inferInstanceAs (Decidable (∀ task ∈ s.baseTasks[i]?, _))
  | .refreshLegacyOverrideMaps | .indexBaseScripts .. | .request _ | .complete _ =>
    inferInstanceAs (Decidable True)

/-! ### The invariant -/

/-- What a task has read from the disk, and what it starts at its end. -/
def BaseTaskOk (env : Env) : BaseTask → Prop
  | .pairing _ | .suppressing _ => True
  | .environment _ next | .mergingOpen next => BaseTaskOk env next
  | .indexed index documents _ next => env.BaseFilesOk index documents ∧ BaseTaskOk env next
  | .mergedOpen files next => (∀ file ∈ files, env.Parsed file.2) ∧ BaseTaskOk env next
  | .rebuilding next | .clearingWorkspace next | .clearingLoose next =>
    ∀ task ∈ next, Indexing.TaskOk env task

structure BackendInv (env : Env) (s : Backend) : Prop where
  indexing : Indexing.IndexingInv env s.indexing
  tasks : ∀ task ∈ s.baseTasks, BaseTaskOk (s.current env) task

variable {env : Env} {builtins : WorkspaceIndex} {s s' : Backend}

lemma BaseTaskOk.withLegacyDirs {dirs dirs' : AList (fun _ : String => FilePath)}
    {task : BaseTask} (h : BaseTaskOk (env.withLegacyDirs dirs) task)
    (hkinds : ∀ key ∈ laterFiles task, (env.withLegacyDirs dirs').indexKindOf key =
      (env.withLegacyDirs dirs).indexKindOf key) : BaseTaskOk (env.withLegacyDirs dirs') task := by
  have hnext : ∀ next : Option IndexingTask,
      (∀ key ∈ next.toList.flatMap Indexing.scopedFiles,
        (env.withLegacyDirs dirs').indexKindOf key = (env.withLegacyDirs dirs).indexKindOf key) →
      (∀ task ∈ next, Indexing.TaskOk (env.withLegacyDirs dirs) task) →
      ∀ task ∈ next, Indexing.TaskOk (env.withLegacyDirs dirs') task := by
    intro next hkinds hok task hmem
    refine (hok task hmem).withLegacyDirs fun key hkey => hkinds key ?_
    exact List.mem_flatMap.mpr ⟨task, Option.mem_toList.mpr hmem, hkey⟩
  induction task with
  | pairing | suppressing => trivial
  | environment globals next ih => exact ih h hkinds
  | mergingOpen next ih => exact ih h hkinds
  | indexed index documents suppressed next ih => exact ⟨⟨h.1.entry, h.1.files⟩, ih h.2 hkinds⟩
  | mergedOpen files next ih => exact ⟨h.1, ih h.2 hkinds⟩
  | rebuilding next => exact hnext next hkinds h
  | clearingWorkspace next => exact hnext next hkinds h
  | clearingLoose next => exact hnext next hkinds h

/-- The open documents that the merge finds are parses of their buffers. -/
lemma parsed_openBaseDocuments (h : BackendInv env s) :
    ∀ file ∈ s.openBaseDocuments env, (s.current env).Parsed file.2 := by
  intro file hfile
  obtain ⟨entry, hentry, rfl⟩ := List.mem_map.mp (List.mem_of_mem_filter hfile)
  have hlookup : s.compilation.documents.lookup entry.1 = some entry.2 :=
    AList.mem_lookup_iff.mpr hentry
  have honly := h.indexing.files.unique entry.1 (Env.mem_keys_of_lookup hlookup)
  exact ((h.indexing.files.consistent entry.1 honly).buffer entry.2 hlookup).1

/-- The tasks of `index_base_scripts` are right when they start. -/
lemma baseTaskOk_indexBaseScripts (globals : Option (List Definition))
    {base legacy : List (FilePath × Option String)} (hfinds : s.findsFiles env base legacy = true) :
    BaseTaskOk (s.current env) (s.indexBaseScripts env globals base legacy) := by
  have hlegacy : ∀ file ∈ env.parseScriptFiles legacy, (s.current env).DiskOk file ∧
      (s.current env).indexKindOf file.1 = .workspace := by
    intro file hfile
    obtain ⟨hdisk, path, hpath, hurl⟩ := Indexing.mem_parseScriptFiles hfile
    refine ⟨hdisk, Env.indexKindOf_of_underLegacyDirs hurl ?_⟩
    have hunder := List.all_eq_true.mp (Bool.and_eq_true_iff.mp hfinds).2 path hpath
    exact (Bool.and_eq_true_iff.mp hunder).2
  have hbase : (s.current env).BaseFilesOk (env.indexBaseFiles (env.parseScriptFiles base))
      (Env.insertAll ∅ (env.parseScriptFiles base)) :=
    @Env.baseFilesOk_indexBaseFiles (s.current env) _ fun file hfile =>
      (Indexing.mem_parseScriptFiles hfile).1
  have hindexed : BaseTaskOk (s.current env) (.indexed
      (env.indexBaseFiles (env.parseScriptFiles base))
      (Env.insertAll ∅ (env.parseScriptFiles base))
      (legacyBaseReplacements (Env.insertAll ∅ (env.parseScriptFiles base)).keys
        ((env.parseScriptFiles legacy).map Prod.fst))
      (.mergingOpen (.rebuilding (some (.syncing (env.parseScriptFiles legacy)))))) := by
    refine ⟨hbase, fun task htask => ?_⟩
    cases htask
    exact hlegacy
  unfold indexBaseScripts
  dsimp only
  split_ifs
  · refine ⟨Env.baseFilesOk_empty, fun task htask => ?_⟩
    cases htask
    trivial
  · cases globals <;> exact hindexed

lemma BackendInv.withCompilation (h : BackendInv env s) {c : Compilation}
    (hfiles : (s.current env).FilesOk c) : BackendInv env (s.withCompilation c) :=
  ⟨h.indexing.withCompilation hfiles, h.tasks⟩

/-- A fresh access of a task keeps the invariant, and what is left of the task is right. -/
theorem BackendInv.resume (h : BackendInv env s) {task : BaseTask} (hmem : task ∈ s.baseTasks)
    (hfresh : s.Fresh env task) :
    BackendInv env (s.resume env task).1 ∧ ∀ next ∈ (s.resume env task).2,
      BaseTaskOk ((s.resume env task).1.current env) next := by
  have htask := h.tasks task hmem
  cases task with
  | pairing baseUris =>
    refine ⟨h, fun next hnext => ?_⟩
    cases hnext
    trivial
  | suppressing suppressed =>
    refine ⟨⟨h.indexing, h.tasks⟩, fun next hnext => ?_⟩
    cases hnext
    exact nofun
  | environment globals next =>
    refine ⟨⟨h.indexing, h.tasks⟩, fun next hnext => ?_⟩
    cases hnext
    exact htask
  | indexed index documents suppressed next =>
    have hinv := h.withCompilation (h.indexing.files.rebuildBase htask.1 hfresh)
    refine ⟨⟨hinv.indexing, hinv.tasks⟩, fun next hnext => ?_⟩
    cases hnext
    exact htask.2
  | mergingOpen next =>
    refine ⟨h, fun next hnext => ?_⟩
    cases hnext
    exact ⟨parsed_openBaseDocuments h, htask⟩
  | mergedOpen files next =>
    have hinv := h.withCompilation (h.indexing.files.mergeOpenBase hfresh htask.1)
    refine ⟨hinv, fun next hnext => ?_⟩
    cases hnext
    exact htask.2
  | rebuilding next =>
    refine ⟨⟨h.indexing, h.tasks⟩, fun next hnext => ?_⟩
    cases hnext
    exact htask
  | clearingWorkspace next =>
    refine ⟨⟨h.indexing, h.tasks⟩, fun next hnext => ?_⟩
    cases hnext
    exact htask
  | clearingLoose next =>
    refine ⟨?_, nofun⟩
    cases next with
    | none => exact ⟨h.indexing, h.tasks⟩
    | some task => exact ⟨h.indexing.start (htask task rfl), h.tasks⟩

/-- Every step whose publication is fresh keeps the invariant. -/
theorem BackendInv.step (h : BackendInv env s) {e : Event} (hfresh : s.PublishesFresh env e)
    (hstep : s.step env builtins e = some s') : BackendInv env s' := by
  cases e with
  | indexing e =>
    obtain ⟨indexing, hindexing, rfl⟩ := Option.map_eq_some_iff.mp hstep
    refine ⟨h.indexing.step hfresh.1 hindexing, fun task hmem => ?_⟩
    have hdirs := Indexing.manifestLegacyDirs_step hindexing
    refine BaseTaskOk.withLegacyDirs (h.tasks task hmem) fun key hkey => ?_
    rw [hdirs]
    exact hfresh.2 key (List.mem_flatMap.mpr ⟨task, hmem, hkey⟩)
  | refreshLegacyOverrideMaps =>
    cases hstep
    refine ⟨h.indexing, fun task hmem => ?_⟩
    rcases List.mem_append.mp hmem with hold | hnew
    · exact h.tasks task hold
    · rw [List.mem_singleton.mp hnew]
      trivial
  | indexBaseScripts globals base legacy =>
    simp only [Backend.step] at hstep
    split_ifs at hstep with hfinds
    cases hstep
    refine ⟨h.indexing, fun task hmem => ?_⟩
    rcases List.mem_append.mp hmem with hold | hnew
    · exact h.tasks task hold
    · rw [List.mem_singleton.mp hnew]
      exact baseTaskOk_indexBaseScripts globals hfinds
  | advance i =>
    simp only [Backend.step] at hstep
    cases htask : s.baseTasks[i]? with
    | none => simp [htask] at hstep
    | some task =>
      simp only [htask, Option.some.injEq] at hstep
      obtain ⟨hinv, hnext⟩ := h.resume (List.mem_of_getElem? htask) (hfresh task htask)
      subst hstep
      refine ⟨hinv.indexing, fun task' hmem => ?_⟩
      rcases List.mem_append.mp hmem with hold | hnew
      · refine hinv.tasks task' ?_
        have hsame : (s.resume env task).1.baseTasks = s.baseTasks := by
          cases task with
          | clearingLoose next => cases next <;> rfl
          | _ => rfl
        rw [hsame]
        rw [hsame] at hold
        exact List.mem_of_mem_eraseIdx hold
      · exact hnext task' (Option.mem_toList.mp hnew)
  | request uri =>
    cases hstep
    exact ⟨h.indexing, h.tasks⟩
  | complete i =>
    simp only [Backend.step] at hstep
    cases hrequest : s.requests[i]? with
    | none => simp [hrequest] at hstep
    | some request =>
      simp only [hrequest, Option.some.injEq] at hstep
      subst hstep
      unfold mergedCompletionCache setSlot
      cases (s.slot env request.1).filter (·.matchesHandles request.2) with
      | some cached => exact ⟨h.indexing, h.tasks⟩
      | none =>
        dsimp only
        split_ifs <;> exact ⟨h.indexing, h.tasks⟩

/-- In every state that the run reaches, the buffers are indexed. -/
def KeepsBuffersIndexed (env : Env) (builtins : WorkspaceIndex) (start : Backend)
    (es : List Event) : Prop :=
  ∀ pre post s, es = pre ++ post → run (step env builtins) start pre = some s →
    Indexing.BuffersIndexed env s.indexing

/-- In every run whose publications are fresh, every open document is indexed in the one index
that its scope selects, with the contribution of its buffer. -/
theorem open_documents_indexed (builtins : WorkspaceIndex)
    (manifestLegacyDirs : AList (fun _ : String => FilePath)) {es : List Event}
    (hfresh : AllSteps (step env builtins) (PublishesFresh env) (initial manifestLegacyDirs) es) :
    KeepsBuffersIndexed env builtins (initial manifestLegacyDirs) es := by
  rintro pre post s rfl hrun
  have hinitial : BackendInv env (initial manifestLegacyDirs) :=
    ⟨Indexing.indexingInv_initial manifestLegacyDirs, nofun⟩
  have hinv := run_invariant (fun _ _ _ hinv hg hstep => BackendInv.step hinv hg hstep)
    hinitial hfresh.append_left hrun
  exact hinv.indexing.buffersIndexed

/-- Every text parses to a document whose one identifier is the text. -/
def textEnv : Env where
  urls := slashUrls
  hasher := ⟨fun _ => 0, fun _ _ => 0, fun _ _ => 0⟩
  config := { noDirs with
    workspaceRoots := [["mod"]], baseScriptsDir := some ["base"], legacyScriptDirs := [["old"]] }
  parse text := some { source := text, symbols := [], identLeaves := [(text, ⟨0, 1⟩)] }
  source_parse text document h := by
    cases h
    rfl
  excludeMatches _ := false

/-- A base script is open while the base scripts are indexed, and edited behind the merge. -/
def openedAcrossReindex : List Event :=
  [.indexing (.didOpen "base/scripts/a.ws" "a"), .indexing (.advance 0),
    .indexBaseScripts none [(["base", "scripts", "a.ws"], some "a")]
      [(["old", "scripts", "a.ws"], some "old")],
    .advance 0, .advance 0, .advance 0,
    .indexing (.publishEdit "base/scripts/a.ws" ⟨"edited", 1⟩),
    .advance 0, .advance 0, .advance 0,
    .indexing (.advance 0), .indexing (.advance 0), .indexing (.advance 0), .indexing (.advance 0)]

/-- A scan, and a document opened and edited behind it; a batch that leaves the open file out and
brings a manifest, for which the base scripts are indexed again. -/
def openedAfterScan : List Event :=
  [.indexing (.scanWorkspace [(["mod", "a.ws"], some "disk"), (["mod", "b.ws"], some "b")]),
    .indexing (.advance 0), .indexing (.didOpen "mod/a.ws" "disk"), .indexing (.advance 0),
    .indexing (.publishEdit "mod/a.ws" ⟨"buffer", 1⟩),
    .indexing (.watchFiles [
      { uri := "mod/a.ws", typ := .changed, diskText := some "saved" },
      { uri := "mod/b.ws", typ := .deleted },
      { uri := "new/witcherscript.toml", typ := .created, projectRoot := some ["new"] }]),
    .indexing (.advance 0), .indexing (.advance 0), .indexing (.advance 0)]

theorem open_documents_indexed_openedAcrossReindex :
    KeepsBuffersIndexed textEnv {} (initial ∅) (openedAcrossReindex ++ openedAfterScan) :=
  open_documents_indexed {} ∅ (by decide)

/-- A document is opened while the scan computes its contributions. -/
def openedWhileScanning : List Event :=
  [.indexing (.scanWorkspace [(["mod", "a.ws"], some "disk")]),
    .indexing (.didOpen "mod/a.ws" "buffer"), .indexing (.advance 1), .indexing (.advance 0)]

/-- The scan puts the text on disk over the buffer. -/
theorem not_buffersIndexed_openedWhileScanning :
    ¬ KeepsBuffersIndexed textEnv {} (initial ∅) openedWhileScanning := by
  intro h
  have hend : (run (step textEnv {}) (initial ∅) openedWhileScanning).map (fun s =>
      ((s.compilation.documents.lookup "mod/a.ws").map (·.source),
        (s.compilation.index .workspace).entry "mod/a.ws" |>.map fun contribution =>
          contribution.idents.bucket "buffer")) = some (some "buffer", some []) := by
    decide
  obtain ⟨s, hrun, hs⟩ := Option.map_eq_some_iff.mp hend
  obtain ⟨hopen, hentry⟩ := Prod.mk.inj hs
  obtain ⟨document, hdocument, hsource⟩ := Option.map_eq_some_iff.mp hopen
  obtain ⟨parsed, hparse, hindexed⟩ :=
    (h openedWhileScanning [] s (by simp) hrun).entry "mod/a.ws" document hdocument
  rw [hsource] at hparse
  cases hparse
  have hpath : textEnv.urls.toFilePath "mod/a.ws" = some ["mod", "a.ws"] := by decide
  have hkind : (s.indexing.current textEnv).indexKindOf "mod/a.ws" = .workspace :=
    @Env.indexKindOf_of_underRoots (s.indexing.current textEnv) "mod/a.ws" _ hpath rfl
  have hworkspace : (s.compilation.index .workspace).entry "mod/a.ws" = _ := hindexed .workspace
  rw [hworkspace, hkind, if_pos rfl] at hentry
  exact absurd hentry (by decide)

end Backend

end WitcherScriptLanguage
