import WitcherScriptLanguage.Lsp.IndexingTasks

/-!
# Open documents are indexed from their buffers

Every open document keeps the index entry of its buffer, in the one index that its scope selects,
as long as each publication finds what its task has read still true of the files that it is
about. The invariant is a consistent view for each file that no other spelling has open.
-/

namespace WitcherScriptLanguage

open Library

namespace Env

/-- No other spelling of the file is open. -/
def OnlySpelling (env : Env) (c : Compilation) (uri : Url) : Prop :=
  ∀ v ∈ c.documents.keys, env.canonicalUri v = env.canonicalUri uri → v = uri

/-- The file is closed, or open with the text that the disk has. -/
def LeavesBuffer (env : Env) (c : Compilation) (file : DiskFile) : Prop :=
  ∀ v ∈ c.documents.keys, env.canonicalUri v = file.1 → c.openText v = some file.2.source

/-- The file is closed, or another index than that of the workspace holds it. -/
def Removable (env : Env) (c : Compilation) (key : String) : Prop :=
  ∀ v ∈ c.documents.keys, env.canonicalUri v = key → env.indexKindOf v ≠ .workspace

/-- An unedited close finds the buffer and the cached copy that it has read. -/
def FreshClose (env : Env) (c : Compilation) (uri : Url) (diskText : Option String) :
    ClosePlan → Prop
  | .unedited isBase refresh => c.openText uri = env.closedText uri diskText ∧
      refresh = staleCopy (c.documents.lookup uri)
        (if isBase then c.baseScriptsDocuments.lookup (env.canonicalUri uri)
        else c.workspaceDocuments.lookup (env.canonicalUri uri))
  | _ => True

/-- The file is excluded, whatever has been checked before. -/
def excluded (env : Env) (uri : Url) : Bool := (env.isUriExcluded [] uri).1

instance (env : Env) (c : Compilation) (uri : Url) : Decidable (env.OnlySpelling c uri) :=
  inferInstanceAs (Decidable (∀ v ∈ c.documents.keys, _))

instance (env : Env) (c : Compilation) (file : DiskFile) : Decidable (env.LeavesBuffer c file) :=
  inferInstanceAs (Decidable (∀ v ∈ c.documents.keys, _))

instance (env : Env) (c : Compilation) (key : String) : Decidable (env.Removable c key) :=
  inferInstanceAs (Decidable (∀ v ∈ c.documents.keys, _))

instance (env : Env) (c : Compilation) (uri : Url) (diskText : Option String) :
    (plan : ClosePlan) → Decidable (env.FreshClose c uri diskText plan)
  | .unedited .. => inferInstanceAs (Decidable (_ ∧ _))
  | .dropLoose | .dropExcluded | .reindex .. => inferInstanceAs (Decidable True)

/-- The files that have a view. -/
def heldFiles (c : Compilation) : List String :=
  c.documents.keys ++ c.workspaceDocuments.keys ++ c.baseScriptsDocuments.keys ++
    c.workspaceIndex.documents.keys ++ c.looseIndex.documents.keys ++
    c.baseScriptsIndex.documents.keys

end Env

namespace Indexing

/-- The files whose scope the task has read. -/
def scopedFiles : IndexingTask → List String
  | .closing uri _ _ | .closingTo uri _ _ => [uri]
  | .syncing parsed => parsed.map Prod.fst
  | .synced files _ => files.map Prod.fst
  | _ => []

/-- What the task has read is still true of the files that it publishes. A manifest leaves every
file that the compilation or a task knows in the index that it was in. -/
def Fresh (env : Env) (s : Indexing) : IndexingTask → Prop
  | .opening uri (.publish _) => env.OnlySpelling s.compilation uri
  | .opening uri (.reuse existing) => env.OnlySpelling s.compilation uri ∧
      s.compilation.documents.lookup uri = none ∧
      ((s.compilation.workspaceDocuments.lookup (env.canonicalUri uri)).or
        (s.compilation.baseScriptsDocuments.lookup (env.canonicalUri uri))) = some existing
  | .closingTo uri diskText plan =>
    env.OnlySpelling s.compilation uri ∧ env.FreshClose s.compilation uri diskText plan
  | .scanned files | .synced files _ => ∀ file ∈ files, env.LeavesBuffer s.compilation file
  | .pruned stale => ∀ key ∈ stale, (s.current env).Removable s.compilation key
  | .watched updates removals _ =>
    (∀ file ∈ updates, env.LeavesBuffer s.compilation file ∧
      (s.current env).indexKindOf file.1 = .workspace) ∧
    ∀ key ∈ removals, (s.current env).Removable s.compilation key
  | .manifests events =>
    ∀ key ∈ Env.heldFiles s.compilation ++ s.inFlight.flatMap scopedFiles,
      (env.withLegacyDirs (events.foldl env.applyManifestEvent s.manifestLegacyDirs)).indexKindOf
        key = (s.current env).indexKindOf key
  | _ => True

instance (env : Env) (s : Indexing) : (task : IndexingTask) → Decidable (s.Fresh env task)
  | .opening _ .unchanged => inferInstanceAs (Decidable True)
  | .opening _ (.publish _) => inferInstanceAs (Decidable (Env.OnlySpelling _ _ _))
  | .opening _ (.reuse _) => inferInstanceAs (Decidable (_ ∧ _ ∧ _))
  | .closingTo .. => inferInstanceAs (Decidable (_ ∧ _))
  | .scanned files => inferInstanceAs (Decidable (∀ file ∈ files, _))
  | .synced files _ => inferInstanceAs (Decidable (∀ file ∈ files, _))
  | .pruned stale => inferInstanceAs (Decidable (∀ key ∈ stale, _))
  | .watched updates removals _ =>
    inferInstanceAs (Decidable ((∀ file ∈ updates, _ ∧ _) ∧ ∀ key ∈ removals, _))
  | .manifests _ =>
    inferInstanceAs (Decidable
      (∀ key ∈ Env.heldFiles s.compilation ++ s.inFlight.flatMap scopedFiles, _))
  | .closing .. | .syncing .. | .pruning .. | .watching .. => inferInstanceAs (Decidable True)

/-- The publication that the step makes, if any, is fresh. -/
def PublishesFresh (env : Env) (s : Indexing) : Event → Prop
  | .publishEdit uri _ => env.OnlySpelling s.compilation uri
  | .advance i => ∀ task ∈ s.inFlight[i]?, s.Fresh env task
  | _ => True

instance (env : Env) (s : Indexing) : (e : Event) → Decidable (s.PublishesFresh env e)
  | .publishEdit .. => inferInstanceAs (Decidable (Env.OnlySpelling _ _ _))
  | .advance i => inferInstanceAs (Decidable (∀ task ∈ s.inFlight[i]?, _))
  | .didOpen .. | .didClose .. | .scanWorkspace _ | .watchFiles _ =>
    inferInstanceAs (Decidable True)

/-- Each open document is in the index that its scope selects, with the contribution of its own
text, and under no other key or index. -/
structure BuffersIndexed (env : Env) (s : Indexing) : Prop where
  entry : ∀ uri document, s.compilation.documents.lookup uri = some document →
    ∃ parsed, env.parse document.source = some parsed ∧ ∀ kind,
      (s.compilation.index kind).entry (env.canonicalUri uri) =
        if kind = (s.current env).indexKindOf uri then
          some (env.contribution (env.canonicalUri uri) parsed)
        else none
  canonical : ∀ key, env.canonicalUri key ≠ key → ∀ kind,
    (s.compilation.index kind).entry key = none

end Indexing

/-! ### The files of a compilation -/

namespace Env

structure FilesOk (env : Env) (c : Compilation) : Prop where
  consistent : ∀ uri, env.OnlySpelling c uri →
    env.Consistent uri (env.excluded uri) (env.view c uri)
  unique : ∀ uri ∈ c.documents.keys, env.OnlySpelling c uri
  canonical : ∀ key, env.canonicalUri key ≠ key → ∀ kind, (c.index kind).entry key = none

variable {env : Env} {c c' : Compilation} {uri u : Url} {view : FileView}

lemma indexKindOf_canonicalUri (uri : Url) :
    env.indexKindOf (env.canonicalUri uri) = env.indexKindOf uri :=
  congrArg FileScope.indexKind (fileScopeOf_canonicalUri env uri)

lemma indexKindOf_congr (h : env.canonicalUri u = env.canonicalUri uri) :
    env.indexKindOf u = env.indexKindOf uri := by
  rw [← indexKindOf_canonicalUri u, h, indexKindOf_canonicalUri]

lemma excluded_congr (h : env.canonicalUri u = env.canonicalUri uri) :
    env.excluded u = env.excluded uri := by
  have hpath : env.urls.toFilePath u = env.urls.toFilePath uri := by
    rw [← env.urls.toFilePath_canonicalUri u, ← env.urls.toFilePath_canonicalUri uri]
    exact congrArg env.urls.toFilePath h
  unfold excluded isUriExcluded
  rw [hpath, h]

/-- A consistent view is one of the file, under every spelling. -/
lemma Consistent.respell {excluded : Bool} (h : env.Consistent u excluded view)
    (huri : env.canonicalUri u = env.canonicalUri uri) :
    env.Consistent uri excluded view := by
  have hplaced : env.placed u = env.placed uri := by
    funext contribution kind
    rw [placed, placed, indexKindOf_congr huri]
  have hkind := indexKindOf_congr huri
  exact {
    buffer := by rw [← hplaced, ← huri]; exact h.buffer
    workspaceCopy := by rw [← hkind]; exact h.workspaceCopy
    baseCopy := by rw [← hkind]; exact h.baseCopy
    misplaced := by rw [← hkind]; exact h.misplaced
    cached := by rw [← hplaced, ← huri]; exact h.cached }

lemma lookup_eq_none_of_notMem {docs : DocumentMap} {key : String} (h : key ∉ docs.keys) :
    docs.lookup key = none :=
  AList.lookup_eq_none.mpr fun hmem => h (AList.mem_keys.mp hmem)

lemma mem_keys_of_lookup {docs : DocumentMap} {key : String} {document : ParsedDocument}
    (h : docs.lookup key = some document) : key ∈ docs.keys :=
  AList.mem_keys.mp (AList.lookup_isSome.mp (by rw [h]; rfl))

/-- A publication about one file that no other spelling has open. -/
lemma FilesOk.publication (h : env.FilesOk c) (honly : env.OnlySpelling c u)
    (hother : ∀ v, env.canonicalUri u ≠ env.canonicalUri v → env.view c' v = env.view c v)
    (hdocs : ∀ v, v ≠ u → c'.documents.lookup v = c.documents.lookup v)
    (hview : env.Consistent u (env.excluded u) (env.view c u) →
      env.Consistent u (env.excluded u) (env.view c' u))
    (hcanonical : ∀ key, env.canonicalUri key ≠ key → ∀ kind,
      (c'.index kind).entry key = none ∨ (c'.index kind).entry key = (c.index kind).entry key) :
    env.FilesOk c' := by
  have hkeys : ∀ v, v ≠ u → (v ∈ c'.documents.keys ↔ v ∈ c.documents.keys) := by
    intro v hv
    rw [← AList.mem_keys, ← AList.mem_keys, ← AList.lookup_isSome, ← AList.lookup_isSome,
      hdocs v hv]
  have honly' : env.OnlySpelling c' u := by
    intro v hv hsame
    by_contra hne
    exact hne (honly v ((hkeys v hne).mp hv) hsame)
  constructor
  · intro uri huri
    by_cases hsame : env.canonicalUri u = env.canonicalUri uri
    · by_cases heq : uri = u
      · rw [heq]
        exact hview (h.consistent u honly)
      · -- Neither spelling is open, so both have the same view.
        have hclosed : c'.documents.lookup u = none :=
          lookup_eq_none_of_notMem fun hmem => heq (huri u hmem hsame).symm
        have hclosed' : c'.documents.lookup uri = none := by
          refine lookup_eq_none_of_notMem fun hmem => heq ?_
          exact honly' uri hmem hsame.symm
        have hviews : env.view c' uri = env.view c' u := by
          rw [Env.view, Env.view, hclosed, hclosed', hsame]
        rw [hviews, ← excluded_congr hsame]
        exact (hview (h.consistent u honly)).respell hsame
    · rw [hother uri hsame]
      refine h.consistent uri fun v hv hv' => huri v ((hkeys v fun hu => ?_).mpr hv) hv'
      rw [hu] at hv'
      exact hsame hv'
  · intro uri huri
    by_cases heq : uri = u
    · rw [heq]
      exact honly'
    · have hold := (hkeys uri heq).mp huri
      intro v hv hv'
      by_cases hu : v = u
      · rw [hu] at hv' ⊢
        exact (honly uri hold hv'.symm).symm
      · exact h.unique uri hold v ((hkeys v hu).mp hv) hv'
  · intro key hkey kind
    rcases hcanonical key hkey kind with hnone | hsame
    · exact hnone
    · rw [hsame]
      exact h.canonical key hkey kind

lemma FilesOk.publish (h : env.FilesOk c) (honly : env.OnlySpelling c u)
    {document : ParsedDocument} (hparsed : env.Parsed document) :
    env.FilesOk (env.publishOpenDocument c u document) := by
  refine h.publication honly (fun v hv => view_publishOpenDocument_of_ne document hv)
    (fun v hv => ?_) (fun hview => ?_) (fun key hkey kind => ?_)
  · rw [lookup_publishOpenDocument, if_neg hv]
  · rw [view_publishOpenDocument]
    exact hview.publish hparsed
  · have hroute := @entry_routeDocumentToIndex env c u (env.fileScopeOf u) document kind key
    rw [if_neg fun heq => hkey (by rw [heq, canonicalUri_canonicalUri])] at hroute
    have hindex : ((env.publishOpenDocument c u document).index kind).entry key =
        if key = u then none else (c.index kind).entry key := by
      rw [← hroute]
      cases kind <;> rfl
    rw [hindex]
    split_ifs with hu
    · exact .inl rfl
    · exact .inr rfl

lemma FilesOk.reuse (h : env.FilesOk c) (honly : env.OnlySpelling c u)
    {existing : ParsedDocument} (hincluded : env.excluded u = false)
    (hclosed : c.documents.lookup u = none)
    (hcached : (c.workspaceDocuments.lookup (env.canonicalUri u)).or
      (c.baseScriptsDocuments.lookup (env.canonicalUri u)) = some existing) :
    env.FilesOk (env.commitOpen c u (.reuse existing)) := by
  refine h.publication honly (fun v hv => view_commitOpen_of_ne _ hv)
    (fun v hv => AList.lookup_insert_ne hv) (fun hview => ?_) (fun key _ kind => .inr ?_)
  · rw [view_commitOpen]
    exact hview.reuse hincluded hclosed hcached
  · cases kind <;> rfl

lemma FilesOk.processPendingEdit (h : env.FilesOk c) (honly : env.OnlySpelling c u)
    (edit : PendingEdit) : env.FilesOk (env.processPendingEdit c u edit) := by
  rcases @processPendingEdit_eq env c u edit with
    ⟨-, hnone⟩ | ⟨document, hparsed, -, hsome⟩
  · rw [hnone]
    exact h
  · rw [hsome]
    exact h.publish honly hparsed

/-- The plan of a close has read the scope that the file has. -/
def CloseOk (env : Env) (uri : Url) (diskText : Option String) : ClosePlan → Prop
  | .dropLoose => env.indexKindOf uri = .loose
  | .dropExcluded => env.indexKindOf uri = .workspace ∧ env.excluded uri = true
  | .unedited isBase _ => env.indexKindOf uri = (if isBase then .base else .workspace) ∧
      env.excluded uri = false
  | .reindex isBase parsed => env.indexKindOf uri = (if isBase then .base else .workspace) ∧
      env.excluded uri = false ∧ parsed = (env.closedText uri diskText).bind env.parse

lemma isLoose_eq_false (h : env.indexKindOf uri ≠ .loose) :
    (env.fileScopeOf uri).isLoose = false :=
  Bool.eq_false_iff.mpr fun hloose => h (indexKindOf_eq_loose.mpr hloose)

lemma isBaseScriptUri_eq {isBase : Bool}
    (h : env.indexKindOf uri = if isBase then .base else .workspace) :
    env.isBaseScriptUri uri = isBase := by
  cases isBase with
  | true => exact indexKindOf_eq_base.mp h
  | false =>
    refine Bool.eq_false_iff.mpr fun hbase => ?_
    rw [indexKindOf_eq_base.mpr hbase] at h
    cases h

lemma Consistent.commitClose {diskText : Option String} {plan : ClosePlan}
    (h : env.Consistent uri (env.excluded uri) (env.view c uri))
    (hok : env.CloseOk uri diskText plan) (hfresh : env.FreshClose c uri diskText plan) :
    env.Consistent uri (env.excluded uri) (env.viewClosed uri (env.view c uri) plan) := by
  cases plan with
  | dropLoose =>
    have hkind : env.indexKindOf uri = .loose := hok
    refine h.closeDropped hkind fun _ => ?_
    rw [h.workspaceCopy_eq_none (by rw [hkind]; decide),
      h.baseCopy_eq_none (by rw [hkind]; decide), Option.none_or]
  | dropExcluded =>
    obtain ⟨hkind, hexcluded⟩ := hok
    refine h.closeDropped hkind fun hincluded => ?_
    rw [hexcluded] at hincluded
    cases hincluded
  | unedited isBase refresh =>
    obtain ⟨hkind, hincluded⟩ := hok
    obtain ⟨htext, hrefresh⟩ := hfresh
    have hbase := isBaseScriptUri_eq hkind
    have hloose := @isLoose_eq_false env uri (by rw [hkind]; cases isBase <;> decide)
    cases hopen : c.documents.lookup uri with
    | none =>
      rw [hopen] at hrefresh
      have hsame : env.viewClosed uri (env.view c uri) (.unedited isBase refresh) =
          env.view c uri := by
        rw [hrefresh, viewClosed, view, hopen]
        cases isBase <;> simp [staleCopy]
      rw [hsame]
      exact h
    | some openDoc =>
      have hdisk : env.closedText uri diskText = some openDoc.source := by
        rw [← htext, Compilation.openText, hopen]
        rfl
      refine (h.closeUnedited hloose hincluded hopen hdisk ?_).1
      rw [hrefresh, hopen, hbase]
      rfl
  | reindex isBase parsed =>
    obtain ⟨hkind, hincluded, hparsed⟩ := hok
    have hloose := @isLoose_eq_false env uri (by rw [hkind]; cases isBase <;> decide)
    have hplan : ClosePlan.reindex isBase parsed = .reindex (env.isBaseScriptUri uri)
        ((env.closedText uri diskText).bind env.parse) := by
      rw [hparsed, isBaseScriptUri_eq hkind]
    exact (h.closeReindex hloose hincluded hplan).1

lemma FilesOk.close (h : env.FilesOk c) (honly : env.OnlySpelling c u)
    {diskText : Option String} {plan : ClosePlan} (hok : env.CloseOk u diskText plan)
    (hfresh : env.FreshClose c u diskText plan) : env.FilesOk (env.commitClose c u plan) := by
  refine h.publication honly (fun v hv => view_commitClose_of_ne plan hv) (fun v hv => ?_)
    (fun hview => ?_) (fun key hkey kind => ?_)
  · have hkept : (c.documents.erase u).lookup v = c.documents.lookup v := AList.lookup_erase_ne hv
    rw [← hkept]
    cases plan with
    | dropLoose | dropExcluded => rfl
    | unedited isBase refresh => cases refresh <;> cases isBase <;> rfl
    | reindex isBase parsed => cases isBase <;> rfl
  · rw [view_commitClose]
    exact hview.commitClose hok hfresh
  · have hne : key ≠ env.canonicalUri u := fun heq =>
      hkey (by rw [heq, canonicalUri_canonicalUri])
    have hdropped : ∀ index : WorkspaceIndex,
        (env.removeDocumentAllSpellings index u).2.entry key = none ∨
          (env.removeDocumentAllSpellings index u).2.entry key = index.entry key := by
      intro index
      rw [entry_removeDocumentAllSpellings, if_neg hne]
      split_ifs
      · exact .inl rfl
      · exact .inr rfl
    have hreindexed : ∀ (index : WorkspaceIndex) (docs : DocumentMap)
        (parsed : Option ParsedDocument),
        (env.reindexInto index docs u (env.canonicalUri u) parsed).2.1.entry key = none ∨
          (env.reindexInto index docs u (env.canonicalUri u) parsed).2.1.entry key =
            index.entry key := by
      intro index docs parsed
      rw [entry_reindexInto, if_neg hne]
      split_ifs
      · exact .inl rfl
      · exact .inr rfl
    cases plan with
    | dropLoose =>
      cases kind with
      | loose => exact hdropped _
      | workspace | base => exact .inr rfl
    | dropExcluded =>
      cases kind with
      | workspace => exact hdropped _
      | loose | base => exact .inr rfl
    | unedited isBase refresh =>
      cases refresh <;> cases isBase <;> cases kind <;> exact .inr rfl
    | reindex isBase parsed =>
      cases isBase with
      | true =>
        cases kind with
        | base => exact hreindexed _ _ _
        | workspace | loose => exact .inr rfl
      | false =>
        cases kind with
        | workspace => exact hreindexed _ _ _
        | base | loose => exact .inr rfl

/-- A file of the disk, under its canonical URI and parsed. -/
def DiskOk (env : Env) (file : DiskFile) : Prop :=
  env.canonicalUri file.1 = file.1 ∧ env.Parsed file.2

/-- Disk content goes over a closed file, or over an equal buffer. -/
lemma FilesOk.sync (h : env.FilesOk c) {files : List DiskFile}
    (hdocs : c'.documents = c.documents)
    (hview : ∀ uri, env.view c' uri =
      env.viewIndexed uri (env.view c uri) (latest files (env.canonicalUri uri)))
    (hentry : ∀ key, latest files key = none → ∀ kind,
      (c'.index kind).entry key = (c.index kind).entry key)
    (hfiles : ∀ file ∈ files, env.DiskOk file ∧ env.indexKindOf file.1 = .workspace)
    (hleaves : ∀ file ∈ files, env.LeavesBuffer c file) : env.FilesOk c' := by
  have honly : ∀ uri, env.OnlySpelling c' uri ↔ env.OnlySpelling c uri := by
    intro uri
    rw [OnlySpelling, OnlySpelling, hdocs]
  constructor
  · intro uri huri
    have hold := h.consistent uri ((honly uri).mp huri)
    rw [hview]
    cases hdisk : latest files (env.canonicalUri uri) with
    | none =>
      have hsame : env.viewIndexed uri (env.view c uri) none = env.view c uri := by
        rw [viewIndexed]
        congr 1
        funext kind
        split_ifs <;> rfl
      rw [hsame]
      exact hold
    | some document =>
      have hmem := mem_of_latest hdisk
      obtain ⟨⟨-, hparsed⟩, hkind⟩ := hfiles _ hmem
      refine hold.index hparsed ((indexKindOf_canonicalUri uri).symm.trans hkind) ?_
      intro openDoc hopen
      have htext := hleaves _ hmem uri (mem_keys_of_lookup hopen) rfl
      have hopen' : c.documents.lookup uri = some openDoc := hopen
      rw [Compilation.openText, hopen'] at htext
      exact Option.some.inj htext
  · intro uri huri
    rw [hdocs] at huri
    exact (honly uri).mpr (h.unique uri huri)
  · intro key hkey kind
    rw [hentry key ?_ kind, h.canonical key hkey kind]
    cases hdisk : latest files key with
    | none => rfl
    | some document => exact absurd (hfiles _ (mem_of_latest hdisk)).1.1 hkey

lemma FilesOk.prune (h : env.FilesOk c) {stale : List String}
    (hremovable : ∀ key ∈ stale, env.Removable c key) : env.FilesOk (commitPrune c stale) := by
  constructor
  · intro uri huri
    have hold := h.consistent uri huri
    rw [view_commitPrune]
    split_ifs with hmem
    · refine hold.remove ?_
      cases hopen : c.documents.lookup uri with
      | none => exact .inl hopen
      | some openDoc => exact .inr (hremovable _ hmem uri (mem_keys_of_lookup hopen) rfl)
    · exact hold
  · exact h.unique
  · intro key hkey kind
    have hold := h.canonical key hkey kind
    cases kind with
    | workspace =>
      refine (entry_removeAll _ _ _).trans ?_
      split_ifs
      · rfl
      · exact hold
    | loose | base => exact hold

lemma FilesOk.commitSync (h : env.FilesOk c) {files : List DiskFile}
    (hfiles : ∀ file ∈ files, env.DiskOk file ∧ env.indexKindOf file.1 = .workspace)
    (hleaves : ∀ file ∈ files, env.LeavesBuffer c file) : env.FilesOk (env.commitSync c files) := by
  refine h.sync rfl (fun _ => view_commitSync files) (fun key hnone kind => ?_) hfiles hleaves
  cases kind with
  | workspace =>
    refine (WorkspaceIndex.entry_endBulk _ _).trans ((entry_updateAll _ _ _).trans ?_)
    rw [hnone]
    exact WorkspaceIndex.entry_beginBulk _ _
  | loose | base => rfl

lemma FilesOk.commitWatched (h : env.FilesOk c) {updates : List DiskFile} {removals : List String}
    (hupdates : ∀ file ∈ updates, env.DiskOk file ∧ env.indexKindOf file.1 = .workspace)
    (hleaves : ∀ file ∈ updates, env.LeavesBuffer c file)
    (hremovable : ∀ key ∈ removals, env.Removable c key) :
    env.FilesOk (env.commitWatched c updates removals) := by
  rw [commitWatched_eq]
  have hupdated : env.FilesOk (env.commitWatched c updates []) := by
    refine h.sync rfl (fun _ => view_commitUpdates updates) (fun key hnone kind => ?_) hupdates
      hleaves
    cases kind with
    | workspace =>
      refine (entry_updateAll _ _ _).trans ?_
      rw [hnone]
      rfl
    | loose | base => rfl
  exact hupdated.prune hremovable

lemma mem_keys_of_entry {index : WorkspaceIndex} {key : String} {contribution : DocContribution}
    (h : index.entry key = some contribution) : key ∈ index.documents.keys := by
  obtain ⟨symbols, hsymbols, -⟩ := Option.bind_eq_some_iff.mp h
  exact AList.mem_keys.mp (AList.lookup_isSome.mp (by rw [hsymbols]; rfl))

/-- A file that is not held has nothing in its view. -/
lemma view_eq_none (h : env.canonicalUri uri ∉ heldFiles c) (huri : uri ∉ heldFiles c) :
    env.view c uri = ⟨none, none, none, fun _ => none⟩ := by
  simp only [heldFiles, List.mem_append, not_or] at h huri
  obtain ⟨⟨⟨⟨⟨-, hworkspace⟩, hbase⟩, hws⟩, hloose⟩, hbs⟩ := h
  rw [view, lookup_eq_none_of_notMem huri.1.1.1.1.1, lookup_eq_none_of_notMem hworkspace,
    lookup_eq_none_of_notMem hbase]
  congr 1
  funext kind
  cases hentry : (c.index kind).entry (env.canonicalUri uri) with
  | none => rfl
  | some contribution =>
    have hmem := mem_keys_of_entry hentry
    cases kind with
    | workspace => exact absurd hmem hws
    | loose => exact absurd hmem hloose
    | base => exact absurd hmem hbs

lemma consistent_none (excluded : Bool) :
    env.Consistent uri excluded ⟨none, none, none, fun _ => none⟩ where
  buffer := nofun
  workspaceCopy := nofun
  baseCopy := nofun
  misplaced _ _ := rfl
  cached _ _ := nofun

variable {dirs dirs' : AList (fun _ : String => FilePath)}

lemma Consistent.withLegacyDirs {excluded : Bool}
    (h : (env.withLegacyDirs dirs).Consistent uri excluded view)
    (hkind : (env.withLegacyDirs dirs').indexKindOf uri =
      (env.withLegacyDirs dirs).indexKindOf uri) :
    (env.withLegacyDirs dirs').Consistent uri excluded view := by
  have hplaced : (env.withLegacyDirs dirs').placed uri = (env.withLegacyDirs dirs).placed uri := by
    funext contribution kind
    rw [placed, placed, hkind]
  exact {
    buffer := by rw [hplaced]; exact h.buffer
    workspaceCopy := by rw [hkind]; exact h.workspaceCopy
    baseCopy := by rw [hkind]; exact h.baseCopy
    misplaced := by rw [hkind]; exact h.misplaced
    cached := by rw [hplaced]; exact h.cached }

/-- Manifests that leave the held files where they are leave them consistent. -/
lemma FilesOk.withLegacyDirs (h : (env.withLegacyDirs dirs).FilesOk c)
    (hkinds : ∀ key ∈ heldFiles c, (env.withLegacyDirs dirs').indexKindOf key =
      (env.withLegacyDirs dirs).indexKindOf key) : (env.withLegacyDirs dirs').FilesOk c := by
  refine ⟨fun uri huri => ?_, h.unique, h.canonical⟩
  have hold := h.consistent uri huri
  by_cases hcanonical : env.canonicalUri uri ∈ heldFiles c
  · refine hold.withLegacyDirs ?_
    rw [← indexKindOf_canonicalUri uri, ← @indexKindOf_canonicalUri (env.withLegacyDirs dirs) uri]
    exact hkinds _ hcanonical
  · by_cases huri : uri ∈ heldFiles c
    · exact hold.withLegacyDirs (hkinds _ huri)
    · have hview : (env.withLegacyDirs dirs').view c uri = ⟨none, none, none, fun _ => none⟩ :=
        view_eq_none hcanonical huri
      rw [hview]
      exact consistent_none _

/-- A file under a workspace root is in the project whatever the legacy directories are. -/
lemma indexKindOf_of_underRoots {path : FilePath} (hpath : env.urls.toFilePath uri = some path)
    (hroots : underAny env.config.workspaceRoots path = true) :
    env.indexKindOf uri = .workspace := by
  have hscope : env.fileScopeOf uri = .inProject := by
    simp [fileScopeOf, classifyFileScope, hpath, hroots]
  rw [indexKindOf, hscope]
  rfl

lemma indexKindOf_of_underLegacyDirs {path : FilePath}
    (hpath : env.urls.toFilePath uri = some path)
    (hlegacy : underAny env.config.legacyScriptDirs path = true) :
    env.indexKindOf uri = .workspace := by
  unfold indexKindOf fileScopeOf classifyFileScope
  rw [hpath]
  dsimp only
  rw [if_pos hlegacy]
  split_ifs <;> rfl

end Env

namespace Indexing

/-! ### The invariant -/

/-- What a task has read does not depend on the compilation. -/
def TaskOk (env : Env) : IndexingTask → Prop
  | .opening uri (.reuse _) => env.excluded uri = false
  | .opening _ (.publish document) => env.Parsed document
  | .closing uri _ diskText => env.indexKindOf uri ≠ .loose ∧ env.excluded uri = false ∧
      env.closedText uri diskText = diskText
  | .closingTo uri diskText plan => env.CloseOk uri diskText plan
  | .scanned files => ∀ file ∈ files, env.DiskOk file ∧ ∃ path,
      env.urls.toFilePath file.1 = some path ∧ underAny env.config.workspaceRoots path = true
  | .syncing files | .synced files _ =>
    ∀ file ∈ files, env.DiskOk file ∧ env.indexKindOf file.1 = .workspace
  | .watched updates _ _ => ∀ file ∈ updates, env.DiskOk file
  | _ => True

/-- No known file is excluded. -/
def KnownOk (env : Env) (knownFiles : List String) : Prop :=
  ∀ key ∈ knownFiles, ∃ path, env.urls.toFilePath key = some path ∧
    env.excludeMatches path = false

structure IndexingInv (env : Env) (s : Indexing) : Prop where
  files : (s.current env).FilesOk s.compilation
  known : KnownOk env s.knownFiles
  tasks : ∀ task ∈ s.inFlight, TaskOk (s.current env) task

variable {env : Env} {s s' : Indexing} {knownFiles : List String}

/-- Known files decide nothing about an excluded one. -/
lemma isUriExcluded_eq (h : KnownOk env knownFiles) (uri : Url) :
    (env.isUriExcluded knownFiles uri).1 = env.excluded uri := by
  rw [Env.excluded, Bool.eq_iff_iff, Env.isUriExcluded_eq_true, Env.isUriExcluded_eq_true]
  constructor
  · rintro ⟨path, hpath, hunder, -, hmatches⟩
    exact ⟨path, hpath, hunder, List.not_mem_nil, hmatches⟩
  · rintro ⟨path, hpath, hunder, -, hmatches⟩
    refine ⟨path, hpath, hunder, fun hmem => ?_, hmatches⟩
    obtain ⟨path', hpath', hno⟩ := h _ hmem
    rw [Env.canonicalUri, env.urls.toFilePath_canonicalUri, hpath] at hpath'
    cases hpath'
    rw [hmatches] at hno
    cases hno

lemma KnownOk.isUriExcluded (h : KnownOk env knownFiles) (uri : Url) :
    KnownOk env (env.isUriExcluded knownFiles uri).2 := by
  rcases @Env.isUriExcluded_knownFiles env knownFiles uri with
    hsame | ⟨path, hpath, hno, hcons⟩
  · rw [hsame]
    exact h
  · rw [hcons]
    intro key hkey
    rcases List.mem_cons.mp hkey with rfl | hold
    · exact ⟨path, (env.urls.toFilePath_canonicalUri uri).trans hpath, hno⟩
    · exact h key hold

lemma IndexingInv.withKnownFiles (h : IndexingInv env s) (hknown : KnownOk env knownFiles) :
    IndexingInv env { s with knownFiles := knownFiles } :=
  ⟨h.files, hknown, h.tasks⟩

lemma IndexingInv.start (h : IndexingInv env s) {task : IndexingTask}
    (htask : TaskOk (s.current env) task) : IndexingInv env (s.start task) where
  files := h.files
  known := h.known
  tasks task' hmem := by
    rcases List.mem_append.mp hmem with hold | hnew
    · exact h.tasks task' hold
    · rw [List.mem_singleton.mp hnew]
      exact htask

lemma IndexingInv.didOpen (h : IndexingInv env s) (uri : Url) (text : String) :
    IndexingInv env (s.didOpen env uri text) := by
  unfold Indexing.didOpen
  split_ifs with hbuiltin
  · exact h
  · dsimp only
    have hinv := h.withKnownFiles (h.known.isUriExcluded uri)
    split_ifs with hexcluded
    · exact hinv
    · rw [isUriExcluded_eq h.known] at hexcluded
      refine hinv.start ?_
      rcases @Env.planOpen_cases env s.compilation uri text with
        hplan | ⟨existing, hplan, -, -⟩ | ⟨document, hplan, hparsed⟩
      · rw [hplan]
        trivial
      · rw [hplan]
        exact Bool.eq_false_iff.mpr hexcluded
      · rw [hplan]
        exact hparsed

lemma closedText_closedText (uri : Url) (diskText : Option String) :
    env.closedText uri (env.closedText uri diskText) = env.closedText uri diskText := by
  unfold Env.closedText
  split_ifs <;> rfl

lemma IndexingInv.didClose (h : IndexingInv env s) (uri : Url) (diskText : Option String) :
    IndexingInv env (s.didClose env uri diskText) := by
  unfold Indexing.didClose
  split_ifs with hbuiltin hloose
  · exact h
  · exact h.start (Env.indexKindOf_eq_loose.mpr hloose)
  · have hinv := h.withKnownFiles (h.known.isUriExcluded uri)
    have hkind : (s.current env).indexKindOf uri ≠ .loose := fun hkind =>
      hloose (Env.indexKindOf_eq_loose.mp hkind)
    dsimp only
    split_ifs with hexcluded
    · have hworkspace : (s.current env).indexKindOf uri = .workspace :=
        @Env.indexKindOf_of_excluded (s.current env) uri s.knownFiles hexcluded
      rw [isUriExcluded_eq h.known] at hexcluded
      refine hinv.start ?_
      exact ⟨hworkspace, hexcluded⟩
    · rw [isUriExcluded_eq h.known] at hexcluded
      refine hinv.start ?_
      exact ⟨hkind, Bool.eq_false_iff.mpr hexcluded, closedText_closedText uri diskText⟩

/-- A parsed file of the disk lies under the URI of one of the paths read. -/
lemma mem_parseScriptFiles {files : List (FilePath × Option String)} {file : DiskFile}
    (h : file ∈ env.parseScriptFiles files) :
    env.DiskOk file ∧ ∃ path ∈ files, env.urls.toFilePath file.1 = some path.1 := by
  obtain ⟨path, hmem, hparsed⟩ := List.mem_filterMap.mp h
  simp only [Option.bind_eq_bind, Option.bind_eq_some_iff, Option.some.injEq] at hparsed
  obtain ⟨source, -, document, hparse, url, hurl, rfl⟩ := hparsed
  have hpath := env.urls.toFilePath_fromFilePath path.1 url hurl
  refine ⟨⟨?_, Env.parsed_of_parse hparse⟩, path, hmem, hpath⟩
  simp [Env.canonicalUri, FileUrls.canonicalUri, hpath, hurl]

lemma mem_of_mem_skipOpen {openCanonical : List String} {parsed : List DiskFile} {file : DiskFile}
    (h : file ∈ Env.skipOpen openCanonical parsed) : file ∈ parsed :=
  (List.mem_filter.mp h).1

/-- The files that a batch updates are not excluded. -/
def BatchOk (env : Env) (batch : WatchedBatch) : Prop :=
  ∀ file ∈ batch.updates, env.DiskOk file ∧ ∃ path,
    env.urls.toFilePath file.1 = some path ∧ env.excludeMatches path = false

lemma upsert_of_classifyWatchedEvent {event : FileEvent} {openCanonical : List String}
    {canonical : String} {diskText : Option String}
    (h : env.classifyWatchedEvent event openCanonical = some (.upsert canonical diskText)) :
    canonical = env.canonicalUri event.uri ∧ ∃ path,
      env.urls.toFilePath event.uri = some path ∧ env.excludeMatches path = false := by
  unfold Env.classifyWatchedEvent at h
  cases hpath : env.urls.toFilePath event.uri with
  | none => simp [hpath] at h
  | some path =>
    simp only [hpath] at h
    split_ifs at h with hscript hdeleted hopen hmatches
    · cases h
    · cases htyp : event.typ <;> simp [htyp] at h
    · cases htyp : event.typ with
      | deleted => simp [htyp] at h
      | created | changed =>
        rw [htyp] at h
        cases h
        exact ⟨rfl, path, rfl, Bool.eq_false_iff.mpr hmatches⟩

lemma BatchOk.readWatchedEvent {batch : WatchedBatch} (h : BatchOk env batch)
    (openCanonical : List String) (event : FileEvent) :
    BatchOk env (env.readWatchedEvent openCanonical batch event) := by
  unfold Env.readWatchedEvent
  split
  · exact h
  · rename_i canonical diskText hclassify
    cases hparse : diskText.bind env.parse with
    | none => exact h
    | some document =>
      intro file hfile
      rcases List.mem_append.mp hfile with hold | hnew
      · exact h file hold
      · rw [List.mem_singleton.mp hnew]
        obtain ⟨text, -, hparse⟩ := Option.bind_eq_some_iff.mp hparse
        obtain ⟨rfl, path, hpath, hno⟩ := upsert_of_classifyWatchedEvent hclassify
        exact ⟨⟨Env.canonicalUri_canonicalUri env event.uri, Env.parsed_of_parse hparse⟩, path,
          (env.urls.toFilePath_canonicalUri event.uri).trans hpath, hno⟩
  · exact h
  · exact h

lemma batchOk_foldl (openCanonical : List String) (events : List FileEvent)
    {batch : WatchedBatch} (h : BatchOk env batch) :
    BatchOk env (events.foldl (env.readWatchedEvent openCanonical) batch) := by
  induction events generalizing batch with
  | nil => exact h
  | cons event events ih => exact ih (h.readWatchedEvent openCanonical event)

/-- An edit of the compilation that keeps the files keeps the invariant. -/
lemma IndexingInv.withCompilation (h : IndexingInv env s) {c : Compilation}
    (hfiles : (s.current env).FilesOk c) : IndexingInv env { s with compilation := c } :=
  ⟨hfiles, h.known, h.tasks⟩

lemma TaskOk.withLegacyDirs {dirs dirs' : AList (fun _ : String => FilePath)}
    {task : IndexingTask} (h : TaskOk (env.withLegacyDirs dirs) task)
    (hkinds : ∀ key ∈ scopedFiles task, (env.withLegacyDirs dirs').indexKindOf key =
      (env.withLegacyDirs dirs).indexKindOf key) : TaskOk (env.withLegacyDirs dirs') task := by
  cases task with
  | opening uri plan => cases plan <;> exact h
  | closing uri priorSource diskText =>
    have hkind := hkinds uri (List.mem_singleton.mpr rfl)
    exact ⟨by rw [hkind]; exact h.1, h.2⟩
  | closingTo uri diskText plan =>
    have hkind := hkinds uri (List.mem_singleton.mpr rfl)
    cases plan with
    | dropLoose => exact hkind.trans h
    | dropExcluded => exact ⟨hkind.trans h.1, h.2⟩
    | unedited isBase refresh => exact ⟨hkind.trans h.1, h.2⟩
    | reindex isBase parsed => exact ⟨hkind.trans h.1, h.2⟩
  | syncing parsed =>
    exact fun file hfile => ⟨(h file hfile).1,
      (hkinds _ (List.mem_map_of_mem hfile)).trans (h file hfile).2⟩
  | synced files current =>
    exact fun file hfile => ⟨(h file hfile).1,
      (hkinds _ (List.mem_map_of_mem hfile)).trans (h file hfile).2⟩
  | scanned | pruning | pruned | watching | watched | manifests => exact h

/-- The plan of a close from what it has read. -/
lemma closeOk_planClosed {uri : Url} {diskText : Option String} {c : Compilation}
    (priorSource : Option String) (hkind : env.indexKindOf uri ≠ .loose)
    (hincluded : env.excluded uri = false) (hdisk : env.closedText uri diskText = diskText) :
    env.CloseOk uri diskText (env.planClosed c uri priorSource diskText) := by
  have hscope : env.indexKindOf uri = if env.isBaseScriptUri uri then .base else .workspace := by
    split_ifs with hbase
    · exact Env.indexKindOf_eq_base.mpr hbase
    · cases hk : env.indexKindOf uri with
      | workspace => rfl
      | loose => exact absurd hk hkind
      | base => exact absurd (Env.indexKindOf_eq_base.mp hk) hbase
  unfold Env.planClosed
  by_cases hunedited : (priorSource.isSome && priorSource == diskText) = true
  · rw [if_pos hunedited]
    exact ⟨hscope, hincluded⟩
  · rw [if_neg hunedited]
    exact ⟨hscope, hincluded, by rw [hdisk]⟩

/-- A fresh access of a task keeps the invariant, and what is left of the task is right. -/
theorem IndexingInv.resume (h : IndexingInv env s) {task : IndexingTask}
    (hmem : task ∈ s.inFlight) (hfresh : s.Fresh env task) :
    IndexingInv env (s.resume env task).1 ∧ ∀ next ∈ (s.resume env task).2,
      TaskOk ((s.resume env task).1.current env) next := by
  have htask := h.tasks task hmem
  cases task with
  | opening uri plan =>
    refine ⟨h.withCompilation ?_, nofun⟩
    cases plan with
    | unchanged => exact h.files
    | reuse existing => exact h.files.reuse hfresh.1 htask hfresh.2.1 hfresh.2.2
    | publish document => exact h.files.publish hfresh htask
  | closing uri priorSource diskText =>
    refine ⟨h, fun next hnext => ?_⟩
    cases hnext
    exact closeOk_planClosed priorSource htask.1 htask.2.1 htask.2.2
  | closingTo uri diskText plan =>
    refine ⟨h.withCompilation (h.files.close hfresh.1 htask ?_), nofun⟩
    cases plan <;> exact hfresh.2
  | scanned files =>
    refine ⟨h.withCompilation ?_, nofun⟩
    have hfiles : ∀ file ∈ files, (s.current env).DiskOk file ∧
        (s.current env).indexKindOf file.1 = .workspace := by
      intro file hfile
      obtain ⟨hok, path, hpath, hroots⟩ := htask file hfile
      exact ⟨hok, Env.indexKindOf_of_underRoots hpath hroots⟩
    rw [Env.commitScan_eq_commitSync]
    exact h.files.commitSync hfiles hfresh
  | syncing parsed =>
    refine ⟨h, fun next hnext => ?_⟩
    cases hnext
    exact fun file hfile => htask file (mem_of_mem_skipOpen hfile)
  | synced files current =>
    refine ⟨h.withCompilation (h.files.commitSync htask hfresh), fun next hnext => ?_⟩
    cases hnext
    trivial
  | pruning current =>
    refine ⟨h, fun next hnext => ?_⟩
    cases hnext
    trivial
  | pruned stale => exact ⟨h.withCompilation (h.files.prune hfresh), nofun⟩
  | watching openCanonical events =>
    have hbatch : BatchOk env ((events.partition env.eventIsManifest).2.foldl
        (env.readWatchedEvent openCanonical) {}) :=
      batchOk_foldl openCanonical _ nofun
    refine ⟨h.withKnownFiles ?_, fun next hnext => ?_⟩
    · intro key hkey
      rcases List.mem_append.mp (List.mem_filter.mp hkey).1 with hnew | hold
      · obtain ⟨file, hfile, rfl⟩ := List.mem_map.mp hnew
        exact (hbatch file hfile).2
      · exact h.known key hold
    · cases hnext
      exact fun file hfile => (hbatch file hfile).1
  | watched updates removals manifests =>
    refine ⟨h.withCompilation ?_, fun next hnext => ?_⟩
    · exact h.files.commitWatched (fun file hfile => ⟨htask file hfile, (hfresh.1 file hfile).2⟩)
        (fun file hfile => (hfresh.1 file hfile).1) hfresh.2
    · cases hnext
      trivial
  | manifests events =>
    refine ⟨⟨?_, h.known, fun task' hmem' => ?_⟩, nofun⟩
    · exact h.files.withLegacyDirs fun key hkey => hfresh key (List.mem_append_left _ hkey)
    · refine (h.tasks task' hmem').withLegacyDirs fun key hkey => hfresh key ?_
      exact List.mem_append_right _ (List.mem_flatMap.mpr ⟨task', hmem', hkey⟩)

/-- Every step whose publication is fresh keeps the invariant. -/
theorem IndexingInv.step (h : IndexingInv env s) {e : Event} (hfresh : s.PublishesFresh env e)
    (hstep : s.step env e = some s') : IndexingInv env s' := by
  cases e with
  | didOpen uri text =>
    cases hstep
    exact h.didOpen uri text
  | publishEdit uri edit =>
    cases hstep
    exact h.withCompilation (h.files.processPendingEdit hfresh edit)
  | didClose uri diskText =>
    cases hstep
    exact h.didClose uri diskText
  | scanWorkspace files =>
    simp only [Indexing.step] at hstep
    split_ifs at hstep with hroots hfiles
    · cases hstep
      exact h.withKnownFiles nofun
    · cases hstep
      have hfiles' : ∀ file ∈ files, underAny env.config.workspaceRoots file.1 = true ∧
          env.excludeMatches file.1 = false := by
        intro file hfile
        have := List.all_eq_true.mp hfiles file hfile
        simp only [Bool.and_eq_true, Bool.not_eq_true'] at this
        exact ⟨this.1.1, this.2⟩
      refine (h.withKnownFiles ?_).start ?_
      · intro key hkey
        obtain ⟨path, hpath, hurl⟩ := List.mem_filterMap.mp hkey
        obtain ⟨file, hfile, rfl⟩ := List.mem_map.mp hpath
        exact ⟨_, env.urls.toFilePath_fromFilePath _ _ hurl, (hfiles' file hfile).2⟩
      · intro file hfile
        obtain ⟨hok, path, hpath, hfrom⟩ := mem_parseScriptFiles (mem_of_mem_skipOpen hfile)
        exact ⟨hok, path.1, hfrom, (hfiles' path hpath).1⟩
  | watchFiles events =>
    cases hstep
    exact h.start trivial
  | advance i =>
    simp only [Indexing.step] at hstep
    cases htask : s.inFlight[i]? with
    | none => simp [htask] at hstep
    | some task =>
      simp only [htask, Option.some.injEq] at hstep
      obtain ⟨hinv, hnext⟩ := h.resume (List.mem_of_getElem? htask) (hfresh task htask)
      subst hstep
      refine ⟨hinv.files, hinv.known, fun task' hmem => ?_⟩
      rcases List.mem_append.mp hmem with hold | hnew
      · exact hinv.tasks task' (List.mem_of_mem_eraseIdx hold)
      · exact hnext task' (Option.mem_toList.mp hnew)

/-- The invariant says where the buffers are indexed. -/
lemma IndexingInv.buffersIndexed (h : IndexingInv env s) : BuffersIndexed env s where
  entry uri document hdocument := by
    have hconsistent := h.files.consistent uri
      (h.files.unique uri (Env.mem_keys_of_lookup hdocument))
    obtain ⟨⟨parsed, hparse, hsame⟩, hentry⟩ := hconsistent.buffer document hdocument
    refine ⟨parsed, hparse, fun kind => ?_⟩
    have hkind := congrFun hentry kind
    rw [← hsame] at hkind
    exact hkind
  canonical := h.files.canonical

lemma indexingInv_initial (manifestLegacyDirs : AList (fun _ : String => FilePath)) :
    IndexingInv env (initial manifestLegacyDirs) where
  files := {
    consistent := fun uri _ => by
      have hview : ((initial manifestLegacyDirs).current env).view
          (initial manifestLegacyDirs).compilation uri = ⟨none, none, none, fun _ => none⟩ :=
        Env.view_eq_none (by simp [Env.heldFiles, initial]) (by simp [Env.heldFiles, initial])
      rw [hview]
      exact Env.consistent_none _
    unique := nofun
    canonical := fun key _ kind => by cases kind <;> rfl }
  known := nofun
  tasks := nofun

end Indexing

end WitcherScriptLanguage
