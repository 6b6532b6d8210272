import WitcherScriptLanguage.Lsp.ConsistentView

/-!
# What the disk brings into the index

Workspace scans (`scan.rs`), watched-file batches (`watcher.rs`) and the legacy sync (`legacy.rs`)
put the text on disk into the workspace index. Here is what each of them reads, which files it
leaves to their open buffers, and how its edit of the compilation changes the view of a file.
-/

namespace WitcherScriptLanguage

/-- The extension of the last component is `ws`, in any case. -/
def isWitcherscriptFile (path : FilePath) : Bool :=
  match path.getLast? with
  | none => false
  | some name =>
    let reversed := name.toList.reverse
    (reversed.takeWhile (· ≠ '.')).map Char.toLower = ['s', 'w'] &&
      (reversed.dropWhile (· ≠ '.')).length > 1

def manifestFilename : String := "witcherscript.toml"

/-- A parsed file under the URI made from its path. -/
abbrev DiskFile := String × ParsedDocument

inductive FileChangeType
  | created | changed | deleted
  deriving DecidableEq, Repr

structure FileEvent where
  uri : Url
  typ : FileChangeType
  /-- The text of the file, if it can be read. -/
  diskText : Option String := none
  /-- The script directory that a manifest declares, if manifests are detected. -/
  projectRoot : Option FilePath := none

inductive WatchedEvent
  | upsert (canonical : String) (diskText : Option String)
  | remove (canonical : String)
  | removeTree (path : FilePath)

/-- What the events of one batch amount to. -/
structure WatchedBatch where
  updates : List DiskFile := []
  removals : List String := []
  treeDirs : List FilePath := []

namespace Env

variable (env : Env)

/-- `parse_script_files`, on the paths and the texts that reading them gives. -/
def parseScriptFiles (files : List (FilePath × Option String)) : List DiskFile :=
  files.filterMap fun file => do
    let source ← file.2
    let document ← env.parse source
    let uri ← env.urls.fromFilePath file.1
    some (uri, document)

def openCanonical (c : Compilation) : List String := c.documents.keys.map env.canonicalUri

/-- Files that the editor has open stay out. -/
def skipOpen (openCanonical : List String) (parsed : List DiskFile) : List DiskFile :=
  parsed.filter fun file => !openCanonical.contains file.1

def anyDirContainsUri (uri : Url) (dirs : List FilePath) : Bool :=
  match env.urls.toFilePath uri with
  | none => false
  | some path => underAny dirs path

def eventIsManifest (event : FileEvent) : Bool :=
  (env.urls.toFilePath event.uri).bind (·.getLast?) = some manifestFilename

def classifyWatchedEvent (event : FileEvent) (openCanonical : List String) :
    Option WatchedEvent :=
  match env.urls.toFilePath event.uri with
  | none => none
  | some path =>
    if !isWitcherscriptFile path then
      if event.typ = .deleted && !env.excludeMatches path then some (.removeTree path) else none
    else
      let canonical := env.canonicalUri event.uri
      if openCanonical.contains canonical then none
      else match event.typ with
        | .deleted => some (.remove canonical)
        | .created | .changed =>
          if env.excludeMatches path then none else some (.upsert canonical event.diskText)

def readWatchedEvent (openCanonical : List String) (batch : WatchedBatch) (event : FileEvent) :
    WatchedBatch :=
  match env.classifyWatchedEvent event openCanonical with
  | none => batch
  | some (.upsert canonical diskText) =>
    match diskText.bind env.parse with
    | none => batch
    | some document => { batch with updates := batch.updates ++ [(canonical, document)] }
  | some (.remove canonical) => { batch with removals := batch.removals ++ [canonical] }
  | some (.removeTree path) => { batch with treeDirs := batch.treeDirs ++ [path] }

def removalsForDeletedTrees (c : Compilation) (knownFiles : List String)
    (treeDirs : List FilePath) (openCanonical : List String) : List String :=
  let under (uri : String) : Bool :=
    env.anyDirContainsUri uri treeDirs && !openCanonical.contains uri
  (knownFiles.filter under ++ c.workspaceDocuments.keys.filter under).dedup

/-- The stale files of `prune_stale_legacy_workspace_files`. -/
def staleLegacyFiles (c : Compilation) (current : List String) : List String :=
  c.workspaceDocuments.keys.filter fun uri =>
    !(current.contains uri || (env.openCanonical c).contains uri) &&
      env.anyDirContainsUri uri env.config.legacyScriptDirs

def updateAll (index : WorkspaceIndex) (files : List DiskFile) : WorkspaceIndex :=
  files.foldl (fun index file => (index.updateDocument env.hasher file.1 file.2).2) index

def insertAll (docs : DocumentMap) (files : List DiskFile) : DocumentMap :=
  files.foldl (fun docs file => docs.insert file.1 file.2) docs

def removeAll (index : WorkspaceIndex) (uris : List String) : WorkspaceIndex :=
  uris.foldl (fun index uri => (index.removeDocument uri).2) index

def eraseAll (docs : DocumentMap) (uris : List String) : DocumentMap :=
  uris.foldl (fun docs uri => docs.erase uri) docs

/-- The publication of `index_workspace`, of contributions computed before. -/
def commitScan (c : Compilation) (filtered : List DiskFile) : Compilation :=
  let contributions := filtered.map fun file => (file.1, env.contribution file.1 file.2)
  let index := contributions.foldl (fun index contribution =>
    (index.applyContribution contribution.1 contribution.2).2)
    c.workspaceIndex.beginBulkCatalogUpdate
  { c with
    workspaceIndex := index.endBulkCatalogUpdate
    workspaceDocuments := insertAll c.workspaceDocuments filtered }

/-- The publication of `sync_legacy_workspace_from_parsed`. -/
def commitSync (c : Compilation) (filtered : List DiskFile) : Compilation :=
  { c with
    workspaceIndex :=
      (env.updateAll c.workspaceIndex.beginBulkCatalogUpdate filtered).endBulkCatalogUpdate
    workspaceDocuments := insertAll c.workspaceDocuments filtered }

/-- The publication of `apply_watched_file_events`. -/
def commitWatched (c : Compilation) (updates : List DiskFile) (removals : List String) :
    Compilation :=
  { c with
    workspaceIndex := removeAll (env.updateAll c.workspaceIndex updates) removals
    workspaceDocuments := eraseAll (insertAll c.workspaceDocuments updates) removals }

/-- The publication of `prune_stale_legacy_workspace_files`. -/
def commitPrune (c : Compilation) (stale : List String) : Compilation :=
  { c with
    workspaceIndex := removeAll c.workspaceIndex stale
    workspaceDocuments := eraseAll c.workspaceDocuments stale }

/-- The document that a list of files leaves under a key: the last one. -/
def latest : List DiskFile → String → Option ParsedDocument
  | [], _ => none
  | file :: files, key => (latest files key).or (if file.1 = key then some file.2 else none)

variable {env} {c : Compilation} {uri : Url} {excluded : Bool} {view : FileView}

lemma mem_of_latest {files : List DiskFile} {key : String} {document : ParsedDocument}
    (h : latest files key = some document) : (key, document) ∈ files := by
  induction files with
  | nil => cases h
  | cons file files ih =>
    rcases Option.or_eq_some_iff.mp h with hlater | ⟨-, hfile⟩
    · exact List.mem_cons_of_mem _ (ih hlater)
    · split_ifs at hfile with hkey
      cases hfile
      rw [← hkey]
      exact List.mem_cons_self

lemma entry_updateAll (index : WorkspaceIndex) (files : List DiskFile) (key : String) :
    (env.updateAll index files).entry key =
      ((latest files key).map (env.contribution key)).or (index.entry key) := by
  induction files generalizing index with
  | nil => rfl
  | cons file files ih =>
    rw [updateAll, List.foldl_cons, ← updateAll, ih, WorkspaceIndex.entry_updateDocument, latest]
    by_cases hkey : file.1 = key
    · subst hkey
      cases latest files file.1 <;> simp [contribution]
    · cases latest files key <;> simp [hkey, Ne.symm hkey]

lemma lookup_insertAll (docs : DocumentMap) (files : List DiskFile) (key : String) :
    (insertAll docs files).lookup key = (latest files key).or (docs.lookup key) := by
  induction files generalizing docs with
  | nil => rfl
  | cons file files ih =>
    rw [insertAll, List.foldl_cons, ← insertAll, ih, latest]
    by_cases hkey : file.1 = key
    · subst hkey
      cases latest files file.1 <;> simp
    · cases latest files key <;> simp [hkey, AList.lookup_insert_ne (Ne.symm hkey)]

lemma entry_removeAll (index : WorkspaceIndex) (uris : List String) (key : String) :
    (removeAll index uris).entry key = if key ∈ uris then none else index.entry key := by
  induction uris generalizing index with
  | nil => rfl
  | cons uri uris ih =>
    rw [removeAll, List.foldl_cons, ← removeAll, ih, WorkspaceIndex.entry_removeDocument]
    by_cases hmem : key ∈ uris <;> by_cases hkey : key = uri <;> simp [hmem, hkey]

lemma lookup_eraseAll (docs : DocumentMap) (uris : List String) (key : String) :
    (eraseAll docs uris).lookup key = if key ∈ uris then none else docs.lookup key := by
  induction uris generalizing docs with
  | nil => rfl
  | cons uri uris ih =>
    rw [eraseAll, List.foldl_cons, ← eraseAll, ih]
    by_cases hkey : key = uri
    · subst hkey
      simp
    · by_cases hmem : key ∈ uris <;> simp [hmem, hkey, AList.lookup_erase_ne hkey]

/-- Contributions computed before the publication are those that it would compute. -/
lemma commitScan_eq_commitSync (filtered : List DiskFile) :
    env.commitScan c filtered = env.commitSync c filtered := by
  unfold commitScan
  dsimp only
  rw [List.foldl_map]
  rfl

variable (env) in
/-- The view of the file after disk content of it is put into the workspace index. -/
def viewIndexed (uri : Url) (view : FileView) (disk : Option ParsedDocument) : FileView :=
  { view with
    workspaceCopy := disk.or view.workspaceCopy
    entry := fun kind =>
      if kind = .workspace then
        (disk.map (env.contribution (env.canonicalUri uri))).or (view.entry kind)
      else view.entry kind }

/-- The view of the file after it is taken out of the workspace index. -/
def viewRemoved (view : FileView) : FileView :=
  { view with
    workspaceCopy := none
    entry := fun kind => if kind = .workspace then none else view.entry kind }

theorem view_commitSync (filtered : List DiskFile) :
    env.view (env.commitSync c filtered) uri =
      env.viewIndexed uri (env.view c uri) (latest filtered (env.canonicalUri uri)) := by
  rw [commitSync, viewIndexed, view, view]
  simp only [lookup_insertAll]
  congr 1
  funext kind
  cases kind with
  | workspace =>
    rw [if_pos rfl]
    dsimp only [Compilation.index]
    rw [WorkspaceIndex.entry_endBulk, entry_updateAll, WorkspaceIndex.entry_beginBulk]
  | loose | base => rfl

lemma view_commitUpdates (updates : List DiskFile) :
    env.view (env.commitWatched c updates []) uri =
      env.viewIndexed uri (env.view c uri) (latest updates (env.canonicalUri uri)) := by
  rw [commitWatched, viewIndexed, view, view]
  simp only [eraseAll, List.foldl_nil, lookup_insertAll]
  congr 1
  funext kind
  cases kind with
  | workspace => exact entry_updateAll _ _ _
  | loose | base => rfl

theorem view_commitPrune (stale : List String) :
    env.view (commitPrune c stale) uri =
      if env.canonicalUri uri ∈ stale then viewRemoved (env.view c uri) else env.view c uri := by
  rw [commitPrune, view, view]
  simp only [lookup_eraseAll]
  split_ifs with hmem
  · rw [viewRemoved]
    congr 1
    funext kind
    cases kind with
    | workspace => exact (entry_removeAll _ _ _).trans (if_pos hmem)
    | loose | base => rfl
  · congr 1
    funext kind
    cases kind with
    | workspace => exact (entry_removeAll _ _ _).trans (if_neg hmem)
    | loose | base => rfl

/-- A batch updates first and removes afterwards. -/
lemma commitWatched_eq (updates : List DiskFile) (removals : List String) :
    env.commitWatched c updates removals =
      commitPrune (env.commitWatched c updates []) removals := rfl

/-- Disk content may be indexed where the scope says so, under no buffer with another text. -/
lemma Consistent.index (h : env.Consistent uri excluded view) {document : ParsedDocument}
    (hparsed : env.Parsed document) (hkind : env.indexKindOf uri = .workspace)
    (hbuffer : ∀ openDoc, view.buffer = some openDoc → openDoc.source = document.source) :
    env.Consistent uri excluded (env.viewIndexed uri view (some document)) := by
  have hentry : (env.viewIndexed uri view (some document)).entry =
      env.placed uri (some (env.contribution (env.canonicalUri uri) document)) := by
    funext kind
    rw [viewIndexed, placed, hkind]
    dsimp only
    split_ifs with hk
    · rfl
    · exact h.misplaced kind (by rw [hkind]; exact hk)
  refine ⟨fun openDoc hopen => ?_, ?_, h.baseCopy, fun kind hk => ?_, ?_⟩
  · obtain ⟨hopenParsed, -⟩ := h.buffer openDoc hopen
    rw [hentry, contribution_congr hparsed hopenParsed (hbuffer openDoc hopen).symm]
    exact ⟨hopenParsed, rfl⟩
  · intro copy hcopy
    cases hcopy
    exact ⟨hkind, hparsed⟩
  · rw [hentry]
    exact if_neg hk
  · intro _ _ copy hcopy
    cases hcopy
    exact hentry

/-- Removal from the workspace index may take away a closed file, or one that another index
holds. -/
lemma Consistent.remove (h : env.Consistent uri excluded view)
    (hbuffer : view.buffer = none ∨ env.indexKindOf uri ≠ .workspace) :
    env.Consistent uri excluded (viewRemoved view) := by
  by_cases hkind : env.indexKindOf uri = .workspace
  · have hclosed := hbuffer.resolve_right (not_not.mpr hkind)
    refine ⟨fun d hd => ?_, nofun, h.baseCopy, fun kind hk => ?_, fun _ _ d hd => ?_⟩
    · rw [viewRemoved, hclosed] at hd
      cases hd
    · rw [hkind] at hk
      exact (if_neg hk).trans (h.misplaced kind (by rw [hkind]; exact hk))
    · have hnone := h.baseCopy_eq_none (by rw [hkind]; decide)
      rw [viewRemoved, hnone] at hd
      cases hd
  · have hsame : viewRemoved view = view := by
      have hcopy := h.workspaceCopy_eq_none hkind
      have hentry : (fun kind => if kind = .workspace then none else view.entry kind) =
          view.entry := by
        funext kind
        split_ifs with hk
        · rw [hk, h.misplaced .workspace (Ne.symm hkind)]
        · rfl
      rw [viewRemoved, hentry, ← hcopy]
    rw [hsame]
    exact h

end Env

end WitcherScriptLanguage
