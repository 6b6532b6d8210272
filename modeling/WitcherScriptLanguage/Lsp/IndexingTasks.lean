import WitcherScriptLanguage.Lsp.DiskWriters

/-!
# The tasks that write the index

The writers of the compilation as tasks that run side by side: `did_open` and `did_close`, the
publication of edits, workspace scans, watched-file batches and the legacy sync, which
`index_base_scripts` starts. A task reads the compilation in one step and publishes its edit in a
later one; in between any other may publish.
-/

namespace WitcherScriptLanguage

open Library

/-- A task between two of its accesses to the shared state. -/
inductive IndexingTask
  /-- `did_open`, or a `did_change` that replaces the whole text. -/
  | opening (uri : Url) (plan : OpenPlan)
  | closing (uri : Url) (priorSource diskText : Option String)
  | closingTo (uri : Url) (diskText : Option String) (plan : ClosePlan)
  | scanned (files : List DiskFile)
  | syncing (parsed : List DiskFile)
  | synced (files : List DiskFile) (current : List String)
  | pruning (current : List String)
  | pruned (stale : List String)
  | watching (openCanonical : List String) (events : List FileEvent)
  | watched (updates : List DiskFile) (removals : List String) (manifests : List FileEvent)
  | manifests (events : List FileEvent)

structure Indexing where
  compilation : Compilation := {}
  knownFiles : List String := []
  /-- The script directory of each manifest, under the manifest's URI. -/
  manifestLegacyDirs : AList (fun _ : String => FilePath) := ∅
  inFlight : List IndexingTask := []

def effectiveLegacyDirs (dirs : List FilePath)
    (manifestLegacyDirs : AList (fun _ : String => FilePath)) : List FilePath :=
  manifestLegacyDirs.entries.foldl (fun dirs entry =>
    if dirs.contains entry.2 then dirs else dirs ++ [entry.2]) dirs

namespace Env

def withLegacyDirs (env : Env) (manifestLegacyDirs : AList (fun _ : String => FilePath)) : Env :=
  { env with config := { env.config with
      legacyScriptDirs := effectiveLegacyDirs env.config.legacyScriptDirs manifestLegacyDirs } }

def applyManifestEvent (env : Env) (dirs : AList (fun _ : String => FilePath))
    (event : FileEvent) : AList (fun _ : String => FilePath) :=
  match env.urls.toFilePath event.uri with
  | none => dirs
  | some path =>
    if event.typ ≠ .deleted && env.excludeMatches path then dirs
    else match env.urls.fromFilePath path with
      | none => dirs
      | some url =>
        let key := env.canonicalUri url
        match if event.typ = .deleted then none else event.projectRoot with
        | some root => dirs.insert key root
        | none => dirs.erase key

end Env

namespace Indexing

/-- Nothing is open, indexed or in progress; manifests may be known. -/
def initial (manifestLegacyDirs : AList (fun _ : String => FilePath)) : Indexing where
  manifestLegacyDirs := manifestLegacyDirs

/-- The environment with the legacy directories of the manifests. -/
def current (env : Env) (s : Indexing) : Env := env.withLegacyDirs s.manifestLegacyDirs

def start (s : Indexing) (task : IndexingTask) : Indexing := { s with inFlight := s.inFlight ++ [task] }

def didOpen (env : Env) (s : Indexing) (uri : Url) (text : String) : Indexing :=
  if isBuiltinUri uri then s
  else
    let (excluded, knownFiles) := env.isUriExcluded s.knownFiles uri
    let s := { s with knownFiles }
    if excluded then s
    else s.start (.opening uri (env.planOpen s.compilation uri text))

def didClose (env : Env) (s : Indexing) (uri : Url) (diskText : Option String) : Indexing :=
  if isBuiltinUri uri then s
  else if ((s.current env).fileScopeOf uri).isLoose then
    s.start (.closingTo uri diskText .dropLoose)
  else
    let (excluded, knownFiles) := env.isUriExcluded s.knownFiles uri
    let s := { s with knownFiles }
    if excluded then s.start (.closingTo uri diskText .dropExcluded)
    else s.start (.closing uri (s.compilation.openText uri) (env.closedText uri diskText))

/-- One access of a task: the state behind it and what is left of the task. -/
def resume (env : Env) (s : Indexing) : IndexingTask → Indexing × Option IndexingTask
  | .opening uri plan =>
    ({ s with compilation := (s.current env).commitOpen s.compilation uri plan }, none)
  | .closing uri priorSource diskText =>
    let plan := (s.current env).planClosed s.compilation uri priorSource diskText
    (s, some (.closingTo uri diskText plan))
  | .closingTo uri _ plan =>
    ({ s with compilation := (s.current env).commitClose s.compilation uri plan }, none)
  | .scanned files => ({ s with compilation := env.commitScan s.compilation files }, none)
  | .syncing parsed =>
    let files := Env.skipOpen (env.openCanonical s.compilation) parsed
    (s, some (.synced files (parsed.map (·.1))))
  | .synced files current =>
    ({ s with compilation := env.commitSync s.compilation files }, some (.pruning current))
  | .pruning current =>
    (s, some (.pruned ((s.current env).staleLegacyFiles s.compilation current)))
  | .pruned stale => ({ s with compilation := Env.commitPrune s.compilation stale }, none)
  | .watching openCanonical events =>
    let (manifests, scripts) := events.partition env.eventIsManifest
    let batch := scripts.foldl (env.readWatchedEvent openCanonical) {}
    let removals := batch.removals ++
      env.removalsForDeletedTrees s.compilation s.knownFiles batch.treeDirs openCanonical
    let knownFiles := (batch.updates.map (·.1) ++ s.knownFiles).filter (!removals.contains ·)
    ({ s with knownFiles }, some (.watched batch.updates removals manifests))
  | .watched updates removals manifests =>
    ({ s with compilation := env.commitWatched s.compilation updates removals },
      some (.manifests manifests))
  | .manifests events =>
    ({ s with manifestLegacyDirs := events.foldl env.applyManifestEvent s.manifestLegacyDirs },
      none)

inductive Event
  | didOpen (uri : Url) (text : String)
  | publishEdit (uri : Url) (edit : PendingEdit)
  /-- With the text of the file on disk, if it can be read. -/
  | didClose (uri : Url) (diskText : Option String)
  /-- With the files that the scan has collected, and what reading them gave. -/
  | scanWorkspace (files : List (FilePath × Option String))
  | watchFiles (events : List FileEvent)
  | advance (i : Nat)

/-- One step; `none` when the event cannot happen. -/
def step (env : Env) (s : Indexing) : Event → Option Indexing
  | .didOpen uri text => some (s.didOpen env uri text)
  | .publishEdit uri edit =>
    some { s with compilation := (s.current env).processPendingEdit s.compilation uri edit }
  | .didClose uri diskText => some (s.didClose env uri diskText)
  | .scanWorkspace files =>
    if env.config.workspaceRoots.isEmpty then some { s with knownFiles := [] }
    else if files.all fun file => underAny env.config.workspaceRoots file.1 &&
        isWitcherscriptFile file.1 && !env.excludeMatches file.1 then
      let s := { s with knownFiles := (files.map Prod.fst).filterMap env.urls.fromFilePath }
      some (s.start (.scanned
        (Env.skipOpen (env.openCanonical s.compilation) (env.parseScriptFiles files))))
    else none
  | .watchFiles events => some (s.start (.watching (env.openCanonical s.compilation) events))
  | .advance i =>
    match s.inFlight[i]? with
    | none => none
    | some task =>
      let (s, next) := s.resume env task
      some { s with inFlight := s.inFlight.eraseIdx i ++ next.toList }

end Indexing

end WitcherScriptLanguage
