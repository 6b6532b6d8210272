import WitcherScriptLanguage.Lsp.IndexingTasks
import WitcherScriptLanguage.Resolve.MergedCatalogs

/-!
# Base scripts, legacy overrides and completion requests

The machine of `Indexing` with what is published beside the indexes: the script environment, the
suppressed base files and the filtered base catalogs. `index_base_scripts` and
`refresh_legacy_override_maps` publish them in several steps (`scan.rs`, `legacy.rs`); completion
requests keep the handles of the compilation they started on and share two cache slots
(`backend.rs`, `completion_cache.rs`).
-/

namespace WitcherScriptLanguage

open Library

/-- The last component of a URI. -/
def basenameOf (uri : String) : Option String :=
  let name := (uri.toList.reverse.takeWhile (· ≠ '/')).reverse
  if name.isEmpty then none else some (String.ofList name)

/-- What follows the last occurrence of a segment. -/
def afterLast (segment : List Char) : List Char → Option (List Char)
  | [] => none
  | c :: rest => (afterLast segment rest).or
      (if segment.isPrefixOf (c :: rest) then some ((c :: rest).drop segment.length) else none)

def relativeFromScripts (uri : String) : Option (List Char) :=
  afterLast "/scripts/".toList uri.toList

def legacyReplacesBase (baseUri legacyUri : String) : Bool :=
  match relativeFromScripts baseUri with
  | none => false
  | some tail => ('/' :: tail).isSuffixOf legacyUri.toList

/-- The base files that a legacy file replaces. -/
def legacyBaseReplacements (baseUris legacyUris : List String) : Finset String :=
  (legacyUris.flatMap fun legacyUri => baseUris.filter fun baseUri =>
    (basenameOf baseUri).isSome && basenameOf baseUri == basenameOf legacyUri &&
      legacyReplacesBase baseUri legacyUri).toFinset

structure MergedCompletionCache where
  workspaceSurface : UInt64
  baseSurface : UInt64
  scriptEnvVersion : Nat
  types : List Definition
  globals : List Definition
  deriving DecidableEq

def MergedCompletionCache.build (handles : DbHandles) : MergedCompletionCache where
  workspaceSurface := handles.workspace.surfaceHash
  baseSurface := handles.base.surfaceHash
  scriptEnvVersion := handles.scriptEnv.version
  types := handles.mergedTypesCatalog
  globals := handles.mergedGlobalCompletions

/-- The slot holds an entry for the surfaces of the handles. -/
def MergedCompletionCache.matchesHandles (cached : MergedCompletionCache)
    (handles : DbHandles) : Bool :=
  cached.workspaceSurface == handles.workspace.surfaceHash &&
    cached.baseSurface == handles.base.surfaceHash &&
    cached.scriptEnvVersion == handles.scriptEnv.version

/-- A task between two of its accesses to the shared state, with what it does afterwards. -/
inductive BaseTask
  /-- `refresh_legacy_override_maps` has listed the base files. -/
  | pairing (baseUris : List String)
  | suppressing (suppressed : Finset String)
  | environment (globals : List Definition) (next : BaseTask)
  | indexed (index : WorkspaceIndex) (documents : DocumentMap) (suppressed : Finset String)
      (next : BaseTask)
  /-- `merge_open_base_documents` -/
  | mergingOpen (next : BaseTask)
  | mergedOpen (files : List (Url × ParsedDocument)) (next : BaseTask)
  /-- `rebuild_filtered_base_catalogs`, and the task of the index behind it. -/
  | rebuilding (next : Option IndexingTask)
  | clearingWorkspace (next : Option IndexingTask)
  | clearingLoose (next : Option IndexingTask)

structure Backend where
  indexing : Indexing := {}
  scriptEnv : ScriptEnvironment := {}
  /-- `SCRIPT_ENV_VERSION` -/
  nextScriptEnvVersion : Nat := 1
  suppressedBaseUris : Finset String := ∅
  filteredBaseCatalogs : Option FilteredBaseCatalogs := none
  baseTasks : List BaseTask := []
  workspaceSlot : Option MergedCompletionCache := none
  looseSlot : Option MergedCompletionCache := none
  /-- The completion requests that have taken their handles. -/
  requests : List (Url × DbHandles) := []

namespace Env

variable (env : Env)

/-- The index that `index_base_scripts` builds from parsed files. -/
def indexBaseFiles (parsed : List DiskFile) : WorkspaceIndex :=
  let contributions := parsed.map fun file => (file.1, env.contribution file.1 file.2)
  (contributions.foldl (fun index contribution =>
    (index.applyContribution contribution.1 contribution.2).2)
    ({} : WorkspaceIndex).beginBulkCatalogUpdate).endBulkCatalogUpdate

def indexOpenDocuments (index : WorkspaceIndex) (files : List (Url × ParsedDocument)) :
    WorkspaceIndex :=
  files.foldl (fun index file => (env.indexOpenDocument index file.1 file.2).2) index

def legacyUrisInWorkspaceIndex (c : Compilation) : List String :=
  c.workspaceIndex.documents.keys.filter fun uri =>
    env.anyDirContainsUri uri env.config.legacyScriptDirs

end Env

namespace Backend

variable (env : Env) (builtins : WorkspaceIndex)

/-- Nothing is open, indexed or in progress; manifests may be known. -/
def initial (manifestLegacyDirs : AList (fun _ : String => FilePath)) : Backend where
  indexing := .initial manifestLegacyDirs

def current (s : Backend) : Env := s.indexing.current env

def compilation (s : Backend) : Compilation := s.indexing.compilation

def startBase (s : Backend) (task : BaseTask) : Backend :=
  { s with baseTasks := s.baseTasks ++ [task] }

def startIndexing (s : Backend) (task : Option IndexingTask) : Backend :=
  match task with
  | none => s
  | some task => { s with indexing := s.indexing.start task }

def withCompilation (s : Backend) (c : Compilation) : Backend :=
  { s with indexing := { s.indexing with compilation := c } }

/-- The edit of `rebuild_filtered_base_catalogs`. -/
def rebuildFilteredBaseCatalogs (s : Backend) : Backend :=
  { s with filteredBaseCatalogs :=
      if s.suppressedBaseUris = ∅ then none
      else some (.build s.compilation.baseScriptsIndex s.suppressedBaseUris) }

/-- The open base documents that `merge_open_base_documents` finds. -/
def openBaseDocuments (s : Backend) : List (Url × ParsedDocument) :=
  (s.compilation.documents.entries.map fun entry => (entry.1, entry.2)).filter
    fun file => (s.current env).isBaseScriptUri file.1

/-- One access of a task: the state behind it and what is left of the task. -/
def resume (s : Backend) : BaseTask → Backend × Option BaseTask
  | .pairing baseUris =>
    let legacyUris := (s.current env).legacyUrisInWorkspaceIndex s.compilation
    (s, some (.suppressing (legacyBaseReplacements baseUris legacyUris)))
  | .suppressing suppressed =>
    ({ s with suppressedBaseUris := suppressed }, some (.rebuilding none))
  | .environment globals next =>
    ({ s with
        scriptEnv := { globals, version := s.nextScriptEnvVersion }
        nextScriptEnvVersion := s.nextScriptEnvVersion + 1 }, some next)
  | .indexed index documents suppressed next =>
    ({ s.withCompilation { s.compilation with
        baseScriptsIndex := index, baseScriptsDocuments := documents } with
        suppressedBaseUris := suppressed }, some next)
  | .mergingOpen next => (s, some (.mergedOpen (s.openBaseDocuments env) next))
  | .mergedOpen files next =>
    (s.withCompilation { s.compilation with
      baseScriptsIndex := env.indexOpenDocuments s.compilation.baseScriptsIndex files }, some next)
  | .rebuilding next => (s.rebuildFilteredBaseCatalogs, some (.clearingWorkspace next))
  | .clearingWorkspace next => ({ s with workspaceSlot := none }, some (.clearingLoose next))
  | .clearingLoose next => ({ s with looseSlot := none }.startIndexing next, none)

def dbHandlesFor (s : Backend) (uri : Url) : DbHandles where
  workspace := if ((s.current env).fileScopeOf uri).isLoose then s.compilation.looseIndex
    else s.compilation.workspaceIndex
  base := s.compilation.baseScriptsIndex
  scriptEnv := s.scriptEnv
  builtins := builtins
  suppressedBaseUris := s.suppressedBaseUris
  filteredBaseCatalogs := s.filteredBaseCatalogs

/-- The slot of the scope that the file has now. -/
def slot (s : Backend) (uri : Url) : Option MergedCompletionCache :=
  if ((s.current env).fileScopeOf uri).isLoose then s.looseSlot else s.workspaceSlot

def setSlot (s : Backend) (uri : Url) (entry : MergedCompletionCache) : Backend :=
  if ((s.current env).fileScopeOf uri).isLoose then { s with looseSlot := some entry }
  else { s with workspaceSlot := some entry }

/-- The slot is locked from the comparison to the refill. -/
def mergedCompletionCache (s : Backend) (uri : Url) (handles : DbHandles) :
    MergedCompletionCache × Backend :=
  match (s.slot env uri).filter (·.matchesHandles handles) with
  | some cached => (cached, s)
  | none =>
    let fresh := MergedCompletionCache.build handles
    (fresh, s.setSlot env uri fresh)

/-- A watched-file batch with manifest events spawns the two base events, in any later state. -/
inductive Event
  | indexing (event : Indexing.Event)
  | refreshLegacyOverrideMaps
  /-- With the globals of the game's INI file, if a game directory is set, and the files of the
  base and of the legacy directories. -/
  | indexBaseScripts (globals : Option (List Definition))
      (base legacy : List (FilePath × Option String))
  | advance (i : Nat)
  | request (uri : Url)
  | complete (i : Nat)

/-- The tasks of `index_base_scripts`, by whether any directory is configured. -/
def indexBaseScripts (s : Backend) (globals : Option (List Definition))
    (base legacy : List (FilePath × Option String)) : BaseTask :=
  let config := (s.current env).config
  if config.baseScriptsDir.isNone && config.additionalScriptDirs.isEmpty &&
      config.legacyScriptDirs.isEmpty then
    .indexed {} ∅ ∅ (.rebuilding (some (.pruning [])))
  else
    let parsed := env.parseScriptFiles base
    let legacyParsed := env.parseScriptFiles legacy
    let documents := Env.insertAll ∅ parsed
    let suppressed := legacyBaseReplacements documents.keys (legacyParsed.map Prod.fst)
    let indexed := .indexed (env.indexBaseFiles parsed) documents suppressed
      (.mergingOpen (.rebuilding (some (.syncing legacyParsed))))
    match globals with
    | none => indexed
    | some globals => .environment globals indexed

/-- The files that `index_base_scripts` may find. -/
def findsFiles (s : Backend) (base legacy : List (FilePath × Option String)) : Bool :=
  let config := (s.current env).config
  (base.all fun file => isWitcherscriptFile file.1 &&
      underAny (config.baseScriptsDir.toList ++ config.additionalScriptDirs) file.1) &&
    legacy.all fun file => isWitcherscriptFile file.1 && underAny config.legacyScriptDirs file.1

/-- One step; `none` when the event cannot happen. -/
def step (s : Backend) : Event → Option Backend
  | .indexing event => (s.indexing.step env event).map fun indexing => { s with indexing }
  | .refreshLegacyOverrideMaps =>
    some (s.startBase (.pairing s.compilation.baseScriptsDocuments.keys))
  | .indexBaseScripts globals base legacy =>
    if s.findsFiles env base legacy then
      some (s.startBase (s.indexBaseScripts env globals base legacy))
    else none
  | .advance i =>
    match s.baseTasks[i]? with
    | none => none
    | some task =>
      let (s, next) := s.resume env task
      some { s with baseTasks := s.baseTasks.eraseIdx i ++ next.toList }
  | .request uri =>
    some { s with requests := s.requests ++ [(uri, s.dbHandlesFor env builtins uri)] }
  | .complete i =>
    match s.requests[i]? with
    | none => none
    | some (uri, handles) =>
      some { (s.mergedCompletionCache env uri handles).2 with requests := s.requests.eraseIdx i }

end Backend

def splitSlash : List Char → List (List Char)
  | [] => [[]]
  | c :: rest =>
    let parts := splitSlash rest
    if c = '/' then [] :: parts else (c :: parts.headD []) :: parts.tail

/-- URLs are paths with slashes between the components. -/
def slashUrls : FileUrls where
  toFilePath uri := some ((splitSlash uri.toList).map String.ofList)
  fromFilePath path :=
    let url := "/".intercalate path
    if (splitSlash url.toList).map String.ofList = path then some url else none
  toFilePath_fromFilePath path url h := by
    dsimp only at h
    split_ifs at h with hpath
    cases h
    rw [hpath]

/-- A function that the first letter of the text names. -/
def firstLetterFunction (text : String) : ParsedDocument where
  source := text
  symbols := [
    { id := ⟨0⟩, name := String.ofList (text.toList.take 1), kind := .function,
      byteRange := ⟨0, text.toList.length⟩, selectionByteRange := ⟨0, 1⟩ }]

/-- Every text parses to its first letter. -/
def functionEnv : Env where
  urls := slashUrls
  hasher := ⟨fun _ => 0, fun _ _ => 0, fun _ _ => 0⟩
  config := { noDirs with baseScriptsDir := some ["base"], legacyScriptDirs := [["mods"]] }
  parse text := some (firstLetterFunction text)
  source_parse text document h := by
    cases h
    rfl
  excludeMatches _ := false

end WitcherScriptLanguage
