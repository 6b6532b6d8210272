import WitcherScriptLanguage.Diagnostics.RuleReads
import WitcherScriptLanguage.Library.Runs

/-!
# The cache of the rules over syntax trees

Pulls and publications around the cache of `cst_cache.rs`. A pull loads a snapshot, reads the
cache, computes what it misses on the snapshot, commits, and then subscribes its documents to the
keys that were recorded (`diagnostics_publish.rs`). A publication swaps the snapshot, raises the
state version, looks up the subscribers of the keys that it changed and evicts them
(`indexing/open_documents.rs`, `backend.rs`). Each access to the shared state is a step.
-/

namespace WitcherScriptLanguage

open Library

/-- What a publication swaps. -/
structure Snapshot extends Compilation where
  scriptEnv : ScriptEnvironment := {}
  suppressedBaseUris : Finset String := ∅

/-- What every document is checked against beside its own index. -/
structure BaseLayer where
  index : WorkspaceIndex
  scriptEnv : ScriptEnvironment
  suppressedBaseUris : Finset String

def Snapshot.baseLayer (s : Snapshot) : BaseLayer :=
  ⟨s.baseScriptsIndex, s.scriptEnv, s.suppressedBaseUris⟩

/-- A document of an index changes in a publication, which collects the changed keys or not. -/
structure IndexEdit where
  change : DocumentChange
  collected : Bool := true

/-- The collected keys and the edited index. -/
def applyIndexEdits : List IndexEdit → WorkspaceIndex → List ObservedKey × WorkspaceIndex
  | [], ix => ([], ix)
  | e :: rest, ix =>
    let (keys, ix) := e.change.onIndex ix
    let (keys', ix) := applyIndexEdits rest ix
    ((if e.collected then keys else []) ++ keys', ix)

lemma applyIndexEdits_cons (e : IndexEdit) (rest : List IndexEdit) (ix : WorkspaceIndex) :
    applyIndexEdits (e :: rest) ix =
      ((if e.collected then (e.change.onIndex ix).1 else []) ++
        (applyIndexEdits rest (e.change.onIndex ix).2).1,
        (applyIndexEdits rest (e.change.onIndex ix).2).2) :=
  rfl

/-- The edit of a publication. Bulk brackets are left out: they only delay the catalogs. -/
structure SnapshotEdit where
  workspace : List IndexEdit := []
  loose : List IndexEdit := []
  /-- What it does to the base scripts, the script environment and the tables of documents. -/
  rest : Snapshot → Snapshot := id

/-- The keys that a publication reports for the workspace and for the loose files. -/
structure ChangedKeys where
  workspace : List ObservedKey
  loose : List ObservedKey
  deriving DecidableEq

/-- The reported keys that concern a document of one of the two indexes. -/
def ChangedKeys.concerning (changed : ChangedKeys) (loose : Bool) : List ObservedKey :=
  if loose then changed.loose else changed.workspace

namespace SnapshotEdit

variable (edit : SnapshotEdit) (s : Snapshot)

def changedKeys : ChangedKeys where
  workspace := (applyIndexEdits edit.workspace s.workspaceIndex).1
  loose := (applyIndexEdits edit.loose s.looseIndex).1

def apply : Snapshot := { edit.rest s with
  workspaceIndex := (applyIndexEdits edit.workspace s.workspaceIndex).2
  looseIndex := (applyIndexEdits edit.loose s.looseIndex).2 }

/-- The edits of the index that a document is checked against. -/
def ofChecked (loose : Bool) : List IndexEdit := if loose then edit.loose else edit.workspace

end SnapshotEdit

/-- What the server checks documents with. -/
structure Checker where
  env : Env
  rules : CstRules
  builtins : WorkspaceIndex
  callDepth : Nat

namespace Checker

variable (c : Checker)

def isLoose (key : String) : Bool := (c.env.fileScopeOf key).isLoose

/-- The index that the document is checked against. -/
def checkedIndex (snapshot : Snapshot) (key : String) : WorkspaceIndex :=
  if c.isLoose key then snapshot.looseIndex else snapshot.workspaceIndex

def ruleDb (snapshot : Snapshot) (base : BaseLayer) (key : String) : RuleDb :=
  buildSymbolDb (c.checkedIndex snapshot key) base.index c.builtins base.scriptEnv
    base.suppressedBaseUris

/-- The database of a document on a snapshot. -/
def presentDb (snapshot : Snapshot) (key : String) : RuleDb :=
  c.ruleDb snapshot snapshot.baseLayer key

/-- The reads that the rules make for a document. -/
def asked (db : RuleDb) (key : String) (document : ParsedDocument) : List RuleRead :=
  (c.rules key document).asked (db.read c.callDepth)

/-- The diagnostics of a document and the keys that its rules record. -/
def diagnose (snapshot : Snapshot) (key : String) (document : ParsedDocument) :
    Option (List WorkspaceDiagnostic × List ObservedKey) :=
  collectCstDiagnostics c.rules c.callDepth (c.presentDb snapshot key) key document

/-- `diagnostics_document_set`: an open document stands for the file of its canonical URI. -/
def diagnosedDocuments (snapshot : Snapshot) : List (String × ParsedDocument) :=
  let opened := snapshot.documents.entries.map fun e => (c.env.canonicalUri e.1, e.2)
  let closed := snapshot.workspaceDocuments.entries.map fun e => (e.1, e.2)
  (closed.filter fun e => !(opened.map (·.1)).contains e.1) ++ opened

/-- `remove_document_all_spellings` -/
def spellingsRemoved (uri : Url) : List IndexEdit :=
  ⟨.remove uri, true⟩ ::
    if c.env.canonicalUri uri ≠ uri then [⟨.remove (c.env.canonicalUri uri), true⟩] else []

/-- `index_open_document` -/
def openIndexed (uri : Url) (document : ParsedDocument) : List IndexEdit :=
  (if c.env.canonicalUri uri ≠ uri then [⟨.remove uri, true⟩] else []) ++
    [⟨.apply (c.env.canonicalUri uri) (c.env.contribution (c.env.canonicalUri uri) document), true⟩]

/-- The edit of `publish_open_document_indices`: what `route_document_to_index` does, and the
document in its table. -/
def openEdit (uri : Url) (document : ParsedDocument) : SnapshotEdit :=
  match c.env.fileScopeOf uri with
  | .additionalBase => {
      workspace := c.spellingsRemoved uri
      loose := c.spellingsRemoved uri
      rest := fun s => { s with
        baseScriptsIndex := (c.env.indexOpenDocument s.baseScriptsIndex uri document).2
        documents := s.documents.insert uri document } }
  | .outOfScope | .singleFile => {
      workspace := c.spellingsRemoved uri
      loose := c.openIndexed uri document
      rest := fun s => { s with
        baseScriptsIndex := (c.env.removeDocumentAllSpellings s.baseScriptsIndex uri).2
        documents := s.documents.insert uri document } }
  | _ => {
      workspace := c.openIndexed uri document
      loose := c.spellingsRemoved uri
      rest := fun s => { s with
        baseScriptsIndex := (c.env.removeDocumentAllSpellings s.baseScriptsIndex uri).2
        documents := s.documents.insert uri document } }

lemma applyIndexEdits_spellingsRemoved (uri : Url) (ix : WorkspaceIndex) :
    applyIndexEdits (c.spellingsRemoved uri) ix = c.env.removeDocumentAllSpellings ix uri := by
  unfold spellingsRemoved Env.removeDocumentAllSpellings
  by_cases huri : c.env.canonicalUri uri = uri
  · simp [huri, applyIndexEdits, DocumentChange.onIndex]
  · simp [huri, applyIndexEdits, DocumentChange.onIndex]

lemma applyIndexEdits_openIndexed (uri : Url) (document : ParsedDocument) (ix : WorkspaceIndex) :
    applyIndexEdits (c.openIndexed uri document) ix = c.env.indexOpenDocument ix uri document := by
  unfold openIndexed Env.indexOpenDocument
  by_cases huri : c.env.canonicalUri uri = uri
  · simp [huri, applyIndexEdits, DocumentChange.onIndex, WorkspaceIndex.updateDocument,
      Env.contribution]
  · simp [huri, applyIndexEdits, DocumentChange.onIndex, WorkspaceIndex.updateDocument,
      Env.contribution]

/-- The edit is that of the server, with the keys that it reports. -/
theorem openEdit_eq_route (uri : Url) (document : ParsedDocument) (s : Snapshot) :
    ((c.openEdit uri document).apply s).toCompilation =
      c.env.publishOpenDocument s.toCompilation uri document ∧
    (c.openEdit uri document).changedKeys s =
      ⟨(c.env.routeDocumentToIndex s.toCompilation uri (c.env.fileScopeOf uri) document).1.1,
        (c.env.routeDocumentToIndex s.toCompilation uri (c.env.fileScopeOf uri) document).1.2⟩ := by
  have hremoved := c.applyIndexEdits_spellingsRemoved uri
  have hopened := c.applyIndexEdits_openIndexed uri document
  unfold openEdit Env.publishOpenDocument SnapshotEdit.apply SnapshotEdit.changedKeys
  cases c.env.fileScopeOf uri
  all_goals
    simp only [hremoved, hopened]
    exact ⟨rfl, rfl⟩

end Checker

structure DbFingerprint where
  baseSurface : UInt64
  env : Nat
  legacyDbGeneration : UInt64
  deriving DecidableEq

structure CstCacheEntry where
  parseVersion : UInt64
  dbFingerprint : DbFingerprint
  diagnostics : List WorkspaceDiagnostic
  /-- The keys that the rules recorded. This is history: the server does not keep it here. -/
  observations : List ObservedKey

abbrev CstCache := AList (fun _ : String => CstCacheEntry)

/-- The observed keys of every subscribed document. -/
abbrev SubscriptionRegistry := AList (fun _ : String => List ObservedKey)

namespace SubscriptionRegistry

def register (subscriptions : SubscriptionRegistry) (uri : String) (keys : List ObservedKey) :
    SubscriptionRegistry := subscriptions.insert uri keys

def subscribersOf (subscriptions : SubscriptionRegistry) (keys : List ObservedKey) : List String :=
  (subscriptions.entries.filter fun e => e.2.any fun key => keys.contains key).map (·.1)

end SubscriptionRegistry

/-- A pull between two accesses to the shared state. -/
inductive Pull
  /-- The state version and the documents have been loaded. -/
  | started (version : Nat) (documents : List (String × ParsedDocument))
  | opened (version : Nat) (documents : List (String × ParsedDocument)) (snapshot : Snapshot)
  | prepared (version : Nat) (documents : List (String × ParsedDocument)) (snapshot : Snapshot)
      (fingerprint : DbFingerprint)
  /-- The cache has been read. -/
  | missing (version : Nat) (misses : List (String × ParsedDocument)) (snapshot : Snapshot)
      (fingerprint : DbFingerprint)
  | committed (newSubscriptions : List (String × List ObservedKey))

/-- The documents that a pull may still compute. -/
def Pull.documents : Pull → List (String × ParsedDocument)
  | started _ documents | opened _ documents _ | prepared _ documents _ _
  | missing _ documents _ _ => documents
  | committed _ => []

/-- The subscriptions that a pull has still to register. -/
def Pull.carried : Pull → List (String × List ObservedKey)
  | committed newSubscriptions => newSubscriptions
  | _ => []

inductive PublishStage
  | swapped (changesViews : Bool)
  | raised
  | found (uris : List String)

/-- A publication between its swap and its eviction. -/
structure Publish where
  changed : ChangedKeys
  stage : PublishStage

structure CstServer where
  snapshot : Snapshot
  legacyDbGeneration : UInt64 := 0
  stateVersion : Nat := 0
  cache : CstCache := ∅
  workspaceSubscriptions : SubscriptionRegistry := ∅
  looseSubscriptions : SubscriptionRegistry := ∅
  publishes : List Publish := []
  pulls : List Pull := []

namespace CstServer

variable (c : Checker) (s : CstServer)

def dbFingerprint (snapshot : Snapshot) : DbFingerprint :=
  ⟨snapshot.baseScriptsIndex.surfaceHash, snapshot.scriptEnv.version, s.legacyDbGeneration⟩

/-- `invalidated_workspace` and `invalidated_loose` -/
def invalidated (changed : ChangedKeys) : List String :=
  s.workspaceSubscriptions.subscribersOf changed.workspace ++
    s.looseSubscriptions.subscribersOf changed.loose

def evictCacheEntries (cache : CstCache) (uris : List String) : CstCache :=
  uris.foldl (fun cache uri => cache.erase uri) cache

/-- The cache has an entry that answers for the document. -/
def isHit (fingerprint : DbFingerprint) (e : String × ParsedDocument) : Bool :=
  match s.cache.lookup e.1 with
  | none => false
  | some entry => entry.parseVersion = e.2.parseVersion && entry.dbFingerprint = fingerprint

/-- The entry that a computation makes for a document. -/
def computeEntry (snapshot : Snapshot) (fingerprint : DbFingerprint) (e : String × ParsedDocument) :
    Option (String × CstCacheEntry) :=
  (c.diagnose snapshot e.1 e.2).map fun computed => (e.1, {
    parseVersion := e.2.parseVersion
    dbFingerprint := fingerprint
    diagnostics := computed.1
    observations := computed.2 })

def insertEntries (cache : CstCache) (entries : List (String × CstCacheEntry)) : CstCache :=
  entries.foldl (fun cache e => cache.insert e.1 e.2) cache

def registerCstSubscriptions (newSubscriptions : List (String × List ObservedKey)) : CstServer :=
  newSubscriptions.foldl (fun s e =>
    if c.isLoose e.1 then
      { s with looseSubscriptions := s.looseSubscriptions.register e.1 e.2 }
    else { s with workspaceSubscriptions := s.workspaceSubscriptions.register e.1 e.2 }) s

inductive Event
  /-- The edit of a publication, and whether it changes more than the open documents. -/
  | swap (edit : SnapshotEdit) (changesViews : Bool)
  | raiseVersion (i : Nat)
  | lookUpSubscribers (i : Nat)
  | evict (i : Nat)
  /-- The counter of `rebuild_filtered_base_catalogs`. -/
  | rebuilt
  | startPull (documents : List (String × ParsedDocument))
  | loadSnapshot (i : Nat)
  | readFingerprint (i : Nat)
  | readCache (i : Nat)
  /-- The documents that the workers reached before one saw the state version advance. -/
  | commit (i : Nat) (computed : List String)
  | register (i : Nat)
  | abandon (i : Nat)
  /-- A pull of the whole workspace drops the entries of other files. -/
  | retain (keys : List String)

/-- One step; `none` when the event cannot happen. -/
def step : Event → Option CstServer
  | .swap edit changesViews => some { s with
      snapshot := edit.apply s.snapshot
      publishes := s.publishes ++ [⟨edit.changedKeys s.snapshot, .swapped changesViews⟩] }
  | .raiseVersion i =>
    match s.publishes[i]? with
    | some ⟨changed, .swapped changesViews⟩ => some { s with
        stateVersion := if changesViews then s.stateVersion + 1 else s.stateVersion
        publishes := s.publishes.set i ⟨changed, .raised⟩ }
    | _ => none
  | .lookUpSubscribers i =>
    match s.publishes[i]? with
    | some ⟨changed, .raised⟩ => some { s with
        publishes := s.publishes.set i ⟨changed, .found (s.invalidated changed)⟩ }
    | _ => none
  | .evict i =>
    match s.publishes[i]? with
    | some ⟨_, .found uris⟩ => some { s with
        cache := evictCacheEntries s.cache uris
        publishes := s.publishes.eraseIdx i }
    | _ => none
  | .rebuilt => some { s with legacyDbGeneration := s.legacyDbGeneration + 1 }
  | .startPull documents =>
    if (documents.map (·.1)).Nodup ∧ documents ⊆ c.diagnosedDocuments s.snapshot then
      some { s with pulls := s.pulls ++ [.started s.stateVersion documents] }
    else none
  | .loadSnapshot i =>
    match s.pulls[i]? with
    | some (.started version documents) => some { s with
        pulls := s.pulls.set i (.opened version documents s.snapshot) }
    | _ => none
  | .readFingerprint i =>
    match s.pulls[i]? with
    | some (.opened version documents snapshot) =>
      if s.stateVersion = version then some { s with
        pulls := s.pulls.set i (.prepared version documents snapshot (s.dbFingerprint snapshot)) }
      else none
    | _ => none
  | .readCache i =>
    match s.pulls[i]? with
    | some (.prepared version documents snapshot fingerprint) => some { s with
        pulls := s.pulls.set i (.missing version
          (documents.filter fun e => !s.isHit fingerprint e) snapshot fingerprint) }
    | _ => none
  | .commit i computed =>
    match s.pulls[i]? with
    | some (.missing version misses snapshot fingerprint) =>
      let reached := misses.filter fun e => computed.contains e.1
      let cancelled := reached.length ≠ misses.length
      if cancelled ∧ s.stateVersion = version then none
      else (reached.mapM (computeEntry c snapshot fingerprint)).map fun entries =>
        { s with
          cache := insertEntries s.cache entries
          pulls := if cancelled then s.pulls.eraseIdx i
            else s.pulls.set i (.committed (entries.map fun e => (e.1, e.2.observations))) }
    | _ => none
  | .register i =>
    match s.pulls[i]? with
    | some (.committed newSubscriptions) =>
      some { s.registerCstSubscriptions c newSubscriptions with pulls := s.pulls.eraseIdx i }
    | _ => none
  | .abandon i =>
    match s.pulls[i]? with
    | none | some (.committed _) => none
    | some _ => some { s with pulls := s.pulls.eraseIdx i }
  | .retain keys =>
    let vanished := s.cache.keys.filter fun key => !keys.contains key
    some { s with cache := evictCacheEntries s.cache vanished }

end CstServer

end WitcherScriptLanguage
