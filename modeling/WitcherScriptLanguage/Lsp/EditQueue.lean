import WitcherScriptLanguage.Library.Runs
import WitcherScriptLanguage.Lsp.Compilation
import WitcherScriptLanguage.Lsp.TextChange

/-!
# Text synchronisation and the edit queue

`text_sync.rs` and `edit_queue.rs` as a machine. The notifications of the client are handled one
after the other; between any two of their accesses to the shared state the background edit writer
can take a step. `_did_change` and the writer exclude each other by the tree lock from reading the
latest text to publishing or queueing the next one; `_did_open` and `_did_close` do not take it.
-/

namespace WitcherScriptLanguage

open Library

structure PendingEdit where
  source : String
  /-- A version that no other queued edit has. -/
  targetParseVersion : Nat
  deriving DecidableEq, Repr

/-- The text of an open document. -/
def Compilation.openText (c : Compilation) (uri : Url) : Option String :=
  (c.documents.lookup uri).map (·.source)

/-- What `update_open_document` is about to publish. -/
inductive OpenPlan
  | unchanged
  /-- The file is known with the same text: only the open overlay takes it. -/
  | reuse (existing : ParsedDocument)
  | publish (document : ParsedDocument)
  deriving DecidableEq

namespace Env

variable (env : Env)

/-- `reuse_unchanged_open_document` and the parse, on one snapshot. -/
def planOpen (snap : Compilation) (uri : Url) (text : String) : OpenPlan :=
  let canonical := env.canonicalUri uri
  let existing := (snap.documents.lookup uri).or
    ((snap.workspaceDocuments.lookup canonical).or (snap.baseScriptsDocuments.lookup canonical))
  match existing.filter (fun document => document.source = text) with
  | some existing => if (snap.documents.lookup uri).isSome then .unchanged else .reuse existing
  | none =>
    match env.parse text with
    | none => .unchanged
    | some document => .publish document

def commitOpen (c : Compilation) (uri : Url) : OpenPlan → Compilation
  | .unchanged => c
  | .reuse existing => { c with documents := c.documents.insert uri existing }
  | .publish document => env.publishOpenDocument c uri document

def updateOpenDocument (c : Compilation) (uri : Url) (text : String) : Compilation :=
  env.commitOpen c uri (env.planOpen c uri text)

def processPendingEdit (c : Compilation) (uri : Url) (edit : PendingEdit) : Compilation :=
  match env.parse edit.source with
  | none => c
  | some document => env.publishOpenDocument c uri
      { document with parseVersion := .ofNat edit.targetParseVersion }

section

variable {env} {c : Compilation} {uri v : Url}

lemma lookup_publishOpenDocument (document : ParsedDocument) :
    (env.publishOpenDocument c uri document).documents.lookup v =
      if v = uri then some document else c.documents.lookup v := by
  unfold publishOpenDocument
  dsimp only
  rw [routeDocumentToIndex_documents]
  split_ifs with h
  · rw [h, AList.lookup_insert]
  · rw [AList.lookup_insert_ne h]

lemma openText_processPendingEdit (hparse : ∀ text, (env.parse text).isSome) (c : Compilation)
    (uri v : Url) (edit : PendingEdit) :
    (env.processPendingEdit c uri edit).openText v =
      if v = uri then some edit.source else c.openText v := by
  unfold processPendingEdit
  obtain ⟨document, hdocument⟩ := Option.isSome_iff_exists.mp (hparse edit.source)
  rw [hdocument]
  dsimp only
  rw [Compilation.openText, lookup_publishOpenDocument]
  split_ifs
  · exact congrArg some (env.source_parse _ document hdocument)
  · rfl

/-- Reused or parsed anew, the open document has the text it was given. -/
lemma openText_updateOpenDocument (hparse : ∀ text, (env.parse text).isSome) (c : Compilation)
    (uri v : Url) (text : String) :
    (env.updateOpenDocument c uri text).openText v =
      if v = uri then some text else c.openText v := by
  unfold updateOpenDocument planOpen
  dsimp only
  split
  · rename_i existing hexisting
    obtain ⟨hfound, hsource⟩ := Option.filter_eq_some_iff.mp hexisting
    split_ifs with hopen hv hv
    · subst hv
      obtain ⟨document, hdocument⟩ := Option.isSome_iff_exists.mp hopen
      rw [hdocument, Option.some_or] at hfound
      cases hfound
      simpa [commitOpen, Compilation.openText, hdocument] using hsource
    · rfl
    · subst hv
      simpa [commitOpen, Compilation.openText] using hsource
    · simp [commitOpen, Compilation.openText, AList.lookup_insert_ne hv]
  · obtain ⟨document, hdocument⟩ := Option.isSome_iff_exists.mp (hparse text)
    rw [hdocument]
    dsimp only [commitOpen]
    rw [Compilation.openText, lookup_publishOpenDocument]
    split_ifs
    · exact congrArg some (env.source_parse _ _ hdocument)
    · rfl

end

end Env

/-- What `_did_close` is about to publish. -/
inductive ClosePlan
  | dropLoose
  | dropExcluded
  /-- The buffer is the disk file: the index keeps it, and the cache takes it if it was older. -/
  | unedited (isBase : Bool) (refresh : Option ParsedDocument)
  | reindex (isBase : Bool) (parsed : Option ParsedDocument)
  deriving DecidableEq

namespace Env

variable (env : Env)

/-- The disk text that `reindex_closed_file` reads; a URL without a path has none. -/
def closedText (uri : Url) (diskText : Option String) : Option String :=
  if (env.urls.toFilePath uri).isSome then diskText else none

/-- The open document, if the cache is older than the buffer. -/
def staleCopy : Option ParsedDocument → Option ParsedDocument → Option ParsedDocument
  | some openDoc, some cached => if openDoc.source ≠ cached.source then some openDoc else none
  | some openDoc, none => some openDoc
  | none, _ => none

/-- The second snapshot of `reindex_closed_file`, behind the read of the disk. -/
def planClosed (snap : Compilation) (uri : Url) (priorSource diskText : Option String) :
    ClosePlan :=
  let canonical := env.canonicalUri uri
  let isBase := env.isBaseScriptUri uri
  if priorSource.isSome && priorSource == diskText then
    let cache := if isBase then snap.baseScriptsDocuments else snap.workspaceDocuments
    .unedited isBase (staleCopy (snap.documents.lookup uri) (cache.lookup canonical))
  else .reindex isBase (diskText.bind env.parse)

def commitClose (c : Compilation) (uri : Url) (plan : ClosePlan) : Compilation :=
  let canonical := env.canonicalUri uri
  let c := { c with documents := c.documents.erase uri }
  match plan with
  | .dropLoose =>
    { c with looseIndex := (env.removeDocumentAllSpellings c.looseIndex uri).2 }
  | .dropExcluded =>
    { c with workspaceIndex := (env.removeDocumentAllSpellings c.workspaceIndex uri).2 }
  | .unedited isBase refresh =>
    match refresh with
    | none => c
    | some document =>
      if isBase then
        { c with baseScriptsDocuments := c.baseScriptsDocuments.insert canonical document }
      else { c with workspaceDocuments := c.workspaceDocuments.insert canonical document }
  | .reindex isBase parsed =>
    if isBase then
      let (_, index, docs) :=
        env.reindexInto c.baseScriptsIndex c.baseScriptsDocuments uri canonical parsed
      { c with baseScriptsIndex := index, baseScriptsDocuments := docs }
    else
      let (_, index, docs) :=
        env.reindexInto c.workspaceIndex c.workspaceDocuments uri canonical parsed
      { c with workspaceIndex := index, workspaceDocuments := docs }

end Env

namespace Env

/-- Whether the URL is excluded, and the known files afterwards. -/
def isUriExcluded (env : Env) (knownFiles : List String) (uri : Url) : Bool × List String :=
  match env.urls.toFilePath uri with
  | none => (false, knownFiles)
  | some path =>
    if !underAny env.config.workspaceRoots path then (false, knownFiles)
    else if knownFiles.contains (env.canonicalUri uri) then (false, knownFiles)
    else if env.excludeMatches path then (true, knownFiles)
    else (false, env.canonicalUri uri :: knownFiles)

variable {env : Env} {knownFiles : List String} {uri : Url}

lemma isUriExcluded_eq_true : (env.isUriExcluded knownFiles uri).1 = true ↔
    ∃ path, env.urls.toFilePath uri = some path ∧ underAny env.config.workspaceRoots path = true ∧
      env.canonicalUri uri ∉ knownFiles ∧ env.excludeMatches path = true := by
  unfold isUriExcluded
  cases env.urls.toFilePath uri with
  | none => simp
  | some path =>
    dsimp only
    split_ifs <;> simp_all

lemma isUriExcluded_knownFiles : (env.isUriExcluded knownFiles uri).2 = knownFiles ∨
    ∃ path, env.urls.toFilePath uri = some path ∧ env.excludeMatches path = false ∧
      (env.isUriExcluded knownFiles uri).2 = env.canonicalUri uri :: knownFiles := by
  unfold isUriExcluded
  cases env.urls.toFilePath uri with
  | none => simp
  | some path =>
    dsimp only
    split_ifs <;> simp_all

lemma isUriExcluded_of_excluded (h : (env.isUriExcluded knownFiles uri).1 = true) :
    (env.isUriExcluded knownFiles uri).2 = knownFiles := by
  obtain ⟨path, hpath, -, -, hmatches⟩ := isUriExcluded_eq_true.mp h
  rcases @isUriExcluded_knownFiles env knownFiles uri with
    hsame | ⟨path', hpath', hno, -⟩
  · exact hsame
  · rw [hpath] at hpath'
    cases hpath'
    rw [hmatches] at hno
    cases hno

/-- Checking one URL decides nothing new about another. -/
lemma isUriExcluded_stable (v : Url) :
    (env.isUriExcluded (env.isUriExcluded knownFiles v).2 uri).1 =
      (env.isUriExcluded knownFiles uri).1 := by
  rcases @isUriExcluded_knownFiles env knownFiles v with
    hsame | ⟨path, hpath, hno, hcons⟩
  · rw [hsame]
  · rw [hcons, Bool.eq_iff_iff, isUriExcluded_eq_true, isUriExcluded_eq_true]
    constructor
    · rintro ⟨path', hpath', hunder, hnew, hmatches⟩
      exact ⟨path', hpath', hunder, fun hold => hnew (List.mem_cons_of_mem _ hold), hmatches⟩
    · rintro ⟨path', hpath', hunder, hnew, hmatches⟩
      refine ⟨path', hpath', hunder, fun hmem => ?_, hmatches⟩
      rcases List.mem_cons.mp hmem with hsame | hold
      · -- Two spellings of one file have one path, which is either excluded or not.
        have hpaths : env.urls.toFilePath uri = env.urls.toFilePath v := by
          rw [← env.urls.toFilePath_canonicalUri uri, ← env.urls.toFilePath_canonicalUri v]
          exact congrArg env.urls.toFilePath hsame
        rw [hpaths, hpath] at hpath'
        cases hpath'
        rw [hmatches] at hno
        cases hno
      · exact hnew hold

end Env

/-- The notification in progress. -/
inductive Handler
  | idle
  | opening (uri : Url) (plan : OpenPlan)
  /-- Holds the tree lock, with the latest text it has read. -/
  | changing (uri : Url) (batch : List ContentChange) (source : String)
  | closing (uri : Url) (priorSource diskText : Option String)
  | closingTo (uri : Url) (plan : ClosePlan)

def Handler.isIdle : Handler → Bool
  | idle => true
  | _ => false

def Handler.holdsTreeLock : Handler → Bool
  | changing .. => true
  | _ => false

def Handler.uri? : Handler → Option Url
  | .idle => none
  | .opening uri _ | .changing uri _ _ | .closing uri _ _ | .closingTo uri _ => some uri

/-- The background edit writer. -/
inductive Worker
  | asleep
  | collecting
  | next (uris : List Url)
  /-- Holds the tree lock, with the edit it has cloned. -/
  | processing (uri : Url) (edit : PendingEdit) (rest : List Url)
  | published (uri : Url) (target : Nat) (rest : List Url)

def Worker.holdsTreeLock : Worker → Bool
  | processing .. => true
  | _ => false

structure Server where
  compilation : Compilation := {}
  pendingEdits : AList (fun _ : Url => PendingEdit) := ∅
  knownFiles : List String := []
  nextVersion : Nat := 0
  editWriterSpawned : Bool := false
  /-- The permit stored by `notify_one`. -/
  editNotify : Bool := false
  handler : Handler := .idle
  worker : Worker := .asleep

def builtinUriPrefix : String := "witcherscript-builtin:/"

def isBuiltinUri (uri : Url) : Bool := builtinUriPrefix.toList.isPrefixOf uri.toList

namespace Server

inductive Event
  | openBegin (uri : Url) (text : String)
  | openCommit
  | changeBegin (uri : Url) (batch : List ContentChange)
  | changeFinish
  /-- With the text of the file on disk, if it can be read. -/
  | closeBegin (uri : Url) (diskText : Option String)
  | closeCheck
  | closeCommit
  | spawn
  | wake
  /-- The keys of the pending edits, in the order of the hash map. -/
  | collect (uris : List Url)
  | take
  | publish
  | release

def publishedText (s : Server) (uri : Url) : Option String := s.compilation.openText uri

/-- The text of `latest_edit_state`. -/
def latestEditState (s : Server) (uri : Url) : Option String :=
  match s.pendingEdits.lookup uri with
  | some pending => some pending.source
  | none => s.publishedText uri

def enqueueEdit (env : Env) (s : Server) (uri : Url) (source : String) : Server :=
  let edit : PendingEdit := ⟨source, s.nextVersion⟩
  let s := { s with nextVersion := s.nextVersion + 1 }
  if !s.editWriterSpawned then
    { s with compilation := env.processPendingEdit s.compilation uri edit }
  else { s with pendingEdits := s.pendingEdits.insert uri edit, editNotify := true }

def openBegin (env : Env) (s : Server) (uri : Url) (text : String) : Server :=
  if isBuiltinUri uri then s
  else
    let (excluded, knownFiles) := env.isUriExcluded s.knownFiles uri
    let s := { s with knownFiles }
    if excluded then s
    else { s with handler := .opening uri (env.planOpen s.compilation uri text) }

def changeBegin (env : Env) (s : Server) (uri : Url) (batch : List ContentChange) : Server :=
  if isBuiltinUri uri then s
  else
    let (excluded, knownFiles) := env.isUriExcluded s.knownFiles uri
    let s := { s with knownFiles }
    if excluded then s
    else match s.latestEditState uri with
      | none => s
      | some source => { s with handler := .changing uri batch source }

/-- The end of `_did_change`: a full replacement bypasses the queue. -/
def changeFinish (env : Env) (s : Server) (uri : Url) (batch : List ContentChange)
    (source : String) : Server :=
  let s := { s with handler := .idle }
  match applyBatch source true batch with
  | none => s
  | some (source, true) => s.enqueueEdit env uri source
  | some (source, false) =>
    { s with compilation := env.updateOpenDocument s.compilation uri source }

def closeBegin (env : Env) (s : Server) (uri : Url) (diskText : Option String) : Server :=
  if isBuiltinUri uri then s
  else if (env.fileScopeOf uri).isLoose then { s with handler := .closingTo uri .dropLoose }
  else
    let (excluded, knownFiles) := env.isUriExcluded s.knownFiles uri
    let s := { s with knownFiles }
    if excluded then { s with handler := .closingTo uri .dropExcluded }
    else
      { s with handler := .closing uri (s.publishedText uri) (env.closedText uri diskText) }

/-- One step; `none` when the event cannot happen. -/
def step (env : Env) (s : Server) : Event → Option Server
  | .openBegin uri text =>
    match s.handler with
    | .idle => some (s.openBegin env uri text)
    | _ => none
  | .openCommit =>
    match s.handler with
    | .opening uri plan =>
      some { s with handler := .idle, compilation := env.commitOpen s.compilation uri plan }
    | _ => none
  | .changeBegin uri batch =>
    match s.handler with
    | .idle => if s.worker.holdsTreeLock then none else some (s.changeBegin env uri batch)
    | _ => none
  | .changeFinish =>
    match s.handler with
    | .changing uri batch source => some (s.changeFinish env uri batch source)
    | _ => none
  | .closeBegin uri diskText =>
    match s.handler with
    | .idle => some (s.closeBegin env uri diskText)
    | _ => none
  | .closeCheck =>
    match s.handler with
    | .closing uri priorSource diskText =>
      some { s with
        handler := .closingTo uri (env.planClosed s.compilation uri priorSource diskText) }
    | _ => none
  | .closeCommit =>
    match s.handler with
    | .closingTo uri plan =>
      some { s with handler := .idle, compilation := env.commitClose s.compilation uri plan }
    | _ => none
  | .spawn => some { s with editWriterSpawned := true }
  | .wake =>
    match s.worker with
    | .asleep =>
      if s.editWriterSpawned && s.editNotify then
        some { s with worker := .collecting, editNotify := false }
      else none
    | _ => none
  | .collect uris =>
    match s.worker with
    | .collecting =>
      if uris.isPerm s.pendingEdits.keys then
        some { s with worker := if uris.isEmpty then .asleep else .next uris }
      else none
    | _ => none
  | .take =>
    match s.worker with
    | .next [] => some { s with worker := .collecting }
    | .next (uri :: rest) =>
      if s.handler.holdsTreeLock then none
      else match s.pendingEdits.lookup uri with
        | none => some { s with worker := .next rest }
        | some edit => some { s with worker := .processing uri edit rest }
    | _ => none
  | .publish =>
    match s.worker with
    | .processing uri edit rest =>
      some { s with
        compilation := env.processPendingEdit s.compilation uri edit
        worker := .published uri edit.targetParseVersion rest }
    | _ => none
  | .release =>
    match s.worker with
    | .published uri target rest =>
      let s := { s with worker := .next rest }
      match s.pendingEdits.lookup uri with
      | none => some s
      | some current =>
        if current.targetParseVersion = target then
          some { s with pendingEdits := s.pendingEdits.erase uri }
        else some s
    | _ => none

/-! ### What a step can do -/

/-- The steps with their guards, one constructor for each thing that can happen. -/
inductive Moves (env : Env) (s : Server) : Event → Server → Prop
  | openIgnored {uri text} : s.handler = .idle → Moves env s (.openBegin uri text) s
  | openBegin {uri text} : s.handler = .idle → (env.isUriExcluded s.knownFiles uri).1 = false →
      Moves env s (.openBegin uri text) { s with
        knownFiles := (env.isUriExcluded s.knownFiles uri).2
        handler := .opening uri (env.planOpen s.compilation uri text) }
  | openCommit {uri plan} : s.handler = .opening uri plan →
      Moves env s .openCommit
        { s with handler := .idle, compilation := env.commitOpen s.compilation uri plan }
  | changeIgnored {uri batch} : s.handler = .idle → Moves env s (.changeBegin uri batch) s
  | changeUnopened {uri batch} : s.handler = .idle → s.latestEditState uri = none →
      Moves env s (.changeBegin uri batch)
        { s with knownFiles := (env.isUriExcluded s.knownFiles uri).2 }
  | changeBegin {uri batch source} : s.handler = .idle →
      s.worker.holdsTreeLock = false → s.latestEditState uri = some source →
      Moves env s (.changeBegin uri batch) { s with
        knownFiles := (env.isUriExcluded s.knownFiles uri).2
        handler := .changing uri batch source }
  | changeOutOfRange {uri batch source} : s.handler = .changing uri batch source →
      applyBatch source true batch = none →
      Moves env s .changeFinish { s with handler := .idle }
  | changeProcessed {uri batch source next} : s.handler = .changing uri batch source →
      applyBatch source true batch = some (next, true) → s.editWriterSpawned = false →
      Moves env s .changeFinish { s with
        handler := .idle
        nextVersion := s.nextVersion + 1
        compilation := env.processPendingEdit s.compilation uri ⟨next, s.nextVersion⟩ }
  | changeQueued {uri batch source next} : s.handler = .changing uri batch source →
      applyBatch source true batch = some (next, true) → s.editWriterSpawned = true →
      Moves env s .changeFinish { s with
        handler := .idle
        nextVersion := s.nextVersion + 1
        pendingEdits := s.pendingEdits.insert uri ⟨next, s.nextVersion⟩
        editNotify := true }
  | changeReplaced {uri batch source next} : s.handler = .changing uri batch source →
      applyBatch source true batch = some (next, false) →
      Moves env s .changeFinish { s with
        handler := .idle
        compilation := env.updateOpenDocument s.compilation uri next }
  | closeIgnored {uri diskText} : s.handler = .idle → isBuiltinUri uri = true →
      Moves env s (.closeBegin uri diskText) s
  | closeLoose {uri diskText} : s.handler = .idle → (env.fileScopeOf uri).isLoose = true →
      Moves env s (.closeBegin uri diskText) { s with handler := .closingTo uri .dropLoose }
  | closeExcluded {uri diskText} : s.handler = .idle → (env.fileScopeOf uri).isLoose = false →
      (env.isUriExcluded s.knownFiles uri).1 = true →
      Moves env s (.closeBegin uri diskText) { s with handler := .closingTo uri .dropExcluded }
  | closeBegin {uri diskText} : s.handler = .idle → (env.fileScopeOf uri).isLoose = false →
      (env.isUriExcluded s.knownFiles uri).1 = false →
      Moves env s (.closeBegin uri diskText) { s with
        knownFiles := (env.isUriExcluded s.knownFiles uri).2
        handler := .closing uri (s.publishedText uri) (env.closedText uri diskText) }
  | closeCheck {uri priorSource diskText} : s.handler = .closing uri priorSource diskText →
      Moves env s .closeCheck { s with
        handler := .closingTo uri (env.planClosed s.compilation uri priorSource diskText) }
  | closeCommit {uri plan} : s.handler = .closingTo uri plan →
      Moves env s .closeCommit
        { s with handler := .idle, compilation := env.commitClose s.compilation uri plan }
  | spawn : Moves env s .spawn { s with editWriterSpawned := true }
  | wake : s.worker = .asleep →
      Moves env s .wake { s with worker := .collecting, editNotify := false }
  | collectNone {uris} : s.worker = .collecting →
      Moves env s (.collect uris) { s with worker := .asleep }
  | collect {uris} : s.worker = .collecting → uris.Perm s.pendingEdits.keys →
      Moves env s (.collect uris) { s with worker := .next uris }
  | takeNone : s.worker = .next [] → Moves env s .take { s with worker := .collecting }
  | takeGone {uri rest} : s.worker = .next (uri :: rest) →
      Moves env s .take { s with worker := .next rest }
  | take {uri rest edit} : s.worker = .next (uri :: rest) → s.handler.holdsTreeLock = false →
      s.pendingEdits.lookup uri = some edit →
      Moves env s .take { s with worker := .processing uri edit rest }
  | publish {uri edit rest} : s.worker = .processing uri edit rest →
      Moves env s .publish { s with
        compilation := env.processPendingEdit s.compilation uri edit
        worker := .published uri edit.targetParseVersion rest }
  | releaseKept {uri target rest} : s.worker = .published uri target rest →
      (∀ current, s.pendingEdits.lookup uri = some current →
        current.targetParseVersion ≠ target) →
      Moves env s .release { s with worker := .next rest }
  | release {uri target rest current} : s.worker = .published uri target rest →
      s.pendingEdits.lookup uri = some current → current.targetParseVersion = target →
      Moves env s .release
        { s with worker := .next rest, pendingEdits := s.pendingEdits.erase uri }

variable {env : Env} {s s' : Server}

/-- An excluded URL is already decided. -/
lemma with_knownFiles {uri : Url} (h : (env.isUriExcluded s.knownFiles uri).1 = true) :
    { s with knownFiles := (env.isUriExcluded s.knownFiles uri).2 } = s := by
  rw [Env.isUriExcluded_of_excluded h]

lemma moves_openBegin {uri : Url} {text : String} (hidle : s.handler = .idle) :
    Moves env s (.openBegin uri text) (s.openBegin env uri text) := by
  unfold openBegin
  split_ifs with hbuiltin
  · exact .openIgnored hidle
  · dsimp only
    split_ifs with hexcluded
    · rw [with_knownFiles hexcluded]
      exact .openIgnored hidle
    · exact .openBegin hidle (by simpa using hexcluded)

lemma moves_changeBegin {uri : Url} {batch : List ContentChange} (hidle : s.handler = .idle)
    (hlock : s.worker.holdsTreeLock = false) :
    Moves env s (.changeBegin uri batch) (s.changeBegin env uri batch) := by
  unfold changeBegin
  split_ifs with hbuiltin
  · exact .changeIgnored hidle
  · dsimp only
    split_ifs with hexcluded
    · rw [with_knownFiles hexcluded]
      exact .changeIgnored hidle
    · have hlatest' : ({ s with knownFiles := (env.isUriExcluded s.knownFiles uri).2 } :
          Server).latestEditState uri = s.latestEditState uri := rfl
      rw [hlatest']
      cases hlatest : s.latestEditState uri with
      | none => exact .changeUnopened hidle hlatest
      | some source => exact .changeBegin hidle hlock hlatest

lemma moves_changeFinish {uri : Url} {batch : List ContentChange} {source : String}
    (hchanging : s.handler = .changing uri batch source) :
    Moves env s .changeFinish (s.changeFinish env uri batch source) := by
  unfold changeFinish
  match happly : applyBatch source true batch with
  | none => exact .changeOutOfRange hchanging happly
  | some (next, false) => exact .changeReplaced hchanging happly
  | some (next, true) =>
    unfold enqueueEdit
    dsimp only
    split_ifs with hspawned
    · exact .changeProcessed hchanging happly (by simpa using hspawned)
    · exact .changeQueued hchanging happly (by simpa using hspawned)

lemma moves_closeBegin {uri : Url} {diskText : Option String} (hidle : s.handler = .idle) :
    Moves env s (.closeBegin uri diskText) (s.closeBegin env uri diskText) := by
  unfold closeBegin
  split_ifs with hbuiltin hloose
  · exact .closeIgnored hidle hbuiltin
  · exact .closeLoose hidle hloose
  · dsimp only
    split_ifs with hexcluded
    · rw [Env.isUriExcluded_of_excluded hexcluded]
      exact .closeExcluded hidle (by simpa using hloose) hexcluded
    · exact .closeBegin hidle (by simpa using hloose) (by simpa using hexcluded)

theorem moves_of_step {e : Event} (h : s.step env e = some s') : Moves env s e s' := by
  cases e with
  | openBegin uri text =>
    simp only [step] at h
    split at h
    · cases h
      exact moves_openBegin ‹_›
    · cases h
  | openCommit =>
    simp only [step] at h
    split at h
    · cases h
      exact .openCommit ‹_›
    · cases h
  | changeBegin uri batch =>
    simp only [step] at h
    split at h
    · split_ifs at h with hlock
      cases h
      exact moves_changeBegin ‹_› (by simpa using hlock)
    · cases h
  | changeFinish =>
    simp only [step] at h
    split at h
    · cases h
      exact moves_changeFinish ‹_›
    · cases h
  | closeBegin uri diskText =>
    simp only [step] at h
    split at h
    · cases h
      exact moves_closeBegin ‹_›
    · cases h
  | closeCheck =>
    simp only [step] at h
    split at h
    · cases h
      exact .closeCheck ‹_›
    · cases h
  | closeCommit =>
    simp only [step] at h
    split at h
    · cases h
      exact .closeCommit ‹_›
    · cases h
  | spawn =>
    cases h
    exact .spawn
  | wake =>
    simp only [step] at h
    split at h
    · split_ifs at h
      cases h
      exact .wake ‹_›
    · cases h
  | collect uris =>
    simp only [step] at h
    split at h
    · split_ifs at h with hperm hempty
      · cases h
        exact .collectNone ‹_›
      · cases h
        exact .collect ‹_› (List.isPerm_iff.mp hperm)
    · cases h
  | take =>
    simp only [step] at h
    split at h
    · cases h
      exact .takeNone ‹_›
    · split_ifs at h with hlock
      split at h
      · cases h
        exact .takeGone ‹_›
      · cases h
        exact .take ‹_› (by simpa using hlock) ‹_›
    · cases h
  | publish =>
    simp only [step] at h
    split at h
    · cases h
      exact .publish ‹_›
    · cases h
  | release =>
    simp only [step] at h
    split at h
    · split at h
      · cases h
        exact .releaseKept ‹_› (by simp_all)
      · split_ifs at h with htarget
        · cases h
          exact .release ‹_› ‹_› htarget
        · cases h
          exact .releaseKept ‹_› (by simp_all)
    · cases h

end Server

end WitcherScriptLanguage
