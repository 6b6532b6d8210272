import WitcherScriptLanguage.Resolve.WorkspaceIndex

/-!
# The published compilation

The state that the language server publishes (`compilation.rs`), the classification of a file by
its path (`file_scope.rs`) and the operations that put a document into one of the three indexes
and take it out again (`indexing/helpers.rs`, `indexing/open_documents.rs`).
-/

namespace WitcherScriptLanguage

abbrev Url := String

/-- The components of a path. -/
abbrev FilePath := List String

/-- `Url::to_file_path` and `Url::from_file_path`: a URL made from a path leads back to it. -/
structure FileUrls where
  toFilePath : Url → Option FilePath
  fromFilePath : FilePath → Option Url
  toFilePath_fromFilePath : ∀ path url, fromFilePath path = some url → toFilePath url = some path

namespace FileUrls

variable (urls : FileUrls)

def canonicalUri (uri : Url) : String :=
  match urls.toFilePath uri with
  | none => uri
  | some path => (urls.fromFilePath path).getD uri

lemma toFilePath_canonicalUri (uri : Url) :
    urls.toFilePath (urls.canonicalUri uri) = urls.toFilePath uri := by
  unfold canonicalUri
  cases hpath : urls.toFilePath uri with
  | none => exact hpath
  | some path =>
    cases hurl : urls.fromFilePath path with
    | none => simpa [hurl] using hpath
    | some url => simpa [hurl] using urls.toFilePath_fromFilePath path url hurl

@[simp] lemma canonicalUri_canonicalUri (uri : Url) :
    urls.canonicalUri (urls.canonicalUri uri) = urls.canonicalUri uri := by
  have hpath := urls.toFilePath_canonicalUri uri
  cases huri : urls.toFilePath uri with
  | none =>
    have hself : urls.canonicalUri uri = uri := by simp [canonicalUri, huri]
    rw [hself, hself]
  | some path =>
    rw [huri] at hpath
    cases hurl : urls.fromFilePath path with
    | none => simp [canonicalUri, huri, hurl]
    | some url =>
      have hcanonical : urls.canonicalUri uri = url := by simp [canonicalUri, huri, hurl]
      rw [hcanonical] at hpath ⊢
      simp [canonicalUri, hpath, hurl]

end FileUrls

inductive FileScope
  | inProject | legacyOverride | legacyNew | additionalBase | outOfScope | singleFile
  deriving DecidableEq, Repr

def FileScope.isLoose : FileScope → Bool
  | .outOfScope | .singleFile => true
  | _ => false

/-- The directories that the scope of a file depends on. -/
structure ScopeConfig where
  workspaceRoots : List FilePath
  legacyScriptDirs : List FilePath
  /-- The keys of the map from a legacy file to the base script that it replaces. -/
  legacyReplacements : List String
  baseScriptsDir : Option FilePath
  additionalScriptDirs : List FilePath

/-- `path.starts_with(dir)` for one of the directories. -/
def underAny (dirs : List FilePath) (path : FilePath) : Bool :=
  dirs.any fun dir => dir.isPrefixOf path

def classifyFileScope (urls : FileUrls) (config : ScopeConfig) (uri : Url) : FileScope :=
  let loose := if config.workspaceRoots.isEmpty then FileScope.singleFile else .outOfScope
  match urls.toFilePath uri with
  | none => loose
  | some path =>
    if underAny config.workspaceRoots path then .inProject
    else if underAny config.legacyScriptDirs path then
      if config.legacyReplacements.contains (urls.canonicalUri uri) then .legacyOverride
      else .legacyNew
    else if underAny config.baseScriptsDir.toList path then .additionalBase
    else if underAny config.additionalScriptDirs path then .additionalBase
    else loose

inductive IndexKind
  | workspace | loose | base
  deriving DecidableEq, Repr

/-- The index that a scope selects. -/
def FileScope.indexKind : FileScope → IndexKind
  | .additionalBase => .base
  | .outOfScope | .singleFile => .loose
  | .inProject | .legacyOverride | .legacyNew => .workspace

/-- The scope of a file is that of its canonical spelling. -/
lemma classifyFileScope_canonicalUri (urls : FileUrls) (config : ScopeConfig) (uri : Url) :
    classifyFileScope urls config (urls.canonicalUri uri) = classifyFileScope urls config uri := by
  simp only [classifyFileScope, urls.toFilePath_canonicalUri, FileUrls.canonicalUri_canonicalUri]

namespace WorkspaceIndex

/-- The contribution of an indexed document, as the per-document maps hold it. -/
def entry (ix : WorkspaceIndex) (uri : String) : Option DocContribution := do
  let symbols ← ix.documents.lookup uri
  let idents ← ix.docIdents.lookup uri
  let surfaceHash ← ix.docSurfaceHashes.lookup uri
  let outward ← ix.docOutwardHashes.lookup uri
  some { symbols, idents, surfaceHash, outward }

lemma entry_forgetCatalog (ix : WorkspaceIndex) (uri : String) :
    ix.forgetCatalog.entry uri = ix.entry uri := rfl

lemma entry_noteChangedKeys (ix : WorkspaceIndex) (keys : List ObservedKey) (uri : String) :
    (ix.noteChangedKeys keys).entry uri = ix.entry uri := by
  rw [← entry_forgetCatalog, forgetCatalog_noteChangedKeys, entry_forgetCatalog]

lemma entry_beginBulk (ix : WorkspaceIndex) (uri : String) :
    ix.beginBulkCatalogUpdate.entry uri = ix.entry uri := rfl

lemma entry_endBulk (ix : WorkspaceIndex) (uri : String) :
    ix.endBulkCatalogUpdate.entry uri = ix.entry uri := by
  rw [← entry_forgetCatalog, forgetCatalog_endBulk, entry_forgetCatalog]

lemma entry_removeFromIndices (ix : WorkspaceIndex) (uri key : String) :
    (ix.removeFromIndices uri).entry key = ix.entry key := by
  rw [removeFromIndices_eq]
  rfl

/-- Applying a contribution sets the entry of its document and no other. -/
lemma entry_applyContribution (ix : WorkspaceIndex) (uri : String) (c : DocContribution)
    (key : String) :
    (ix.applyContribution uri c).2.entry key = if key = uri then some c else ix.entry key := by
  unfold applyContribution
  dsimp only
  rw [entry_noteChangedKeys]
  split_ifs with hkey
  · subst hkey
    simp [entry]
  · have hold := entry_removeFromIndices ix uri key
    simpa [entry, AList.lookup_insert_ne hkey, AList.lookup_erase_ne hkey] using hold

lemma entry_updateDocument (H : Hasher) (ix : WorkspaceIndex) (uri : String)
    (document : ParsedDocument) (key : String) :
    (ix.updateDocument H uri document).2.entry key =
      if key = uri then some (computeContribution H uri document) else ix.entry key :=
  entry_applyContribution ix uri _ key

lemma entry_removeDocument (ix : WorkspaceIndex) (uri key : String) :
    (ix.removeDocument uri).2.entry key = if key = uri then none else ix.entry key := by
  unfold removeDocument
  dsimp only
  rw [entry_noteChangedKeys]
  split_ifs with hkey
  · subst hkey
    simp [entry]
  · have hold := entry_removeFromIndices ix uri key
    simpa [entry, AList.lookup_erase_ne hkey] using hold

end WorkspaceIndex

abbrev DocumentMap := AList (fun _ : String => ParsedDocument)

/-- The indexes, the open documents under the client's URLs, and the parsed files of the
workspace and of the base scripts under their canonical URIs. -/
structure Compilation where
  workspaceIndex : WorkspaceIndex := {}
  looseIndex : WorkspaceIndex := {}
  baseScriptsIndex : WorkspaceIndex := {}
  documents : DocumentMap := ∅
  workspaceDocuments : DocumentMap := ∅
  baseScriptsDocuments : DocumentMap := ∅

def Compilation.index (c : Compilation) : IndexKind → WorkspaceIndex
  | .workspace => c.workspaceIndex
  | .loose => c.looseIndex
  | .base => c.baseScriptsIndex

/-- What the server's operations on documents depend on and do not change. -/
structure Env where
  urls : FileUrls
  hasher : Hasher
  config : ScopeConfig
  /-- `parse_document`, which keeps the text it parses. -/
  parse : String → Option ParsedDocument
  source_parse : ∀ text document, parse text = some document → document.source = text
  /-- `ExcludeFilter::matches` -/
  excludeMatches : FilePath → Bool

namespace Env

variable (env : Env)

def canonicalUri (uri : Url) : String := env.urls.canonicalUri uri

def fileScopeOf (uri : Url) : FileScope := classifyFileScope env.urls env.config uri

def isBaseScriptUri (uri : Url) : Bool := env.fileScopeOf uri = .additionalBase

/-- What the document contributes under a key. -/
def contribution (key : String) (document : ParsedDocument) : DocContribution :=
  WorkspaceIndex.computeContribution env.hasher key document

@[simp] lemma canonicalUri_canonicalUri (uri : Url) :
    env.canonicalUri (env.canonicalUri uri) = env.canonicalUri uri :=
  env.urls.canonicalUri_canonicalUri uri

lemma fileScopeOf_canonicalUri (uri : Url) :
    env.fileScopeOf (env.canonicalUri uri) = env.fileScopeOf uri :=
  classifyFileScope_canonicalUri env.urls env.config uri

def indexOpenDocument (index : WorkspaceIndex) (uri : Url) (document : ParsedDocument) :
    List ObservedKey × WorkspaceIndex :=
  let canonical := env.canonicalUri uri
  let (changed, index) := if canonical ≠ uri then index.removeDocument uri else ([], index)
  let (changed', index) := index.updateDocument env.hasher canonical document
  (changed ++ changed', index)

def removeDocumentAllSpellings (index : WorkspaceIndex) (uri : Url) :
    List ObservedKey × WorkspaceIndex :=
  let (changed, index) := index.removeDocument uri
  let canonical := env.canonicalUri uri
  if canonical ≠ uri then
    let (changed', index) := index.removeDocument canonical
    (changed ++ changed', index)
  else (changed, index)

/-- A closed file reverts to disk content, re-keyed from the open spelling to canonical. -/
def reindexInto (index : WorkspaceIndex) (docs : DocumentMap) (clientUri canonical : String)
    (parsed : Option ParsedDocument) : List ObservedKey × WorkspaceIndex × DocumentMap :=
  let (changed, index) :=
    if clientUri ≠ canonical then index.removeDocument clientUri else ([], index)
  match parsed with
  | some document =>
    let (changed', index) := index.updateDocument env.hasher canonical document
    (changed ++ changed', index, docs.insert canonical document)
  | none =>
    let (changed', index) := index.removeDocument canonical
    (changed ++ changed', index, docs.erase canonical)

/-- The changed keys of the workspace and of the loose index, and the new compilation. -/
def routeDocumentToIndex (builder : Compilation) (uri : Url) (scope : FileScope)
    (document : ParsedDocument) : (List ObservedKey × List ObservedKey) × Compilation :=
  match scope with
  | .additionalBase =>
    let (ws, workspaceIndex) := env.removeDocumentAllSpellings builder.workspaceIndex uri
    let (loose, looseIndex) := env.removeDocumentAllSpellings builder.looseIndex uri
    let (_, baseScriptsIndex) := env.indexOpenDocument builder.baseScriptsIndex uri document
    ((ws, loose), { builder with workspaceIndex, looseIndex, baseScriptsIndex })
  | .outOfScope | .singleFile =>
    let (ws, workspaceIndex) := env.removeDocumentAllSpellings builder.workspaceIndex uri
    let (_, baseScriptsIndex) := env.removeDocumentAllSpellings builder.baseScriptsIndex uri
    let (loose, looseIndex) := env.indexOpenDocument builder.looseIndex uri document
    ((ws, loose), { builder with workspaceIndex, looseIndex, baseScriptsIndex })
  | _ =>
    let (_, baseScriptsIndex) := env.removeDocumentAllSpellings builder.baseScriptsIndex uri
    let (loose, looseIndex) := env.removeDocumentAllSpellings builder.looseIndex uri
    let (ws, workspaceIndex) := env.indexOpenDocument builder.workspaceIndex uri document
    ((ws, loose), { builder with workspaceIndex, looseIndex, baseScriptsIndex })

/-- The edit of the compilation in `publish_open_document_indices`. -/
def publishOpenDocument (builder : Compilation) (uri : Url) (document : ParsedDocument) :
    Compilation :=
  let builder := (env.routeDocumentToIndex builder uri (env.fileScopeOf uri) document).2
  { builder with documents := builder.documents.insert uri document }

variable {env}

/-- Dropping the client's spelling leaves the canonical one alone. -/
lemma entry_dropSpelling (index : WorkspaceIndex) {uri canonical : Url} {key : String}
    (hcanonical : key ≠ canonical) :
    (if canonical ≠ uri then index.removeDocument uri else ([], index)).2.entry key =
      if key = uri then none else index.entry key := by
  split_ifs with hspelling huri huri
  · rw [WorkspaceIndex.entry_removeDocument, if_pos huri]
  · rw [WorkspaceIndex.entry_removeDocument, if_neg huri]
  · exact absurd (huri.trans (not_not.mp hspelling).symm) hcanonical
  · rfl

lemma entry_indexOpenDocument (index : WorkspaceIndex) (uri : Url) (document : ParsedDocument)
    (key : String) :
    (env.indexOpenDocument index uri document).2.entry key =
      if key = env.canonicalUri uri then some (env.contribution key document)
      else if key = uri then none else index.entry key := by
  unfold indexOpenDocument
  dsimp only
  rw [WorkspaceIndex.entry_updateDocument]
  by_cases hcanonical : key = env.canonicalUri uri
  · rw [if_pos hcanonical, if_pos hcanonical, hcanonical]
    rfl
  · rw [if_neg hcanonical, if_neg hcanonical]
    exact entry_dropSpelling index hcanonical

lemma entry_removeDocumentAllSpellings (index : WorkspaceIndex) (uri : Url) (key : String) :
    (env.removeDocumentAllSpellings index uri).2.entry key =
      if key = env.canonicalUri uri then none else if key = uri then none
      else index.entry key := by
  unfold removeDocumentAllSpellings
  dsimp only
  split_ifs with hspelling hcanonical huri hcanonical huri
  · rw [WorkspaceIndex.entry_removeDocument, if_pos hcanonical]
  · rw [WorkspaceIndex.entry_removeDocument, if_neg hcanonical,
      WorkspaceIndex.entry_removeDocument, if_pos huri]
  · rw [WorkspaceIndex.entry_removeDocument, if_neg hcanonical,
      WorkspaceIndex.entry_removeDocument, if_neg huri]
  · rw [WorkspaceIndex.entry_removeDocument, if_pos (hcanonical.trans (not_not.mp hspelling))]
  · rw [WorkspaceIndex.entry_removeDocument, if_pos huri]
  · rw [WorkspaceIndex.entry_removeDocument, if_neg huri]

/-- Routing leaves the document in the index that its scope selects and in no other. -/
theorem entry_routeDocumentToIndex (builder : Compilation) (uri : Url) (scope : FileScope)
    (document : ParsedDocument) (kind : IndexKind) (key : String) :
    ((env.routeDocumentToIndex builder uri scope document).2.index kind).entry key =
      if key = env.canonicalUri uri then
        if kind = scope.indexKind then some (env.contribution key document) else none
      else if key = uri then none
      else (builder.index kind).entry key := by
  cases scope <;> cases kind <;>
    simp [routeDocumentToIndex, FileScope.indexKind, Compilation.index, entry_indexOpenDocument,
      entry_removeDocumentAllSpellings]

lemma routeDocumentToIndex_documents (builder : Compilation) (uri : Url) (scope : FileScope)
    (document : ParsedDocument) :
    (env.routeDocumentToIndex builder uri scope document).2.documents = builder.documents := by
  cases scope <;> rfl

lemma routeDocumentToIndex_workspaceDocuments (builder : Compilation) (uri : Url)
    (scope : FileScope) (document : ParsedDocument) :
    (env.routeDocumentToIndex builder uri scope document).2.workspaceDocuments =
      builder.workspaceDocuments := by
  cases scope <;> rfl

lemma routeDocumentToIndex_baseScriptsDocuments (builder : Compilation) (uri : Url)
    (scope : FileScope) (document : ParsedDocument) :
    (env.routeDocumentToIndex builder uri scope document).2.baseScriptsDocuments =
      builder.baseScriptsDocuments := by
  cases scope <;> rfl

lemma entry_reindexInto (index : WorkspaceIndex) (docs : DocumentMap) (uri : Url)
    (parsed : Option ParsedDocument) (key : String) :
    (env.reindexInto index docs uri (env.canonicalUri uri) parsed).2.1.entry key =
      if key = env.canonicalUri uri then parsed.map (env.contribution key)
      else if key = uri then none else index.entry key := by
  have hdrop : key ≠ env.canonicalUri uri →
      (if uri ≠ env.canonicalUri uri then index.removeDocument uri else ([], index)).2.entry key =
        if key = uri then none else index.entry key := by
    intro hcanonical
    rw [← entry_dropSpelling index hcanonical]
    simp only [ne_comm]
  unfold reindexInto
  cases parsed with
  | none =>
    dsimp only
    rw [WorkspaceIndex.entry_removeDocument]
    by_cases hcanonical : key = env.canonicalUri uri
    · rw [if_pos hcanonical, if_pos hcanonical]
      rfl
    · rw [if_neg hcanonical, if_neg hcanonical]
      exact hdrop hcanonical
  | some document =>
    dsimp only
    rw [WorkspaceIndex.entry_updateDocument]
    by_cases hcanonical : key = env.canonicalUri uri
    · rw [if_pos hcanonical, if_pos hcanonical, hcanonical]
      rfl
    · rw [if_neg hcanonical, if_neg hcanonical]
      exact hdrop hcanonical

lemma lookup_reindexInto (index : WorkspaceIndex) (docs : DocumentMap) (uri : Url)
    (parsed : Option ParsedDocument) (key : String) :
    (env.reindexInto index docs uri (env.canonicalUri uri) parsed).2.2.lookup key =
      if key = env.canonicalUri uri then parsed else docs.lookup key := by
  unfold reindexInto
  cases parsed with
  | none =>
    dsimp only
    split_ifs with hcanonical
    · rw [hcanonical, AList.lookup_erase]
    · rw [AList.lookup_erase_ne hcanonical]
  | some document =>
    dsimp only
    split_ifs with hcanonical
    · rw [hcanonical, AList.lookup_insert]
    · rw [AList.lookup_insert_ne hcanonical]

end Env

/-- URLs are their own one-component paths. -/
def flatUrls : FileUrls where
  toFilePath uri := some [uri]
  fromFilePath
    | [uri] => some uri
    | _ => none
  toFilePath_fromFilePath path url h := by
    match path with
    | [] => cases h
    | [uri] =>
      cases h
      rfl
    | _ :: _ :: _ => cases h

/-- Every text parses to a document without symbols, and nothing is excluded. -/
def flatEnv (config : ScopeConfig) : Env where
  urls := flatUrls
  hasher := ⟨fun _ => 0, fun _ _ => 0, fun _ _ => 0⟩
  config := config
  parse text := some { source := text, symbols := [] }
  source_parse text document h := by
    cases h
    rfl
  excludeMatches _ := false

/-- The configuration without a single directory. -/
def noDirs : ScopeConfig where
  workspaceRoots := []
  legacyScriptDirs := []
  legacyReplacements := []
  baseScriptsDir := none
  additionalScriptDirs := []

end WitcherScriptLanguage
