import WitcherScriptLanguage.Resolve.Indices

/-!
# The workspace index

State and operations of `WorkspaceIndex` (`resolve/workspace_index/mod.rs`, `subscribers.rs`,
`completion_catalog.rs`): the contribution of one document, its application and removal, the
outward keys that each of them reports, and the cached completion catalog.
-/

namespace WitcherScriptLanguage

open Library

/-- What `hash_symbol_fields` writes into the hasher. -/
structure SymbolFields where
  name : String
  kind : SymbolKind
  containerName : Option String
  typeAnnotation : Option ScriptType
  baseClass : Option String
  ownerClass : Option String
  flavour : Option FuncFlavour
  annotations : List Annotation
  access : AccessLevel
  specifiers : Specifiers
  deriving DecidableEq, Repr

def Symbol.fields (s : Symbol) : SymbolFields where
  name := s.name
  kind := s.kind
  containerName := s.containerName
  typeAnnotation := s.typeAnnotation
  baseClass := s.baseClass
  ownerClass := s.ownerClass
  flavour := s.flavour
  annotations := s.annotations
  access := s.access
  specifiers := s.specifiers

/-- `DefaultHasher` on the three streams the index feeds it: one symbol, one parameter with its
ordinal, and one document with its URI. It is a fixed function within a process. -/
structure Hasher where
  symbol : SymbolFields → UInt64
  parameter : UInt64 → SymbolFields → UInt64
  document : String → List SymbolFields → UInt64

inductive ObservedKey
  | topLevel (name : String)
  | member (container name : String)
  | enumMember (name : String)
  deriving DecidableEq, Repr

def isOutwardVisible (s : Symbol) : Bool :=
  match s.kind with
  | .variable | .parameter => false
  | _ => true

def outwardKeyFor (s : Symbol) : ObservedKey :=
  if s.container.isNone then .topLevel s.name
  else if s.kind = .enumMember then .enumMember s.name
  else .member (s.containerName.getD "") s.name

abbrev OutwardHashes := AList (fun _ : ObservedKey => UInt64)

/-- `out.entry(key).and_modify(|h| *h ^= hash).or_insert(hash)` -/
def OutwardHashes.fold (out : OutwardHashes) (key : ObservedKey) (hash : UInt64) : OutwardHashes :=
  out.insert key (match out.lookup key with
    | some h => h ^^^ hash
    | none => hash)

/-- One step of the parameter loop of `outward_hash_map`; the second component counts the
parameters already seen of each callable. -/
def foldParameter (H : Hasher) (symbols : List Symbol)
    (acc : OutwardHashes × AList (fun _ : SymbolId => UInt64)) (s : Symbol) :
    OutwardHashes × AList (fun _ : SymbolId => UInt64) :=
  match s.container.bind (fun id => symbols[id.val]?) with
  | none => acc
  | some callable =>
    let ordinal := (acc.2.lookup callable.id).getD 0
    (acc.1.fold (outwardKeyFor callable) (H.parameter ordinal s.fields),
      acc.2.insert callable.id (ordinal + 1))

def outwardHashMap (H : Hasher) (symbols : List Symbol) : OutwardHashes :=
  let out := (symbols.filter isOutwardVisible).foldl
    (fun out s => out.fold (outwardKeyFor s) (H.symbol s.fields)) ∅
  ((symbols.filter (fun s => s.kind = .parameter)).foldl (foldParameter H symbols) (out, ∅)).1

def docSurfaceHash (H : Hasher) (uri : String) (symbols : List Symbol) : UInt64 :=
  H.document uri ((symbols.filter (fun s => s.kind ≠ .variable)).map Symbol.fields)

def diffOutwardKeys (prev : Option OutwardHashes) (next : OutwardHashes) : List ObservedKey :=
  match prev with
  | none => next.keys
  | some prev =>
    next.keys.filter (fun k => prev.lookup k ≠ next.lookup k) ++
      prev.keys.filter (fun k => k ∉ next.keys)

structure CompletionCatalog where
  callables : List Definition := []
  types : List Definition := []
  enumMembers : List Definition := []
  deriving DecidableEq

def globalCatalogChanged (keys : List ObservedKey) : Bool :=
  keys.any fun
    | .topLevel _ | .enumMember _ => true
    | .member .. => false

def isCatalogCallable (d : Definition) : Bool :=
  d.symbol.kind = .function && !(d.symbol.flavour = some .exec || d.symbol.flavour = some .quest)

def buildCallables (topLevel : BucketMap String Definition) : List Definition :=
  (topLevel.entries.flatMap (·.2)).filter isCatalogCallable

def buildTypes (topLevel : BucketMap String Definition) : List Definition :=
  (topLevel.entries.flatMap (·.2)).filter (fun d => d.symbol.kind.isType)

def buildEnumMembers (enumMemberByName : BucketMap String Definition) : List Definition :=
  enumMemberByName.entries.filterMap (fun s => s.2.getLast?)

/-- The parts of a parsed document that the index reads: its text, its symbol table, and the
identifier leaves of its tree with their byte ranges. -/
structure ParsedDocument where
  source : String
  symbols : List Symbol
  identLeaves : List (String × ByteRange) := []
  parseVersion : UInt64 := 0
  deriving DecidableEq, Repr

structure DocContribution where
  symbols : List Symbol
  idents : BucketMap String ByteRange
  surfaceHash : UInt64
  outward : OutwardHashes

def scanIdentOccurrences (document : ParsedDocument) : BucketMap String ByteRange :=
  document.identLeaves.foldl (fun map leaf => map.push leaf.1 leaf.2) ∅

structure WorkspaceIndex extends Indices where
  documents : AList (fun _ : String => List Symbol) := ∅
  docIdents : AList (fun _ : String => BucketMap String ByteRange) := ∅
  docSurfaceHashes : AList (fun _ : String => UInt64) := ∅
  surfaceHash : UInt64 := 0
  generation : UInt64 := 0
  docOutwardHashes : AList (fun _ : String => OutwardHashes) := ∅
  completionCatalog : CompletionCatalog := {}
  completionCatalogDirty : Bool := false
  catalogRebuildSuppressed : Nat := 0

namespace WorkspaceIndex

def computeContribution (H : Hasher) (uri : String) (document : ParsedDocument) :
    DocContribution where
  symbols := document.symbols
  idents := scanIdentOccurrences document
  surfaceHash := docSurfaceHash H uri document.symbols
  outward := outwardHashMap H document.symbols

def rebuildCompletionCatalog (ix : WorkspaceIndex) : WorkspaceIndex :=
  { ix with
    completionCatalog := {
      callables := buildCallables ix.topLevelByName
      types := buildTypes ix.topLevelByName
      enumMembers := buildEnumMembers ix.enumMemberByName }
    completionCatalogDirty := false }

def maybeRebuildCompletionCatalog (ix : WorkspaceIndex) : WorkspaceIndex :=
  if ix.completionCatalogDirty && ix.catalogRebuildSuppressed == 0 then
    ix.rebuildCompletionCatalog
  else ix

/-- The tail shared by `apply_contribution` and `remove_document`. -/
def noteChangedKeys (ix : WorkspaceIndex) (changedKeys : List ObservedKey) : WorkspaceIndex :=
  if globalCatalogChanged changedKeys then
    { ix with completionCatalogDirty := true }.maybeRebuildCompletionCatalog
  else ix

def removeFromIndices (ix : WorkspaceIndex) (uri : String) : WorkspaceIndex :=
  match ix.documents.lookup uri with
  | none => ix
  | some oldSymbols => { ix with toIndices := ix.toIndices.removeSymbols uri oldSymbols }

def applyContribution (ix : WorkspaceIndex) (uri : String) (contribution : DocContribution) :
    List ObservedKey × WorkspaceIndex :=
  let ix := ix.removeFromIndices uri
  let changedKeys := diffOutwardKeys (ix.docOutwardHashes.lookup uri) contribution.outward
  let ix := { ix with
    toIndices := ix.toIndices.insertIntoIndices uri contribution.symbols
    docIdents := (ix.docIdents.erase uri).insert uri contribution.idents
    docSurfaceHashes := ix.docSurfaceHashes.insert uri contribution.surfaceHash
    surfaceHash := (match ix.docSurfaceHashes.lookup uri with
      | some oldHash => ix.surfaceHash ^^^ oldHash
      | none => ix.surfaceHash) ^^^ contribution.surfaceHash
    docOutwardHashes := ix.docOutwardHashes.insert uri contribution.outward
    documents := ix.documents.insert uri contribution.symbols
    generation := ix.generation + 1 }
  (changedKeys, ix.noteChangedKeys changedKeys)

def updateDocument (H : Hasher) (ix : WorkspaceIndex) (uri : String) (document : ParsedDocument) :
    List ObservedKey × WorkspaceIndex :=
  ix.applyContribution uri (computeContribution H uri document)

def removeDocument (ix : WorkspaceIndex) (uri : String) : List ObservedKey × WorkspaceIndex :=
  let ix := ix.removeFromIndices uri
  let changedKeys := ((ix.docOutwardHashes.lookup uri).map AList.keys).getD []
  let ix := { ix with
    docIdents := ix.docIdents.erase uri
    documents := ix.documents.erase uri
    docSurfaceHashes := ix.docSurfaceHashes.erase uri
    surfaceHash := match ix.docSurfaceHashes.lookup uri with
      | some oldHash => ix.surfaceHash ^^^ oldHash
      | none => ix.surfaceHash
    docOutwardHashes := ix.docOutwardHashes.erase uri
    generation := ix.generation + 1 }
  (changedKeys, ix.noteChangedKeys changedKeys)

/-- `u32::MAX`, where `saturating_add` stops. -/
def maxSuppressed : Nat := 2 ^ 32 - 1

def beginBulkCatalogUpdate (ix : WorkspaceIndex) : WorkspaceIndex :=
  { ix with catalogRebuildSuppressed := min (ix.catalogRebuildSuppressed + 1) maxSuppressed }

def endBulkCatalogUpdate (ix : WorkspaceIndex) : WorkspaceIndex :=
  { ix with
    catalogRebuildSuppressed := ix.catalogRebuildSuppressed - 1 }.maybeRebuildCompletionCatalog

/-- The state without its catalog. -/
def forgetCatalog (ix : WorkspaceIndex) : WorkspaceIndex :=
  { ix with
    completionCatalog := {}
    completionCatalogDirty := false
    catalogRebuildSuppressed := 0 }

@[simp] lemma forgetCatalog_maybeRebuild (ix : WorkspaceIndex) :
    ix.maybeRebuildCompletionCatalog.forgetCatalog = ix.forgetCatalog := by
  unfold maybeRebuildCompletionCatalog
  split_ifs <;> rfl

@[simp] lemma forgetCatalog_noteChangedKeys (ix : WorkspaceIndex) (keys : List ObservedKey) :
    (ix.noteChangedKeys keys).forgetCatalog = ix.forgetCatalog := by
  unfold noteChangedKeys
  split_ifs
  · rw [forgetCatalog_maybeRebuild]
    rfl
  · rfl

@[simp] lemma forgetCatalog_beginBulk (ix : WorkspaceIndex) :
    ix.beginBulkCatalogUpdate.forgetCatalog = ix.forgetCatalog := rfl

@[simp] lemma forgetCatalog_endBulk (ix : WorkspaceIndex) :
    ix.endBulkCatalogUpdate.forgetCatalog = ix.forgetCatalog := by
  rw [endBulkCatalogUpdate, forgetCatalog_maybeRebuild]
  rfl

@[simp] lemma toIndices_noteChangedKeys (ix : WorkspaceIndex) (keys : List ObservedKey) :
    (ix.noteChangedKeys keys).toIndices = ix.toIndices := by
  have h := congrArg WorkspaceIndex.toIndices (forgetCatalog_noteChangedKeys ix keys)
  exact h

@[simp] lemma documents_noteChangedKeys (ix : WorkspaceIndex) (keys : List ObservedKey) :
    (ix.noteChangedKeys keys).documents = ix.documents := by
  have h := congrArg WorkspaceIndex.documents (forgetCatalog_noteChangedKeys ix keys)
  exact h

@[simp] lemma documents_removeFromIndices (ix : WorkspaceIndex) (uri : String) :
    (ix.removeFromIndices uri).documents = ix.documents := by
  unfold removeFromIndices
  cases ix.documents.lookup uri <;> rfl

lemma documents_applyContribution (ix : WorkspaceIndex) (uri : String) (c : DocContribution) :
    (ix.applyContribution uri c).2.documents = ix.documents.insert uri c.symbols := by
  simp [applyContribution]

lemma documents_removeDocument (ix : WorkspaceIndex) (uri : String) :
    (ix.removeDocument uri).2.documents = ix.documents.erase uri := by
  simp [removeDocument]

lemma bucket_removeFromIndices (ix : WorkspaceIndex) (uri : String) (σ : Slot) :
    (ix.removeFromIndices uri).bucket σ = (ix.bucket σ).filter (fun e =>
      !((ix.documents.lookup uri).getD []).any (fun sym =>
        decide (σ ∈ Indices.visitedByRemoval sym) && Indices.ownedBy uri sym σ e)) := by
  unfold removeFromIndices
  cases ix.documents.lookup uri with
  | none => simp
  | some oldSymbols => exact Indices.bucket_removeSymbols ..

lemma mem_of_mem_removeFromIndices {ix : WorkspaceIndex} {uri : String} {σ : Slot} {e : IndexEntry}
    (h : e ∈ (ix.removeFromIndices uri).bucket σ) : e ∈ ix.bucket σ := by
  rw [bucket_removeFromIndices] at h
  exact List.mem_of_mem_filter h

/-- Removal takes out what a symbol of the document owns in a slot that it visits. -/
lemma notMem_removeFromIndices {ix : WorkspaceIndex} {uri : String} {symbols : List Symbol}
    {sym : Symbol} {σ : Slot} {e : IndexEntry} (hlookup : ix.documents.lookup uri = some symbols)
    (hsym : sym ∈ symbols) (hvisited : σ ∈ Indices.visitedByRemoval sym)
    (howned : Indices.ownedBy uri sym σ e = true) :
    e ∉ (ix.removeFromIndices uri).bucket σ := by
  rw [bucket_removeFromIndices, hlookup, Option.getD_some]
  intro he
  have hkept := List.of_mem_filter he
  rw [Bool.not_eq_true', List.any_eq_false] at hkept
  exact hkept sym hsym (by simp [hvisited, howned])

lemma removeFromIndices_eq (ix : WorkspaceIndex) (uri : String) :
    ix.removeFromIndices uri =
      { ix with toIndices := (ix.removeFromIndices uri).toIndices } := by
  unfold removeFromIndices
  cases ix.documents.lookup uri <;> rfl

end WorkspaceIndex

end WitcherScriptLanguage
