import WitcherScriptLanguage.Diagnostics.WorkspaceRules
import WitcherScriptLanguage.Library.ReadTrees
import WitcherScriptLanguage.Resolve.Observation
import WitcherScriptLanguage.Resolve.References

/-!
# What the rules over syntax trees read

A rule walks the syntax tree of its document and asks the symbol database (`diagnostics/mod.rs`,
`symbol_db/lookup.rs`). The lookups record the keys that they depend on with the observer of the
document. What `unused_symbol` asks through `find_references`, the parameters of a callable, the
states of a name and the script globals are read without a record.
-/

namespace WitcherScriptLanguage

open Library

def WorkspaceIndex.findNativeTopLevel (ix : WorkspaceIndex) (name : String) : Option Definition :=
  (ix.nativeFunctionsByName.bucket name).getLast?.or
    ((ix.topLevelByName.bucket name).find? fun d => d.symbol.origin = .native)

namespace SymbolDb

variable (db : SymbolDb)

/-- `states_named`, by owner: it walks hash maps, and the rule sorts what it finds. Suppressed
files count. -/
def statesNamed (name owner : String) : Option Definition :=
  (db.workspace.findStateInOwner owner name).or (db.base.findStateInOwner owner name)

def findNativeTopLevel (name : String) : Option Definition :=
  db.builtins.bind fun b => b.findNativeTopLevel name

end SymbolDb

/-- A question of a rule to the database of its document. The symbols that `unused_symbol` looks
for have a container, so that its search pairs no base file. -/
inductive RuleRead
  /-- A lookup, by a rule that uses the place of what it finds in some documents. -/
  | lookup (placed : Placed) (q : ObservedLookup)
  /-- The second half of `all_member_declarations`, behind `find_class_body_member`. -/
  | annotatedMembers (container name : String)
  | fullParametersOf (uri : String) (callableId : SymbolId)
  | statesNamed (name : String)
  | hasBuiltins
  | findNativeTopLevel (name : String)
  | findScriptGlobal (name : String)
  | isIndexed (uri : String)
  | identRangesInDoc (uri name : String)

inductive RuleAnswer
  | seen (r : OutwardResult)
  | definition (d : Option Definition)
  | definitions (ds : List Definition)
  | states (ofOwner : String → Option Definition)
  | symbols (symbols : List Symbol)
  | ranges (ranges : List ByteRange)
  | holds (b : Bool)

/-- `SymbolDb` with its script environment. -/
structure RuleDb where
  symbols : SymbolDb
  scriptEnv : ScriptEnvironment

/-- An empty set of suppressed files is none. -/
def buildSymbolDb (workspace base builtins : WorkspaceIndex) (scriptEnv : ScriptEnvironment)
    (suppressedBaseUris : Finset String) : RuleDb where
  symbols := {
    workspace
    base
    builtins := some builtins
    suppressedBaseUris := if suppressedBaseUris = ∅ then none else some suppressedBaseUris }
  scriptEnv

namespace RuleDb

variable (db : RuleDb)

/-- The answer with the keys that the observer records. -/
def read (callDepth : Nat) : RuleRead → Observed RuleAnswer
  | .lookup placed q => do return .seen ((← q.run db.symbols callDepth).outward placed db.symbols)
  | .annotatedMembers container name =>
    return .definitions (db.symbols.annotatedMembers container name)
  | .fullParametersOf uri callableId => return .symbols (db.symbols.fullParametersOf uri callableId)
  | .statesNamed name => return .states (db.symbols.statesNamed name)
  | .hasBuiltins => return .holds db.symbols.builtins.isSome
  | .findNativeTopLevel name => return .definition (db.symbols.findNativeTopLevel name)
  | .findScriptGlobal name => return .definition (db.scriptEnv.find name)
  | .isIndexed uri => return .holds (db.symbols.identsIndexed uri)
  | .identRangesInDoc uri name => return .ranges (db.symbols.indexedRanges uri name)

/-- A document of the checked index changes. -/
def change (change : DocumentChange) : RuleDb :=
  { db with symbols := (db.symbols.change .workspace change).2 }

end RuleDb

/-- The rules: what they ask about a document under its key, and what they make of the answers. -/
abbrev CstRules := String → ParsedDocument → ReadTree RuleRead RuleAnswer (List WorkspaceDiagnostic)

/-- `collect_cst_diagnostics_for_document` under an observer; nothing when a lookup runs out of
call depth. -/
def collectCstDiagnostics (rules : CstRules) (callDepth : Nat) (db : RuleDb) (key : String)
    (document : ParsedDocument) : Option (List WorkspaceDiagnostic × List ObservedKey) :=
  (rules key document).run (db.read callDepth)

namespace RuleRead

/-- What a read depends on is the same in both databases: for a lookup, the lists on its way. -/
def Alike (db db' : RuleDb) : RuleRead → Prop
  | lookup placed q => SameBuiltins db.symbols db'.symbols ∧
    ∀ σ, q.Reads db.symbols σ → SameOutward placed db.symbols db'.symbols σ
  | annotatedMembers container name =>
    db'.symbols.annotatedMembers container name = db.symbols.annotatedMembers container name
  | fullParametersOf uri callableId =>
    db'.symbols.fullParametersOf uri callableId = db.symbols.fullParametersOf uri callableId
  | statesNamed name => db'.symbols.statesNamed name = db.symbols.statesNamed name
  | hasBuiltins | findNativeTopLevel _ => db'.symbols.builtins = db.symbols.builtins
  | findScriptGlobal name => db'.scriptEnv.find name = db.scriptEnv.find name
  | isIndexed uri => db'.symbols.identsIndexed uri = db.symbols.identsIndexed uri
  | identRangesInDoc uri name =>
    db'.symbols.indexedRanges uri name = db.symbols.indexedRanges uri name

variable {db db' : RuleDb} {r : RuleRead}

lemma Alike.refl (db : RuleDb) (r : RuleRead) : r.Alike db db := by
  cases r with
  | lookup placed q => exact ⟨rfl, fun σ _ => .refl placed db.symbols σ⟩
  | _ => exact rfl

/-- A lookup whose lists look the same, or whose recorded keys are reported, answers the same. -/
lemma covered_lookup (hbuilt : SameBuiltins db.symbols db'.symbols) {placed : Placed}
    {q : ObservedLookup} {reported : List ObservedKey}
    (hcovered : ∀ σ, q.Reads db.symbols σ →
      Covered placed db.symbols db'.symbols reported (q.keysAt σ) σ) (callDepth : Nat) :
    ReadTree.Covered (db.read callDepth) (db'.read callDepth) reported (.lookup placed q) := by
  rintro ⟨answer, keys⟩ hread hunreported
  obtain ⟨result, k₁, k₂, hrun, hpure, rfl⟩ := Observed.bind_eq_some hread
  cases hpure
  obtain ⟨result', hrun', hsame⟩ := q.run_follows hbuilt hcovered callDepth result k₁ hrun
    fun k hk => hunreported k (List.mem_append_left _ hk)
  refine Observed.bind_of_eq_some hrun' ?_
  rw [hsame]
  rfl

/-- Alike, a read has the same answer and records the same keys. -/
lemma Alike.covered (h : r.Alike db db') (callDepth : Nat) :
    ReadTree.Covered (db.read callDepth) (db'.read callDepth) [] r := by
  cases r with
  | lookup placed q => exact covered_lookup h.1 (fun σ hσ => .inr (h.2 σ hσ)) callDepth
  | findNativeTopLevel name =>
    have hsame : db'.symbols.findNativeTopLevel name = db.symbols.findNativeTopLevel name := by
      unfold SymbolDb.findNativeTopLevel
      rw [show db'.symbols.builtins = db.symbols.builtins from h]
    intro answer hread _
    rw [← hread, RuleDb.read, RuleDb.read, hsame]
  | hasBuiltins =>
    intro answer hread _
    rw [← hread, RuleDb.read, RuleDb.read, show db'.symbols.builtins = db.symbols.builtins from h]
  | _ =>
    intro answer hread _
    simp only [Alike] at h
    rw [← hread, RuleDb.read, RuleDb.read, h]

/-- An index that files the same declarations answers the same as base index. -/
lemma alike_base {db : RuleDb} {base : WorkspaceIndex} (r : RuleRead)
    (hindices : base.toIndices = db.symbols.base.toIndices)
    (hdocuments : base.documents = db.symbols.base.documents)
    (hidents : base.docIdents = db.symbols.base.docIdents) :
    r.Alike db { db with symbols := { db.symbols with base } } := by
  have hparameters : base.fullParametersOf = db.symbols.base.fullParametersOf := by
    unfold WorkspaceIndex.fullParametersOf
    rw [hdocuments]
  have hall : (SymbolDb.fullParametersOf { db.symbols with base }) =
      db.symbols.fullParametersOf := by
    funext uri callableId
    simp only [SymbolDb.fullParametersOf, SymbolDb.shadowedBase, ShadowedBase.fullParametersOf,
      hparameters]
    rfl
  have hbucket (σ : Slot) : base.bucket σ = db.symbols.base.bucket σ :=
    congrArg (Indices.bucket · σ) hindices
  cases r with
  | lookup placed q =>
    refine ⟨rfl, fun σ _ => ?_⟩
    have hview : SymbolDb.outwardEntry { db.symbols with base } placed =
        db.symbols.outwardEntry placed := by
      funext e
      cases e with
      | decl d =>
        simp only [SymbolDb.outwardEntry, SymbolDb.outward, hall]
        rfl
      | edge uri name => rfl
    refine ⟨?_, ?_, fun b _ => ?_⟩
    all_goals simp only [SameBucket, hview, hbucket]
  | annotatedMembers container name =>
    simp only [Alike, SymbolDb.annotatedMembers, SymbolDb.shadowedBase,
      ShadowedBase.annotatedMembers, WorkspaceIndex.annotatedMembers, hindices]
    rfl
  | fullParametersOf uri callableId => exact congrFun (congrFun hall uri) callableId
  | statesNamed name =>
    funext owner
    simp only [SymbolDb.statesNamed, WorkspaceIndex.findStateInOwner, hindices]
  | hasBuiltins => exact rfl
  | findNativeTopLevel name => exact rfl
  | findScriptGlobal name => exact rfl
  | isIndexed uri => simp only [Alike, SymbolDb.identsIndexed, WorkspaceIndex.isIndexed, hidents]
  | identRangesInDoc uri name =>
    simp only [Alike, SymbolDb.indexedRanges, WorkspaceIndex.identRangesInDoc, hidents]

end RuleRead

/-- The parameters of a callable among the symbols of its document. -/
def parametersIn (symbols : List Symbol) (callableId : SymbolId) : List Symbol :=
  symbols.filter fun s => s.kind = .parameter && s.container == some callableId

lemma WorkspaceIndex.fullParametersOf_eq (ix : WorkspaceIndex) (uri : String)
    (callableId : SymbolId) :
    ix.fullParametersOf uri callableId =
      parametersIn ((ix.documents.lookup uri).getD []) callableId := by
  unfold fullParametersOf
  cases ix.documents.lookup uri <;> rfl

namespace DocumentChange

/-- The identifiers of the document from now on. -/
def idents : DocumentChange → Option (BucketMap String ByteRange)
  | apply _ contribution => some contribution.idents
  | remove _ => none

lemma documents_lookup_onIndex (change : DocumentChange) (ix : WorkspaceIndex) (uri : String) :
    ((change.onIndex ix).2.documents.lookup uri).getD [] =
      if uri = change.uri then change.symbols else (ix.documents.lookup uri).getD [] := by
  rw [documents_onIndex]
  by_cases huri : uri = change.uri
  · rw [if_pos huri, huri]
    cases change with
    | apply changed contribution =>
      rw [onDocuments, DocumentChange.uri, AList.lookup_insert]
      rfl
    | remove changed =>
      rw [onDocuments, DocumentChange.uri, AList.lookup_erase]
      rfl
  · rw [if_neg huri]
    cases change with
    | apply changed contribution =>
      rw [DocumentChange.uri] at huri
      rw [onDocuments, AList.lookup_insert_ne huri]
    | remove changed =>
      rw [DocumentChange.uri] at huri
      rw [onDocuments, AList.lookup_erase_ne huri]

lemma docIdents_removeFromIndices (ix : WorkspaceIndex) (uri : String) :
    (ix.removeFromIndices uri).docIdents = ix.docIdents := by
  unfold WorkspaceIndex.removeFromIndices
  cases ix.documents.lookup uri <;> rfl

/-- The identifiers of each document, with those of the changed one in place. -/
lemma docIdents_onIndex (change : DocumentChange) (ix : WorkspaceIndex) :
    (change.onIndex ix).2.docIdents = match change with
      | apply uri contribution => (ix.docIdents.erase uri).insert uri contribution.idents
      | remove uri => ix.docIdents.erase uri := by
  cases change with
  | apply uri contribution =>
    have hforget := WorkspaceIndex.forgetCatalog_noteChangedKeys
    simp only [onIndex, WorkspaceIndex.applyContribution]
    refine (congrArg WorkspaceIndex.docIdents (hforget _ _)).trans ?_
    exact congrArg (fun idents => (idents.erase uri).insert uri contribution.idents)
      (docIdents_removeFromIndices ix uri)
  | remove uri =>
    have hforget := WorkspaceIndex.forgetCatalog_noteChangedKeys
    simp only [onIndex, WorkspaceIndex.removeDocument]
    refine (congrArg WorkspaceIndex.docIdents (hforget _ _)).trans ?_
    exact congrArg (fun idents => idents.erase uri) (docIdents_removeFromIndices ix uri)

lemma docIdents_lookup_onIndex (change : DocumentChange) (ix : WorkspaceIndex) (uri : String) :
    (change.onIndex ix).2.docIdents.lookup uri =
      if uri = change.uri then change.idents else ix.docIdents.lookup uri := by
  rw [docIdents_onIndex]
  by_cases huri : uri = change.uri
  · rw [if_pos huri, huri]
    cases change with
    | apply changed contribution => exact AList.lookup_insert _
    | remove changed => exact AList.lookup_erase changed ix.docIdents
  · rw [if_neg huri]
    cases change with
    | apply changed contribution =>
      exact (AList.lookup_insert_ne huri).trans (AList.lookup_erase_ne huri)
    | remove changed => exact AList.lookup_erase_ne huri

end DocumentChange

namespace RuleRead

variable {db : RuleDb} {change : DocumentChange} {collected : Bool} {r : RuleRead}

/-- The change of a document keeps what the read depends on. Where its keys are collected, it is
enough for a list on the way of a lookup that the old and the new symbols of the document give a
key recorded with the list different hashes. -/
def Told (db : RuleDb) (change : DocumentChange) (collected : Bool) : RuleRead → Prop
  | lookup placed q => ∀ σ, q.Reads db.symbols σ →
    db.symbols.KeepsBucket placed .workspace change σ ∨
      collected ∧ ∃ k ∈ q.keysAt σ, change.TellsKey db.symbols.workspace k
  | annotatedMembers container name =>
    db.symbols.KeepsBucket .everywhere .workspace change (.annotated container name)
  | fullParametersOf uri callableId => uri = change.uri →
    parametersIn ((db.symbols.workspace.documents.lookup uri).getD []) callableId =
      parametersIn change.symbols callableId
  | statesNamed name =>
    ∀ owner, db.symbols.KeepsBucket .everywhere .workspace change (.state owner name)
  | hasBuiltins | findNativeTopLevel _ | findScriptGlobal _ => True
  | isIndexed uri => uri = change.uri →
    (db.symbols.workspace.docIdents.lookup uri).isSome = change.idents.isSome
  | identRangesInDoc uri name => uri = change.uri →
    db.symbols.workspace.identRangesInDoc uri name =
      change.idents.bind fun names => names.lookup name

lemma bucket_change_eq {σ : Slot} (h : db.symbols.KeepsBucket .everywhere .workspace change σ) :
    (db.change change).symbols.workspace.bucket σ = db.symbols.workspace.bucket σ :=
  h.sameOutward.workspace.bucket_eq.symm

lemma definitions_of_bucket_eq {l l' : List Definition}
    (h : l.map IndexEntry.decl = l'.map IndexEntry.decl) : l = l' :=
  List.map_injective_iff.mpr (fun _ _ => IndexEntry.decl.inj) h

/-- What is kept by a change is alike in the changed database. -/
lemma alike_change (h : r.Told db change false) : r.Alike db (db.change change) := by
  cases r with
  | lookup placed q =>
    refine ⟨sameBuiltins_change db.symbols .workspace change, fun σ hσ => ?_⟩
    rcases h σ hσ with hkeeps | ⟨hfalse, -⟩
    · exact hkeeps.sameOutward
    · cases hfalse
  | annotatedMembers container name =>
    have hbucket : (db.change change).symbols.workspace.annotatedMembers container name =
        db.symbols.workspace.annotatedMembers container name :=
      definitions_of_bucket_eq (bucket_change_eq h)
    exact congrArg (· ++ db.symbols.shadowedBase.annotatedMembers container name ++
      (db.symbols.builtins.map (fun b => b.annotatedMembers container name)).getD []) hbucket
  | fullParametersOf uri callableId =>
    have hparameters : (db.change change).symbols.workspace.fullParametersOf uri callableId =
        db.symbols.workspace.fullParametersOf uri callableId := by
      rw [WorkspaceIndex.fullParametersOf_eq, WorkspaceIndex.fullParametersOf_eq]
      change parametersIn (((change.onIndex db.symbols.workspace).2.documents.lookup uri).getD [])
        callableId = _
      rw [DocumentChange.documents_lookup_onIndex]
      split_ifs with huri
      · exact (h huri).symm
      · rfl
    simp only [Alike, SymbolDb.fullParametersOf, hparameters]
    rfl
  | statesNamed name =>
    funext owner
    have hbucket : (db.change change).symbols.workspace.statesByOwner.bucket owner name =
        db.symbols.workspace.statesByOwner.bucket owner name :=
      definitions_of_bucket_eq (bucket_change_eq (h owner))
    exact congrArg (fun l => l.getLast?.or (db.symbols.base.findStateInOwner owner name)) hbucket
  | hasBuiltins => exact rfl
  | findNativeTopLevel name => exact rfl
  | findScriptGlobal name => exact rfl
  | isIndexed uri =>
    have hindexed : (db.change change).symbols.workspace.isIndexed uri =
        db.symbols.workspace.isIndexed uri := by
      unfold WorkspaceIndex.isIndexed
      rw [decide_eq_decide, ← AList.lookup_isSome, ← AList.lookup_isSome]
      change (((change.onIndex db.symbols.workspace).2.docIdents.lookup uri).isSome = true) ↔ _
      rw [DocumentChange.docIdents_lookup_onIndex]
      split_ifs with huri
      · rw [h huri]
      · rfl
    exact congrArg (· || db.symbols.base.isIndexed uri) hindexed
  | identRangesInDoc uri name =>
    have hranges : (db.change change).symbols.workspace.identRangesInDoc uri name =
        db.symbols.workspace.identRangesInDoc uri name := by
      unfold WorkspaceIndex.identRangesInDoc
      change ((change.onIndex db.symbols.workspace).2.docIdents.lookup uri).bind _ = _
      rw [DocumentChange.docIdents_lookup_onIndex]
      split_ifs with huri
      · exact (h huri).symm
      · rfl
    exact congrArg (fun ranges => (ranges.or (db.symbols.base.identRangesInDoc uri name)).getD [])
      hranges

/-- A read that is told of a change keeps its answer unless the change reports a key of it. -/
lemma Told.covered (h : r.Told db change collected) (callDepth : Nat) :
    ReadTree.Covered (db.read callDepth) ((db.change change).read callDepth)
      (if collected then (change.onIndex db.symbols.workspace).1 else []) r := by
  have hkept : r.Told db change false → ReadTree.Covered (db.read callDepth)
      ((db.change change).read callDepth)
      (if collected then (change.onIndex db.symbols.workspace).1 else []) r :=
    fun hkept answer hread _ =>
      (alike_change hkept).covered callDepth answer hread fun k _ => List.not_mem_nil
  cases r with
  | lookup placed q =>
    have hbuilt : SameBuiltins db.symbols (db.change change).symbols :=
      sameBuiltins_change db.symbols .workspace change
    refine covered_lookup hbuilt (fun σ hσ => ?_) callDepth
    rcases h σ hσ with hkeeps | ⟨rfl, k, hk, htells⟩
    · exact .inr hkeeps.sameOutward
    · have hreported : k ∈ (db.symbols.change .workspace change).1 := mem_change_of_tellsKey htells
      exact .inl ⟨k, hk, hreported⟩
  | _ => exact hkept h

end RuleRead

end WitcherScriptLanguage
