import Mathlib.Data.Fintype.EquivFin
import Mathlib.Data.List.Forall2
import WitcherScriptLanguage.Diagnostics.RuleReads
import WitcherScriptLanguage.Library.Numerals
import WitcherScriptLanguage.Resolve.IndexHistory

/-!
# Diagnostic result ids

A pull for the diagnostics of a document reads the published indexes (`diagnostics_publish.rs`)
and gives its answer a result id; when a client names the id that a new pull computes, the answer
is `unchanged`. The id hashes the declarations of the workspace and of the base scripts, but not
where they stand, and nothing of the loose files.
-/

namespace WitcherScriptLanguage

open Library

structure RelatedInformation where
  uri : Url
  range : SourceRange
  message : String
  deriving DecidableEq, Repr

/-- A diagnostic as the client gets it. -/
structure Diagnostic where
  range : SourceRange
  severity : Severity
  code : String
  message : String
  /-- The tag that fades the range. -/
  unnecessary : Bool
  relatedInformation : List RelatedInformation
  data : Option DiagnosticData
  deriving DecidableEq, Repr

/-- The published snapshot, the directories of legacy scripts and the counter of the rebuilds of
the filtered catalogs. -/
structure DiagnosticsState where
  workspaceIndex : WorkspaceIndex := {}
  looseIndex : WorkspaceIndex := {}
  baseScriptsIndex : WorkspaceIndex := {}
  scriptEnv : ScriptEnvironment := {}
  suppressedBaseUris : Finset String := ∅
  legacyDirs : List FilePath := []
  legacyDbGeneration : UInt64 := 0

/-- URLs, the syntax errors of a document and the rules over its syntax tree. -/
structure DiagnosticRules where
  urls : FileUrls
  parseUrl : String → Option Url
  lspDiagnostics : ParsedDocument → List Diagnostic
  cst : CstRules
  callDepth : Nat

structure DiagnosticsBundle where
  dup : DiagnosticMap
  shadow : DiagnosticMap
  dupLocal : DiagnosticMap
  baseConflict : DiagnosticMap

section Pull

variable (rules : DiagnosticRules) (builtins : WorkspaceIndex)

/-- Loose files compile in isolation; duplicates among them are still real. -/
def collectWorkspaceDiagnostics (s : DiagnosticsState) : DiagnosticsBundle where
  dup := DiagnosticMap.extend (collectDuplicateSymbolDiagnostics s.workspaceIndex)
    (collectDuplicateSymbolDiagnostics s.looseIndex)
  shadow := DiagnosticMap.extend (collectShadowingDiagnostics s.workspaceIndex s.scriptEnv)
    (collectShadowingDiagnostics s.looseIndex s.scriptEnv)
  dupLocal := DiagnosticMap.extend (collectDuplicateLocalDiagnostics s.workspaceIndex)
    (collectDuplicateLocalDiagnostics s.looseIndex)
  baseConflict := collectBaseScriptConflictDiagnostics rules.urls s.workspaceIndex
    s.baseScriptsIndex s.legacyDirs

/-- The clash with a base script is shown in place of the duplicate. -/
def duplicatesNotExplainedByConflict (duplicates conflicts : List WorkspaceDiagnostic) :
    List WorkspaceDiagnostic :=
  duplicates.filter fun d => !(conflicts.map (·.range)).contains d.range

/-- Related locations without a URL are left out. -/
def lspWorkspaceDiagnostic (d : WorkspaceDiagnostic) : Diagnostic where
  range := d.range
  severity := d.severity
  code := d.kind
  message := d.message
  unnecessary := d.kind = "unused_symbol"
  relatedInformation := d.related.filterMap fun related =>
    (rules.parseUrl related.uri).map fun uri => ⟨uri, related.range, related.message⟩
  data := d.data

def assembleDiagnosticsForKey (key : String) (bundle : DiagnosticsBundle)
    (cst : List WorkspaceDiagnostic) (document : ParsedDocument) : List Diagnostic :=
  let conflicts := bundle.baseConflict.get key
  rules.lspDiagnostics document ++
    (duplicatesNotExplainedByConflict (bundle.dup.get key) conflicts ++ conflicts ++
      bundle.shadow.get key ++ bundle.dupLocal.get key ++ cst).map (lspWorkspaceDiagnostic rules)

/-- The index that a document is checked against. -/
def DiagnosticsState.checked (s : DiagnosticsState) (loose : Bool) : WorkspaceIndex :=
  if loose then s.looseIndex else s.workspaceIndex

def DiagnosticsState.ruleDb (s : DiagnosticsState) (loose : Bool) : RuleDb :=
  buildSymbolDb (s.checked loose) s.baseScriptsIndex builtins s.scriptEnv s.suppressedBaseUris

/-- The diagnostics of `compute_diagnostics_for_uri`, without its caches. -/
def diagnosticsFor (s : DiagnosticsState) (loose : Bool) (key : String)
    (document : ParsedDocument) : Option (List Diagnostic) :=
  (collectCstDiagnostics rules.cst rules.callDepth (s.ruleDb builtins loose) key document).map
    fun cst => assembleDiagnosticsForKey rules key (collectWorkspaceDiagnostics rules s) cst.1
      document

end Pull

def resultIdFor (parseVersion workspaceSurface baseSurface : UInt64) (envVersion : Nat)
    (legacyDbGeneration : UInt64) : String :=
  String.ofList (List.intercalate ['-'] [Nat.toDigits 10 parseVersion.toNat,
    Nat.toDigits 16 workspaceSurface.toNat, Nat.toDigits 16 baseSurface.toNat,
    Nat.toDigits 16 envVersion, Nat.toDigits 16 legacyDbGeneration.toNat])

/-- The text of an id determines its numbers. -/
lemma resultIdFor_injective {parseVersion workspaceSurface baseSurface generation : UInt64}
    {parseVersion' workspaceSurface' baseSurface' generation' : UInt64} {env env' : Nat}
    (h : resultIdFor parseVersion workspaceSurface baseSurface env generation =
      resultIdFor parseVersion' workspaceSurface' baseSurface' env' generation') :
    parseVersion = parseVersion' ∧ workspaceSurface = workspaceSurface' ∧
      baseSurface = baseSurface' ∧ env = env' ∧ generation = generation' := by
  have hten (n : Nat) : '-' ∉ Nat.toDigits 10 n := dash_notMem_toDigits (by omega) (by omega) n
  have hsixteen (n : Nat) : '-' ∉ Nat.toDigits 16 n := dash_notMem_toDigits (by omega) le_rfl n
  have hfields := intercalate_injective (by simp) (by simp) (by simp [hten, hsixteen])
    (by simp [hten, hsixteen]) (String.ofList_injective h)
  simp only [List.cons.injEq, and_true] at hfields
  obtain ⟨hversion, hworkspace, hbase, henv, hgeneration⟩ := hfields
  exact ⟨UInt64.toNat_inj.mp (toDigits_injective (by omega) (by omega) hversion),
    UInt64.toNat_inj.mp (toDigits_injective (by omega) le_rfl hworkspace),
    UInt64.toNat_inj.mp (toDigits_injective (by omega) le_rfl hbase),
    toDigits_injective (by omega) le_rfl henv,
    UInt64.toNat_inj.mp (toDigits_injective (by omega) le_rfl hgeneration)⟩

def DiagnosticsState.resultId (s : DiagnosticsState) (document : ParsedDocument) : String :=
  resultIdFor document.parseVersion s.workspaceIndex.surfaceHash s.baseScriptsIndex.surfaceHash
    s.scriptEnv.version s.legacyDbGeneration

/-- What the surface hash of a document hashes. -/
def hashedFields (symbols : List Symbol) : List SymbolFields :=
  (symbols.filter fun s => s.kind ≠ .variable).map Symbol.fields

def WorkspaceIndex.surfaceOf (ix : WorkspaceIndex) (uri : String) : Option (List SymbolFields) :=
  (ix.documents.lookup uri).map hashedFields

def SameSurface (ix₁ ix₂ : WorkspaceIndex) : Prop := ∀ uri, ix₁.surfaceOf uri = ix₂.surfaceOf uri

/-- Hashes and counters tell apart what they stand for. -/
structure NoCollision (s₁ s₂ : DiagnosticsState) (document₁ document₂ : ParsedDocument) :
    Prop where
  workspace : s₁.workspaceIndex.surfaceHash = s₂.workspaceIndex.surfaceHash →
    SameSurface s₁.workspaceIndex s₂.workspaceIndex
  base : s₁.baseScriptsIndex.surfaceHash = s₂.baseScriptsIndex.surfaceHash →
    SameSurface s₁.baseScriptsIndex s₂.baseScriptsIndex
  env : s₁.scriptEnv.version = s₂.scriptEnv.version → s₁.scriptEnv = s₂.scriptEnv
  parse : document₁.parseVersion = document₂.parseVersion → document₁ = document₂

/-- What a duplicate shows of a declaration. -/
def declaredAs (d : Definition) : (String × Option String) × String × SourceRange :=
  (declarationKey d.symbol, d.uri, d.symbol.selectionRange)

/-- The declarations of an index that share their key with one of a document. -/
def WorkspaceIndex.rivals (ix : WorkspaceIndex) (symbols : List Symbol) : List Definition :=
  (ix.allTopLevel.filter fun d =>
    isDeclarationKind d.symbol.kind && d.symbol.annotations.isEmpty).filter fun d =>
      ((symbols.filter isEligible).map declarationKey).contains (declarationKey d.symbol)

/-- The field that a local hides, with its class. -/
def WorkspaceIndex.hiddenField (ix : WorkspaceIndex) (symbols : List Symbol) (s : Symbol) :
    Option (Symbol × Definition) := do
  let callableId ← enclosingCallableId symbols s
  let callable ← symbols[callableId.val]?
  let classId ← callable.container
  let classSym ← symbols[classId.val]?
  if !classSym.kind.isInstantiable then none
  else
    let field ← ix.directMemberOf classSym.typeName s.name .private
    if field.symbol.kind ≠ .field then none else some (classSym, field)

def fieldAs (e : Symbol × Definition) : Symbol × String × SourceRange :=
  (e.1, e.2.uri, e.2.symbol.selectionRange)

/-- The base script that a declaration of a document clashes with, and its declaration there. -/
def DiagnosticsState.baseTwin (s : DiagnosticsState) (urls : FileUrls) (key : String)
    (sym : Symbol) : Option (BaseEntry × Symbol) :=
  if uriIsUnderAny urls key s.legacyDirs then none
  else (basenameOf key).bind fun basename =>
    (((indexBaseScripts s.baseScriptsIndex).filter fun e => e.1 = basename).map (·.2)).findSome?
      fun entry =>
        if isSameFile urls key entry.uri then none
        else if !pathSuffixMatches key entry.relativePath then none
        else (entry.get (declarationKey sym)).map fun baseSym => (entry, baseSym)

def twinAs (e : BaseEntry × Symbol) : String × List Char × SourceRange :=
  (e.1.uri, e.1.relativePath, e.2.selectionRange)

/-- An index has the document with the same symbols, the same rivals at the same places in the
same order, and the same fields behind its locals. -/
structure SameNeighbours (key : String) (ix₁ ix₂ : WorkspaceIndex) : Prop where
  own : ix₁.documents.lookup key = ix₂.documents.lookup key
  rivals : ∀ symbols ∈ ix₁.documents.lookup key,
    (ix₁.rivals symbols).map declaredAs = (ix₂.rivals symbols).map declaredAs
  fields : ∀ symbols ∈ ix₁.documents.lookup key, ∀ s ∈ symbols, s.kind = .variable →
    ¬isInExemptCallable symbols s →
    (ix₁.hiddenField symbols s).map fieldAs = (ix₂.hiddenField symbols s).map fieldAs

section Neighbours

variable {ix ix₁ ix₂ : WorkspaceIndex} {key : String} {symbols : List Symbol}

/-- A duplicate from what it shows. -/
def duplicateOf (e : ((String × Option String) × String × SourceRange) ×
    List ((String × Option String) × String × SourceRange)) : WorkspaceDiagnostic where
  kind := "duplicate_symbol"
  message := "A class or function with that name already exists."
  severity := .error
  range := e.1.2.2
  related := e.2.map fun other => ⟨other.2.1, other.2.2, "'" ++ e.1.1.1 ++ "' also declared here"⟩

lemma duplicateOf_declaredAs (e : Definition × List Definition) :
    duplicateOf (declaredAs e.1, e.2.map declaredAs) = duplicateSymbol e.1 e.2 := by
  simp only [duplicateOf, duplicateSymbol, List.map_map]
  rfl

/-- The duplicates of a document are those among its rivals. -/
lemma duplicates_get_eq (h : ix.documents.lookup key = some symbols) :
    (collectDuplicateSymbolDiagnostics ix).get key =
      ((clashes (·.1) ((ix.rivals symbols).map declaredAs)).filter
        fun e => e.1.2.1 = key).map duplicateOf := by
  let declarations := ix.allTopLevel.filter fun d =>
    isDeclarationKind d.symbol.kind && d.symbol.annotations.isEmpty
  let shared : String × Option String → Bool :=
    ((symbols.filter isEligible).map declarationKey).contains
  have hown : ∀ d ∈ declarations, d.uri = key → shared (declarationKey d.symbol) := by
    intro d hd huri
    rw [show declarations = _ from declarations_eq ix] at hd
    obtain ⟨e, he, hmem⟩ := List.mem_flatMap.mp hd
    obtain ⟨sym, hsym, rfl⟩ := List.mem_map.mp hmem
    have hlookup : ix.documents.lookup e.1 = some e.2 := AList.mem_lookup_iff.mpr he
    rw [show e.1 = key from huri, h] at hlookup
    obtain rfl := Option.some.inj hlookup
    exact List.contains_iff_mem.mpr (List.mem_map_of_mem hsym)
  have hfilter : (clashes (fun d => declarationKey d.symbol) declarations).filter
      (fun e => e.1.uri = key) =
      (clashes (fun d => declarationKey d.symbol) (ix.rivals symbols)).filter
        fun e => e.1.uri = key := by
    have hrivals : ix.rivals symbols =
        declarations.filter fun d => shared (declarationKey d.symbol) := rfl
    rw [hrivals, clashes_filter, List.filter_filter]
    refine List.filter_congr fun e he => ?_
    by_cases huri : e.1.uri = key
    · simp [huri, hown e.1 (mem_of_mem_clashes he).1 huri]
    · simp [huri]
  have hview : ∀ d : Definition, (declaredAs d).1 = declarationKey d.symbol := fun _ => rfl
  rw [clashes_map Prod.fst hview, List.filter_map, List.map_map]
  unfold collectDuplicateSymbolDiagnostics DiagnosticMap.get
  rw [List.filter_map, List.map_map]
  refine (congrArg (List.map _) hfilter).trans (List.map_congr_left fun e _ => ?_)
  exact (duplicateOf_declaredAs e).symm

lemma classFieldShadow_eq (ix : WorkspaceIndex) (symbols : List Symbol) (s : Symbol) :
    classFieldShadow ix symbols s = ((ix.hiddenField symbols s).map fieldAs).map fun e => {
      kind := "shadows_class_field"
      message := "Local '" ++ s.name ++ "' shadows field declared in " ++ e.1.name
      severity := .warning
      range := s.selectionRange
      related := [⟨e.2.1, e.2.2, "Field '" ++ s.name ++ "' declared here"⟩] } := by
  unfold classFieldShadow WorkspaceIndex.hiddenField
  simp only [Option.bind_eq_bind, Option.map_bind, Function.comp_def, apply_ite (Option.map _),
    Option.map_none, Option.map_some, fieldAs]

lemma SameNeighbours.shadowing (h : SameNeighbours key ix₁ ix₂) (env : ScriptEnvironment) :
    (collectShadowingDiagnostics ix₁ env).get key =
      (collectShadowingDiagnostics ix₂ env).get key := by
  rw [collectShadowingDiagnostics, collectShadowingDiagnostics, get_collectByDocument,
    get_collectByDocument, ← h.own]
  cases hown : ix₁.documents.lookup key with
  | none => rfl
  | some symbols =>
    refine List.flatMap_congr fun s hs => ?_
    unfold shadowingOf
    split_ifs with hexempt
    · rfl
    · split
      · rfl
      · rename_i hkind
        rw [classFieldShadow_eq, classFieldShadow_eq, h.fields symbols hown s hs hkind hexempt]
      · rfl
      · rfl

lemma SameNeighbours.duplicates (h : SameNeighbours key ix₁ ix₂) :
    (collectDuplicateSymbolDiagnostics ix₁).get key =
      (collectDuplicateSymbolDiagnostics ix₂).get key := by
  cases hown : ix₁.documents.lookup key with
  | none =>
    have hown₂ : ix₂.documents.lookup key = none := h.own.symm.trans hown
    rw [get_collectDuplicateSymbolDiagnostics_of_notMem (AList.lookup_eq_none.mp hown),
      get_collectDuplicateSymbolDiagnostics_of_notMem (AList.lookup_eq_none.mp hown₂)]
  | some symbols =>
    rw [duplicates_get_eq hown, duplicates_get_eq (h.own.symm.trans hown), h.rivals symbols hown]

lemma SameNeighbours.duplicateLocals (h : SameNeighbours key ix₁ ix₂) :
    (collectDuplicateLocalDiagnostics ix₁).get key =
      (collectDuplicateLocalDiagnostics ix₂).get key := by
  rw [collectDuplicateLocalDiagnostics, collectDuplicateLocalDiagnostics, get_collectByDocument,
    get_collectByDocument, h.own]

/-- The clash of a declaration from what it shows of the base script. -/
def conflictAs (urls : FileUrls) (key : String) (sym : Symbol)
    (twin : String × List Char × SourceRange) : WorkspaceDiagnostic :=
  baseScriptConflict urls key ((basenameOf key).getD "") sym ⟨twin.1, twin.2.1, []⟩
    { sym with selectionRange := twin.2.2 }

lemma conflictsOf_eq (s : DiagnosticsState) (urls : FileUrls) (key : String)
    (symbols : List Symbol) :
    conflictsOf urls (indexBaseScripts s.baseScriptsIndex) s.legacyDirs key symbols =
      ((symbols.filter isEligible).filterMap fun sym =>
        ((s.baseTwin urls key sym).map twinAs).map
          (conflictAs urls key sym)).insertionSort startsBefore := by
  unfold conflictsOf DiagnosticsState.baseTwin
  split_ifs with hlegacy
  · simp
  · cases hbasename : basenameOf key with
    | none => simp
    | some basename =>
      refine congrArg (List.insertionSort startsBefore) (List.filterMap_congr fun sym _ => ?_)
      simp only [Option.bind_some]
      rw [conflictOf, List.map_findSome?, List.map_findSome?]
      refine congrArg (List.findSome? · _) (funext fun entry => ?_)
      simp only [Function.comp_apply]
      split_ifs
      · rfl
      · rfl
      · simp only [Option.map_map, Function.comp_def, conflictAs, hbasename]
        rfl

/-- The clashes with base scripts agree when the twins of the declarations do. -/
lemma conflicts_get_eq {s₁ s₂ : DiagnosticsState} (urls : FileUrls)
    (hown : s₁.workspaceIndex.documents.lookup key = s₂.workspaceIndex.documents.lookup key)
    (htwins : ∀ symbols ∈ s₁.workspaceIndex.documents.lookup key, ∀ sym ∈ symbols, isEligible sym →
      (s₁.baseTwin urls key sym).map twinAs = (s₂.baseTwin urls key sym).map twinAs) :
    (collectBaseScriptConflictDiagnostics urls s₁.workspaceIndex s₁.baseScriptsIndex
        s₁.legacyDirs).get key =
      (collectBaseScriptConflictDiagnostics urls s₂.workspaceIndex s₂.baseScriptsIndex
        s₂.legacyDirs).get key := by
  rw [collectBaseScriptConflictDiagnostics, collectBaseScriptConflictDiagnostics,
    get_collectByDocument, get_collectByDocument, ← hown]
  cases hsymbols : s₁.workspaceIndex.documents.lookup key with
  | none => rfl
  | some symbols =>
    simp only [Option.map_some, Option.getD_some, conflictsOf_eq]
    refine congrArg (List.insertionSort startsBefore) (List.filterMap_congr fun sym hsym => ?_)
    obtain ⟨hin, heligible⟩ := List.mem_filter.mp hsym
    rw [htwins symbols hsymbols sym hin heligible]

end Neighbours

def WorkspaceIndex.hashedSymbols (ix : WorkspaceIndex) (uri : String) : List Symbol :=
  ((ix.documents.lookup uri).getD []).filter fun s => s.kind ≠ .variable

section Reads

variable (builtins : WorkspaceIndex) (loose : Bool) (s₁ s₂ : DiagnosticsState)

/-- One symbol of a document in both states: it has one number among the hashed symbols. An id
says nothing of a loose file, whose hashed symbols have to be the same. -/
inductive SameSymbol (uri : String) : Symbol → Symbol → Prop
  | checked {sym₁ sym₂ : Symbol} (i : Nat) :
      ((s₁.checked loose).hashedSymbols uri)[i]? = some sym₁ →
      ((s₂.checked loose).hashedSymbols uri)[i]? = some sym₂ →
      (loose = true → s₁.looseIndex.surfaceOf uri = s₂.looseIndex.surfaceOf uri) →
      SameSymbol uri sym₁ sym₂
  | base {sym₁ sym₂ : Symbol} (i : Nat) :
      (s₁.baseScriptsIndex.hashedSymbols uri)[i]? = some sym₁ →
      (s₂.baseScriptsIndex.hashedSymbols uri)[i]? = some sym₂ → SameSymbol uri sym₁ sym₂
  | builtin (sym : Symbol) : SameSymbol uri sym sym

/-- One entry in both states, with the same parameters. An id does not determine the class name
of a state, whether the base scripts show the document, and the place. -/
inductive SameEntry (placed : Placed) : IndexEntry → IndexEntry → Prop
  | decl {uri : String} {sym₁ sym₂ : Symbol} :
      SameSymbol loose s₁ s₂ uri sym₁ sym₂ →
      List.Forall₂ (SameSymbol loose s₁ s₂ uri)
        ((s₁.ruleDb builtins loose).symbols.fullParametersOf uri sym₁.id)
        ((s₂.ruleDb builtins loose).symbols.fullParametersOf uri sym₂.id) →
      sym₁.typeName = sym₂.typeName →
      (uri ∈ s₁.suppressedBaseUris ↔ uri ∈ s₂.suppressedBaseUris) →
      (placed uri → sym₁.placement = sym₂.placement) →
      SameEntry placed (.decl ⟨uri, sym₁⟩) (.decl ⟨uri, sym₂⟩)
  | edge (uri name : String) : SameEntry placed (.edge uri name) (.edge uri name)

/-- The indexes list the same entries in the same order. -/
structure SameEntries (placed : Placed) (σ : Slot) : Prop where
  checked : List.Forall₂ (SameEntry builtins loose s₁ s₂ placed) ((s₁.checked loose).bucket σ)
    ((s₂.checked loose).bucket σ)
  base : List.Forall₂ (SameEntry builtins loose s₁ s₂ placed) (s₁.baseScriptsIndex.bucket σ)
    (s₂.baseScriptsIndex.bucket σ)
  builtins : ∀ e ∈ builtins.bucket σ, SameEntry builtins loose s₁ s₂ placed e e

/-- What an id leaves out of a read is the same. -/
def RuleRead.SeesTheSame : RuleRead → Prop
  | .lookup placed q => ∀ σ, q.Reads (s₁.ruleDb builtins loose).symbols σ →
    SameEntries builtins loose s₁ s₂ placed σ
  | .hasBuiltins | .findNativeTopLevel _ | .findScriptGlobal _ => True
  | r => r.Alike (s₁.ruleDb builtins loose) (s₂.ruleDb builtins loose)

end Reads

/-- The states agree on what an id for the document leaves out of what its diagnostics read. -/
structure SeesTheSame (rules : DiagnosticRules) (builtins : WorkspaceIndex) (loose : Bool)
    (key : String) (document : ParsedDocument) (s₁ s₂ : DiagnosticsState) : Prop where
  workspace : SameNeighbours key s₁.workspaceIndex s₂.workspaceIndex
  looseFiles : SameNeighbours key s₁.looseIndex s₂.looseIndex
  twins : ∀ symbols ∈ s₁.workspaceIndex.documents.lookup key, ∀ sym ∈ symbols, isEligible sym →
    (s₁.baseTwin rules.urls key sym).map twinAs = (s₂.baseTwin rules.urls key sym).map twinAs
  reads : ∀ r ∈ (rules.cst key document).asked
    ((s₁.ruleDb builtins loose).read rules.callDepth), r.SeesTheSame builtins loose s₁ s₂

/-! ### Equal ids, equal diagnostics -/

section Sound

variable {builtins : WorkspaceIndex} {loose : Bool} {s₁ s₂ : DiagnosticsState}

/-- The ids of a document agree: so do the surfaces of the base scripts and, for a document of
the workspace, those of the workspace. -/
structure SameSurfaces (loose : Bool) (s₁ s₂ : DiagnosticsState) : Prop where
  workspace : loose = false → SameSurface s₁.workspaceIndex s₂.workspaceIndex
  base : SameSurface s₁.baseScriptsIndex s₂.baseScriptsIndex

lemma fields_eq_of_surfaceOf {ix₁ ix₂ : WorkspaceIndex} {uri : String} {sym₁ sym₂ : Symbol}
    {i : Nat} (hsurface : ix₁.surfaceOf uri = ix₂.surfaceOf uri)
    (h₁ : (ix₁.hashedSymbols uri)[i]? = some sym₁) (h₂ : (ix₂.hashedSymbols uri)[i]? = some sym₂) :
    sym₁.fields = sym₂.fields := by
  have hhashed (ix : WorkspaceIndex) :
      (ix.hashedSymbols uri).map Symbol.fields = (ix.surfaceOf uri).getD [] := by
    unfold WorkspaceIndex.hashedSymbols WorkspaceIndex.surfaceOf
    cases ix.documents.lookup uri <;> rfl
  have hsame : ((ix₁.hashedSymbols uri).map Symbol.fields)[i]? =
      ((ix₂.hashedSymbols uri).map Symbol.fields)[i]? := by
    rw [hhashed, hhashed, hsurface]
  rw [List.getElem?_map, List.getElem?_map, h₁, h₂] at hsame
  exact Option.some.inj hsame

lemma SameSymbol.fields_eq (hsurfaces : SameSurfaces loose s₁ s₂) {uri : String}
    {sym₁ sym₂ : Symbol} (h : SameSymbol loose s₁ s₂ uri sym₁ sym₂) :
    sym₁.fields = sym₂.fields := by
  cases h with
  | checked i h₁ h₂ hloose =>
    cases loose with
    | false => exact fields_eq_of_surfaceOf (hsurfaces.workspace rfl uri) h₁ h₂
    | true => exact fields_eq_of_surfaceOf (hloose rfl) h₁ h₂
  | base i h₁ h₂ => exact fields_eq_of_surfaceOf (hsurfaces.base uri) h₁ h₂
  | builtin => rfl

lemma map_eq_of_forall₂ {α β γ : Type} {R : α → β → Prop} {f : α → γ} {g : β → γ} {l : List α}
    {l' : List β} (h : List.Forall₂ R l l') (hR : ∀ a b, R a b → f a = g b) :
    l.map f = l'.map g :=
  List.forall₂_eq_eq_eq ▸ List.forall₂_map_left_iff.mpr
    (List.forall₂_map_right_iff.mpr (h.imp hR))

lemma uriVisible_ruleDb (s : DiagnosticsState) (uri : String) :
    (s.ruleDb builtins loose).symbols.shadowedBase.uriVisible uri =
      decide (uri ∉ s.suppressedBaseUris) := by
  unfold DiagnosticsState.ruleDb buildSymbolDb SymbolDb.shadowedBase ShadowedBase.uriVisible
  by_cases hempty : s.suppressedBaseUris = ∅
  · simp [hempty]
  · simp [hempty]

lemma SameEntry.outward_eq (hsurfaces : SameSurfaces loose s₁ s₂) {placed : Placed}
    {e₁ e₂ : IndexEntry} (h : SameEntry builtins loose s₁ s₂ placed e₁ e₂) :
    (s₁.ruleDb builtins loose).symbols.outwardEntry placed e₁ =
      (s₂.ruleDb builtins loose).symbols.outwardEntry placed e₂ := by
  cases h with
  | edge uri name => rfl
  | @decl uri sym₁ sym₂ hsymbol hparameters htype hvisible hplace =>
    have hfields := hsymbol.fields_eq hsurfaces
    have hparameterFields := map_eq_of_forall₂ hparameters fun _ _ h => h.fields_eq hsurfaces
    simp only [SymbolDb.outwardEntry, SymbolDb.outward, uriVisible_ruleDb, hfields, htype,
      hparameterFields, hvisible]
    split_ifs with hplaced
    · rw [hplace hplaced]
    · rfl

lemma SameEntries.sameOutward (hsurfaces : SameSurfaces loose s₁ s₂) {placed : Placed} {σ : Slot}
    (h : SameEntries builtins loose s₁ s₂ placed σ) :
    SameOutward placed (s₁.ruleDb builtins loose).symbols (s₂.ruleDb builtins loose).symbols σ where
  workspace := map_eq_of_forall₂ h.checked fun _ _ h => h.outward_eq hsurfaces
  base := map_eq_of_forall₂ h.base fun _ _ h => h.outward_eq hsurfaces
  builtins b hb := by
    obtain rfl : builtins = b := Option.some.inj hb
    exact List.map_congr_left fun e he => (h.builtins e he).outward_eq hsurfaces

/-- What an id fixes and what it leaves out are all that a read depends on. -/
lemma RuleRead.SeesTheSame.alike (hsurfaces : SameSurfaces loose s₁ s₂)
    (henv : s₁.scriptEnv = s₂.scriptEnv) {r : RuleRead}
    (h : r.SeesTheSame builtins loose s₁ s₂) :
    r.Alike (s₁.ruleDb builtins loose) (s₂.ruleDb builtins loose) := by
  cases r with
  | lookup placed q => exact ⟨rfl, fun σ hσ => (h σ hσ).sameOutward hsurfaces⟩
  | findScriptGlobal name => exact congrArg (fun env => env.find name) henv.symm
  | hasBuiltins => exact rfl
  | findNativeTopLevel name => exact rfl
  | _ => exact h

/-- Equal ids give equal diagnostics where the states agree on what the id leaves out. -/
lemma SeesTheSame.sound {rules : DiagnosticRules} {key : String}
    {document₁ document₂ : ParsedDocument}
    (h : SeesTheSame rules builtins loose key document₁ s₁ s₂)
    (hdistinct : NoCollision s₁ s₂ document₁ document₂)
    (hid : s₁.resultId document₁ = s₂.resultId document₂) {diagnostics : List Diagnostic}
    (hfirst : diagnosticsFor rules builtins s₁ loose key document₁ = some diagnostics) :
    diagnosticsFor rules builtins s₂ loose key document₂ = some diagnostics := by
  obtain ⟨hparse, hworkspace, hbase, henv, -⟩ := resultIdFor_injective hid
  have henv := hdistinct.env henv
  have hsurfaces : SameSurfaces loose s₁ s₂ :=
    ⟨fun _ => hdistinct.workspace hworkspace, hdistinct.base hbase⟩
  obtain rfl := hdistinct.parse hparse
  obtain ⟨cst, hcst, rfl⟩ := Option.map_eq_some_iff.mp hfirst
  have hcst₂ : collectCstDiagnostics rules.cst rules.callDepth (s₂.ruleDb builtins loose) key
      document₁ = some cst :=
    ReadTree.run_eq_of_covered (fun r hr => ((h.reads r hr).alike hsurfaces henv).covered _) hcst
      fun _ _ => List.not_mem_nil
  have hconflicts := conflicts_get_eq rules.urls h.workspace.own h.twins
  simp only [diagnosticsFor, hcst₂, Option.map_some, assembleDiagnosticsForKey,
    collectWorkspaceDiagnostics, DiagnosticMap.get_extend, h.workspace.duplicates,
    h.looseFiles.duplicates, henv, h.workspace.shadowing, h.looseFiles.shadowing,
    h.workspace.duplicateLocals, h.looseFiles.duplicateLocals, hconflicts]

end Sound

/-! ### A declaration that moves in another file -/

def Symbol.movedTo (sym : Symbol) (range : SourceRange) : Symbol :=
  { sym with selectionRange := range }

@[simp] lemma movedTo_kind (sym : Symbol) (range : SourceRange) :
    (sym.movedTo range).kind = sym.kind := rfl

/-- A document with one declaration, that of a symbol moved to a range. -/
def declaredAt (sym : Symbol) (range : SourceRange) : ParsedDocument where
  source := ""
  symbols := [sym.movedTo range]

/-- The document, then another one. -/
def indexWith (H : Hasher) (key : String) (document : ParsedDocument) (other : String)
    (document' : ParsedDocument) : WorkspaceIndex :=
  runIndex H [.update key document, .update other document']

def stateWith (loose : Bool) (ix : WorkspaceIndex) : DiagnosticsState :=
  if loose then { looseIndex := ix } else { workspaceIndex := ix }

@[simp] lemma checked_stateWith (loose : Bool) (ix : WorkspaceIndex) :
    (stateWith loose ix).checked loose = ix := by
  cases loose <;> rfl

lemma surfaceHash_applyContribution (ix : WorkspaceIndex) (uri : String) (c : DocContribution) :
    (ix.applyContribution uri c).2.surfaceHash =
      (match (ix.removeFromIndices uri).docSurfaceHashes.lookup uri with
        | some oldHash => (ix.removeFromIndices uri).surfaceHash ^^^ oldHash
        | none => (ix.removeFromIndices uri).surfaceHash) ^^^ c.surfaceHash :=
  congrArg WorkspaceIndex.surfaceHash (WorkspaceIndex.forgetCatalog_noteChangedKeys _ _)

section Moved

variable (H : Hasher) {key other : String} (document : ParsedDocument)

lemma documents_indexWith (document' : ParsedDocument) :
    (indexWith H key document other document').documents =
      (AList.insert key document.symbols ∅).insert other document'.symbols := by
  simp only [indexWith, runIndex, List.foldl_cons, List.foldl_nil, IndexOp.step,
    WorkspaceIndex.updateDocument, WorkspaceIndex.documents_applyContribution,
    WorkspaceIndex.computeContribution]

lemma entries_indexWith (hother : other ≠ key) (document' : ParsedDocument) :
    (indexWith H key document other document').documents.entries =
      [⟨other, document'.symbols⟩, ⟨key, document.symbols⟩] := by
  have hnotin : other ∉ (AList.insert key document.symbols ∅ : AList fun _ => List Symbol) := by
    rw [AList.mem_insert]
    exact fun h => h.elim hother (AList.notMem_empty other)
  rw [documents_indexWith, AList.entries_insert_of_notMem hnotin]
  rfl

lemma surfaceHash_indexWith {document₁ document₂ : ParsedDocument}
    (h : hashedFields document₁.symbols = hashedFields document₂.symbols) :
    (indexWith H key document other document₁).surfaceHash =
      (indexWith H key document other document₂).surfaceHash := by
  have hhash : docSurfaceHash H other document₁.symbols =
      docSurfaceHash H other document₂.symbols := congrArg (H.document other) h
  simp only [indexWith, runIndex, List.foldl_cons, List.foldl_nil, IndexOp.step,
    WorkspaceIndex.updateDocument, surfaceHash_applyContribution,
    WorkspaceIndex.computeContribution, hhash]

lemma sameSurface_indexWith {document₁ document₂ : ParsedDocument}
    (h : hashedFields document₁.symbols = hashedFields document₂.symbols) :
    SameSurface (indexWith H key document other document₁)
      (indexWith H key document other document₂) := by
  intro uri
  rw [WorkspaceIndex.surfaceOf, WorkspaceIndex.surfaceOf, documents_indexWith,
    documents_indexWith]
  by_cases huri : uri = other
  · subst huri
    rw [AList.lookup_insert, AList.lookup_insert, Option.map_some, Option.map_some, h]
  · rw [AList.lookup_insert_ne huri, AList.lookup_insert_ne huri]

/-- Where the declaration stands is not hashed. -/
lemma hashedFields_declaredAt (sym : Symbol) (range range' : SourceRange) :
    hashedFields (declaredAt sym range).symbols = hashedFields (declaredAt sym range').symbols := by
  by_cases hkind : sym.kind = .variable <;>
    simp [hashedFields, declaredAt, hkind, Symbol.fields, Symbol.movedTo]

/-- The declaration of the other file, moved to a range. -/
def moveTo (other : String) (range : SourceRange) (d : Definition) : Definition :=
  if d.uri = other then ⟨d.uri, d.symbol.movedTo range⟩ else d

/-- The declarations that can clash: that of the other file, and those of the document. -/
def declarationsWith (key : String) (document : ParsedDocument) (other : String) (sym : Symbol)
    (range : SourceRange) : List Definition :=
  ⟨other, sym.movedTo range⟩ :: (document.symbols.filter isEligible).map fun s => ⟨key, s⟩

lemma declarations_indexWith (hother : other ≠ key) {sym : Symbol} (hsym : isEligible sym)
    (range : SourceRange) :
    ((indexWith H key document other (declaredAt sym range)).allTopLevel.filter fun d =>
      isDeclarationKind d.symbol.kind && d.symbol.annotations.isEmpty) =
      declarationsWith key document other sym range := by
  have hmoved : isEligible (sym.movedTo range) = true := hsym
  rw [declarations_eq, entries_indexWith H document hother]
  simp only [List.flatMap_cons, List.flatMap_nil, List.append_nil]
  simp [declaredAt, hmoved, declarationsWith]

lemma declarationsWith_move (hother : other ≠ key) (sym : Symbol) (range range' : SourceRange) :
    declarationsWith key document other sym range' =
      (declarationsWith key document other sym range).map (moveTo other range') := by
  simp [declarationsWith, moveTo, hother.symm, Symbol.movedTo]

/-- The duplicates that a document shares with the other file. -/
def clashesWith (key : String) (document : ParsedDocument) (other : String) (sym : Symbol) :
    List (Definition × List Definition) :=
  (clashes (fun d => declarationKey d.symbol)
    (declarationsWith key document other sym sym.selectionRange)).filter fun e => e.1.uri = key

/-- The document's duplicates are the same wherever the other file's declaration stands, up to
that place. -/
lemma duplicates_indexWith (hother : other ≠ key) {sym : Symbol} (hsym : isEligible sym)
    (range : SourceRange) :
    (collectDuplicateSymbolDiagnostics
      (indexWith H key document other (declaredAt sym range))).get key =
      (clashesWith key document other sym).map fun e =>
        duplicateSymbol (moveTo other range e.1) (e.2.map (moveTo other range)) := by
  have hkey (d : Definition) :
      declarationKey (moveTo other range d).symbol = declarationKey d.symbol := by
    unfold moveTo
    split_ifs <;> rfl
  have huri (d : Definition) : (moveTo other range d).uri = d.uri := by
    unfold moveTo
    split_ifs <;> rfl
  simp only [collectDuplicateSymbolDiagnostics, DiagnosticMap.get, clashesWith,
    declarations_indexWith H document hother hsym]
  have hrelabelled : clashes (fun d => declarationKey d.symbol)
      ((declarationsWith key document other sym sym.selectionRange).map (moveTo other range)) =
      (clashes (fun d => declarationKey d.symbol)
        (declarationsWith key document other sym sym.selectionRange)).map
          fun e => (moveTo other range e.1, e.2.map (moveTo other range)) :=
    clashes_map (fun d : Definition => declarationKey d.symbol) hkey _
  rw [declarationsWith_move document hother sym sym.selectionRange range, hrelabelled]
  simp only [List.map_map, List.filter_map, Function.comp_def, huri]

lemma conflicts_stateWith (rules : DiagnosticRules) (loose : Bool) (ix : WorkspaceIndex) :
    (collectWorkspaceDiagnostics rules (stateWith loose ix)).baseConflict.get key = [] := by
  have hnone (uri : String) (symbols : List Symbol) :
      conflictsOf rules.urls [] [] uri symbols = [] := by
    unfold conflictsOf
    split_ifs
    · rfl
    · cases basenameOf uri with
      | none => rfl
      | some basename =>
        have hnoEntry : conflictOf rules.urls uri basename [] = fun _ => none := rfl
        simp [hnoEntry]
  have hindex : indexBaseScripts (stateWith loose ix).baseScriptsIndex = [] := by
    cases loose <;> rfl
  have hdirs : (stateWith loose ix).legacyDirs = [] := by
    cases loose <;> rfl
  simp only [collectWorkspaceDiagnostics, collectBaseScriptConflictDiagnostics,
    get_collectByDocument, hindex, hdirs]
  cases (stateWith loose ix).workspaceIndex.documents.lookup key with
  | none => rfl
  | some symbols => exact hnone key symbols

lemma dup_stateWith (rules : DiagnosticRules) (loose : Bool) (ix : WorkspaceIndex) :
    (collectWorkspaceDiagnostics rules (stateWith loose ix)).dup.get key =
      (collectDuplicateSymbolDiagnostics ix).get key := by
  have hnone : (collectDuplicateSymbolDiagnostics {}).get key = [] := rfl
  simp only [collectWorkspaceDiagnostics, DiagnosticMap.get_extend]
  cases loose with
  | false => simp [stateWith, hnone]
  | true =>
    simp only [stateWith, if_true, hnone]
    split_ifs with hempty
    · exact (List.isEmpty_iff.mp hempty).symm
    · rfl

/-- The syntax errors, then the duplicates, then the rest. -/
lemma diagnosticsFor_stateWith {rules : DiagnosticRules} {builtins : WorkspaceIndex}
    {loose : Bool} {ix : WorkspaceIndex} {diagnostics : List Diagnostic}
    (h : diagnosticsFor rules builtins (stateWith loose ix) loose key document =
      some diagnostics) :
    ∃ rest, diagnostics =
      rules.lspDiagnostics document ++ (((collectDuplicateSymbolDiagnostics ix).get key).map
        (lspWorkspaceDiagnostic rules) ++ rest) := by
  obtain ⟨cst, -, rfl⟩ := Option.map_eq_some_iff.mp h
  have hall (l : List WorkspaceDiagnostic) : duplicatesNotExplainedByConflict l [] = l := by
    simp [duplicatesNotExplainedByConflict]
  simp only [assembleDiagnosticsForKey, conflicts_stateWith, dup_stateWith, hall, List.append_nil,
    List.append_assoc, List.map_append]
  exact ⟨_, rfl⟩

/-- A place that no symbol of the document has. -/
lemma exists_fresh_range : ∃ range, ∀ s ∈ document.symbols, s.selectionRange ≠ range := by
  obtain ⟨line, hline⟩ := Infinite.exists_notMem_finset
    (document.symbols.map fun s => s.selectionRange.start.line).toFinset
  refine ⟨⟨⟨line, 0⟩, ⟨line, 0⟩⟩, fun s hs heq => hline ?_⟩
  rw [List.mem_toFinset]
  exact List.mem_map.mpr ⟨s, hs, by rw [heq]⟩

/-- Where the related locations of a duplicate are. -/
lemma exists_related_iff (rules : DiagnosticRules) (d : Definition) (others : List Definition)
    (range : SourceRange) :
    (∃ related ∈ (lspWorkspaceDiagnostic rules (duplicateSymbol d others)).relatedInformation,
      related.range = range) ↔
      ∃ o ∈ others, (rules.parseUrl o.uri).isSome ∧ o.symbol.selectionRange = range := by
  simp only [lspWorkspaceDiagnostic, duplicateSymbol, List.mem_filterMap, List.mem_map,
    Option.map_eq_some_iff, Option.isSome_iff_exists]
  constructor
  · rintro ⟨related, ⟨location, ⟨o, ho, rfl⟩, url, hurl, rfl⟩, hrange⟩
    exact ⟨o, ho, ⟨url, hurl⟩, hrange⟩
  · rintro ⟨o, ho, ⟨url, hurl⟩, hrange⟩
    exact ⟨_, ⟨_, ⟨o, ho, rfl⟩, url, hurl, rfl⟩, hrange⟩

/-- The other file's declaration is in the answer with its place. -/
lemma diagnosticsFor_ne (rules : DiagnosticRules) (builtins : WorkspaceIndex) (loose : Bool)
    (hother : other ≠ key) (hurl : (rules.parseUrl other).isSome) {sym : Symbol}
    (hmem : sym ∈ document.symbols) (hsym : isEligible sym) {range range' : SourceRange}
    (hfresh : ∀ s ∈ document.symbols, s.selectionRange ≠ range) (hne : range ≠ range')
    {diagnostics : List Diagnostic}
    (h₁ : diagnosticsFor rules builtins
      (stateWith loose (indexWith H key document other (declaredAt sym range))) loose key
        document = some diagnostics) :
    diagnosticsFor rules builtins
      (stateWith loose (indexWith H key document other (declaredAt sym range'))) loose key
        document ≠ some diagnostics := by
  intro h₂
  obtain ⟨rest, hrest⟩ := diagnosticsFor_stateWith document h₁
  obtain ⟨rest', hrest'⟩ := diagnosticsFor_stateWith document h₂
  have heq := hrest.symm.trans hrest'
  rw [List.append_cancel_left_eq, duplicates_indexWith H document hother hsym,
    duplicates_indexWith H document hother hsym, List.map_map, List.map_map] at heq
  have hdups := (List.append_inj heq (by simp)).1
  -- the document's declaration clashes with the other file's
  have hshared : ∃ others, (⟨key, sym⟩, others) ∈ clashes (fun d => declarationKey d.symbol)
      (declarationsWith key document other sym sym.selectionRange) ∧
      (⟨other, sym.movedTo sym.selectionRange⟩ : Definition) ∈ others := by
    have hself : (⟨key, sym⟩ : Definition) ∈
        (document.symbols.filter isEligible).map fun s => ⟨key, s⟩ :=
      List.mem_map_of_mem (List.mem_filter.mpr ⟨hmem, hsym⟩)
    exact exists_clash List.mem_cons_self (List.mem_cons_of_mem _ hself) (by simp [hother]) rfl
  obtain ⟨others, hclash, hin⟩ := hshared
  have hpair : lspWorkspaceDiagnostic rules (duplicateSymbol (moveTo other range ⟨key, sym⟩)
      (others.map (moveTo other range))) =
      lspWorkspaceDiagnostic rules (duplicateSymbol (moveTo other range' ⟨key, sym⟩)
      (others.map (moveTo other range'))) :=
    List.map_inj_left.mp hdups (⟨key, sym⟩, others) (List.mem_filter.mpr ⟨hclash, by simp⟩)
  -- so the place is a related location of the first answer, and therefore of the second
  have hfirst := (exists_related_iff rules (moveTo other range ⟨key, sym⟩)
    (others.map (moveTo other range)) range).mpr
    ⟨_, List.mem_map_of_mem hin, by simp [moveTo, hurl], by simp [moveTo, Symbol.movedTo]⟩
  rw [hpair, exists_related_iff] at hfirst
  obtain ⟨d, hd, -, hplace⟩ := hfirst
  obtain ⟨o, ho, rfl⟩ := List.mem_map.mp hd
  rcases List.mem_cons.mp ((mem_of_mem_clashes hclash).2 o ho) with rfl | hown
  · exact hne (by simpa [moveTo, Symbol.movedTo] using hplace.symm)
  · obtain ⟨s, hs, rfl⟩ := List.mem_map.mp hown
    have hstays : moveTo other range' ⟨key, s⟩ = ⟨key, s⟩ := if_neg (Ne.symm hother)
    rw [hstays] at hplace
    exact hfresh s (List.mem_of_mem_filter hs) hplace

end Moved

/-- The index that the document is checked against comes from a run and holds the document. -/
def DiagnosticsState.Holds (H : Hasher) (loose : Bool) (key : String) (document : ParsedDocument)
    (s : DiagnosticsState) : Prop :=
  (∃ ops, s.checked loose = runIndex H ops) ∧
    (s.checked loose).documents.lookup key = some document.symbols

lemma holds_stateWith (H : Hasher) (loose : Bool) {key other : String} (hother : other ≠ key)
    (document document' : ParsedDocument) :
    (stateWith loose (indexWith H key document other document')).Holds H loose key document := by
  refine ⟨⟨_, checked_stateWith loose _⟩, ?_⟩
  rw [checked_stateWith, documents_indexWith, AList.lookup_insert_ne (Ne.symm hother),
    AList.lookup_insert]

lemma noCollision_stateWith {ix₁ ix₂ : WorkspaceIndex} (document : ParsedDocument) (loose : Bool)
    (h : SameSurface ix₁ ix₂) :
    NoCollision (stateWith loose ix₁) (stateWith loose ix₂) document document := by
  cases loose with
  | false => exact ⟨fun _ => h, fun _ _ => rfl, fun _ => rfl, fun _ => rfl⟩
  | true => exact ⟨fun _ _ => rfl, fun _ _ => rfl, fun _ => rfl, fun _ => rfl⟩

lemma resultId_congr {ix₁ ix₂ : WorkspaceIndex} (document : ParsedDocument) (loose : Bool)
    (h : ix₁.surfaceHash = ix₂.surfaceHash) :
    (stateWith loose ix₁).resultId document = (stateWith loose ix₂).resultId document := by
  cases loose with
  | false =>
    unfold DiagnosticsState.resultId stateWith
    rw [if_neg Bool.false_ne_true, if_neg Bool.false_ne_true, h]
  | true => rfl

/-- Two states with one id for a document give it the same diagnostics. -/
def ResultIdsSound (rules : DiagnosticRules) (builtins : WorkspaceIndex) : Prop :=
  ∀ (loose : Bool) (key : String) (s₁ s₂ : DiagnosticsState)
    (document₁ document₂ : ParsedDocument) (diagnostics : List Diagnostic),
    NoCollision s₁ s₂ document₁ document₂ → s₁.resultId document₁ = s₂.resultId document₂ →
    diagnosticsFor rules builtins s₁ loose key document₁ = some diagnostics →
    diagnosticsFor rules builtins s₂ loose key document₂ = some diagnostics

/-- `class Foo {}` -/
def classFooDocument : ParsedDocument where
  source := "class Foo {}"
  symbols := [
    { id := ⟨0⟩, name := "Foo", kind := .class, byteRange := ⟨0, 12⟩,
      selectionByteRange := ⟨6, 9⟩ }]

/-- The same behind an empty line. -/
def classFooBelow : ParsedDocument where
  source := "\nclass Foo {}"
  symbols := [
    { id := ⟨0⟩, name := "Foo", kind := .class, byteRange := ⟨1, 13⟩,
      selectionByteRange := ⟨7, 10⟩, selectionRange := ⟨⟨1, 6⟩, ⟨1, 9⟩⟩ }]
  parseVersion := 2

/-- `class Bar extends Foo {}` -/
def classBarDocument : ParsedDocument where
  source := "class Bar extends Foo {}"
  symbols := [
    { id := ⟨0⟩, name := "Bar", kind := .class, byteRange := ⟨0, 24⟩, selectionByteRange := ⟨6, 9⟩,
      baseClass := some "Foo" }]
  identLeaves := [("Bar", ⟨6, 9⟩), ("Foo", ⟨18, 21⟩)]

/-- A document in `a.ws`, the class `Foo` in `b.ws`. -/
def besideFoo (document second : ParsedDocument) : DiagnosticsState :=
  stateWith false
    (indexWith ⟨fun _ => 0, fun _ _ => 0, fun _ _ => 0⟩ "file:///a.ws" document "file:///b.ws"
      second)

/-- `unknown_symbol` on the base class in a document of one line. -/
def baseClassRule : CstRules := fun _ document =>
  match document.symbols.findSome? (·.baseClass) with
  | none => .done []
  | some name => .ask (.lookup .nowhere (.findTopLevelFiltered name .type)) fun answer => .done <|
    match answer, document.identLeaves.lookup name with
    | .seen (.definition none), some range => [{
        kind := "unknown_type"
        message := "Unknown type '" ++ name ++ "'"
        severity := .error
        range := range.inFirstLine
        related := [] }]
    | _, _ => []

/-- Every URI is a URL, and there are no syntax errors. -/
def plainRules : DiagnosticRules where
  urls := flatUrls
  parseUrl := some
  lspDiagnostics _ := []
  cst := baseClassRule
  callDepth := 1

end WitcherScriptLanguage
