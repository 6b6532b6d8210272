import Mathlib.Data.List.Sort
import WitcherScriptLanguage.Library.KeyedDedup
import WitcherScriptLanguage.Lsp.BaseScripts

/-!
# Diagnostics over whole indexes

The rules that read the symbol tables of an index instead of a syntax tree (`diagnostics/`):
duplicate declarations, shadowing, duplicate locals and clashes with base scripts. Each makes a
map from a document's URI to its diagnostics. The hash maps that a rule groups symbols with are
visited in the order of their first keys.
-/

namespace WitcherScriptLanguage

open Library

inductive Severity
  | error | warning | info | hint
  deriving DecidableEq, Repr

structure RelatedLocation where
  uri : String
  range : SourceRange
  message : String
  deriving DecidableEq, Repr

/-- The JSON value that a quick fix reads. -/
inductive DiagnosticData
  | directory (path : FilePath)
  | other (json : String)
  deriving DecidableEq, Repr

structure WorkspaceDiagnostic where
  kind : String
  message : String
  severity : Severity
  range : SourceRange
  related : List RelatedLocation
  data : Option DiagnosticData := none
  deriving DecidableEq, Repr

/-- A map to lists of diagnostics, as the sequence of the pushes to its entries. -/
abbrev DiagnosticMap := List (String × WorkspaceDiagnostic)

namespace DiagnosticMap

def get (map : DiagnosticMap) (key : String) : List WorkspaceDiagnostic :=
  (map.filter fun e => e.1 = key).map (·.2)

/-- `HashMap::extend`: an entry of the second map replaces that of the first. -/
def extend (map other : DiagnosticMap) : DiagnosticMap :=
  (map.filter fun e => !(other.map (·.1)).contains e.1) ++ other

lemma get_extend (map other : DiagnosticMap) (key : String) :
    (map.extend other).get key =
      if (other.get key).isEmpty then map.get key else other.get key := by
  unfold extend get
  rw [List.filter_append, List.map_append]
  by_cases hkey : key ∈ other.map (·.1)
  · have hdropped : (map.filter fun e => !(other.map (·.1)).contains e.1).filter
        (fun e => e.1 = key) = [] := by
      rw [List.filter_eq_nil_iff]
      intro e he heq
      rw [List.mem_filter, of_decide_eq_true heq] at he
      simp [hkey] at he
    have hsome : ((other.filter fun e => e.1 = key).map (·.2)).isEmpty = false := by
      obtain ⟨e, he, rfl⟩ := List.mem_map.mp hkey
      rw [List.isEmpty_eq_false_iff]
      exact List.ne_nil_of_mem (List.mem_map_of_mem (List.mem_filter.mpr ⟨he, by simp⟩))
    rw [hdropped, hsome]
    rfl
  · have hnone : other.filter (fun e => e.1 = key) = [] := by
      rw [List.filter_eq_nil_iff]
      intro e he heq
      exact hkey (List.mem_map.mpr ⟨e, he, of_decide_eq_true heq⟩)
    have hkept : (map.filter fun e => !(other.map (·.1)).contains e.1).filter
        (fun e => e.1 = key) = map.filter fun e => e.1 = key := by
      rw [List.filter_filter]
      refine List.filter_congr fun e _ => ?_
      by_cases heq : e.1 = key
      · simp [heq, hkey]
      · simp [heq]
    rw [hkept, hnone]
    simp

end DiagnosticMap

/-- A global with its defining file, from every document of an index. -/
def WorkspaceIndex.allTopLevel (ix : WorkspaceIndex) : List Definition :=
  ix.documents.entries.flatMap fun e =>
    (e.2.filter fun s => s.container.isNone).map fun s => ⟨e.1, s⟩

def isDeclarationKind : SymbolKind → Bool
  | .class | .struct | .enum | .state | .function | .event => true
  | _ => false

/-- A declaration of a fresh global name; annotated functions are injections into a class. -/
def isEligible (s : Symbol) : Bool :=
  s.container.isNone && isDeclarationKind s.kind && s.annotations.isEmpty

def ownerForState (s : Symbol) : Option String := if s.kind = .state then s.ownerClass else none

/-- States are scoped to their owner. -/
def declarationKey (s : Symbol) : String × Option String := (s.name, ownerForState s)

def alsoDeclaredHere (name : String) (d : Definition) : RelatedLocation :=
  ⟨d.uri, d.symbol.selectionRange, "'" ++ name ++ "' also declared here"⟩

def duplicateSymbol (d : Definition) (others : List Definition) : WorkspaceDiagnostic where
  kind := "duplicate_symbol"
  message := "A class or function with that name already exists."
  severity := .error
  range := d.symbol.selectionRange
  related := others.map (alsoDeclaredHere d.symbol.name)

def collectDuplicateSymbolDiagnostics (ix : WorkspaceIndex) : DiagnosticMap :=
  let declarations := ix.allTopLevel.filter fun d =>
    isDeclarationKind d.symbol.kind && d.symbol.annotations.isEmpty
  (clashes (fun d => declarationKey d.symbol) declarations).map fun e =>
    (e.1.uri, duplicateSymbol e.1 e.2)

/-- The containers of a symbol from the inside out. A container precedes what it contains, so a
walk is no longer than the table. -/
def containersFrom (symbols : List Symbol) : Nat → Option SymbolId → List (SymbolId × Symbol)
  | 0, _ => []
  | _ + 1, none => []
  | fuel + 1, some id =>
    match symbols[id.val]? with
    | none => []
    | some owner => (id, owner) :: containersFrom symbols fuel owner.container

def containers (symbols : List Symbol) (s : Symbol) : List (SymbolId × Symbol) :=
  containersFrom symbols symbols.length s.container

def enclosingCallableId (symbols : List Symbol) (s : Symbol) : Option SymbolId :=
  ((containers symbols s).find? fun c => c.2.kind.isCallable).map (·.1)

def isExempt (callable : Symbol) : Bool :=
  callable.annotations.any fun a => ["wrapMethod", "replaceMethod"].contains a.name

def isInExemptCallable (symbols : List Symbol) (s : Symbol) : Bool :=
  (containers symbols s).any fun c => c.2.kind.isCallable && isExempt c.2

def ScriptEnvironment.find (env : ScriptEnvironment) (name : String) : Option Definition :=
  env.globals.find? fun d => d.symbol.name = name

/-- The common part of `script_global_shadow` and `field_shadows_script_global`. -/
def shadowsScriptGlobal (env : ScriptEnvironment) (label : String) (s : Symbol) :
    Option WorkspaceDiagnostic :=
  (env.find s.name).map fun global => {
    kind := "shadows_script_global"
    message := label ++ " '" ++ s.name ++ "' shadows the engine global declared in redscripts.ini"
    severity := .warning
    range := s.selectionRange
    related := [⟨global.uri, global.symbol.selectionRange, "'" ++ s.name ++ "' declared here"⟩] }

def scriptGlobalShadow (env : ScriptEnvironment) (s : Symbol) : Option WorkspaceDiagnostic :=
  shadowsScriptGlobal env (if s.kind = .parameter then "Parameter" else "Local") s

def fieldShadowsScriptGlobal (env : ScriptEnvironment) (s : Symbol) : Option WorkspaceDiagnostic :=
  shadowsScriptGlobal env "Field" s

def classFieldShadow (ix : WorkspaceIndex) (symbols : List Symbol) (s : Symbol) :
    Option WorkspaceDiagnostic := do
  let callableId ← enclosingCallableId symbols s
  let callable ← symbols[callableId.val]?
  let classId ← callable.container
  let classSym ← symbols[classId.val]?
  if !classSym.kind.isInstantiable then none
  else
    let field ← ix.directMemberOf classSym.typeName s.name .private
    if field.symbol.kind ≠ .field then none
    else some {
      kind := "shadows_class_field"
      message := "Local '" ++ s.name ++ "' shadows field declared in " ++ classSym.name
      severity := .warning
      range := s.selectionRange
      related := [⟨field.uri, field.symbol.selectionRange,
        "Field '" ++ s.name ++ "' declared here"⟩] }

/-- The pushes for one symbol of a document. -/
def shadowingOf (ix : WorkspaceIndex) (env : ScriptEnvironment) (symbols : List Symbol)
    (s : Symbol) : List WorkspaceDiagnostic :=
  if isInExemptCallable symbols s then []
  else match s.kind with
    | .parameter => (scriptGlobalShadow env s).toList
    | .variable => (scriptGlobalShadow env s).toList ++ (classFieldShadow ix symbols s).toList
    | .field => (fieldShadowsScriptGlobal env s).toList
    | _ => []

/-- A rule that makes the diagnostics of a document from its symbols. -/
def collectByDocument (ix : WorkspaceIndex)
    (rule : String → List Symbol → List WorkspaceDiagnostic) : DiagnosticMap :=
  ix.documents.entries.flatMap fun e => (rule e.1 e.2).map fun d => (e.1, d)

def collectShadowingDiagnostics (ix : WorkspaceIndex) (env : ScriptEnvironment) : DiagnosticMap :=
  collectByDocument ix fun _ symbols => symbols.flatMap (shadowingOf ix env symbols)

/-- The parameters and locals of the callables that are not exempt, by callable. -/
def localBindings (symbols : List Symbol) : List (SymbolId × Symbol) :=
  symbols.filterMap fun s =>
    if s.kind = .parameter ∨ s.kind = .variable then do
      let callableId ← enclosingCallableId symbols s
      let callable ← symbols[callableId.val]?
      if isExempt callable then none else some (callableId, s)
    else none

def duplicateLocal (uri : String) (s : Symbol) (others : List Symbol) : WorkspaceDiagnostic where
  kind := "duplicate_local"
  message := "'" ++ s.name ++ "' is already declared in this function"
  severity := .error
  range := s.selectionRange
  related := others.map fun other => alsoDeclaredHere s.name ⟨uri, other⟩

def duplicateLocalsOf (uri : String) (symbols : List Symbol) : List WorkspaceDiagnostic :=
  (groupsOn (·.1) (localBindings symbols)).flatMap fun bindings =>
    (clashes (·.name) (bindings.map (·.2))).map fun e => duplicateLocal uri e.1 e.2

def collectDuplicateLocalDiagnostics (ix : WorkspaceIndex) : DiagnosticMap :=
  collectByDocument ix duplicateLocalsOf

structure BaseEntry where
  uri : String
  relativePath : List Char
  /-- The eligible symbols; of two with one key the later counts. -/
  declarations : List Symbol

def BaseEntry.get (entry : BaseEntry) (key : String × Option String) : Option Symbol :=
  entry.declarations.reverse.find? fun s => declarationKey s = key

/-- A base script with its file name. -/
def baseEntry (uri : String) (symbols : List Symbol) : Option (String × BaseEntry) := do
  let basename ← basenameOf uri
  let relativePath ← relativeFromScripts uri
  some (basename, ⟨uri, relativePath, symbols.filter isEligible⟩)

def indexBaseScripts (base : WorkspaceIndex) : List (String × BaseEntry) :=
  base.documents.entries.filterMap fun e => baseEntry e.1 e.2

/-- What stands before a suffix. -/
def stripSuffix (text suffix : List Char) : Option (List Char) :=
  if suffix.isSuffixOf text then some (text.take (text.length - suffix.length)) else none

/-- Anchored on a separator, so that `.../r4game/r4Player.ws` is not `game/r4Player.ws`. -/
def pathSuffixMatches (uri : String) (relativePath : List Char) : Bool :=
  match stripSuffix uri.toList relativePath with
  | none => false
  | some head => ['/'].isSuffixOf head

section Urls

variable (urls : FileUrls)

def uriIsUnderAny (uri : String) (dirs : List FilePath) : Bool :=
  match urls.toFilePath uri with
  | none => false
  | some path => underAny dirs path

/-- The directory that the quick fix marks as legacy. -/
def conflictData (workspaceUri : String) (baseRelpath : List Char) : Option DiagnosticData := do
  let dirUri ← stripSuffix workspaceUri.toList baseRelpath
  let dirUri := (stripSuffix dirUri ['/']).getD dirUri
  let path ← urls.toFilePath (String.ofList dirUri)
  some (.directory path)

/-- An open base script can be filed under the editor's spelling of its URI. -/
def isSameFile (a b : String) : Bool := a = b || urls.canonicalUri a = urls.canonicalUri b

def baseScriptConflict (workspaceUri basename : String) (s : Symbol) (entry : BaseEntry)
    (baseSym : Symbol) : WorkspaceDiagnostic where
  kind := "base_script_conflict"
  message := "'" ++ s.name ++ "' is already declared in base script '" ++ basename ++
    "'. This file looks like a legacy full-script override. If that is intended, add its " ++
    "directory to `witcherscript.legacyScriptDirectories`; otherwise use annotation-based " ++
    "modding (@addMethod / @wrapMethod / @replaceMethod)."
  severity := .error
  range := s.selectionRange
  related := [⟨entry.uri, baseSym.selectionRange,
    "Base script '" ++ basename ++ "' declares '" ++ s.name ++ "' here"⟩]
  data := conflictData urls workspaceUri entry.relativePath

/-- The first base script at the same place under `scripts` that declares the name. -/
def conflictOf (workspaceUri basename : String) (entries : List BaseEntry) (s : Symbol) :
    Option WorkspaceDiagnostic :=
  entries.findSome? fun entry =>
    if isSameFile urls workspaceUri entry.uri then none
    else if !pathSuffixMatches workspaceUri entry.relativePath then none
    else (entry.get (declarationKey s)).map (baseScriptConflict urls workspaceUri basename s entry)

/-- `sort_by_key` on the start of the range. -/
def startsBefore (a b : WorkspaceDiagnostic) : Prop :=
  a.range.start.line < b.range.start.line ∨ (a.range.start.line = b.range.start.line ∧
    a.range.start.character ≤ b.range.start.character)

instance : DecidableRel startsBefore := fun _ _ => inferInstanceAs (Decidable (_ ∨ _))

def conflictsOf (base : List (String × BaseEntry)) (legacyDirs : List FilePath) (uri : String)
    (symbols : List Symbol) : List WorkspaceDiagnostic :=
  if uriIsUnderAny urls uri legacyDirs then []
  else match basenameOf uri with
    | none => []
    | some basename =>
      let entries := (base.filter fun e => e.1 = basename).map (·.2)
      ((symbols.filter isEligible).filterMap
        (conflictOf urls uri basename entries)).insertionSort startsBefore

def collectBaseScriptConflictDiagnostics (workspace base : WorkspaceIndex)
    (legacyDirs : List FilePath) : DiagnosticMap :=
  collectByDocument workspace (conflictsOf urls (indexBaseScripts base) legacyDirs)

end Urls

/-- The declarations that can clash, document by document. -/
lemma declarations_eq (ix : WorkspaceIndex) :
    (ix.allTopLevel.filter fun d =>
      isDeclarationKind d.symbol.kind && d.symbol.annotations.isEmpty) =
      ix.documents.entries.flatMap fun e => (e.2.filter isEligible).map fun s => ⟨e.1, s⟩ := by
  unfold WorkspaceIndex.allTopLevel
  rw [List.filter_flatMap]
  refine List.flatMap_congr fun e _ => ?_
  rw [List.filter_map, List.filter_filter]
  refine congrArg _ (List.filter_congr fun s _ => ?_)
  simp only [Function.comp_apply, isEligible]
  cases s.container.isNone <;> simp

/-- Only documents of the index get duplicates. -/
lemma get_collectDuplicateSymbolDiagnostics_of_notMem {ix : WorkspaceIndex} {key : String}
    (h : key ∉ ix.documents) : (collectDuplicateSymbolDiagnostics ix).get key = [] := by
  unfold collectDuplicateSymbolDiagnostics DiagnosticMap.get
  rw [List.map_eq_nil_iff, List.filter_eq_nil_iff]
  intro pushed hpushed heq
  obtain ⟨clash, hclash, rfl⟩ := List.mem_map.mp hpushed
  have hmem := (mem_of_mem_clashes hclash).1
  rw [declarations_eq] at hmem
  obtain ⟨e, he, hd⟩ := List.mem_flatMap.mp hmem
  obtain ⟨s, -, hs⟩ := List.mem_map.mp hd
  have huri : e.1 = key := by
    rw [← of_decide_eq_true heq, ← hs]
  exact h (AList.mem_keys.mpr (huri ▸ List.mem_map_of_mem he))

/-- A rule on single documents reads the symbols of one document. -/
lemma get_collectByDocument (ix : WorkspaceIndex)
    (rule : String → List Symbol → List WorkspaceDiagnostic) (key : String) :
    (collectByDocument ix rule).get key =
      ((ix.documents.lookup key).map (rule key)).getD [] := by
  have hentries (l : List (Sigma fun _ : String => List Symbol)) (hl : l.NodupKeys) :
      DiagnosticMap.get (l.flatMap fun e => (rule e.1 e.2).map fun d => (e.1, d)) key =
        ((l.dlookup key).map (rule key)).getD [] := by
    unfold DiagnosticMap.get
    induction l with
    | nil => rfl
    | cons e l ih =>
      obtain ⟨hnotin, hl⟩ := List.nodupKeys_cons.mp hl
      rw [List.flatMap_cons, List.filter_append, List.map_append, ih hl]
      obtain ⟨uri, symbols⟩ := e
      by_cases huri : uri = key
      · subst huri
        have htail : l.dlookup uri = none := List.dlookup_eq_none.mpr hnotin
        simp [htail, List.filter_map, Function.comp_def]
      · rw [List.dlookup_cons_ne _ _ (Ne.symm huri)]
        simp [huri, List.filter_map, Function.comp_def]
  exact hentries ix.documents.entries ix.documents.nodupKeys

end WitcherScriptLanguage
