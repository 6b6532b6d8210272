import WitcherScriptLanguage.Lsp.Compilation
import WitcherScriptLanguage.Resolve.ReferenceSearch

/-!
# Reference and rename requests

The documents that the handlers of `references_rename.rs` and `resolve/document_highlight.rs`
search. A rename searches the latest text of the requested document, which may be ahead of the
snapshot that its database comes from.
-/

namespace WitcherScriptLanguage

namespace Env

variable (env : Env)

/-- `merged.insert(..)` for all of the documents. -/
def insertDocuments (merged : DocumentMap) (documents : List (String × ParsedDocument)) :
    DocumentMap :=
  documents.foldl (fun merged s => merged.insert s.1 s.2) merged

/-- Open editor documents shadow workspace documents which shadow base documents. Loose files form
a compilation of their own. -/
def mergeDocuments (snap : Compilation) (targetIsLoose : Bool) : DocumentMap :=
  let merged := insertDocuments ∅ (snap.baseScriptsDocuments.entries.map fun s => (s.1, s.2))
  let merged := if targetIsLoose then merged
    else insertDocuments merged (snap.workspaceDocuments.entries.map fun s => (s.1, s.2))
  insertDocuments merged ((snap.documents.entries.filter fun s =>
    (env.fileScopeOf s.1).isLoose == targetIsLoose).map fun s => (env.canonicalUri s.1, s.2))

def referenceDocuments (snap : Compilation) (uri : Url) : DocumentMap :=
  env.mergeDocuments snap (env.fileScopeOf uri).isLoose

/-- A queued edit is not in the snapshot yet; the latest text is searched in its place. -/
def renameDocuments (snap : Compilation) (uri : Url) (latest : ParsedDocument) : DocumentMap :=
  (env.referenceDocuments snap uri).insert (env.canonicalUri uri) latest

def highlightDocuments (uri : String) (document : ParsedDocument) : DocumentMap :=
  (∅ : DocumentMap).insert uri document

/-- The database of a request about a document. -/
def dbFor (snap : Compilation) (builtins : WorkspaceIndex) (suppressed : Finset String)
    (uri : Url) : SymbolDb where
  workspace := if (env.fileScopeOf uri).isLoose then snap.looseIndex else snap.workspaceIndex
  base := snap.baseScriptsIndex
  builtins := some builtins
  suppressedBaseUris := some suppressed

end Env

/-- A top-level function `f` whose declaration starts the file. -/
def functionSymbol (stop : Nat) : Symbol where
  id := ⟨0⟩
  name := "f"
  kind := .function
  byteRange := ⟨0, stop⟩
  selectionByteRange := ⟨9, 10⟩

def emptyFunctionDocument : ParsedDocument where
  source := "function f() {}"
  symbols := [functionSymbol 15]
  identLeaves := [("f", ⟨9, 10⟩)]

def recursiveFunctionDocument : ParsedDocument where
  source := "function f() { f(); }"
  symbols := [functionSymbol 21]
  identLeaves := [("f", ⟨9, 10⟩), ("f", ⟨15, 16⟩)]

/-- Resolution where every identifier is the declaration or a bare call of a function of its own
document. -/
def functionResolution : NameResolution where
  resolveDefinition uri document offset := do
    let ident ← document.identifierAt offset
    let symbol ← document.symbols.find? fun s => s.container.isNone && s.name = ident.1
    some ⟨uri, symbol⟩
  resolveLocalOrParameter _ _ _ _ := none
  resolveName uri document _ name := do
    let symbol ← document.symbols.find? fun s => s.container.isNone && s.name = name
    some ⟨uri, symbol⟩

/-- The compilation after `a.ws` was opened with the text. -/
def openedCompilation (document : ParsedDocument) : Compilation :=
  (flatEnv noDirs).publishOpenDocument {} "a.ws" document

/-- The search of a rename of `f` in `a.ws`, opened with one text and edited to the latest. -/
def RenameFindsExactly (opened latest : ParsedDocument) (stop : Nat) : Prop :=
  ((flatEnv noDirs).dbFor (openedCompilation opened) {} ∅ "a.ws").FindsExactly 1 functionResolution
    ⟨"a.ws", functionSymbol stop⟩ latest
    ((flatEnv noDirs).renameDocuments (openedCompilation opened) "a.ws" latest) true

lemma lookup_renameDocuments {opened latest document : ParsedDocument} {uri : String}
    (h : ((flatEnv noDirs).renameDocuments (openedCompilation opened) "a.ws" latest).lookup uri =
      some document) : uri = "a.ws" ∧ document = latest := by
  have hdocuments : (flatEnv noDirs).renameDocuments (openedCompilation opened) "a.ws" latest =
      (∅ : DocumentMap).insert "a.ws" latest := rfl
  rw [hdocuments] at h
  by_cases huri : uri = "a.ws"
  · subst huri
    rw [AList.lookup_insert] at h
    exact ⟨rfl, (Option.some.inj h).symm⟩
  · rw [AList.lookup_insert_ne huri] at h
    cases h

lemma wellFormed_recursiveFunction : recursiveFunctionDocument.WellFormed where
  distinct := by decide
  inside := by
    unfold ParsedDocument.InsideText
    decide

end WitcherScriptLanguage
