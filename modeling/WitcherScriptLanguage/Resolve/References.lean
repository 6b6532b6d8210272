import Mathlib.Data.List.Sort
import WitcherScriptLanguage.Resolve.Declarations
import WitcherScriptLanguage.Resolve.MemberPurity

/-!
# Finding references

`find_references` (`resolve/references.rs`) collects the occurrences of the symbol's names as
candidates, from the identifier index where it can, and reports those that name resolution takes
to one of the declarations of the symbol.
-/

namespace WitcherScriptLanguage

open Library

namespace WorkspaceIndex

variable (ix : WorkspaceIndex)

def isIndexed (uri : String) : Bool := uri ∈ ix.docIdents

def identRangesInDoc (uri name : String) : Option (List ByteRange) :=
  (ix.docIdents.lookup uri).bind fun names => names.lookup name

end WorkspaceIndex

namespace ParsedDocument

variable (document : ParsedDocument)

/-- The identifier that covers the byte, or else the byte before it. -/
def identifierAt (offset : Nat) : Option (String × ByteRange) :=
  let covering (offset : Nat) := document.identLeaves.find? fun leaf =>
    leaf.2.start ≤ offset && offset < leaf.2.stop
  (covering offset).or (if offset = 0 then none else covering (offset - 1))

end ParsedDocument

/-- Name resolution in the documents of one database (`resolve/definition.rs`,
`resolve/inference.rs`): `resolve_definition`, `resolve_local_or_parameter`, `resolve_name`. -/
structure NameResolution where
  resolveDefinition : String → ParsedDocument → Nat → Option Definition
  resolveLocalOrParameter : String → ParsedDocument → Nat → String → Option Definition
  resolveName : String → ParsedDocument → Nat → String → Option Definition

inductive SearchScope
  | allDocuments
  | singleFile
  | singleFileRange (range : ByteRange)
  deriving DecidableEq, Repr

def definitionSearchScope (d : Definition) (definitionDocument : ParsedDocument) : SearchScope :=
  let containerScope := match containerOf definitionDocument.symbols d.symbol with
    | some container => SearchScope.singleFileRange container.byteRange
    | none => .singleFile
  match d.symbol.kind with
  | .variable | .parameter => containerScope
  | .method | .field => if d.symbol.access = .private then containerScope else .allDocuments
  | _ => .allDocuments

/-- An occurrence in a document; `nameRange` leaves out the owner's part of a state class name. -/
structure Reference where
  uri : String
  range : ByteRange
  nameRange : ByteRange
  deriving DecidableEq, Repr

namespace Reference

def inDocument (uri : String) (range : ByteRange) (nameOffset : Nat) : Reference :=
  ⟨uri, range, ⟨range.start + nameOffset, range.stop⟩⟩

def ofDeclaration (d : Definition) : Reference :=
  ⟨d.uri, d.symbol.selectionByteRange, d.symbol.selectionByteRange⟩

def location (r : Reference) : OccurrenceKey := (r.uri, r.range)

@[simp] lemma location_inDocument (uri : String) (range : ByteRange) (nameOffset : Nat) :
    (inDocument uri range nameOffset).location = (uri, range) := rfl

@[simp] lemma location_ofDeclaration (d : Definition) :
    (ofDeclaration d).location = definitionKey d := rfl

end Reference

/-- The declarations to look for, with those that an occurrence was found for. The source marks
the positions of a list without repeated keys. -/
structure OccurrenceFilter where
  equivKeys : List OccurrenceKey
  declFound : List OccurrenceKey
  includeDeclaration : Bool

def OccurrenceFilter.shouldReport (f : OccurrenceFilter) (k : OccurrenceKey) :
    Bool × OccurrenceFilter :=
  if k ∈ f.equivKeys then (f.includeDeclaration, { f with declFound := k :: f.declFound })
  else (true, f)

/-- The names to search for, each with the length of what precedes the symbol's own name. -/
def searchNames (s : Symbol) : List (String × Nat) :=
  (s.name, 0) :: if s.typeName = s.name then []
    else [(s.typeName, s.typeName.utf8ByteSize - s.name.utf8ByteSize)]

/-- Whether the byte ranges meet, as the pruned walk of the tree tests it. -/
def ByteRange.meets (r scope : ByteRange) : Bool := !(r.stop ≤ scope.start || scope.stop ≤ r.start)

def collectIdentOccurrences (document : ParsedDocument) (name : String)
    (scope : Option ByteRange) : List ByteRange :=
  (document.identLeaves.filter fun leaf => leaf.1 = name && scope.all leaf.2.meets).map Prod.snd

namespace SymbolDb

variable (db : SymbolDb) (callDepth : Nat) (R : NameResolution)

/-- The document's identifiers are in one of the indexes that the search reads. -/
def identsIndexed (uri : String) : Bool := db.workspace.isIndexed uri || db.base.isIndexed uri

def indexedRanges (uri name : String) : List ByteRange :=
  ((db.workspace.identRangesInDoc uri name).or (db.base.identRangesInDoc uri name)).getD []

def collectCandidateRanges (uri : String) (document : ParsedDocument) (name : String)
    (scanRange : Option ByteRange) : List ByteRange :=
  if scanRange.isNone && db.identsIndexed uri then db.indexedRanges uri name
  else collectIdentOccurrences document name scanRange

/-- A legacy override keeps the vanilla file on disk; references there share the effective
top-level name. -/
def pairedSuppressedBaseUri (d : Definition) : Option String :=
  if d.symbol.container.isSome then none
  else do
    let suppressed ← db.suppressedBaseUris
    let baseDef ← db.base.findTopLevel d.symbol.typeName
    if baseDef.uri ∉ suppressed then none
    else
      let wsDef ← db.workspace.findTopLevel d.symbol.typeName
      if wsDef.uri = d.uri then some baseDef.uri else none

/-- The declaration that the paired base file is suppressed for. -/
def pairedBaseTopKey (d : Definition) : Option OccurrenceKey :=
  (db.pairedSuppressedBaseUri d).bind fun _ =>
    (db.base.findTopLevel d.symbol.typeName).map definitionKey

end SymbolDb

def identIsBindingDeclaration (ident : String × ByteRange) (document : ParsedDocument) : Bool :=
  document.symbols.any fun s =>
    s.kind = .variable && s.name = ident.1 && s.selectionByteRange = ident.2

section Search

variable (R : NameResolution)

def pairedBaseOccurrenceMatches (uri : String) (document : ParsedDocument) (range : ByteRange)
    (name : String) (equivKeys : List OccurrenceKey) (topKey : Option OccurrenceKey) : Bool :=
  if topKey = some (uri, range) then true
  else if (R.resolveLocalOrParameter uri document range.start name).isSome then false
  else match document.identifierAt range.start with
    | none => false
    | some ident =>
      if identIsBindingDeclaration ident document then false
      else match R.resolveName uri document range.start name with
        | none => false
        | some resolved => definitionKey resolved ∈ equivKeys

/-- Resolving the candidate confirms that it points at one of the declarations. -/
def verifies (uri : String) (document : ParsedDocument) (equivKeys : List OccurrenceKey)
    (range : ByteRange) : Bool :=
  (R.resolveDefinition uri document range.start).any fun d => definitionKey d ∈ equivKeys

/-- One iteration of a loop over the candidates. -/
def reportCandidate (uri : String) (accept report : ByteRange → Bool)
    (acc : List Reference × OccurrenceFilter) (c : ByteRange × Nat) :
    List Reference × OccurrenceFilter :=
  if !accept c.1 then acc
  else
    let (reported, filter) := acc.2.shouldReport (uri, c.1)
    if !(reported && report c.1) then (acc.1, filter)
    else (acc.1 ++ [Reference.inDocument uri c.1 c.2], filter)

/-- The references among the candidates of one document. -/
def reportCandidates (uri : String) (accept report : ByteRange → Bool)
    (candidates : List (ByteRange × Nat)) (filter : OccurrenceFilter) :
    List Reference × OccurrenceFilter :=
  candidates.foldl (reportCandidate uri accept report) ([], filter)

end Search

namespace SymbolDb

variable (db : SymbolDb) (callDepth : Nat) (R : NameResolution)

def pairedBaseReferences (uri : String) (document : ParsedDocument) (name : String)
    (topKey : Option OccurrenceKey) (filter : OccurrenceFilter) :
    List Reference × OccurrenceFilter :=
  reportCandidates uri
    (fun range =>
      pairedBaseOccurrenceMatches R uri document range name filter.equivKeys topKey)
    (fun range => filter.includeDeclaration || topKey ≠ some (uri, range))
    ((db.collectCandidateRanges uri document name none).map (·, 0)) filter

/-- The part of the document that is scanned; `none` when the file is not searched at all. -/
def scanRangeOf (scope : SearchScope) (d : Definition) (uri : String) :
    Option (Option ByteRange) :=
  match scope with
  | .allDocuments => some none
  | .singleFile => if uri = d.uri then some none else none
  | .singleFileRange r => if uri = d.uri then some (some r) else none

/-- The occurrences of all search names, in the order of their start. -/
def candidatesIn (d : Definition) (uri : String) (document : ParsedDocument)
    (scanRange : Option ByteRange) : List (ByteRange × Nat) :=
  ((searchNames d.symbol).flatMap fun n =>
    (db.collectCandidateRanges uri document n.1 scanRange).map (·, n.2)).insertionSort
      fun a b => a.1.start ≤ b.1.start

def searchDocument (d : Definition) (scope : SearchScope) (uri : String)
    (document : ParsedDocument) (filter : OccurrenceFilter) : List Reference × OccurrenceFilter :=
  if db.pairedSuppressedBaseUri d = some uri then
    db.pairedBaseReferences R uri document d.symbol.name (db.pairedBaseTopKey d) filter
  else match scanRangeOf scope d uri with
    | none => ([], filter)
    | some scanRange =>
      reportCandidates uri (verifies R uri document filter.equivKeys) (fun _ => true)
        (db.candidatesIn d uri document scanRange) filter

/-- A symbol with several declarations is searched for everywhere. -/
def searchScope (equiv : List Definition) (d : Definition) (definitionDocument : ParsedDocument) :
    SearchScope :=
  if 1 < equiv.length then .allDocuments else definitionSearchScope d definitionDocument

/-- The search for a definition whose equivalent declarations are known. -/
def findReferencesAmong (equiv : List Definition) (d : Definition)
    (definitionDocument : ParsedDocument) (searchDocuments : List (String × ParsedDocument))
    (includeDeclaration : Bool) : List Reference :=
  let equivKeys := equiv.map definitionKey
  let scope := searchScope equiv d definitionDocument
  let (results, filter) := searchDocuments.foldl (fun (results, filter) entry =>
    let (found, filter) := db.searchDocument R d scope entry.1 entry.2 filter
    (results ++ found, filter)) ([], ⟨equivKeys, [], includeDeclaration⟩)
  -- declarations whose file was not in the search set
  results ++ if includeDeclaration then
    (equiv.filter fun e => definitionKey e ∉ filter.declFound).map Reference.ofDeclaration
  else []

def findReferences (d : Definition) (definitionDocument : ParsedDocument)
    (searchDocuments : List (String × ParsedDocument)) (includeDeclaration : Bool) :
    Observed (List Reference) := do
  let equiv ← db.allDeclarationsOf callDepth d
  return db.findReferencesAmong R equiv d definitionDocument searchDocuments includeDeclaration

end SymbolDb

end WitcherScriptLanguage
