import WitcherScriptLanguage.Resolve.DefinitionAt
import WitcherScriptLanguage.Resolve.ReferenceSearch

/-!
# Unused symbols

`check_unused` (`diagnostics/unused_symbol.rs`) asks a reference search in the document of a
declaration, narrowed to the class or the callable around it. Name resolution reaches further: a
private field is a member of its class also where a function is injected into the class, or where a
subclass looks for the name.
-/

namespace WitcherScriptLanguage

open Library

inductive NameGroupKind
  | funcParamGroup | localVarDeclStmt | memberVarDecl
  deriving DecidableEq, Repr

/-- A declaration of names, with what the rule reads around it. -/
structure NameGroup where
  kind : NameGroupKind
  startByte : Nat
  /-- `@addField` injects a field into another class. -/
  annotated : Bool := false
  names : List (String × ByteRange)
  /-- The `default` and `hint` entries of the class body. -/
  initialiserRanges : List ByteRange := []
  bodyless : Bool := false
  inErrorSubtree : Bool := false

def ByteRange.contains (r : ByteRange) (byte : Nat) : Bool := r.start ≤ byte && byte < r.stop

namespace NameGroup

variable (group : NameGroup)

def declaredSymbol (document : ParsedDocument) (ident : String × ByteRange) : Option Symbol :=
  match group.kind with
  | .memberVarDecl =>
    match document.enclosingSymbolAt group.startByte typeBodyKinds with
    | none => none
    | some container => (memberOf document.symbols container.id ident.1).find? fun s =>
        s.selectionByteRange.start = ident.2.start
  | _ =>
    match document.enclosingSymbolAt group.startByte callableKinds with
    | none => none
    | some callable => document.localAtByte callable.id ident.1 ident.2.start

/-- The `default` and `hint` entries that the rule leaves out of account. -/
def skippedRanges : List ByteRange :=
  if group.kind = .memberVarDecl then group.initialiserRanges else []

def initialises (range : ByteRange) : Bool :=
  group.skippedRanges.any fun r => r.contains range.start

end NameGroup

namespace SymbolDb

variable (db : SymbolDb) (callDepth : Nat) (R : NameResolution)

def isReferenced (uri : String) (document : ParsedDocument) (group : NameGroup)
    (symbol : Symbol) : Observed Bool := do
  let refs ← db.findReferences callDepth R ⟨uri, symbol⟩ document [(uri, document)] false
  return refs.any fun reference => !group.initialises reference.range

def unusedNames (uri : String) (document : ParsedDocument) (group : NameGroup) :
    List (String × ByteRange) → Observed (List ((String × ByteRange) × Symbol))
  | [] => return []
  | ident :: idents =>
    match group.declaredSymbol document ident with
    | none => unusedNames uri document group idents
    | some symbol => do
      if symbol.kind = .field ∧ symbol.access ≠ .private then
        unusedNames uri document group idents
      else
        let referenced ← db.isReferenced callDepth R uri document group symbol
        let unused ← unusedNames uri document group idents
        return if referenced then unused else (ident, symbol) :: unused

/-- The names that the rule reports of one declaration, with their symbols. -/
def checkUnused (uri : String) (document : ParsedDocument) (group : NameGroup) :
    Observed (List ((String × ByteRange) × Symbol)) := do
  if group.inErrorSubtree || group.annotated then return []
  else
    let unused ← db.unusedNames callDepth R uri document group group.names
    return if group.kind = .funcParamGroup && group.bodyless then [] else unused

/-- The rule reports the symbol. -/
def ReportsUnused (uri : String) (document : ParsedDocument) (group : NameGroup)
    (symbol : Symbol) : Prop :=
  ∃ unused, (db.checkUnused callDepth R uri document group).value = some unused ∧
    symbol ∈ unused.map Prod.snd

/-- An identifier of a document, apart from the declaration, that resolves to the definition. -/
def IsUse (R : NameResolution) (documents : AList (fun _ : String => ParsedDocument))
    (d : Definition) (k : OccurrenceKey) : Prop :=
  ∃ document, documents.lookup k.1 = some document ∧
    k.2 ∈ document.identLeaves.map Prod.snd ∧
    R.resolveDefinition k.1 document k.2.start = some d ∧ k ≠ definitionKey d

/-- No document uses the definition, but for the `default` and `hint` entries around it. -/
def Unused (R : NameResolution) (documents : AList (fun _ : String => ParsedDocument))
    (group : NameGroup) (d : Definition) : Prop :=
  ∀ k, IsUse R documents d k → k.1 = d.uri ∧ group.initialises k.2

/-- The identifiers that the search considers: in the document of the declaration, with its name,
inside the class or the callable around it where it has one declaration only, and no other
declaration of it. -/
def LooksAt (document : ParsedDocument) (d : Definition) (k : OccurrenceKey) : Prop :=
  k.1 = d.uri ∧ ∃ equiv, (db.allDeclarationsOf callDepth d).value = some equiv ∧
    k ∉ equiv.map definitionKey ∧
    ∃ scanRange, scanRangeOf (searchScope equiv d document) d d.uri = some scanRange ∧
      ∃ leaf ∈ document.identLeaves, leaf.2 = k.2 ∧
        leaf.1 ∈ (searchNames d.symbol).map Prod.fst ∧ scanRange.all leaf.2.meets

variable {db : SymbolDb} {callDepth : Nat} {R : NameResolution} {uri : String}
  {document : ParsedDocument} {group : NameGroup} {symbol : Symbol}

lemma container_of_localAtByte {function : SymbolId} {name : String} {byte : Nat}
    (h : document.localAtByte function name byte = some symbol) : symbol.container.isSome := by
  have hmem := List.mem_of_find?_eq_some h
  rw [List.mem_reverse, List.mem_insertionSort, List.mem_filter, Bool.and_eq_true,
    decide_eq_true_iff] at hmem
  have hcallable := hmem.2.2
  unfold ParsedDocument.enclosingCallable containerOf at hcallable
  cases hcontainer : symbol.container with
  | some id => rfl
  | none =>
    rw [hcontainer] at hcallable
    cases hcallable

lemma container_of_declaredSymbol {ident : String × ByteRange}
    (h : group.declaredSymbol document ident = some symbol) : symbol.container.isSome := by
  unfold NameGroup.declaredSymbol at h
  split at h
  · split at h
    · cases h
    · have hmem := List.mem_of_find?_eq_some h
      rw [memberOf, List.mem_filter, Bool.and_eq_true, decide_eq_true_iff] at hmem
      rw [hmem.2.1]
      rfl
  · split at h
    · cases h
    · exact container_of_localAtByte h

/-- A reported name declares its symbol, and the search found nothing to count. -/
lemma declared_of_mem_unusedNames {idents : List (String × ByteRange)}
    {unused : List ((String × ByteRange) × Symbol)}
    (h : (db.unusedNames callDepth R uri document group idents).value = some unused)
    (hmem : symbol ∈ unused.map Prod.snd) :
    (∃ ident ∈ idents, group.declaredSymbol document ident = some symbol) ∧
      (db.isReferenced callDepth R uri document group symbol).value = some false := by
  induction idents generalizing unused with
  | nil =>
    cases h
    cases hmem
  | cons ident idents ih =>
    have hlater : ∀ {unused : List ((String × ByteRange) × Symbol)},
        (db.unusedNames callDepth R uri document group idents).value = some unused →
        symbol ∈ unused.map Prod.snd →
        (∃ name ∈ ident :: idents, group.declaredSymbol document name = some symbol) ∧
          (db.isReferenced callDepth R uri document group symbol).value = some false := by
      intro unused h hmem
      obtain ⟨⟨name, hname, hdeclared⟩, hreferenced⟩ := ih h hmem
      exact ⟨⟨name, List.mem_cons_of_mem _ hname, hdeclared⟩, hreferenced⟩
    rw [unusedNames] at h
    cases hdeclared : group.declaredSymbol document ident with
    | none =>
      rw [hdeclared] at h
      exact hlater h hmem
    | some declared =>
      rw [hdeclared] at h
      dsimp only at h
      split_ifs at h with hpublic
      · exact hlater h hmem
      · rw [Observed.value_bind] at h
        obtain ⟨referenced, hreferenced, h⟩ := Option.bind_eq_some_iff.mp h
        rw [Observed.value_bind] at h
        obtain ⟨rest, hrest, h⟩ := Option.bind_eq_some_iff.mp h
        rw [Observed.value_pure, Option.some_inj] at h
        subst h
        cases referenced with
        | true => exact hlater hrest hmem
        | false =>
          rcases List.mem_cons.mp hmem with hhead | htail
          · cases hhead
            exact ⟨⟨ident, List.mem_cons_self, hdeclared⟩, hreferenced⟩
          · exact hlater hrest htail

/-- The search of the rule, once the declarations of the symbol are known. -/
def ruleSearch (db : SymbolDb) (R : NameResolution) (document : ParsedDocument) (d : Definition)
    (equiv : List Definition) : ReferenceSearch :=
  db.search R d document (AList.singleton d.uri document) false equiv

lemma ReportsUnused.initialises (h : db.ReportsUnused callDepth R uri document group symbol) :
    symbol.container.isSome ∧
      ∃ equiv, (db.allDeclarationsOf callDepth ⟨uri, symbol⟩).value = some equiv ∧
        ∀ reference ∈ (db.ruleSearch R document ⟨uri, symbol⟩ equiv).references,
          group.initialises reference.range := by
  obtain ⟨unused, hunused, hmem⟩ := h
  unfold checkUnused at hunused
  by_cases hskipped : group.inErrorSubtree || group.annotated
  · rw [if_pos hskipped] at hunused
    cases hunused
    cases hmem
  · rw [if_neg hskipped, Observed.value_bind] at hunused
    obtain ⟨found, hfound, hunused⟩ := Option.bind_eq_some_iff.mp hunused
    have hmemFound : symbol ∈ found.map Prod.snd := by
      by_cases hbodyless : group.kind = .funcParamGroup && group.bodyless
      · rw [if_pos hbodyless, Observed.value_pure, Option.some_inj] at hunused
        rw [← hunused] at hmem
        cases hmem
      · rw [if_neg hbodyless, Observed.value_pure, Option.some_inj] at hunused
        rwa [hunused]
    obtain ⟨⟨ident, -, hdeclared⟩, hreferenced⟩ := declared_of_mem_unusedNames hfound hmemFound
    refine ⟨container_of_declaredSymbol hdeclared, ?_⟩
    rw [isReferenced, findReferences, Observed.value_bind, Observed.value_bind] at hreferenced
    obtain ⟨refs, hrefs, hany⟩ := Option.bind_eq_some_iff.mp hreferenced
    obtain ⟨equiv, hequiv, hrefs⟩ := Option.bind_eq_some_iff.mp hrefs
    rw [Observed.value_pure, Option.some_inj] at hrefs hany
    refine ⟨equiv, hequiv, fun reference hreference => ?_⟩
    rw [List.any_eq_false] at hany
    have hcounted := hany reference (hrefs ▸ hreference)
    simpa using hcounted

lemma key_mem_allDeclarationsOf {d : Definition} {equiv : List Definition}
    (h : (db.allDeclarationsOf callDepth d).value = some equiv) :
    definitionKey d ∈ equiv.map definitionKey := by
  cases hmember : logicalMember d.symbol with
  | none =>
    rw [value_allDeclarationsOf_none hmember] at h
    cases h
    exact List.mem_singleton_self _
  | some m =>
    rw [value_allDeclarationsOf_some hmember] at h
    obtain ⟨decls, -, rfl⟩ := Option.map_eq_some_iff.mp h
    split_ifs with hmem
    · exact hmem
    · rw [List.map_append, List.mem_append]
      exact .inr (List.mem_singleton_self _)

/-- The rule's search has a reference for every use that it looks at. -/
lemma initialises_of_looksAt {documents : AList (fun _ : String => ParsedDocument)}
    (hlookup : documents.lookup uri = some document)
    (hindexed : db.identsIndexed uri → db.IndexedFrom uri document)
    (hreported : db.ReportsUnused callDepth R uri document group symbol) {k : OccurrenceKey}
    (huse : IsUse R documents ⟨uri, symbol⟩ k)
    (hlooked : db.LooksAt callDepth document ⟨uri, symbol⟩ k) : group.initialises k.2 := by
  obtain ⟨hcontained, equiv, hequiv, hreferences⟩ := hreported.initialises
  obtain ⟨k₁, range⟩ := k
  obtain ⟨huri, equiv', hequiv', hother, scanRange, hscan, hleaf⟩ := hlooked
  replace huri : k₁ = uri := huri
  subst k₁
  obtain ⟨document', hlookup', -, hresolves, -⟩ := huse
  rw [hequiv] at hequiv'
  cases hequiv'
  cases hlookup.symm.trans hlookup'
  generalize hS : db.ruleSearch R document ⟨uri, symbol⟩ equiv = S at hreferences
  have hpaired : ¬S.Paired uri := by
    rw [← hS]
    unfold ReferenceSearch.Paired ruleSearch search pairedSuppressedBaseUri
    rw [if_pos hcontained]
    exact Option.some_ne_none uri ∘ Eq.symm
  have hcandidate : range ∈ (S.candidates uri document).map Prod.fst := by
    have hperm := @ReferenceSearch.candidates_perm S uri document scanRange (by
      rw [← hS]
      exact hscan)
    have htext : ∀ name, S.db.collectCandidateRanges uri document name scanRange =
        collectIdentOccurrences document name scanRange := by
      intro name
      rw [← hS]
      by_cases hfast : scanRange.isNone && db.identsIndexed uri
      · rw [Bool.and_eq_true, Option.isNone_iff_eq_none] at hfast
        rw [hfast.1]
        exact (hindexed hfast.2).collectCandidateRanges name
      · exact if_neg hfast
    simp only [htext] at hperm
    rw [hperm.mem_iff, ReferenceSearch.mem_scanned, ← hS]
    exact hleaf
  have hresolved : S.Resolves uri document range := by
    have hkeys : S.equivKeys = equiv.map definitionKey := by
      rw [← hS]
      rfl
    have hresolution : S.resolution = R := by
      rw [← hS]
      rfl
    have hresolves : R.resolveDefinition uri document range.start = some ⟨uri, symbol⟩ := hresolves
    rw [ReferenceSearch.Resolves, verifies, hkeys, hresolution, hresolves, Option.any_some,
      decide_eq_true_iff]
    exact key_mem_allDeclarationsOf hequiv
  have hlocation : (uri, range) ∈ S.references.map Reference.location := by
    rw [ReferenceSearch.mem_locations hpaired]
    refine .inl ⟨document, ?_, ReferenceSearch.mem_reportedRanges.mpr
      ⟨hcandidate, hresolved, .inr ?_⟩⟩
    · rw [← hS]
      exact List.dlookup_cons_eq (β := fun _ : String => ParsedDocument) [] uri document
    · rw [← hS]
      exact hother
  obtain ⟨reference, hmem, hkey⟩ := List.mem_map.mp hlocation
  have hrange : reference.range = range := congrArg Prod.snd hkey
  exact hrange ▸ hreferences reference hmem

/-- A reported symbol is unused just when no identifier that the search leaves out uses it. -/
theorem unused_iff {globals : List ScriptGlobal} {trees : ParsedDocument → TreeView}
    {documents : AList (fun _ : String => ParsedDocument)}
    (hlookup : documents.lookup uri = some document)
    (hindexed : db.identsIndexed uri → db.IndexedFrom uri document)
    (hreported : db.ReportsUnused callDepth (db.nameResolution callDepth globals trees) uri document
      group symbol) :
    Unused (db.nameResolution callDepth globals trees) documents group ⟨uri, symbol⟩ ↔
      ∀ k, IsUse (db.nameResolution callDepth globals trees) documents ⟨uri, symbol⟩ k →
        db.LooksAt callDepth document ⟨uri, symbol⟩ k ∨ k.1 = uri ∧ group.initialises k.2 := by
  constructor
  · exact fun hunused k huse => .inr (hunused k huse)
  · intro hleft k huse
    rcases hleft k huse with hlooked | hinitialised
    · exact ⟨hlooked.1, initialises_of_looksAt hlookup hindexed hreported huse hlooked⟩
    · exact hinitialised

end SymbolDb

/-- `class C { private var x : int; }` -/
def classWithX : SyntaxNode :=
  branch .other "class C { private var x : int; }" 0
    [branch .classDecl "class C { private var x : int; }" 0
      [leaf .ident "C" 6,
        branch .other "{ private var x : int; }" 8
          [branch .memberVarDecl "private var x : int;" 10
            [leaf .specifier "private" 10, leaf .ident "x" 22 (some .names),
              leaf .typeAnnot "int" 26]]]]

/-- `@addMethod(C) function f() : int { return x; }` -/
def methodReadingX : SyntaxNode :=
  branch .other "@addMethod(C) function f() : int { return x; }" 0
    [branch .funcDecl "@addMethod(C) function f() : int { return x; }" 0
      [branch .annotationNode "@addMethod(C)" 0
          [leaf .annotationIdent "@addMethod" 0, leaf .ident "C" 11],
        leaf .ident "f" 23, branch .funcParams "()" 24 [], leaf .typeAnnot "int" 29,
        branch .funcBlock "{ return x; }" 33 []]]

def documentWithX : ParsedDocument where
  __ := extractedDocument classWithX
  identLeaves := [("C", ⟨6, 7⟩), ("x", ⟨22, 23⟩), ("int", ⟨26, 29⟩)]

def documentReadingX : ParsedDocument where
  __ := extractedDocument methodReadingX
  identLeaves := [("C", ⟨11, 12⟩), ("f", ⟨23, 24⟩), ("int", ⟨29, 32⟩), ("x", ⟨42, 43⟩)]

/-- Types after their colons and in the annotation, the names of declarations, and a value. -/
def treeOfX (document : ParsedDocument) : TreeView where
  selfKeywordAt _ := none
  useOf range :=
    if document.source = documentWithX.source then
      .plain (if range = ⟨26, 29⟩ then some .type else none)
    else if range = ⟨23, 24⟩ then .plain none
    else .plain (some (if range = ⟨42, 43⟩ then .value else .type))

def declarationOfX : NameGroup where
  kind := .memberVarDecl
  startByte := 10
  names := [("x", ⟨22, 23⟩)]

def alone : SymbolDb := workspaceOf [.update "a.ws" documentWithX]

def together : SymbolDb := workspaceOf [.update "a.ws" documentWithX, .update "b.ws" documentReadingX]

/-- The documents of both. -/
def documentsOfX : AList (fun _ : String => ParsedDocument) :=
  ((∅ : AList (fun _ : String => ParsedDocument)).insert "a.ws" documentWithX).insert "b.ws"
    documentReadingX

def fieldX : Symbol where
  id := ⟨1⟩
  name := "x"
  kind := .field
  byteRange := ⟨10, 30⟩
  selectionByteRange := ⟨22, 23⟩
  container := some ⟨0⟩
  containerName := some "C"
  typeAnnotation := some <| fromAnnotationText "int".toList
  access := .private

/-- With the class alone, the report stands unless something that the search leaves out reads the
field. -/
theorem unused_iff_alone :
    SymbolDb.Unused (alone.nameResolution 1 [] treeOfX) (AList.singleton "a.ws" documentWithX)
        declarationOfX ⟨"a.ws", fieldX⟩ ↔
      ∀ k, SymbolDb.IsUse (alone.nameResolution 1 [] treeOfX)
          (AList.singleton "a.ws" documentWithX) ⟨"a.ws", fieldX⟩ k →
        alone.LooksAt 1 documentWithX ⟨"a.ws", fieldX⟩ k ∨
          k.1 = "a.ws" ∧ declarationOfX.initialises k.2 :=
  SymbolDb.unused_iff (List.dlookup_cons_eq (β := fun _ : String => ParsedDocument) [] _ _)
    (fun _ => .inl ⟨rfl, rfl⟩) ⟨[(("x", ⟨22, 23⟩), fieldX)], rfl, List.mem_singleton_self _⟩

/-- The field is reported, and the injected method reads it. -/
theorem not_unused_injectedRead :
    ¬ ∀ (db : SymbolDb) (callDepth : Nat) (globals : List ScriptGlobal)
        (trees : ParsedDocument → TreeView) (documents : AList (fun _ : String => ParsedDocument))
        (uri : String) (document : ParsedDocument) (group : NameGroup) (symbol : Symbol),
      documents.lookup uri = some document →
      (db.identsIndexed uri → db.IndexedFrom uri document) →
      db.ReportsUnused callDepth (db.nameResolution callDepth globals trees) uri document group
        symbol →
      SymbolDb.Unused (db.nameResolution callDepth globals trees) documents group
        ⟨uri, symbol⟩ := by
  intro h
  have hunused := h together 1 [] treeOfX documentsOfX "a.ws" documentWithX declarationOfX fieldX
    rfl (fun _ => .inl ⟨rfl, rfl⟩)
    ⟨[(("x", ⟨22, 23⟩), fieldX)], rfl, List.mem_singleton_self _⟩
  have huse : SymbolDb.IsUse (together.nameResolution 1 [] treeOfX) documentsOfX
      ⟨"a.ws", fieldX⟩ ("b.ws", ⟨42, 43⟩) :=
    ⟨documentReadingX, AList.lookup_insert _, by decide, rfl, by decide⟩
  exact absurd (hunused _ huse).1 (by decide)

end WitcherScriptLanguage
