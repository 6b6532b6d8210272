import WitcherScriptLanguage.Lsp.EditQueue

/-!
# What the compilation holds of one file

The open buffer of a URL, the parsed copies of its file and its entries in the three indexes.
Every operation on a document changes the view of its own file by a small function and leaves the
views of other files alone.
-/

namespace WitcherScriptLanguage

structure FileView where
  buffer : Option ParsedDocument
  workspaceCopy : Option ParsedDocument
  baseCopy : Option ParsedDocument
  entry : IndexKind → Option DocContribution

namespace Env

variable (env : Env)

def view (c : Compilation) (uri : Url) : FileView where
  buffer := c.documents.lookup uri
  workspaceCopy := c.workspaceDocuments.lookup (env.canonicalUri uri)
  baseCopy := c.baseScriptsDocuments.lookup (env.canonicalUri uri)
  entry kind := (c.index kind).entry (env.canonicalUri uri)

/-- The index that the file's scope selects. -/
def indexKindOf (uri : Url) : IndexKind := (env.fileScopeOf uri).indexKind

/-- The entries of a file that contributes `contribution` to the index its scope selects. -/
def placed (uri : Url) (contribution : Option DocContribution) (kind : IndexKind) :
    Option DocContribution :=
  if kind = env.indexKindOf uri then contribution else none

/-- The document is what its text parses to, up to its version. -/
def Parsed (document : ParsedDocument) : Prop :=
  ∃ parsed, env.parse document.source = some parsed ∧
    ∀ key, env.contribution key parsed = env.contribution key document

variable {env} {c : Compilation} {uri v : Url}

lemma parsed_of_parse {text : String} {document : ParsedDocument}
    (h : env.parse text = some document) : env.Parsed document :=
  ⟨document, by rw [env.source_parse text document h, h], fun _ => rfl⟩

lemma parsed_of_parse_version {text : String} {document : ParsedDocument} {version : UInt64}
    (h : env.parse text = some document) :
    env.Parsed { document with parseVersion := version } :=
  ⟨document, (congrArg env.parse (env.source_parse text document h)).trans h, fun _ => rfl⟩

/-- Another file: neither its canonical URI nor its spelling is the key of this one. -/
lemma ne_of_canonicalUri_ne (h : env.canonicalUri v ≠ env.canonicalUri uri) :
    env.canonicalUri uri ≠ env.canonicalUri v ∧ env.canonicalUri uri ≠ v ∧ uri ≠ v := by
  refine ⟨h.symm, fun hv => h ?_, fun hv => h (by rw [hv])⟩
  rw [← hv, canonicalUri_canonicalUri]

lemma indexKindOf_eq_base : env.indexKindOf uri = .base ↔ env.isBaseScriptUri uri = true := by
  unfold indexKindOf isBaseScriptUri
  cases env.fileScopeOf uri <;> simp [FileScope.indexKind]

lemma indexKindOf_eq_loose : env.indexKindOf uri = .loose ↔ (env.fileScopeOf uri).isLoose = true := by
  unfold indexKindOf
  cases env.fileScopeOf uri <;> simp [FileScope.indexKind, FileScope.isLoose]

lemma view_publishOpenDocument (document : ParsedDocument) :
    env.view (env.publishOpenDocument c uri document) uri =
      { env.view c uri with
        buffer := some document
        entry := env.placed uri (some (env.contribution (env.canonicalUri uri) document)) } := by
  have hentry : ∀ kind, ((env.publishOpenDocument c uri document).index kind).entry
      (env.canonicalUri uri) =
        env.placed uri (some (env.contribution (env.canonicalUri uri) document)) kind := by
    intro kind
    have hroute := @entry_routeDocumentToIndex env c uri (env.fileScopeOf uri) document
      kind (env.canonicalUri uri)
    rw [if_pos rfl] at hroute
    cases kind <;> exact hroute
  rw [view, view]
  simp only [hentry]
  congr 1
  · rw [lookup_publishOpenDocument, if_pos rfl]
  · exact congrArg (AList.lookup _) (routeDocumentToIndex_workspaceDocuments c uri _ document)
  · exact congrArg (AList.lookup _) (routeDocumentToIndex_baseScriptsDocuments c uri _ document)

lemma view_publishOpenDocument_of_ne (document : ParsedDocument)
    (h : env.canonicalUri v ≠ env.canonicalUri uri) :
    env.view (env.publishOpenDocument c v document) uri = env.view c uri := by
  obtain ⟨hcanonical, hspelling, huri⟩ := ne_of_canonicalUri_ne h
  have hentry : ∀ kind, ((env.publishOpenDocument c v document).index kind).entry
      (env.canonicalUri uri) = (c.index kind).entry (env.canonicalUri uri) := by
    intro kind
    have hroute := @entry_routeDocumentToIndex env c v (env.fileScopeOf v) document
      kind (env.canonicalUri uri)
    rw [if_neg hcanonical, if_neg hspelling] at hroute
    cases kind <;> exact hroute
  rw [view, view]
  simp only [hentry]
  congr 1
  · rw [lookup_publishOpenDocument, if_neg huri]
  · exact congrArg (AList.lookup _) (routeDocumentToIndex_workspaceDocuments c v _ document)
  · exact congrArg (AList.lookup _) (routeDocumentToIndex_baseScriptsDocuments c v _ document)

variable (env) in
/-- The view of the file after a publication of its document. -/
def viewOpened (uri : Url) (view : FileView) : OpenPlan → FileView
  | .unchanged => view
  | .reuse existing => { view with buffer := some existing }
  | .publish document =>
    { view with
      buffer := some document
      entry := env.placed uri (some (env.contribution (env.canonicalUri uri) document)) }

theorem view_commitOpen (plan : OpenPlan) :
    env.view (env.commitOpen c uri plan) uri = env.viewOpened uri (env.view c uri) plan := by
  cases plan with
  | unchanged => rfl
  | reuse existing =>
    rw [commitOpen, viewOpened, view, view]
    simp only [AList.lookup_insert]
    congr 1
  | publish document => exact view_publishOpenDocument document

lemma view_commitOpen_of_ne (plan : OpenPlan) (h : env.canonicalUri v ≠ env.canonicalUri uri) :
    env.view (env.commitOpen c v plan) uri = env.view c uri := by
  cases plan with
  | unchanged => rfl
  | reuse existing =>
    rw [commitOpen, view, view]
    simp only [AList.lookup_insert_ne (ne_of_canonicalUri_ne h).2.2]
    congr 1
  | publish document => exact view_publishOpenDocument_of_ne document h

/-- An edit that parses is a publication. -/
lemma processPendingEdit_eq (edit : PendingEdit) :
    (env.parse edit.source = none ∧ env.processPendingEdit c uri edit = c) ∨
    ∃ document, env.Parsed document ∧ document.source = edit.source ∧
      env.processPendingEdit c uri edit = env.publishOpenDocument c uri document := by
  unfold processPendingEdit
  cases hparse : env.parse edit.source with
  | none => exact .inl ⟨rfl, rfl⟩
  | some document =>
    exact .inr ⟨{ document with parseVersion := .ofNat edit.targetParseVersion },
      parsed_of_parse_version hparse, env.source_parse _ document hparse, rfl⟩

lemma view_processPendingEdit_of_ne (edit : PendingEdit)
    (h : env.canonicalUri v ≠ env.canonicalUri uri) :
    env.view (env.processPendingEdit c v edit) uri = env.view c uri := by
  rcases @processPendingEdit_eq env c v edit with
    ⟨-, hnone⟩ | ⟨document, -, -, hsome⟩
  · rw [hnone]
  · rw [hsome]
    exact view_publishOpenDocument_of_ne document h

lemma planOpen_cases (snap : Compilation) (uri : Url) (text : String) :
    env.planOpen snap uri text = .unchanged ∨
    (∃ existing, env.planOpen snap uri text = .reuse existing ∧
      (env.view snap uri).buffer = none ∧
      ((env.view snap uri).workspaceCopy.or (env.view snap uri).baseCopy) = some existing) ∨
    ∃ document, env.planOpen snap uri text = .publish document ∧ env.Parsed document := by
  unfold planOpen
  dsimp only
  split
  · rename_i existing hexisting
    obtain ⟨hfound, -⟩ := Option.filter_eq_some_iff.mp hexisting
    split_ifs with hopen
    · exact .inl rfl
    · have hclosed := Option.not_isSome_iff_eq_none.mp hopen
      rw [hclosed, Option.none_or] at hfound
      exact .inr (.inl ⟨existing, rfl, hclosed, hfound⟩)
  · cases hparse : env.parse text with
    | none => exact .inl rfl
    | some document => exact .inr (.inr ⟨document, rfl, parsed_of_parse hparse⟩)

variable (env) in
/-- The view of the file after its buffer is closed. -/
def viewClosed (uri : Url) (view : FileView) : ClosePlan → FileView
  | .dropLoose =>
    { view with
      buffer := none
      entry := fun kind => if kind = .loose then none else view.entry kind }
  | .dropExcluded =>
    { view with
      buffer := none
      entry := fun kind => if kind = .workspace then none else view.entry kind }
  | .unedited isBase refresh =>
    { view with
      buffer := none
      workspaceCopy := if isBase then view.workspaceCopy else refresh.or view.workspaceCopy
      baseCopy := if isBase then refresh.or view.baseCopy else view.baseCopy }
  | .reindex isBase parsed =>
    { buffer := none
      workspaceCopy := if isBase then view.workspaceCopy else parsed
      baseCopy := if isBase then parsed else view.baseCopy
      entry := fun kind =>
        if kind = (if isBase then .base else .workspace) then
          parsed.map (env.contribution (env.canonicalUri uri))
        else view.entry kind }

theorem view_commitClose (plan : ClosePlan) :
    env.view (env.commitClose c uri plan) uri =
      env.viewClosed uri (env.view c uri) plan := by
  have hgone : (c.documents.erase uri).lookup uri = none := AList.lookup_erase _ _
  cases plan with
  | dropLoose =>
    rw [commitClose, viewClosed, view, view]
    simp only [hgone]
    congr 1
    funext kind
    cases kind <;> simp [Compilation.index, entry_removeDocumentAllSpellings]
  | dropExcluded =>
    rw [commitClose, viewClosed, view, view]
    simp only [hgone]
    congr 1
    funext kind
    cases kind <;> simp [Compilation.index, entry_removeDocumentAllSpellings]
  | unedited isBase refresh =>
    cases refresh <;> cases isBase <;> simp [commitClose, viewClosed, view, hgone] <;> rfl
  | reindex isBase parsed =>
    cases isBase with
    | false =>
      simp only [commitClose, viewClosed, view, hgone, Bool.false_eq_true, if_false,
        lookup_reindexInto, if_true]
      congr 1
      funext kind
      cases kind <;> simp [Compilation.index, entry_reindexInto]
    | true =>
      simp only [commitClose, viewClosed, view, hgone, if_true, lookup_reindexInto]
      congr 1
      funext kind
      cases kind <;> simp [Compilation.index, entry_reindexInto]

lemma view_commitClose_of_ne (plan : ClosePlan) (h : env.canonicalUri v ≠ env.canonicalUri uri) :
    env.view (env.commitClose c v plan) uri = env.view c uri := by
  obtain ⟨hcanonical, hspelling, huri⟩ := ne_of_canonicalUri_ne h
  have hkept : (c.documents.erase v).lookup uri = c.documents.lookup uri :=
    AList.lookup_erase_ne huri
  cases plan with
  | dropLoose =>
    rw [commitClose, view, view]
    simp only [hkept]
    congr 1
    funext kind
    cases kind <;>
      simp [Compilation.index, entry_removeDocumentAllSpellings, hcanonical, hspelling]
  | dropExcluded =>
    rw [commitClose, view, view]
    simp only [hkept]
    congr 1
    funext kind
    cases kind <;>
      simp [Compilation.index, entry_removeDocumentAllSpellings, hcanonical, hspelling]
  | unedited isBase refresh =>
    cases refresh <;> cases isBase <;>
      simp [commitClose, view, hkept, AList.lookup_insert_ne hcanonical] <;> rfl
  | reindex isBase parsed =>
    cases isBase with
    | false =>
      simp only [commitClose, view, hkept, Bool.false_eq_true, if_false, lookup_reindexInto,
        hcanonical]
      congr 1
      funext kind
      cases kind <;> simp [Compilation.index, entry_reindexInto, hcanonical, hspelling]
    | true =>
      simp only [commitClose, view, hkept, if_true, lookup_reindexInto, hcanonical, if_false]
      congr 1
      funext kind
      cases kind <;> simp [Compilation.index, entry_reindexInto, hcanonical, hspelling]

end Env

end WitcherScriptLanguage
