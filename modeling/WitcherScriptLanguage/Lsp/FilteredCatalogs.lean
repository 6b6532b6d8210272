import WitcherScriptLanguage.Lsp.BaseScripts

/-!
# Filtered base catalogs

The filtered base catalogs are built from the base index and the suppressed set in a publication
of their own. They still fit the compilation as long as, while they are there, nothing is
published that changes a global declaration of the base index or which of its catalogued files
are suppressed.
-/

namespace WitcherScriptLanguage

open Library

namespace WorkspaceIndex

lemma globalCatalogChanged_append (keys keys' : List ObservedKey) :
    globalCatalogChanged (keys ++ keys') =
      (globalCatalogChanged keys || globalCatalogChanged keys') := List.any_append

lemma completionCatalog_noteChangedKeys (ix : WorkspaceIndex) {keys : List ObservedKey}
    (hlocal : globalCatalogChanged keys = false) :
    (ix.noteChangedKeys keys).completionCatalog = ix.completionCatalog := by
  rw [noteChangedKeys, if_neg (Bool.eq_false_iff.mp hlocal)]

lemma completionCatalog_removeFromIndices (ix : WorkspaceIndex) (uri : String) :
    (ix.removeFromIndices uri).completionCatalog = ix.completionCatalog := by
  rw [removeFromIndices_eq]

/-- The catalog is rebuilt for a global key only. -/
lemma completionCatalog_applyContribution (ix : WorkspaceIndex) (uri : String)
    (c : DocContribution) (hlocal : globalCatalogChanged (ix.applyContribution uri c).1 = false) :
    (ix.applyContribution uri c).2.completionCatalog = ix.completionCatalog := by
  unfold applyContribution at hlocal ⊢
  dsimp only at hlocal ⊢
  rw [completionCatalog_noteChangedKeys _ hlocal]
  exact completionCatalog_removeFromIndices ix uri

lemma completionCatalog_removeDocument (ix : WorkspaceIndex) (uri : String)
    (hlocal : globalCatalogChanged (ix.removeDocument uri).1 = false) :
    (ix.removeDocument uri).2.completionCatalog = ix.completionCatalog := by
  unfold removeDocument at hlocal ⊢
  dsimp only at hlocal ⊢
  rw [completionCatalog_noteChangedKeys _ hlocal]
  exact completionCatalog_removeFromIndices ix uri

end WorkspaceIndex

namespace Env

variable (env : Env)

/-- The keys that `indexOpenDocuments` changes. -/
def openDocumentsKeys : WorkspaceIndex → List (Url × ParsedDocument) → List ObservedKey
  | _, [] => []
  | index, file :: files =>
    let (changed, index) := env.indexOpenDocument index file.1 file.2
    changed ++ openDocumentsKeys index files

/-- The keys of the base index that the publication of an open document changes. -/
def baseKeysOfOpen (c : Compilation) (uri : Url) (document : ParsedDocument) : List ObservedKey :=
  if (env.fileScopeOf uri).indexKind = .base then
    (env.indexOpenDocument c.baseScriptsIndex uri document).1
  else (env.removeDocumentAllSpellings c.baseScriptsIndex uri).1

/-- The keys of the base index that a close changes. -/
def baseKeysOfClose (c : Compilation) (uri : Url) : ClosePlan → List ObservedKey
  | .reindex true parsed =>
    (env.reindexInto c.baseScriptsIndex c.baseScriptsDocuments uri (env.canonicalUri uri) parsed).1
  | _ => []

variable {env}

lemma completionCatalog_dropSpelling (index : WorkspaceIndex) (uri : Url) (drops : Prop)
    [Decidable drops]
    (hlocal : globalCatalogChanged (if drops then index.removeDocument uri else ([], index)).1 =
      false) :
    (if drops then index.removeDocument uri else ([], index)).2.completionCatalog =
      index.completionCatalog := by
  split_ifs at hlocal ⊢
  · exact index.completionCatalog_removeDocument uri hlocal
  · rfl

lemma completionCatalog_indexOpenDocument (index : WorkspaceIndex) (uri : Url)
    (document : ParsedDocument)
    (hlocal : globalCatalogChanged (env.indexOpenDocument index uri document).1 = false) :
    (env.indexOpenDocument index uri document).2.completionCatalog = index.completionCatalog := by
  unfold indexOpenDocument at hlocal ⊢
  dsimp only at hlocal ⊢
  rw [WorkspaceIndex.globalCatalogChanged_append, Bool.or_eq_false_iff] at hlocal
  obtain ⟨hdropped, hupdated⟩ := hlocal
  have hupdate := WorkspaceIndex.completionCatalog_applyContribution _ _ _ hupdated
  exact hupdate.trans (completionCatalog_dropSpelling index uri _ hdropped)

lemma completionCatalog_removeDocumentAllSpellings (index : WorkspaceIndex) (uri : Url)
    (hlocal : globalCatalogChanged (env.removeDocumentAllSpellings index uri).1 = false) :
    (env.removeDocumentAllSpellings index uri).2.completionCatalog = index.completionCatalog := by
  unfold removeDocumentAllSpellings at hlocal ⊢
  dsimp only at hlocal ⊢
  split_ifs at hlocal ⊢
  · rw [WorkspaceIndex.globalCatalogChanged_append, Bool.or_eq_false_iff] at hlocal
    obtain ⟨hspelling, hcanonical⟩ := hlocal
    have hremove := WorkspaceIndex.completionCatalog_removeDocument _ _ hcanonical
    exact hremove.trans (index.completionCatalog_removeDocument uri hspelling)
  · exact index.completionCatalog_removeDocument uri hlocal

lemma completionCatalog_reindexInto (index : WorkspaceIndex) (docs : DocumentMap)
    (uri canonical : Url) (parsed : Option ParsedDocument)
    (hlocal : globalCatalogChanged (env.reindexInto index docs uri canonical parsed).1 = false) :
    (env.reindexInto index docs uri canonical parsed).2.1.completionCatalog =
      index.completionCatalog := by
  cases parsed with
  | none =>
    unfold reindexInto at hlocal ⊢
    dsimp only at hlocal ⊢
    rw [WorkspaceIndex.globalCatalogChanged_append, Bool.or_eq_false_iff] at hlocal
    obtain ⟨hdropped, hremoved⟩ := hlocal
    have hremove := WorkspaceIndex.completionCatalog_removeDocument _ _ hremoved
    exact hremove.trans (completionCatalog_dropSpelling index uri _ hdropped)
  | some document =>
    unfold reindexInto at hlocal ⊢
    dsimp only at hlocal ⊢
    rw [WorkspaceIndex.globalCatalogChanged_append, Bool.or_eq_false_iff] at hlocal
    obtain ⟨hdropped, hupdated⟩ := hlocal
    have hupdate := WorkspaceIndex.completionCatalog_applyContribution _ _ _ hupdated
    exact hupdate.trans (completionCatalog_dropSpelling index uri _ hdropped)

lemma completionCatalog_indexOpenDocuments (index : WorkspaceIndex)
    (files : List (Url × ParsedDocument))
    (hlocal : globalCatalogChanged (env.openDocumentsKeys index files) = false) :
    (env.indexOpenDocuments index files).completionCatalog = index.completionCatalog := by
  induction files generalizing index with
  | nil => rfl
  | cons file files ih =>
    rw [openDocumentsKeys] at hlocal
    dsimp only at hlocal
    rw [WorkspaceIndex.globalCatalogChanged_append, Bool.or_eq_false_iff] at hlocal
    obtain ⟨hfile, hfiles⟩ := hlocal
    rw [indexOpenDocuments, List.foldl_cons, ← indexOpenDocuments, ih _ hfiles]
    exact completionCatalog_indexOpenDocument index file.1 file.2 hfile

lemma completionCatalog_publishOpenDocument (c : Compilation) (uri : Url)
    (document : ParsedDocument)
    (hlocal : globalCatalogChanged (env.baseKeysOfOpen c uri document) = false) :
    (env.publishOpenDocument c uri document).baseScriptsIndex.completionCatalog =
      c.baseScriptsIndex.completionCatalog := by
  unfold baseKeysOfOpen at hlocal
  unfold publishOpenDocument
  cases hscope : env.fileScopeOf uri with
  | additionalBase =>
    rw [hscope] at hlocal
    exact completionCatalog_indexOpenDocument c.baseScriptsIndex uri document hlocal
  | inProject | legacyOverride | legacyNew | outOfScope | singleFile =>
    rw [hscope] at hlocal
    exact completionCatalog_removeDocumentAllSpellings c.baseScriptsIndex uri hlocal

lemma completionCatalog_commitClose (c : Compilation) (uri : Url) (plan : ClosePlan)
    (hlocal : globalCatalogChanged (env.baseKeysOfClose c uri plan) = false) :
    (env.commitClose c uri plan).baseScriptsIndex.completionCatalog =
      c.baseScriptsIndex.completionCatalog := by
  cases plan with
  | dropLoose | dropExcluded => rfl
  | unedited isBase refresh => cases refresh <;> cases isBase <;> rfl
  | reindex isBase parsed =>
    cases isBase with
    | false => rfl
    | true => exact completionCatalog_reindexInto c.baseScriptsIndex _ uri _ parsed hlocal

end Env

namespace Indexing

/-- What a task is about to change in the base index. -/
def taskBaseKeys (env : Env) (s : Indexing) : IndexingTask → List ObservedKey
  | .opening uri (.publish document) => (s.current env).baseKeysOfOpen s.compilation uri document
  | .closingTo uri _ plan => (s.current env).baseKeysOfClose s.compilation uri plan
  | _ => []

def baseKeys (env : Env) (s : Indexing) : Event → List ObservedKey
  | .publishEdit uri edit =>
    match env.parse edit.source with
    | none => []
    | some document => (s.current env).baseKeysOfOpen s.compilation uri
        { document with parseVersion := .ofNat edit.targetParseVersion }
  | .advance i =>
    match s.inFlight[i]? with
    | none => []
    | some task => s.taskBaseKeys env task
  | _ => []

variable {env : Env} {s s' : Indexing}

lemma completionCatalog_resume (task : IndexingTask)
    (hlocal : globalCatalogChanged (s.taskBaseKeys env task) = false) :
    (s.resume env task).1.compilation.baseScriptsIndex.completionCatalog =
      s.compilation.baseScriptsIndex.completionCatalog := by
  cases task with
  | opening uri plan =>
    cases plan with
    | unchanged | reuse existing => rfl
    | publish document =>
      exact Env.completionCatalog_publishOpenDocument s.compilation uri document hlocal
  | closingTo uri diskText plan =>
    exact Env.completionCatalog_commitClose s.compilation uri plan hlocal
  | _ => rfl

/-- Edits, opens, closes and scans leave the base catalog alone unless they change a global key
of the base index. -/
lemma completionCatalog_step {e : Event}
    (hlocal : globalCatalogChanged (s.baseKeys env e) = false) (hstep : s.step env e = some s') :
    s'.compilation.baseScriptsIndex.completionCatalog =
      s.compilation.baseScriptsIndex.completionCatalog := by
  cases e with
  | didOpen uri text =>
    cases hstep
    unfold Indexing.didOpen
    split_ifs
    · rfl
    · dsimp only
      split_ifs <;> rfl
  | publishEdit uri edit =>
    cases hstep
    unfold baseKeys at hlocal
    dsimp only [Env.processPendingEdit, Env.withLegacyDirs, Indexing.current] at hlocal ⊢
    cases hparse : env.parse edit.source with
    | none => rfl
    | some document =>
      rw [hparse] at hlocal
      exact Env.completionCatalog_publishOpenDocument s.compilation uri _ hlocal
  | didClose uri diskText =>
    cases hstep
    unfold Indexing.didClose
    split_ifs
    · rfl
    · rfl
    · dsimp only
      split_ifs <;> rfl
  | scanWorkspace files =>
    simp only [Indexing.step] at hstep
    split_ifs at hstep <;> cases hstep <;> rfl
  | watchFiles events =>
    cases hstep
    rfl
  | advance i =>
    unfold baseKeys at hlocal
    simp only [Indexing.step] at hstep
    cases htask : s.inFlight[i]? with
    | none => simp [htask] at hstep
    | some task =>
      simp only [htask, Option.some.injEq] at hstep hlocal
      subst hstep
      exact completionCatalog_resume task hlocal

end Indexing

namespace Backend

variable {env : Env} {builtins : WorkspaceIndex} {s s' : Backend}

/-- Both sets suppress the same of the declarations that the catalog lists. -/
def SameSuppression (catalog : CompletionCatalog) (suppressed suppressed' : Finset String) :
    Prop :=
  ∀ d ∈ catalog.callables ++ catalog.types ++ catalog.enumMembers,
    d.uri ∈ suppressed ↔ d.uri ∈ suppressed'

instance (catalog : CompletionCatalog) (suppressed suppressed' : Finset String) :
    Decidable (SameSuppression catalog suppressed suppressed') :=
  inferInstanceAs (Decidable (∀ d ∈ _, _))

def baseCatalog (s : Backend) : CompletionCatalog := s.compilation.baseScriptsIndex.completionCatalog

/-- What the task publishes changes nothing that the filtered catalogs list. -/
def TaskKeepsCatalogs (env : Env) (s : Backend) : BaseTask → Prop
  | .suppressing suppressed => SameSuppression s.baseCatalog s.suppressedBaseUris suppressed
  | .indexed index _ suppressed _ => index.completionCatalog = s.baseCatalog ∧
      SameSuppression s.baseCatalog s.suppressedBaseUris suppressed
  | .mergedOpen files _ =>
    globalCatalogChanged (env.openDocumentsKeys s.compilation.baseScriptsIndex files) = false
  | _ => True

instance (env : Env) (s : Backend) : (task : BaseTask) → Decidable (s.TaskKeepsCatalogs env task)
  | .suppressing _ => inferInstanceAs (Decidable (SameSuppression _ _ _))
  | .indexed .. => inferInstanceAs (Decidable (_ ∧ _))
  | .mergedOpen .. => inferInstanceAs (Decidable (_ = false))
  | .pairing _ | .environment .. | .mergingOpen _ | .rebuilding _ | .clearingWorkspace _
  | .clearingLoose _ => inferInstanceAs (Decidable True)

/-- There are no filtered catalogs, or the step changes nothing that they list. -/
def KeepsCatalogs (env : Env) (s : Backend) (e : Event) : Prop :=
  s.filteredBaseCatalogs = none ∨ match e with
    | .indexing event => globalCatalogChanged (s.indexing.baseKeys env event) = false
    | .advance i => ∀ task ∈ s.baseTasks[i]?, s.TaskKeepsCatalogs env task
    | _ => True

instance (env : Env) (s : Backend) : (e : Event) → Decidable (s.KeepsCatalogs env e)
  | .indexing _ => inferInstanceAs (Decidable (_ ∨ _ = false))
  | .advance i => inferInstanceAs (Decidable (_ ∨ ∀ task ∈ s.baseTasks[i]?, _))
  | .refreshLegacyOverrideMaps | .indexBaseScripts .. | .request _ | .complete _ =>
    inferInstanceAs (Decidable (_ ∨ True))

/-- The filtered base catalogs of the published compilation are absent or up to date. -/
def CatalogsFit (s : Backend) : Prop :=
  s.filteredBaseCatalogs = none ∨ s.filteredBaseCatalogs =
    some (.build s.compilation.baseScriptsIndex s.suppressedBaseUris)

instance (s : Backend) : Decidable s.CatalogsFit := inferInstanceAs (Decidable (_ ∨ _))

lemma filterCatalog_congr {catalog : List Definition} {suppressed suppressed' : Finset String}
    (hsame : ∀ d ∈ catalog, d.uri ∈ suppressed ↔ d.uri ∈ suppressed') :
    ShadowedBase.filterCatalog catalog (some suppressed) =
      ShadowedBase.filterCatalog catalog (some suppressed') := by
  have hfilter : ∀ sup : Finset String, ShadowedBase.filterCatalog catalog (some sup) =
      catalog.filter (fun d => d.uri ∉ sup) := by
    intro sup
    unfold ShadowedBase.filterCatalog
    dsimp only
    split_ifs with hempty
    · subst hempty
      simp
    · rfl
  rw [hfilter, hfilter]
  exact List.filter_congr fun d hd => by simp [hsame d hd]

/-- The filtered catalogs depend on the catalog of the base index and on which of its
declarations are suppressed. -/
lemma build_congr {base base' : WorkspaceIndex} {suppressed suppressed' : Finset String}
    (hcatalog : base'.completionCatalog = base.completionCatalog)
    (hsame : SameSuppression base.completionCatalog suppressed suppressed') :
    FilteredBaseCatalogs.build base' suppressed' = .build base suppressed := by
  unfold FilteredBaseCatalogs.build
  rw [hcatalog]
  simp only [SameSuppression, List.mem_append] at hsame
  have hcallables := filterCatalog_congr fun d hd => hsame d (.inl (.inl hd))
  have htypes := filterCatalog_congr fun d hd => hsame d (.inl (.inr hd))
  have henumMembers := filterCatalog_congr fun d hd => hsame d (.inr hd)
  rw [hcallables, htypes, henumMembers]

lemma CatalogsFit.congr (h : s.CatalogsFit)
    (hfiltered : s'.filteredBaseCatalogs = s.filteredBaseCatalogs)
    (hkeeps : s.filteredBaseCatalogs = none ∨ s'.baseCatalog = s.baseCatalog ∧
      SameSuppression s.baseCatalog s.suppressedBaseUris s'.suppressedBaseUris) :
    s'.CatalogsFit := by
  rcases hkeeps with hnone | ⟨hcatalog, hsame⟩
  · exact .inl (hfiltered.trans hnone)
  · rcases h with hnone | hsome
    · exact .inl (hfiltered.trans hnone)
    · refine .inr (hfiltered.trans (hsome.trans (congrArg some ?_)))
      exact (build_congr hcatalog hsame).symm

lemma sameSuppression_refl (catalog : CompletionCatalog) (suppressed : Finset String) :
    SameSuppression catalog suppressed suppressed := fun _ _ => Iff.rfl

lemma rebuildFilteredBaseCatalogs_fit (s : Backend) : s.rebuildFilteredBaseCatalogs.CatalogsFit := by
  unfold rebuildFilteredBaseCatalogs CatalogsFit
  dsimp only
  split_ifs
  · exact .inl rfl
  · exact .inr rfl

lemma CatalogsFit.resume (h : s.CatalogsFit) {task : BaseTask}
    (hkeeps : s.filteredBaseCatalogs = none ∨ s.TaskKeepsCatalogs env task) :
    (s.resume env task).1.CatalogsFit := by
  cases task with
  | pairing baseUris => exact h
  | suppressing suppressed => exact h.congr rfl (hkeeps.imp_right fun hsame => ⟨rfl, hsame⟩)
  | environment globals next => exact h
  | indexed index documents suppressed next => exact h.congr rfl hkeeps
  | mergingOpen next => exact h
  | mergedOpen files next =>
    refine h.congr rfl (hkeeps.imp_right fun hlocal => ⟨?_, sameSuppression_refl _ _⟩)
    exact Env.completionCatalog_indexOpenDocuments _ files hlocal
  | rebuilding next => exact s.rebuildFilteredBaseCatalogs_fit
  | clearingWorkspace next => exact h
  | clearingLoose next => cases next <;> exact h

/-- A step that keeps what the filtered catalogs list keeps them up to date. -/
theorem CatalogsFit.step (h : s.CatalogsFit) {e : Event} (hkeeps : s.KeepsCatalogs env e)
    (hstep : s.step env builtins e = some s') : s'.CatalogsFit := by
  cases e with
  | indexing event =>
    obtain ⟨indexing, hindexing, rfl⟩ := Option.map_eq_some_iff.mp hstep
    refine h.congr rfl (hkeeps.imp_right fun hlocal => ⟨?_, sameSuppression_refl _ _⟩)
    exact Indexing.completionCatalog_step hlocal hindexing
  | refreshLegacyOverrideMaps =>
    cases hstep
    exact h
  | indexBaseScripts globals base legacy =>
    simp only [Backend.step] at hstep
    split_ifs at hstep
    cases hstep
    exact h
  | advance i =>
    simp only [Backend.step] at hstep
    cases htask : s.baseTasks[i]? with
    | none => simp [htask] at hstep
    | some task =>
      simp only [htask, Option.some.injEq] at hstep
      subst hstep
      exact h.resume (hkeeps.imp_right fun hall => hall task htask)
  | request uri =>
    cases hstep
    exact h
  | complete i =>
    simp only [Backend.step] at hstep
    cases hrequest : s.requests[i]? with
    | none => simp [hrequest] at hstep
    | some request =>
      simp only [hrequest, Option.some.injEq] at hstep
      subst hstep
      unfold mergedCompletionCache setSlot
      cases (s.slot env request.1).filter (·.matchesHandles request.2) with
      | some cached => exact h
      | none =>
        dsimp only
        split_ifs <;> exact h

/-- In every state that the run reaches, the filtered catalogs fit. -/
def KeepsCatalogsFit (env : Env) (builtins : WorkspaceIndex) (es : List Event) : Prop :=
  ∀ pre post s, es = pre ++ post → run (step env builtins) {} pre = some s → s.CatalogsFit

/-- In every run whose steps change nothing that the filtered base catalogs list while they are
there, every published compilation has none or those of its own base index and suppressed set. -/
theorem filteredBaseCatalogs_fit (env : Env) (builtins : WorkspaceIndex) {es : List Event}
    (hkeeps : AllSteps (step env builtins) (KeepsCatalogs env) {} es) :
    KeepsCatalogsFit env builtins es := by
  rintro pre post s rfl hrun
  exact run_invariant (fun _ _ _ hfit hk hstep => hfit.step hk hstep) (.inl rfl)
    hkeeps.append_left hrun

/-- A base script and a legacy script that replaces another one. -/
def indexedWithOverride : List Event :=
  [.indexBaseScripts none
      [(["base", "scripts", "a.ws"], some "a"), (["base", "scripts", "b.ws"], some "b")]
      [(["mods", "scripts", "a.ws"], some "m")],
    .advance 0, .advance 0, .advance 0, .advance 0]

/-- A base script is opened with another body. -/
theorem filteredBaseCatalogs_fit_sameFunction :
    KeepsCatalogsFit functionEnv {} (indexedWithOverride ++
      [.indexing (.didOpen "base/scripts/b.ws" "body"), .indexing (.advance 0)]) :=
  filteredBaseCatalogs_fit functionEnv {} (by decide)

/-- A base script is opened with another function: the catalogs still list the old one. -/
theorem not_filteredBaseCatalogs_fit_otherFunction :
    ¬ KeepsCatalogsFit functionEnv {} (indexedWithOverride ++
      [.indexing (.didOpen "base/scripts/b.ws" "c"), .indexing (.advance 0)]) := by
  intro h
  have hend : (run (step functionEnv {}) {} (indexedWithOverride ++
      [.indexing (.didOpen "base/scripts/b.ws" "c"), .indexing (.advance 0)])).map
        (fun s => decide s.CatalogsFit) = some false := by
    decide
  obtain ⟨s, hrun, hs⟩ := Option.map_eq_some_iff.mp hend
  exact of_decide_eq_false hs (h _ [] s (by simp) hrun)

end Backend

end WitcherScriptLanguage
