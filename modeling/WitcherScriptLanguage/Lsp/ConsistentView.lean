import WitcherScriptLanguage.Lsp.FileView

/-!
# Consistent views

The invariant of one file that opening, publishing and closing preserve: an open buffer is
indexed in the one index that the file's scope selects, and so is the copy that the next open
would reuse. A close leaves the contribution of the text on disk.
-/

namespace WitcherScriptLanguage

namespace Env

/-- The entries of the file are those of its open buffer or, once it is closed, of the copy that
the next open would reuse; every copy lies where the file's scope says. -/
structure Consistent (env : Env) (uri : Url) (excluded : Bool) (view : FileView) : Prop where
  buffer : ∀ document, view.buffer = some document → env.Parsed document ∧
    view.entry = env.placed uri (some (env.contribution (env.canonicalUri uri) document))
  workspaceCopy : ∀ document, view.workspaceCopy = some document →
    env.indexKindOf uri = .workspace ∧ env.Parsed document
  baseCopy : ∀ document, view.baseCopy = some document →
    env.indexKindOf uri = .base ∧ env.Parsed document
  misplaced : ∀ kind, kind ≠ env.indexKindOf uri → view.entry kind = none
  cached : view.buffer = none → excluded = false → ∀ document,
    view.workspaceCopy.or view.baseCopy = some document →
    view.entry = env.placed uri (some (env.contribution (env.canonicalUri uri) document))

/-- What a close leaves in the indexes, given the text on disk. -/
def closedEntry (env : Env) (uri : Url) (excluded : Bool) (diskText : Option String) :
    IndexKind → Option DocContribution :=
  env.placed uri (if (env.fileScopeOf uri).isLoose || excluded then none
    else ((env.closedText uri diskText).bind env.parse).map
      (env.contribution (env.canonicalUri uri)))

/-- `planClosed`, on the view of the file. -/
def planClosedView (env : Env) (uri : Url) (view : FileView) (priorSource diskText : Option String) :
    ClosePlan :=
  let isBase := env.isBaseScriptUri uri
  if priorSource.isSome && priorSource == diskText then
    .unedited isBase
      (staleCopy view.buffer (if isBase then view.baseCopy else view.workspaceCopy))
  else .reindex isBase (diskText.bind env.parse)

variable {env : Env} {c : Compilation} {uri v : Url} {excluded : Bool} {view : FileView}

lemma planClosed_eq (priorSource diskText : Option String) :
    env.planClosed c uri priorSource diskText =
      env.planClosedView uri (env.view c uri) priorSource diskText := by
  unfold planClosed planClosedView
  cases env.isBaseScriptUri uri <;> rfl

/-- The plan of a close from the view in front of it. -/
inductive ClosesWith (env : Env) (uri : Url) (excluded : Bool) (view : FileView)
    (diskText : Option String) : ClosePlan → Prop
  | loose : (env.fileScopeOf uri).isLoose = true →
      ClosesWith env uri excluded view diskText .dropLoose
  | excluded : (env.fileScopeOf uri).isLoose = false → excluded = true →
      ClosesWith env uri excluded view diskText .dropExcluded
  | disk : (env.fileScopeOf uri).isLoose = false → excluded = false →
      ClosesWith env uri excluded view diskText (env.planClosedView uri view
        (view.buffer.map (·.source)) (env.closedText uri diskText))

lemma contribution_of_parsed {document parsed : ParsedDocument} (h : env.Parsed document)
    (hparsed : env.parse document.source = some parsed) (key : String) :
    env.contribution key parsed = env.contribution key document := by
  obtain ⟨parsed', hparsed', heq⟩ := h
  rw [hparsed] at hparsed'
  cases hparsed'
  exact heq key

/-- Two parsed documents of one text contribute alike. -/
lemma contribution_congr {d d' : ParsedDocument} (h : env.Parsed d) (h' : env.Parsed d')
    (hsource : d.source = d'.source) (key : String) :
    env.contribution key d = env.contribution key d' := by
  obtain ⟨parsed, hparsed, -⟩ := id h
  rw [← contribution_of_parsed h hparsed key, contribution_of_parsed h' (hsource ▸ hparsed) key]

lemma Consistent.publish (h : env.Consistent uri excluded view) {document : ParsedDocument}
    (hparsed : env.Parsed document) :
    env.Consistent uri excluded (env.viewOpened uri view (.publish document)) where
  buffer d hd := by
    cases hd
    exact ⟨hparsed, rfl⟩
  workspaceCopy := h.workspaceCopy
  baseCopy := h.baseCopy
  misplaced kind hkind := if_neg hkind
  cached hnone := nomatch hnone

lemma Consistent.reuse (h : env.Consistent uri excluded view) {document : ParsedDocument}
    (hincluded : excluded = false) (hclosed : view.buffer = none)
    (hcached : view.workspaceCopy.or view.baseCopy = some document) :
    env.Consistent uri excluded (env.viewOpened uri view (.reuse document)) where
  buffer d hd := by
    cases hd
    refine ⟨?_, h.cached hclosed hincluded document hcached⟩
    rcases Option.or_eq_some_iff.mp hcached with hws | ⟨-, hbase⟩
    · exact (h.workspaceCopy document hws).2
    · exact (h.baseCopy document hbase).2
  workspaceCopy := h.workspaceCopy
  baseCopy := h.baseCopy
  misplaced := h.misplaced
  cached hnone := nomatch hnone

/-- An excluded file lies under a workspace root. -/
lemma indexKindOf_of_excluded {knownFiles : List String}
    (h : (env.isUriExcluded knownFiles uri).1 = true) : env.indexKindOf uri = .workspace := by
  obtain ⟨path, hpath, hunder, -, -⟩ := isUriExcluded_eq_true.mp h
  have hscope : env.fileScopeOf uri = .inProject := by
    simp [fileScopeOf, classifyFileScope, hpath, hunder]
  rw [indexKindOf, hscope]
  rfl

/-- After an unedited close the cached copy contributes what the buffer did. -/
lemma contribution_of_staleCopy {openDoc copy : ParsedDocument} {cache : Option ParsedDocument}
    (hopen : env.Parsed openDoc) (hcache : ∀ cached, cache = some cached → env.Parsed cached)
    (h : (staleCopy (some openDoc) cache).or cache = some copy) :
    env.Parsed copy ∧ ∀ key, env.contribution key copy = env.contribution key openDoc := by
  cases cache with
  | none =>
    cases h
    exact ⟨hopen, fun _ => rfl⟩
  | some cached =>
    have hcached := hcache cached rfl
    by_cases hsource : openDoc.source = cached.source
    · simp only [staleCopy, hsource, ne_eq, not_true_eq_false, if_false, Option.none_or] at h
      cases h
      exact ⟨hcached, contribution_congr hcached hopen hsource.symm⟩
    · simp only [staleCopy, ne_eq, hsource, not_false_eq_true, if_true, Option.some_or] at h
      cases h
      exact ⟨hopen, fun _ => rfl⟩

lemma placed_none (uri : Url) : env.placed uri none = fun _ => none := by
  funext kind
  unfold placed
  split_ifs <;> rfl

/-- Dropping the file from the index of its scope leaves it in none. -/
lemma Consistent.entry_dropped (h : env.Consistent uri excluded view) {kind : IndexKind}
    (hkind : env.indexKindOf uri = kind) :
    (fun k => if k = kind then none else view.entry k) = env.placed uri none := by
  rw [placed_none]
  funext k
  split_ifs with hk
  · rfl
  · exact h.misplaced k (by rw [hkind]; exact hk)

lemma indexKindOf_eq_workspace (hloose : (env.fileScopeOf uri).isLoose = false)
    (hbase : env.isBaseScriptUri uri = false) : env.indexKindOf uri = .workspace := by
  cases hk : env.indexKindOf uri with
  | workspace => rfl
  | loose =>
    rw [indexKindOf_eq_loose, hloose] at hk
    cases hk
  | base =>
    rw [indexKindOf_eq_base, hbase] at hk
    cases hk

lemma Consistent.workspaceCopy_eq_none (h : env.Consistent uri excluded view)
    (hkind : env.indexKindOf uri ≠ .workspace) : view.workspaceCopy = none := by
  cases hcopy : view.workspaceCopy with
  | none => rfl
  | some d => exact absurd (h.workspaceCopy d hcopy).1 hkind

lemma Consistent.baseCopy_eq_none (h : env.Consistent uri excluded view)
    (hkind : env.indexKindOf uri ≠ .base) : view.baseCopy = none := by
  cases hcopy : view.baseCopy with
  | none => rfl
  | some d => exact absurd (h.baseCopy d hcopy).1 hkind

lemma Consistent.closeUnedited (h : env.Consistent uri excluded view)
    (hloose : (env.fileScopeOf uri).isLoose = false) (hincluded : excluded = false)
    {openDoc : ParsedDocument} (hbuffer : view.buffer = some openDoc) {diskText : Option String}
    (hdisk : env.closedText uri diskText = some openDoc.source) {plan : ClosePlan}
    (hplan : plan = .unedited (env.isBaseScriptUri uri) (staleCopy (some openDoc)
      (if env.isBaseScriptUri uri then view.baseCopy else view.workspaceCopy))) :
    env.Consistent uri excluded (env.viewClosed uri view plan) ∧
      (env.viewClosed uri view plan).entry = env.closedEntry uri excluded diskText := by
  obtain ⟨hparsed, hentry⟩ := h.buffer openDoc hbuffer
  obtain ⟨parsed, hparse, hsame⟩ := id hparsed
  have hclosed : env.closedEntry uri excluded diskText = view.entry := by
    rw [hentry, closedEntry, hloose, hincluded, hdisk]
    simp [hparse, hsame]
  subst hplan
  refine ⟨?_, hclosed.symm⟩
  cases hbase : env.isBaseScriptUri uri with
  | true =>
    have hkind := indexKindOf_eq_base.mpr hbase
    have hcopy := fun copy (hcopy : (staleCopy (some openDoc) view.baseCopy).or view.baseCopy =
      some copy) => contribution_of_staleCopy hparsed (fun d hd => (h.baseCopy d hd).2) hcopy
    exact {
      buffer := fun _ hopen => by cases hopen
      workspaceCopy := h.workspaceCopy
      baseCopy := fun copy hc => ⟨hkind, (hcopy copy hc).1⟩
      misplaced := h.misplaced
      cached := fun _ _ copy hc => by
        have hnone := h.workspaceCopy_eq_none (by rw [hkind]; decide)
        simp only [viewClosed, if_true, hnone, Option.none_or] at hc ⊢
        rw [hentry, (hcopy copy hc).2] }
  | false =>
    have hkind := indexKindOf_eq_workspace hloose hbase
    have hcopy := fun copy (hcopy : (staleCopy (some openDoc) view.workspaceCopy).or
      view.workspaceCopy = some copy) =>
        contribution_of_staleCopy hparsed (fun d hd => (h.workspaceCopy d hd).2) hcopy
    exact {
      buffer := fun _ hopen => by cases hopen
      workspaceCopy := fun copy hc => ⟨hkind, (hcopy copy hc).1⟩
      baseCopy := h.baseCopy
      misplaced := h.misplaced
      cached := fun _ _ copy hc => by
        have hnone := h.baseCopy_eq_none (by rw [hkind]; decide)
        simp only [viewClosed, Bool.false_eq_true, if_false, hnone, Option.or_none] at hc ⊢
        rw [hentry, (hcopy copy hc).2] }

lemma Consistent.closeReindex (h : env.Consistent uri excluded view)
    (hloose : (env.fileScopeOf uri).isLoose = false) (hincluded : excluded = false)
    {diskText : Option String} {plan : ClosePlan}
    (hplan : plan = .reindex (env.isBaseScriptUri uri)
      ((env.closedText uri diskText).bind env.parse)) :
    env.Consistent uri excluded (env.viewClosed uri view plan) ∧
      (env.viewClosed uri view plan).entry = env.closedEntry uri excluded diskText := by
  have hparsed : ∀ document, (env.closedText uri diskText).bind env.parse = some document →
      env.Parsed document := by
    intro document hdocument
    obtain ⟨text, -, hparse⟩ := Option.bind_eq_some_iff.mp hdocument
    exact parsed_of_parse hparse
  have hclosed : env.closedEntry uri excluded diskText =
      env.placed uri (((env.closedText uri diskText).bind env.parse).map
        (env.contribution (env.canonicalUri uri))) := by
    simp [closedEntry, hloose, hincluded]
  have hkind : env.indexKindOf uri = if env.isBaseScriptUri uri then .base else .workspace := by
    split_ifs with hbase
    · exact indexKindOf_eq_base.mpr hbase
    · exact indexKindOf_eq_workspace hloose (by simpa using hbase)
  subst hplan
  have hentry : (env.viewClosed uri view (.reindex (env.isBaseScriptUri uri)
      ((env.closedText uri diskText).bind env.parse))).entry =
        env.closedEntry uri excluded diskText := by
    rw [hclosed]
    funext kind
    simp only [viewClosed, placed, ← hkind]
    split_ifs with hk
    · rfl
    · exact h.misplaced kind hk
  refine ⟨?_, hentry⟩
  generalize (env.closedText uri diskText).bind env.parse = parsed at hparsed hclosed hentry ⊢
  have hplaced : ∀ document, parsed = some document →
      (env.viewClosed uri view (.reindex (env.isBaseScriptUri uri) parsed)).entry =
        env.placed uri (some (env.contribution (env.canonicalUri uri) document)) := by
    intro document hdocument
    rw [hentry, hclosed, hdocument]
    rfl
  have hmisplaced : ∀ kind, kind ≠ env.indexKindOf uri →
      (env.viewClosed uri view (.reindex (env.isBaseScriptUri uri) parsed)).entry kind = none := by
    intro kind hk
    rw [hentry, hclosed]
    exact if_neg hk
  cases hbase : env.isBaseScriptUri uri with
  | true =>
    simp only [hbase, if_true] at hkind hplaced hmisplaced
    exact {
      buffer := fun _ hopen => by cases hopen
      workspaceCopy := h.workspaceCopy
      baseCopy := fun document hd => ⟨hkind, hparsed document hd⟩
      misplaced := hmisplaced
      cached := fun _ _ document hd => by
        have hnone := h.workspaceCopy_eq_none (by rw [hkind]; decide)
        simp only [viewClosed, if_true, hnone, Option.none_or] at hd
        exact hplaced document hd }
  | false =>
    simp only [hbase, Bool.false_eq_true, if_false] at hkind hplaced hmisplaced
    exact {
      buffer := fun _ hopen => by cases hopen
      workspaceCopy := fun document hd => ⟨hkind, hparsed document hd⟩
      baseCopy := h.baseCopy
      misplaced := hmisplaced
      cached := fun _ _ document hd => by
        have hnone := h.baseCopy_eq_none (by rw [hkind]; decide)
        simp only [viewClosed, Bool.false_eq_true, if_false, hnone, Option.or_none] at hd
        exact hplaced document hd }

lemma Consistent.closeDropped (h : env.Consistent uri excluded view) {kind : IndexKind}
    (hkind : env.indexKindOf uri = kind)
    (hcopies : excluded = false → view.workspaceCopy.or view.baseCopy = none) :
    env.Consistent uri excluded { view with
      buffer := none, entry := fun k => if k = kind then none else view.entry k } where
  buffer := nofun
  workspaceCopy := h.workspaceCopy
  baseCopy := h.baseCopy
  misplaced k hk := by
    rw [hkind] at hk
    exact (if_neg hk).trans (h.misplaced k (by rw [hkind]; exact hk))
  cached _ hincluded document hd := by
    rw [hcopies hincluded] at hd
    cases hd

/-- A close with a plan made from the view in front of it takes the buffer away and leaves the
disk text in the index. -/
theorem Consistent.close (h : env.Consistent uri excluded view) {diskText : Option String}
    {plan : ClosePlan} (hplan : env.ClosesWith uri excluded view diskText plan)
    (hexcluded : excluded = true → env.indexKindOf uri = .workspace) :
    env.Consistent uri excluded (env.viewClosed uri view plan) ∧
      (env.viewClosed uri view plan).entry = env.closedEntry uri excluded diskText := by
  cases hplan with
  | loose hloose =>
    have hkind := indexKindOf_eq_loose.mpr hloose
    refine ⟨h.closeDropped hkind fun _ => ?_, ?_⟩
    · rw [h.workspaceCopy_eq_none (by rw [hkind]; decide),
        h.baseCopy_eq_none (by rw [hkind]; decide), Option.none_or]
    · rw [closedEntry, hloose]
      exact h.entry_dropped hkind
  | excluded hloose htrue =>
    refine ⟨h.closeDropped (hexcluded htrue) fun hfalse => ?_, ?_⟩
    · rw [htrue] at hfalse
      cases hfalse
    · rw [closedEntry, htrue, Bool.or_true]
      exact h.entry_dropped (hexcluded htrue)
  | disk hloose hincluded =>
    cases hbuffer : view.buffer with
    | none => exact h.closeReindex hloose hincluded (by simp [planClosedView])
    | some openDoc =>
      by_cases hdisk : env.closedText uri diskText = some openDoc.source
      · exact h.closeUnedited hloose hincluded hbuffer hdisk
          (by simp [planClosedView, hdisk, hbuffer])
      · exact h.closeReindex hloose hincluded (by simp [planClosedView, Ne.symm hdisk])

lemma viewClosed_buffer (plan : ClosePlan) : (env.viewClosed uri view plan).buffer = none := by
  cases plan <;> rfl

end Env

end WitcherScriptLanguage
