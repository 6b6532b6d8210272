import WitcherScriptLanguage.Lsp.FilteredCatalogs

/-!
# The merged completion cache

A slot is keyed by surface hashes and by the version of the script environment. What else its
entry was built from, the suppressed files and the filtered base catalogs, is covered by clearing
the slot after they have changed. The answers are exact as long as no entry is served between the
change and the clear, none is stored by a request that started before, and equal surfaces have
equal catalogs.
-/

namespace WitcherScriptLanguage

open Library

/-- The names, kinds and types of an indexed document, without its ranges. -/
def WorkspaceIndex.surface (ix : WorkspaceIndex) (uri : String) : Option (List SymbolFields) :=
  (ix.documents.lookup uri).map fun symbols =>
    (symbols.filter (fun s => s.kind ≠ .variable)).map Symbol.fields

/-- Surface hashes of different symbol surfaces are distinct. -/
def DistinctSurfaces (requested : List DbHandles) : Prop :=
  ∀ h ∈ requested, ∀ h' ∈ requested,
    (h.workspace.surfaceHash = h'.workspace.surfaceHash →
      h.workspace.surface = h'.workspace.surface) ∧
    (h.base.surfaceHash = h'.base.surfaceHash → h.base.surface = h'.base.surface)

/-- Indexes with equal surface hashes list the same catalogs. -/
def SurfacesFixCatalogs (requested : List DbHandles) : Prop :=
  ∀ h ∈ requested, ∀ h' ∈ requested,
    (h.workspace.surfaceHash = h'.workspace.surfaceHash →
      h.workspace.completionCatalog = h'.workspace.completionCatalog) ∧
    (h.base.surfaceHash = h'.base.surfaceHash →
      h.base.completionCatalog = h'.base.completionCatalog)

instance (requested : List DbHandles) : Decidable (SurfacesFixCatalogs requested) :=
  inferInstanceAs (Decidable (∀ h ∈ requested, ∀ h' ∈ requested, _ ∧ _))

namespace DbHandles

/-- The suppressed files and their filtered catalogs, which no key covers. -/
structure SameFilter (h h' : DbHandles) : Prop where
  suppressed : h.suppressedBaseUris = h'.suppressedBaseUris
  filtered : h.filteredBaseCatalogs = h'.filteredBaseCatalogs

variable {h h' : DbHandles}

lemma baseForMerge_congr (hbase : h.base.completionCatalog = h'.base.completionCatalog)
    (hfilter : h.SameFilter h') :
    h.baseCallablesForMerge = h'.baseCallablesForMerge ∧
      h.baseTypesForMerge = h'.baseTypesForMerge ∧
      h.baseEnumMembersForMerge = h'.baseEnumMembersForMerge := by
  unfold baseCallablesForMerge baseTypesForMerge baseEnumMembersForMerge
  rw [hfilter.filtered]
  cases h'.filteredBaseCatalogs with
  | some prefiltered => exact ⟨rfl, rfl, rfl⟩
  | none =>
    simp only [db, SymbolDb.shadowedBase, ShadowedBase.callablesCatalog, ShadowedBase.typesCatalog,
      ShadowedBase.enumMembersCatalog, hbase, hfilter.suppressed, and_self]

/-- Handles with the same catalogs, filter, environment and builtins build the same lists. -/
theorem merged_congr (hworkspace : h.workspace.completionCatalog = h'.workspace.completionCatalog)
    (hbase : h.base.completionCatalog = h'.base.completionCatalog) (hfilter : h.SameFilter h')
    (henv : h.scriptEnv = h'.scriptEnv) (hbuiltins : h.builtins = h'.builtins) :
    h.mergedTypesCatalog = h'.mergedTypesCatalog ∧
      h.mergedGlobalCompletions = h'.mergedGlobalCompletions := by
  obtain ⟨hcallables, htypes, henumMembers⟩ := baseForMerge_congr hbase hfilter
  constructor
  · rw [mergedTypesCatalog, mergedTypesCatalog, hworkspace, htypes, hbuiltins]
  · simp only [mergedGlobalCompletions, mergedCallablesCatalog, mergedEnumMembersCatalog,
      allScriptGlobals, hworkspace, hcallables, henumMembers, henv, hbuiltins]

end DbHandles

namespace Backend

variable {env : Env} {builtins : WorkspaceIndex} {s s' : Backend}

/-- The task has published a filter and will still clear the slot of the workspace. -/
def pendsWorkspace : BaseTask → Bool
  | .mergingOpen _ | .mergedOpen .. | .rebuilding _ | .clearingWorkspace _ => true
  | _ => false

/-- The task has published a filter and will still clear the slot of loose files. -/
def pendsLoose : BaseTask → Bool
  | .clearingLoose _ => true
  | task => pendsWorkspace task

/-- A task stands between its publication and its clear of the file's slot. -/
def clearPending (env : Env) (s : Backend) (uri : Url) : Bool :=
  if ((s.current env).fileScopeOf uri).isLoose then s.baseTasks.any pendsLoose
  else s.baseTasks.any pendsWorkspace

/-- The handles have the filter that is published now. -/
structure Current (s : Backend) (handles : DbHandles) : Prop where
  suppressed : handles.suppressedBaseUris = s.suppressedBaseUris
  filtered : handles.filteredBaseCatalogs = s.filteredBaseCatalogs

instance (s : Backend) (handles : DbHandles) : Decidable (s.Current handles) :=
  decidable_of_iff
    (handles.suppressedBaseUris = s.suppressedBaseUris ∧
      handles.filteredBaseCatalogs = s.filteredBaseCatalogs)
    ⟨fun h => ⟨h.1, h.2⟩, fun h => ⟨h.1, h.2⟩⟩

/-- The slot of the file holds an entry under the key of the handles. -/
def hits (env : Env) (s : Backend) (uri : Url) (handles : DbHandles) : Bool :=
  ((s.slot env uri).filter (·.matchesHandles handles)).isSome

/-- A hit serves current handles from a slot that no clear is due on; a refill stores current
handles unless the slot will be cleared. -/
def ServesCurrent (env : Env) (s : Backend) (uri : Url) (handles : DbHandles) : Prop :=
  if s.hits env uri handles then s.Current handles ∧ s.clearPending env uri = false
  else s.Current handles ∨ s.clearPending env uri = true

/-- A request that completes is served current. -/
def SlotsCurrent (env : Env) (s : Backend) : Event → Prop
  | .complete i => ∀ request ∈ s.requests[i]?, s.ServesCurrent env request.1 request.2
  | _ => True

instance (env : Env) (s : Backend) (uri : Url) (handles : DbHandles) :
    Decidable (s.ServesCurrent env uri handles) :=
  inferInstanceAs (Decidable
    (if s.hits env uri handles then s.Current handles ∧ s.clearPending env uri = false
    else s.Current handles ∨ s.clearPending env uri = true))

instance (env : Env) (s : Backend) : (e : Event) → Decidable (s.SlotsCurrent env e)
  | .complete i => inferInstanceAs (Decidable (∀ request ∈ s.requests[i]?, _))
  | .indexing _ | .refreshLegacyOverrideMaps | .indexBaseScripts .. | .advance _ | .request _ =>
    inferInstanceAs (Decidable True)

/-- The handles that a step takes for a request. -/
def takesHandles (env : Env) (builtins : WorkspaceIndex) (s : Backend) : Event → List DbHandles
  | .request uri => [s.dbHandlesFor env builtins uri]
  | _ => []

/-- The handles of all requests of a run. -/
def requestedHandles (env : Env) (builtins : WorkspaceIndex) (es : List Event) : List DbHandles :=
  recordedBy (step env builtins) (takesHandles env builtins) {} es

/-! ### The invariant -/

/-- What the task publishes it will also clear. -/
def Clears : BaseTask → Prop
  | .indexed _ _ _ next | .mergingOpen next | .mergedOpen _ next =>
    pendsWorkspace next = true ∧ Clears next
  | .environment _ next => Clears next
  | _ => True

/-- The entry was built from handles that were requested; unless a clear is due on the slot, they
have the published filter. -/
def SlotOk (s : Backend) (requested : List DbHandles) (pending : Bool)
    (slot : Option MergedCompletionCache) : Prop :=
  ∀ cached ∈ slot, ∃ h ∈ requested, cached = .build h ∧ (pending = false → s.Current h)

/-- Requested handles with the version of the published environment have it. -/
structure EnvironmentsOk (builtins : WorkspaceIndex) (s : Backend) (requested : List DbHandles) :
    Prop where
  issued : s.scriptEnv.version < s.nextScriptEnvVersion
  older : ∀ h ∈ requested, h.scriptEnv.version < s.nextScriptEnvVersion
  published : ∀ h ∈ requested, h.scriptEnv.version = s.scriptEnv.version →
    h.scriptEnv = s.scriptEnv
  unique : ∀ h ∈ requested, ∀ h' ∈ requested, h.scriptEnv.version = h'.scriptEnv.version →
    h.scriptEnv = h'.scriptEnv
  builtins : ∀ h ∈ requested, h.builtins = builtins

structure CacheInv (builtins : WorkspaceIndex) (s : Backend) (requested : List DbHandles) :
    Prop where
  tasks : ∀ task ∈ s.baseTasks, Clears task
  requests : ∀ request ∈ s.requests, request.2 ∈ requested
  environments : EnvironmentsOk builtins s requested
  workspaceSlot : s.SlotOk requested (s.baseTasks.any pendsWorkspace) s.workspaceSlot
  looseSlot : s.SlotOk requested (s.baseTasks.any pendsLoose) s.looseSlot

variable {requested : List DbHandles} {slot : Option MergedCompletionCache} {pending : Bool}

lemma slotOk_none : s.SlotOk requested pending none := by
  rintro _ ⟨⟩

/-- Nothing is published, and where the clear is no longer due the slot is as it was. -/
lemma SlotOk.mono (h : s.SlotOk requested pending slot) {pending' : Bool}
    (hfilter : pending' = false → pending = false ∧
      s'.suppressedBaseUris = s.suppressedBaseUris ∧
      s'.filteredBaseCatalogs = s.filteredBaseCatalogs) : s'.SlotOk requested pending' slot := by
  intro cached hcached
  obtain ⟨handles, hmem, hbuild, hcurrent⟩ := h cached hcached
  refine ⟨handles, hmem, hbuild, fun hpending => ?_⟩
  obtain ⟨hold, hsuppressed, hfiltered⟩ := hfilter hpending
  have hold := hcurrent hold
  exact ⟨hold.suppressed.trans hsuppressed.symm, hold.filtered.trans hfiltered.symm⟩

/-- The tasks after one of them has taken a step. -/
def advanced (s : Backend) (i : Nat) (next : Option BaseTask) : List BaseTask :=
  s.baseTasks.eraseIdx i ++ next.toList

/-- A clear that was due is still due, except for that of the task itself. -/
lemma any_advanced {i : Nat} {task : BaseTask} (htask : s.baseTasks[i]? = some task)
    {next : Option BaseTask} {pends : BaseTask → Bool} (hnone : pends task = false)
    (hnext : (s.advanced i next).any pends = false) : s.baseTasks.any pends = false := by
  rw [advanced, List.any_append, Bool.or_eq_false_iff] at hnext
  rw [List.any_eq_false]
  intro other hother
  obtain ⟨j, hj⟩ := List.mem_iff_getElem?.mp hother
  by_cases hij : j = i
  · subst hij
    rw [htask] at hj
    cases hj
    exact Bool.eq_false_iff.mp hnone
  · refine List.any_eq_false.mp hnext.1 other ?_
    exact List.mem_eraseIdx_iff_getElem?.mpr ⟨j, hij, hj⟩

lemma any_advanced_of_next {i : Nat} {next : BaseTask} {pends : BaseTask → Bool}
    (hnext : pends next = true) : (s.advanced i (some next)).any pends = true := by
  simp [advanced, hnext]

lemma pendsLoose_of_pendsWorkspace {task : BaseTask} (h : pendsWorkspace task = true) :
    pendsLoose task = true := by
  cases task <;> first | rfl | exact h

lemma startIndexing_eq (s : Backend) (task : Option IndexingTask) :
    ∃ indexing, s.startIndexing task = { s with indexing := indexing } := by
  cases task with
  | none => exact ⟨s.indexing, rfl⟩
  | some task => exact ⟨s.indexing.start task, rfl⟩

lemma Clears.resume {task : BaseTask} (h : Clears task) :
    ∀ next ∈ (s.resume env task).2, Clears next := by
  intro next hnext
  cases task with
  | pairing _ | suppressing _ | rebuilding _ | clearingWorkspace _ =>
    cases hnext
    trivial
  | environment _ _ =>
    cases hnext
    exact h
  | indexed _ _ _ _ | mergedOpen _ _ =>
    cases hnext
    exact h.2
  | mergingOpen _ =>
    cases hnext
    exact h
  | clearingLoose _ => cases hnext

variable (env) in
lemma EnvironmentsOk.resume (h : EnvironmentsOk builtins s requested) (task : BaseTask) :
    EnvironmentsOk builtins (s.resume env task).1 requested := by
  cases task with
  | environment globals next =>
    refine ⟨Nat.lt_succ_self _, fun handles hmem => ?_, fun handles hmem heq => ?_, h.unique,
      h.builtins⟩
    · exact (h.older handles hmem).trans (Nat.lt_succ_self _)
    · have holder := h.older handles hmem
      rw [heq] at holder
      exact absurd holder (Nat.lt_irrefl _)
  | clearingLoose next =>
    obtain ⟨indexing, hstart⟩ := startIndexing_eq { s with looseSlot := none } next
    rw [Backend.resume, hstart]
    exact ⟨h.issued, h.older, h.published, h.unique, h.builtins⟩
  | _ => exact ⟨h.issued, h.older, h.published, h.unique, h.builtins⟩

variable (env) in
/-- A task that clears the slot leaves it empty; one that publishes will clear it. -/
lemma CacheInv.workspaceSlot_resume (h : CacheInv builtins s requested) {i : Nat} {task : BaseTask}
    (htask : s.baseTasks[i]? = some task) :
    (s.resume env task).1.SlotOk requested
      ((s.advanced i (s.resume env task).2).any pendsWorkspace)
      (s.resume env task).1.workspaceSlot := by
  have hclears := h.tasks task (List.mem_of_getElem? htask)
  have hdue : ∀ {next : BaseTask}, pendsWorkspace next = true →
      (s.advanced i (some next)).any pendsWorkspace = false → False := by
    intro next hnext hfalse
    rw [any_advanced_of_next hnext] at hfalse
    cases hfalse
  cases task with
  | pairing baseUris =>
    exact h.workspaceSlot.mono fun hp => ⟨any_advanced htask rfl hp, rfl, rfl⟩
  | suppressing suppressed => exact h.workspaceSlot.mono fun hp => (hdue rfl hp).elim
  | environment globals next =>
    exact h.workspaceSlot.mono fun hp => ⟨any_advanced htask rfl hp, rfl, rfl⟩
  | indexed index documents suppressed next =>
    exact h.workspaceSlot.mono fun hp => (hdue hclears.1 hp).elim
  | mergingOpen next => exact h.workspaceSlot.mono fun hp => (hdue rfl hp).elim
  | mergedOpen files next => exact h.workspaceSlot.mono fun hp => (hdue hclears.1 hp).elim
  | rebuilding next => exact h.workspaceSlot.mono fun hp => (hdue rfl hp).elim
  | clearingWorkspace next => exact slotOk_none
  | clearingLoose next =>
    obtain ⟨indexing, hstart⟩ := startIndexing_eq { s with looseSlot := none } next
    rw [Backend.resume, hstart]
    exact h.workspaceSlot.mono fun hp => ⟨any_advanced htask rfl hp, rfl, rfl⟩

variable (env) in
lemma CacheInv.looseSlot_resume (h : CacheInv builtins s requested) {i : Nat} {task : BaseTask}
    (htask : s.baseTasks[i]? = some task) :
    (s.resume env task).1.SlotOk requested ((s.advanced i (s.resume env task).2).any pendsLoose)
      (s.resume env task).1.looseSlot := by
  have hclears := h.tasks task (List.mem_of_getElem? htask)
  have hdue : ∀ {next : BaseTask}, pendsLoose next = true →
      (s.advanced i (some next)).any pendsLoose = false → False := by
    intro next hnext hfalse
    rw [any_advanced_of_next hnext] at hfalse
    cases hfalse
  cases task with
  | pairing baseUris =>
    exact h.looseSlot.mono fun hp => ⟨any_advanced htask rfl hp, rfl, rfl⟩
  | suppressing suppressed => exact h.looseSlot.mono fun hp => (hdue rfl hp).elim
  | environment globals next =>
    exact h.looseSlot.mono fun hp => ⟨any_advanced htask rfl hp, rfl, rfl⟩
  | indexed index documents suppressed next =>
    have hnext := pendsLoose_of_pendsWorkspace hclears.1
    exact h.looseSlot.mono fun hp => (hdue hnext hp).elim
  | mergingOpen next => exact h.looseSlot.mono fun hp => (hdue rfl hp).elim
  | mergedOpen files next =>
    have hnext := pendsLoose_of_pendsWorkspace hclears.1
    exact h.looseSlot.mono fun hp => (hdue hnext hp).elim
  | rebuilding next => exact h.looseSlot.mono fun hp => (hdue rfl hp).elim
  | clearingWorkspace next => exact h.looseSlot.mono fun hp => (hdue rfl hp).elim
  | clearingLoose next =>
    obtain ⟨indexing, hstart⟩ := startIndexing_eq { s with looseSlot := none } next
    rw [Backend.resume, hstart]
    exact slotOk_none

lemma requests_resume (task : BaseTask) : (s.resume env task).1.requests = s.requests := by
  cases task with
  | clearingLoose next =>
    obtain ⟨indexing, hstart⟩ := startIndexing_eq { s with looseSlot := none } next
    rw [Backend.resume, hstart]
  | _ => rfl

lemma baseTasks_resume (task : BaseTask) : (s.resume env task).1.baseTasks = s.baseTasks := by
  cases task with
  | clearingLoose next =>
    obtain ⟨indexing, hstart⟩ := startIndexing_eq { s with looseSlot := none } next
    rw [Backend.resume, hstart]
  | _ => rfl

lemma CacheInv.advance (h : CacheInv builtins s requested) {i : Nat} {task : BaseTask}
    (htask : s.baseTasks[i]? = some task) :
    CacheInv builtins
      { (s.resume env task).1 with baseTasks := s.advanced i (s.resume env task).2 }
      requested where
  tasks other hother := by
    rcases List.mem_append.mp hother with hold | hnew
    · exact h.tasks other (List.mem_of_mem_eraseIdx hold)
    · have hclears := h.tasks task (List.mem_of_getElem? htask)
      exact hclears.resume other (Option.mem_toList.mp hnew)
  requests request hrequest := by
    rw [requests_resume] at hrequest
    exact h.requests request hrequest
  environments :=
    have henv := h.environments.resume env task
    ⟨henv.issued, henv.older, henv.published, henv.unique, henv.builtins⟩
  workspaceSlot := (h.workspaceSlot_resume env htask).mono fun hp => ⟨hp, rfl, rfl⟩
  looseSlot := (h.looseSlot_resume env htask).mono fun hp => ⟨hp, rfl, rfl⟩

lemma SlotOk.insert (h : s.SlotOk requested pending slot) (handles : DbHandles) :
    s.SlotOk (requested ++ [handles]) pending slot := by
  intro cached hcached
  obtain ⟨stored, hmem, hbuild, hcurrent⟩ := h cached hcached
  exact ⟨stored, List.mem_append_left _ hmem, hbuild, hcurrent⟩

lemma EnvironmentsOk.request (h : EnvironmentsOk builtins s requested) (uri : Url) :
    EnvironmentsOk builtins s (requested ++ [s.dbHandlesFor env builtins uri]) := by
  have hcases : ∀ handles ∈ requested ++ [s.dbHandlesFor env builtins uri],
      handles ∈ requested ∨ handles.scriptEnv = s.scriptEnv ∧ handles.builtins = builtins := by
    intro handles hmem
    rcases List.mem_append.mp hmem with hold | hnew
    · exact .inl hold
    · rw [List.mem_singleton.mp hnew]
      exact .inr ⟨rfl, rfl⟩
  refine ⟨h.issued, fun handles hmem => ?_, fun handles hmem heq => ?_,
    fun handles hmem handles' hmem' heq => ?_, fun handles hmem => ?_⟩
  · rcases hcases handles hmem with hold | ⟨hnew, -⟩
    · exact h.older handles hold
    · rw [hnew]
      exact h.issued
  · rcases hcases handles hmem with hold | ⟨hnew, -⟩
    · exact h.published handles hold heq
    · exact hnew
  · rcases hcases handles hmem with hold | ⟨hnew, -⟩
    · rcases hcases handles' hmem' with hold' | ⟨hnew', -⟩
      · exact h.unique handles hold handles' hold' heq
      · rw [hnew'] at heq ⊢
        exact h.published handles hold heq
    · rw [hnew] at heq ⊢
      rcases hcases handles' hmem' with hold' | ⟨hnew', -⟩
      · exact (h.published handles' hold' heq.symm).symm
      · exact hnew'.symm
  · rcases hcases handles hmem with hold | ⟨-, hnew⟩
    · exact h.builtins handles hold
    · exact hnew

lemma CacheInv.request (h : CacheInv builtins s requested) (uri : Url) :
    CacheInv builtins
      { s with requests := s.requests ++ [(uri, s.dbHandlesFor env builtins uri)] }
      (requested ++ [s.dbHandlesFor env builtins uri]) where
  tasks := h.tasks
  requests request hrequest := by
    rcases List.mem_append.mp hrequest with hold | hnew
    · exact List.mem_append_left _ (h.requests request hold)
    · rw [List.mem_singleton.mp hnew]
      exact List.mem_append_right _ List.mem_cons_self
  environments :=
    have henv := h.environments.request uri
    ⟨henv.issued, henv.older, henv.published, henv.unique, henv.builtins⟩
  workspaceSlot := (h.workspaceSlot.insert _).mono fun hp => ⟨hp, rfl, rfl⟩
  looseSlot := (h.looseSlot.insert _).mono fun hp => ⟨hp, rfl, rfl⟩

/-- A miss stores handles that are current, or in a slot that will be cleared. -/
lemma CacheInv.complete (h : CacheInv builtins s requested) {i : Nat} {uri : Url}
    {handles : DbHandles} (hrequest : s.requests[i]? = some (uri, handles))
    (hserves : s.ServesCurrent env uri handles) :
    CacheInv builtins
      { (s.mergedCompletionCache env uri handles).2 with requests := s.requests.eraseIdx i }
      requested := by
  have hrequests : ∀ request ∈ s.requests.eraseIdx i, request.2 ∈ requested := fun request hmem =>
    h.requests request (List.mem_of_mem_eraseIdx hmem)
  have henv := h.environments
  have hworkspace := h.workspaceSlot
  have hloose := h.looseSlot
  unfold mergedCompletionCache
  cases hslot : (s.slot env uri).filter (·.matchesHandles handles) with
  | some cached =>
    exact ⟨h.tasks, hrequests, ⟨henv.issued, henv.older, henv.published, henv.unique,
      henv.builtins⟩, hworkspace.mono fun hp => ⟨hp, rfl, rfl⟩,
      hloose.mono fun hp => ⟨hp, rfl, rfl⟩⟩
  | none =>
    have hmiss : s.hits env uri handles = false := by rw [hits, hslot]; rfl
    unfold ServesCurrent at hserves
    rw [hmiss, if_neg Bool.false_ne_true] at hserves
    have hstored : ∀ pending : Bool, s.clearPending env uri = pending →
        s.SlotOk requested pending (some (.build handles)) := by
      rintro pending hpending cached ⟨⟩
      refine ⟨handles, h.requests _ (List.mem_of_getElem? hrequest), rfl, fun hfalse => ?_⟩
      rcases hserves with hcurrent | htrue
      · exact hcurrent
      · rw [hpending, hfalse] at htrue
        cases htrue
    unfold clearPending at hstored
    dsimp only [setSlot]
    split_ifs at hstored ⊢
    · exact ⟨h.tasks, hrequests, ⟨henv.issued, henv.older, henv.published, henv.unique,
        henv.builtins⟩, hworkspace.mono fun hp => ⟨hp, rfl, rfl⟩,
        (hstored _ rfl).mono fun hp => ⟨hp, rfl, rfl⟩⟩
    · exact ⟨h.tasks, hrequests, ⟨henv.issued, henv.older, henv.published, henv.unique,
        henv.builtins⟩, (hstored _ rfl).mono fun hp => ⟨hp, rfl, rfl⟩,
        hloose.mono fun hp => ⟨hp, rfl, rfl⟩⟩

/-- No stored task pends without clearing, whatever `index_base_scripts` finds. -/
lemma clears_indexBaseScripts (globals : Option (List Definition))
    (base legacy : List (FilePath × Option String)) :
    Clears (s.indexBaseScripts env globals base legacy) := by
  unfold indexBaseScripts
  dsimp only
  split_ifs
  · exact ⟨rfl, trivial⟩
  · cases globals <;> exact ⟨rfl, rfl, trivial⟩

/-- A task that has only started has no clear due. -/
lemma CacheInv.startBase (h : CacheInv builtins s requested) {task : BaseTask}
    (hclears : Clears task) : CacheInv builtins (s.startBase task) requested where
  tasks other hother := by
    rcases List.mem_append.mp hother with hold | hnew
    · exact h.tasks other hold
    · rw [List.mem_singleton.mp hnew]
      exact hclears
  requests := h.requests
  environments := ⟨h.environments.issued, h.environments.older, h.environments.published,
    h.environments.unique, h.environments.builtins⟩
  workspaceSlot := h.workspaceSlot.mono fun hp => by
    rw [Backend.startBase, List.any_append, Bool.or_eq_false_iff] at hp
    exact ⟨hp.1, rfl, rfl⟩
  looseSlot := h.looseSlot.mono fun hp => by
    rw [Backend.startBase, List.any_append, Bool.or_eq_false_iff] at hp
    exact ⟨hp.1, rfl, rfl⟩

theorem CacheInv.step (h : CacheInv builtins s requested) {e : Event}
    (hserves : s.SlotsCurrent env e) (hstep : s.step env builtins e = some s') :
    CacheInv builtins s' (requested ++ s.takesHandles env builtins e) := by
  cases e with
  | request uri =>
    cases hstep
    exact h.request uri
  | indexing event =>
    obtain ⟨indexing, -, rfl⟩ := Option.map_eq_some_iff.mp hstep
    simp only [takesHandles, List.append_nil]
    have henv := h.environments
    exact ⟨h.tasks, h.requests, ⟨henv.issued, henv.older, henv.published, henv.unique,
      henv.builtins⟩, h.workspaceSlot.mono fun hp => ⟨hp, rfl, rfl⟩,
      h.looseSlot.mono fun hp => ⟨hp, rfl, rfl⟩⟩
  | refreshLegacyOverrideMaps =>
    cases hstep
    simp only [takesHandles, List.append_nil]
    exact h.startBase trivial
  | indexBaseScripts globals base legacy =>
    simp only [Backend.step] at hstep
    split_ifs at hstep
    cases hstep
    simp only [takesHandles, List.append_nil]
    exact h.startBase (clears_indexBaseScripts globals base legacy)
  | advance i =>
    simp only [Backend.step] at hstep
    simp only [takesHandles, List.append_nil]
    cases htask : s.baseTasks[i]? with
    | none => simp [htask] at hstep
    | some task =>
      simp only [htask, Option.some.injEq, baseTasks_resume] at hstep
      subst hstep
      exact h.advance htask
  | complete i =>
    simp only [Backend.step] at hstep
    simp only [takesHandles, List.append_nil]
    cases hrequest : s.requests[i]? with
    | none => simp [hrequest] at hstep
    | some request =>
      simp only [hrequest, Option.some.injEq] at hstep
      subst hstep
      exact h.complete hrequest (hserves request hrequest)

lemma cacheInv_initial : CacheInv builtins {} [] where
  tasks _ hmem := by cases hmem
  requests _ hmem := by cases hmem
  environments := {
    issued := Nat.zero_lt_one
    older := fun _ hmem => absurd hmem List.not_mem_nil
    published := fun _ hmem => absurd hmem List.not_mem_nil
    unique := fun _ hmem => absurd hmem List.not_mem_nil
    builtins := fun _ hmem => absurd hmem List.not_mem_nil }
  workspaceSlot := slotOk_none
  looseSlot := slotOk_none

/-- The answer lists what the handles of the request list. -/
def AnswersExactly (env : Env) (s : Backend) (uri : Url) (handles : DbHandles) : Prop :=
  (s.mergedCompletionCache env uri handles).1.types = handles.mergedTypesCatalog ∧
    (s.mergedCompletionCache env uri handles).1.globals = handles.mergedGlobalCompletions

lemma CacheInv.answersExactly (h : CacheInv builtins s requested)
    (hcatalogs : SurfacesFixCatalogs requested) {uri : Url} {handles : DbHandles}
    (hmem : handles ∈ requested) (hserves : s.ServesCurrent env uri handles) :
    s.AnswersExactly env uri handles := by
  unfold AnswersExactly mergedCompletionCache
  cases hslot : (s.slot env uri).filter (·.matchesHandles handles) with
  | none => exact ⟨rfl, rfl⟩
  | some cached =>
    have hhit : s.hits env uri handles = true := by rw [hits, hslot]; rfl
    unfold ServesCurrent at hserves
    rw [hhit, if_pos rfl] at hserves
    obtain ⟨hcurrent, hpending⟩ := hserves
    obtain ⟨hcached, hmatches⟩ := Option.filter_eq_some_iff.mp hslot
    have hok : s.SlotOk requested (s.clearPending env uri) (s.slot env uri) := by
      unfold clearPending slot
      split_ifs
      · exact h.looseSlot
      · exact h.workspaceSlot
    obtain ⟨stored, hstored, rfl, hstoredCurrent⟩ := hok cached hcached
    have hfilter : stored.SameFilter handles :=
      ⟨(hstoredCurrent hpending).suppressed.trans hcurrent.suppressed.symm,
        (hstoredCurrent hpending).filtered.trans hcurrent.filtered.symm⟩
    simp only [MergedCompletionCache.matchesHandles, MergedCompletionCache.build,
      Bool.and_eq_true, beq_iff_eq] at hmatches
    obtain ⟨⟨hworkspace, hbase⟩, hversion⟩ := hmatches
    have hsurfaces := hcatalogs stored hstored handles hmem
    exact DbHandles.merged_congr (hsurfaces.1 hworkspace) (hsurfaces.2 hbase) hfilter
      (h.environments.unique stored hstored handles hmem hversion)
      ((h.environments.builtins stored hstored).trans (h.environments.builtins handles hmem).symm)

/-- Every request that the run completes is answered exactly. -/
def AnswersRequests (env : Env) (builtins : WorkspaceIndex) (es : List Event) : Prop :=
  ∀ pre i post s, es = pre ++ .complete i :: post → run (step env builtins) {} pre = some s →
    ∀ request ∈ s.requests[i]?, s.AnswersExactly env request.1 request.2

/-- In every run that serves its requests current, and whose surfaces fix their catalogs, the
cached types and globals are those that the handles of the request build. -/
theorem completions_exact (env : Env) (builtins : WorkspaceIndex) {es : List Event}
    (hserves : AllSteps (step env builtins) (SlotsCurrent env) {} es)
    (hcatalogs : SurfacesFixCatalogs (requestedHandles env builtins es)) :
    AnswersRequests env builtins es := by
  rintro pre i post s rfl hrun request hrequest
  have hinv : CacheInv builtins s (recordedBy (step env builtins) (takesHandles env builtins) {} pre) :=
    run_invariant_recorded (fun _ _ _ _ hinv hg hstep => hinv.step hg hstep) cacheInv_initial
      hserves.append_left hrun
  have hstep := (allSteps_cons.mp (hserves.append_right hrun)).1
  have hsubset : ∀ handles ∈ recordedBy (step env builtins) (takesHandles env builtins) {} pre,
      handles ∈ requestedHandles env builtins (pre ++ .complete i :: post) := fun handles hmem =>
    mem_recordedBy_append _ hmem
  refine hinv.answersExactly (fun h hmem h' hmem' => ?_)
    (hinv.requests request (List.mem_of_getElem? hrequest)) (hstep request hrequest)
  exact hcatalogs h (hsubset h hmem) h' (hsubset h' hmem')

/-- Two requests share an entry; a rebuild clears it in front of the third. -/
def requestsAroundRebuild : List Event :=
  indexedWithOverride ++ [.advance 0, .advance 0, .request "mods/scripts/a.ws", .complete 0,
    .request "mods/scripts/a.ws", .complete 0, .refreshLegacyOverrideMaps, .advance 0, .advance 0,
    .advance 0, .advance 0, .advance 0, .request "mods/scripts/a.ws", .complete 0]

theorem completions_exact_requestsAroundRebuild :
    AnswersRequests functionEnv {} requestsAroundRebuild :=
  completions_exact functionEnv {} (by decide) (by decide)

/-- A request takes its handles in front of the suppression of a base script and refills the slot
behind the clear. -/
def refilledAfterClear : List Event :=
  [.indexBaseScripts none [(["base", "scripts", "a.ws"], some "a")] [],
    .advance 0, .advance 0, .advance 0, .advance 0, .advance 0, .advance 0,
    .indexing (.didOpen "mods/scripts/a.ws" "m"), .indexing (.advance 1),
    .request "mods/scripts/a.ws", .refreshLegacyOverrideMaps, .advance 0, .advance 0, .advance 0,
    .advance 0, .advance 0, .complete 0, .request "mods/scripts/a.ws", .complete 0]

/-- The second of the two requests, which have the same indexes, is told of the function that is
suppressed by now. -/
theorem not_completions_exact_refilledAfterClear :
    ¬ ∀ (env : Env) (builtins : WorkspaceIndex) (es : List Event),
      DistinctSurfaces (requestedHandles env builtins es) → AnswersRequests env builtins es := by
  intro h
  have hdistinct : DistinctSurfaces (requestedHandles functionEnv {} refilledAfterClear) := by
    have hentries : ∀ h ∈ requestedHandles functionEnv {} refilledAfterClear,
        ∀ h' ∈ requestedHandles functionEnv {} refilledAfterClear,
        h.workspace.documents.entries = h'.workspace.documents.entries ∧
          h.base.documents.entries = h'.base.documents.entries := by
      decide
    intro h hmem h' hmem'
    obtain ⟨hworkspace, hbase⟩ := hentries h hmem h' hmem'
    constructor
    · intro _
      funext uri
      rw [WorkspaceIndex.surface, WorkspaceIndex.surface, AList.ext hworkspace]
    · intro _
      funext uri
      rw [WorkspaceIndex.surface, WorkspaceIndex.surface, AList.ext hbase]
  have hsplit : refilledAfterClear = refilledAfterClear.take 18 ++ [.complete 0] := rfl
  have hend : (run (step functionEnv {}) {} (refilledAfterClear.take 18)).map (fun s =>
      s.requests[0]?.map fun request =>
        (((s.mergedCompletionCache functionEnv request.1 request.2).1.globals).map (·.symbol.name),
          request.2.mergedGlobalCompletions.map (·.symbol.name))) =
      some (some (["m", "a"], ["m"])) := by
    decide
  obtain ⟨s, hrun, hs⟩ := Option.map_eq_some_iff.mp hend
  obtain ⟨request, hrequest, hnames⟩ := Option.map_eq_some_iff.mp hs
  have hexact := (h functionEnv {} refilledAfterClear hdistinct _ 0 [] s hsplit hrun
    request hrequest).2
  rw [hexact] at hnames
  have hlists := (Prod.mk.inj hnames).1.symm.trans (Prod.mk.inj hnames).2
  cases hlists

end Backend

end WitcherScriptLanguage
