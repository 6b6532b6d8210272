import WitcherScriptLanguage.Lsp.IndexingTasks
import WitcherScriptLanguage.Resolve.IndexWithout

/-!
# Batches of file events

`apply_watched_file_events` on a whole batch, against the same events handled one at a time. A
batch makes its updates before its removals. The order of its events counts for a file that the
batch both writes and removes, and for one that it writes under a deleted directory.
-/

namespace WitcherScriptLanguage

open Library

namespace Indexing

/-- A task taken to its end by itself, in at most so many accesses. -/
def finish (env : Env) : Nat → Indexing → IndexingTask → Indexing
  | 0, s, _ => s
  | fuel + 1, s, task =>
    match s.resume env task with
    | (s, none) => s
    | (s, some task) => finish env fuel s task

/-- `apply_watched_file_events` -/
def watchFilesAtOnce (env : Env) (s : Indexing) (events : List FileEvent) : Indexing :=
  finish env 3 s (.watching (env.openCanonical s.compilation) events)

/-- Every event as a batch of its own, in the order given. -/
def watchFilesInTurn (env : Env) (s : Indexing) (events : List FileEvent) : Indexing :=
  events.foldl (fun s event => watchFilesAtOnce env s [event]) s

lemma watchFilesInTurn_concat (env : Env) (s : Indexing) (events : List FileEvent)
    (event : FileEvent) : s.watchFilesInTurn env (events ++ [event]) =
      (s.watchFilesInTurn env events).watchFilesAtOnce env [event] := List.foldl_concat ..

end Indexing

/-- The compilation without its workspace index and the documents in it. -/
def Compilation.outsideWorkspace (c : Compilation) : Compilation :=
  { c with workspaceIndex := {}, workspaceDocuments := ∅ }

/-- The indexes of both states answer every lookup in the same way. -/
structure SameIndexes (s s' : Indexing) : Prop where
  index : SameIndex s.compilation.workspaceIndex s'.compilation.workspaceIndex
  documents : ∀ key, s.compilation.workspaceDocuments.lookup key =
    s'.compilation.workspaceDocuments.lookup key
  outside : s.compilation.outsideWorkspace = s'.compilation.outsideWorkspace
  knownFiles : ∀ key, key ∈ s.knownFiles ↔ key ∈ s'.knownFiles
  manifestLegacyDirs : s.manifestLegacyDirs = s'.manifestLegacyDirs

/-- What an event asks for a file. -/
inductive FileAct
  | writes
  | removes
  /-- The deletion of a directory above the file, which reaches the files indexed by then. -/
  | removesIndexed
  deriving DecidableEq

/-- Whether a batch takes the file out, if it is indexed before the batch or not. -/
def TakenOut (indexed : Prop) (acts : List FileAct) : Prop :=
  .removes ∈ acts ∨ .removesIndexed ∈ acts ∧ indexed

/-- Whether the file is out after its events one at a time. -/
def OutInTurn (indexed : Prop) (acts : List FileAct) : Prop :=
  if .writes ∈ acts then acts.getLast? ≠ some .writes else TakenOut indexed acts

instance (indexed : Prop) [Decidable indexed] (acts : List FileAct) :
    Decidable (TakenOut indexed acts) := inferInstanceAs (Decidable (_ ∨ _ ∧ _))

instance (indexed : Prop) [Decidable indexed] (acts : List FileAct) :
    Decidable (OutInTurn indexed acts) := inferInstanceAs (Decidable (ite _ _ _))

namespace Env

variable (env : Env)

def actOn (openCanonical : List String) (key : String) (event : FileEvent) : Option FileAct :=
  if env.eventIsManifest event then none
  else match env.classifyWatchedEvent event openCanonical with
    | none => none
    | some (.upsert canonical diskText) =>
      if canonical = key ∧ (diskText.bind env.parse).isSome then some .writes else none
    | some (.remove canonical) => if canonical = key then some .removes else none
    | some (.removeTree path) =>
      if env.anyDirContainsUri key [path] && !openCanonical.contains key then
        some .removesIndexed
      else none

def actsOn (openCanonical : List String) (key : String) (events : List FileEvent) : List FileAct :=
  events.filterMap (env.actOn openCanonical key)

/-- Whether the server has the file in its workspace. -/
def IsIndexed (s : Indexing) (key : String) : Prop :=
  key ∈ s.knownFiles ∨ key ∈ s.compilation.workspaceDocuments

instance (s : Indexing) (key : String) : Decidable (IsIndexed s key) :=
  inferInstanceAs (Decidable (_ ∨ _))

/-- A file that the batch writes is taken out by the batch exactly where the last of the events
on the file does not write it. -/
def KeepsOrder (s : Indexing) (events : List FileEvent) : Prop :=
  ∀ key, .writes ∈ env.actsOn (env.openCanonical s.compilation) key events →
    (TakenOut (IsIndexed s key) (env.actsOn (env.openCanonical s.compilation) key events) ↔
      (env.actsOn (env.openCanonical s.compilation) key events).getLast? ≠ some .writes)

end Env

section Acts

variable {indexed : Prop} {acts : List FileAct}

/-- One more event on the file. -/
lemma outInTurn_append (act : FileAct) : OutInTurn indexed (acts ++ [act]) ↔
    match act with
    | .writes => False
    | .removes => True
    | .removesIndexed => OutInTurn indexed acts ∨ .writes ∈ acts ∨ indexed := by
  have hlast : (acts ++ [act]).getLast? = some act := List.getLast?_concat
  rw [OutInTurn, hlast]
  cases act with
  | writes => simp
  | removes => simp [TakenOut]
  | removesIndexed =>
    by_cases hwrites : FileAct.writes ∈ acts
    · simp [hwrites]
    · simp only [OutInTurn, TakenOut, hwrites, List.mem_append, List.mem_singleton, reduceCtorEq,
        or_false, or_true, if_false, false_or, true_and]
      tauto

/-- The batch and the single events agree on the files that the batch does not write. -/
lemma takenOut_iff_outInTurn : (TakenOut indexed acts ↔ OutInTurn indexed acts) ↔
    (.writes ∈ acts → (TakenOut indexed acts ↔ acts.getLast? ≠ some .writes)) := by
  rw [OutInTurn]
  split_ifs with hwrites
  · exact ⟨fun h _ => h, fun h => h hwrites⟩
  · exact ⟨fun _ h => absurd h hwrites, fun _ => Iff.rfl⟩

end Acts

namespace Env

variable {env : Env} {openCanonical : List String} {events : List FileEvent} {event : FileEvent}
  {key : String} {batch : WatchedBatch}

/-- What the events amount to, without those of manifests. -/
def readEvents (env : Env) (openCanonical : List String) (events : List FileEvent) :
    WatchedBatch :=
  (events.filter fun event => !env.eventIsManifest event).foldl
    (env.readWatchedEvent openCanonical) {}

/-- The files below the directories, without the open ones. -/
def underTrees (env : Env) (openCanonical : List String) (treeDirs : List FilePath)
    (key : String) : Bool :=
  env.anyDirContainsUri key treeDirs && !openCanonical.contains key

lemma mem_removalsForDeletedTrees {s : Indexing} {treeDirs : List FilePath} :
    key ∈ env.removalsForDeletedTrees s.compilation s.knownFiles treeDirs openCanonical ↔
      env.underTrees openCanonical treeDirs key ∧ IsIndexed s key := by
  have hkeys : key ∈ s.compilation.workspaceDocuments ↔
      key ∈ s.compilation.workspaceDocuments.keys := Iff.rfl
  rw [removalsForDeletedTrees, List.mem_dedup, List.mem_append, List.mem_filter, List.mem_filter,
    IsIndexed, underTrees, hkeys]
  tauto

lemma anyDirContainsUri_append (dirs dirs' : List FilePath) :
    env.anyDirContainsUri key (dirs ++ dirs') =
      (env.anyDirContainsUri key dirs || env.anyDirContainsUri key dirs') := by
  unfold anyDirContainsUri
  cases env.urls.toFilePath key with
  | none => rfl
  | some path => exact List.any_append

/-- What the batch holds about one file. -/
structure Holds (env : Env) (openCanonical : List String) (key : String) (batch : WatchedBatch)
    (acts : List FileAct) : Prop where
  writes : key ∈ batch.updates.map Prod.fst ↔ .writes ∈ acts
  removes : key ∈ batch.removals ↔ .removes ∈ acts
  removesIndexed : env.underTrees openCanonical batch.treeDirs key = true ↔ .removesIndexed ∈ acts

lemma holds_empty : env.Holds openCanonical key {} [] := by
  refine ⟨by simp, by simp, ?_⟩
  have hnone : env.anyDirContainsUri key [] = false := by
    unfold anyDirContainsUri
    cases env.urls.toFilePath key <;> rfl
  simp [underTrees, hnone]

/-- One event more. -/
lemma Holds.readWatchedEvent {acts : List FileAct} (h : env.Holds openCanonical key batch acts)
    (hscript : env.eventIsManifest event = false) :
    env.Holds openCanonical key (env.readWatchedEvent openCanonical batch event)
      (acts ++ (env.actOn openCanonical key event).toList) := by
  obtain ⟨hwrites, hremoves, htrees⟩ := h
  rw [actOn, hscript, if_neg Bool.false_ne_true, Env.readWatchedEvent]
  rcases env.classifyWatchedEvent event openCanonical with
    _ | ⟨canonical, diskText⟩ | canonical | path
  · simpa using ⟨hwrites, hremoves, htrees⟩
  · dsimp only
    cases diskText.bind env.parse with
    | none => simpa using ⟨hwrites, hremoves, htrees⟩
    | some document =>
      by_cases hkey : canonical = key
      · exact ⟨by simp [hkey], by simp [hkey, hremoves], by simp [hkey, htrees]⟩
      · refine ⟨?_, by simp [hkey, hremoves], by simp [hkey, htrees]⟩
        simp [hkey, ← hwrites, Ne.symm hkey]
  · dsimp only
    by_cases hkey : canonical = key
    · exact ⟨by simp [hkey, hwrites], by simp [hkey], by simp [hkey, htrees]⟩
    · exact ⟨by simp [hkey, hwrites], by simp [hkey, hremoves, Ne.symm hkey],
        by simp [hkey, htrees]⟩
  · dsimp only
    have hunder : env.underTrees openCanonical (batch.treeDirs ++ [path]) key =
        (env.underTrees openCanonical batch.treeDirs key ||
          (env.anyDirContainsUri key [path] && !openCanonical.contains key)) := by
      rw [underTrees, underTrees, anyDirContainsUri_append, Bool.and_or_distrib_right]
    refine ⟨?_, ?_, ?_⟩
    · split_ifs <;> simp [hwrites]
    · split_ifs <;> simp [hremoves]
    · rw [hunder, Bool.or_eq_true, htrees]
      split_ifs with hpath
      · simp only [hpath, or_true, Option.toList_some, List.mem_append, List.mem_singleton]
      · simp only [hpath, Bool.false_eq_true, or_false, Option.toList_none, List.append_nil]

lemma holds_readEvents (env : Env) (openCanonical : List String) (key : String)
    (events : List FileEvent) : env.Holds openCanonical key (env.readEvents openCanonical events)
      (env.actsOn openCanonical key events) := by
  induction events using List.reverseRecOn with
  | nil => exact holds_empty
  | append_singleton events event ih =>
    rw [readEvents, actsOn, List.filter_append, List.foldl_append, List.filterMap_append,
      ← readEvents, ← actsOn]
    cases hmanifest : env.eventIsManifest event with
    | true => simpa [hmanifest, actOn] using ih
    | false =>
      have hnext := ih.readWatchedEvent hmanifest
      cases hact : env.actOn openCanonical key event <;> simpa [hmanifest, hact] using hnext

end Env

/-! ### The state behind the events -/

namespace Indexing

variable {env : Env} {s₀ s : Indexing} {gone : String → Bool} {written : List DiskFile}

/-- The publication of a batch. -/
def takeBatch (env : Env) (s : Indexing) (updates : List DiskFile) (removals : List String) :
    Indexing :=
  { s with
    compilation := env.commitWatched s.compilation updates removals
    knownFiles := (updates.map Prod.fst ++ s.knownFiles).filter (!removals.contains ·) }

/-- The files that a batch takes out. -/
def removalsAtOnce (env : Env) (s : Indexing) (events : List FileEvent) : List String :=
  (env.readEvents (env.openCanonical s.compilation) events).removals ++
    env.removalsForDeletedTrees s.compilation s.knownFiles
      (env.readEvents (env.openCanonical s.compilation) events).treeDirs
      (env.openCanonical s.compilation)

lemma watchFilesAtOnce_eq (env : Env) (s : Indexing) (events : List FileEvent) :
    s.watchFilesAtOnce env events =
      { s.takeBatch env (env.readEvents (env.openCanonical s.compilation) events).updates
          (s.removalsAtOnce env events) with
        manifestLegacyDirs := (events.filter env.eventIsManifest).foldl env.applyManifestEvent
          s.manifestLegacyDirs } := by
  unfold watchFilesAtOnce
  rw [finish, resume, List.partition_eq_filter_filter]
  rfl

/-- The state after writes and removals: the files written since the start are there, but for
those that are gone. -/
structure Reached (env : Env) (s₀ : Indexing) (gone : String → Bool) (written : List DiskFile)
    (s : Indexing) : Prop where
  index : Without gone (env.updateAll s₀.compilation.workspaceIndex written)
    s.compilation.workspaceIndex
  residue : s.compilation.workspaceIndex.hashResidue = s₀.compilation.workspaceIndex.hashResidue
  documents : ∀ key, s.compilation.workspaceDocuments.lookup key =
    if gone key then none
    else (Env.latest written key).or (s₀.compilation.workspaceDocuments.lookup key)
  knownFiles : ∀ key, key ∈ s.knownFiles ↔
    gone key = false ∧ (key ∈ written.map Prod.fst ∨ key ∈ s₀.knownFiles)
  outside : s.compilation.outsideWorkspace = s₀.compilation.outsideWorkspace

lemma reached_start (env : Env) (s : Indexing) : Reached env s (fun _ => false) [] s where
  index := Without.refl _
  residue := rfl
  documents _ := rfl
  knownFiles key := by simp
  outside := rfl

lemma latest_append (files files' : List DiskFile) (key : String) :
    Env.latest (files ++ files') key = (Env.latest files' key).or (Env.latest files key) := by
  induction files with
  | nil => simp [Env.latest]
  | cons file files ih => rw [List.cons_append, Env.latest, Env.latest, ih, Option.or_assoc]

lemma isSome_latest (files : List DiskFile) (key : String) :
    (Env.latest files key).isSome ↔ key ∈ files.map Prod.fst := by
  induction files with
  | nil => simp [Env.latest]
  | cons file files ih =>
    rw [Env.latest, Option.isSome_or, Bool.or_eq_true, ih, List.map_cons, List.mem_cons]
    by_cases hkey : file.1 = key
    · simp [hkey]
    · simp [hkey, Ne.symm hkey]

variable {ix ix' : WorkspaceIndex}

lemma without_updateAll (updates : List DiskFile) {gone : String → Bool} (h : Without gone ix ix') :
    Without (fun u => gone u && decide (u ∉ updates.map Prod.fst)) (env.updateAll ix updates)
      (env.updateAll ix' updates) := by
  induction updates using List.reverseRecOn with
  | nil => simpa [Env.updateAll] using h
  | append_singleton updates file ih =>
    have hnext := ih.updateDocument env.hasher file.1 file.2
    have hgone : (fun u => gone u && decide (u ∉ (updates ++ [file]).map Prod.fst)) =
        fun u => (gone u && decide (u ∉ updates.map Prod.fst)) && decide (u ≠ file.1) := by
      funext u
      have hmem : u ∈ (updates ++ [file]).map Prod.fst ↔
          u ∈ updates.map Prod.fst ∨ u = file.1 := by
        rw [List.map_append, List.mem_append, List.map_singleton, List.mem_singleton]
      rw [Bool.and_assoc, ← Bool.decide_and]
      congr 1
      rw [decide_eq_decide, hmem, not_or]
    rw [hgone, Env.updateAll, Env.updateAll, List.foldl_append, List.foldl_append]
    exact hnext

lemma without_removeAll (removals : List String) {gone : String → Bool} (h : Without gone ix ix') :
    Without (fun u => gone u || decide (u ∈ removals)) ix (Env.removeAll ix' removals) := by
  induction removals using List.reverseRecOn with
  | nil => simpa [Env.removeAll] using h
  | append_singleton removals uri ih =>
    have hnext := ih.removeDocument uri
    have hgone : (fun u => gone u || decide (u ∈ removals ++ [uri])) =
        fun u => (gone u || decide (u ∈ removals)) || decide (u = uri) := by
      funext u
      simp [Bool.or_assoc]
    rw [hgone, Env.removeAll, List.foldl_append]
    exact hnext

lemma hashResidue_updateAll (index : WorkspaceIndex) (updates : List DiskFile) :
    (env.updateAll index updates).hashResidue = index.hashResidue := by
  induction updates using List.reverseRecOn with
  | nil => rfl
  | append_singleton updates file ih =>
    rw [Env.updateAll, List.foldl_append]
    exact (WorkspaceIndex.hashResidue_updateDocument _ _ _ _).trans ih

lemma hashResidue_removeAll (index : WorkspaceIndex) (removals : List String) :
    (Env.removeAll index removals).hashResidue = index.hashResidue := by
  induction removals using List.reverseRecOn with
  | nil => rfl
  | append_singleton removals uri ih =>
    rw [Env.removeAll, List.foldl_append]
    exact (WorkspaceIndex.hashResidue_removeDocument _ _).trans ih

/-- The step: a batch puts back what it writes, and takes away what it removes. -/
lemma Reached.takeBatch (h : Reached env s₀ gone written s) (updates : List DiskFile)
    (removals : List String) : Reached env s₀
      (fun u => (gone u && decide (u ∉ updates.map Prod.fst)) || decide (u ∈ removals))
      (written ++ updates) (s.takeBatch env updates removals) where
  index := by
    have hupdated : Without (fun u => gone u && decide (u ∉ updates.map Prod.fst))
        (env.updateAll (env.updateAll s₀.compilation.workspaceIndex written) updates)
        (env.updateAll s.compilation.workspaceIndex updates) := without_updateAll updates h.index
    have hindex := without_removeAll removals hupdated
    rw [Env.updateAll, Env.updateAll, ← List.foldl_append] at hindex
    exact hindex
  residue := by
    have hremoved := hashResidue_removeAll (env.updateAll s.compilation.workspaceIndex updates)
      removals
    exact hremoved.trans ((hashResidue_updateAll _ _).trans h.residue)
  documents key := by
    have hsome := isSome_latest updates key
    have hlookup : (s.takeBatch env updates removals).compilation.workspaceDocuments.lookup key =
        if key ∈ removals then none
        else (Env.latest updates key).or (s.compilation.workspaceDocuments.lookup key) := by
      rw [Indexing.takeBatch, Env.commitWatched, Env.lookup_eraseAll, Env.lookup_insertAll]
    rw [hlookup, h.documents, latest_append]
    by_cases hremoved : key ∈ removals
    · simp [hremoved]
    · cases hlatest : Env.latest updates key with
      | some document =>
        rw [hlatest] at hsome
        have hmem : key ∈ updates.map Prod.fst := hsome.mp rfl
        rw [if_neg hremoved, decide_eq_false hremoved, decide_eq_false (not_not.mpr hmem),
          Bool.and_false, Bool.or_false, if_neg Bool.false_ne_true]
        rfl
      | none =>
        rw [hlatest] at hsome
        have hmem : key ∉ updates.map Prod.fst := fun hmem =>
          absurd (hsome.mpr hmem) Bool.false_ne_true
        rw [if_neg hremoved, decide_eq_false hremoved, decide_eq_true hmem, Bool.and_true,
          Bool.or_false]
        rfl
  knownFiles key := by
    have hknown := h.knownFiles key
    simp only [Indexing.takeBatch, List.mem_filter, List.mem_append, hknown, List.map_append,
      Bool.not_eq_true', List.contains_eq_mem, decide_eq_false_iff_not, Bool.or_eq_false_iff,
      Bool.and_eq_false_iff, not_not]
    tauto
  outside := h.outside

/-- The files that are gone, and where the written ones come from. -/
structure Accounted (env : Env) (s₀ : Indexing) (out : String → Prop) (events : List FileEvent)
    (s : Indexing) : Prop where
  reached : ∃ gone : String → Bool, (∀ key, gone key = true ↔ out key) ∧ Reached env s₀ gone
    (env.readEvents (env.openCanonical s₀.compilation) events).updates s
  manifestLegacyDirs : s.manifestLegacyDirs = (events.filter env.eventIsManifest).foldl
    env.applyManifestEvent s₀.manifestLegacyDirs

lemma mem_removalsAtOnce {env : Env} {s : Indexing} {events : List FileEvent} {key : String} :
    key ∈ s.removalsAtOnce env events ↔ TakenOut (Env.IsIndexed s key)
      (env.actsOn (env.openCanonical s.compilation) key events) := by
  have hholds := Env.holds_readEvents env (env.openCanonical s.compilation) key events
  rw [removalsAtOnce, List.mem_append, Env.mem_removalsForDeletedTrees, hholds.removes,
    hholds.removesIndexed, TakenOut]

lemma accounted_watchFilesAtOnce (env : Env) (s : Indexing) (events : List FileEvent) :
    Accounted env s (fun key => TakenOut (Env.IsIndexed s key)
      (env.actsOn (env.openCanonical s.compilation) key events)) events
      (s.watchFilesAtOnce env events) := by
  rw [watchFilesAtOnce_eq]
  obtain ⟨hindex, hresidue, hdocuments, hknown, houtside⟩ := (reached_start env s).takeBatch
    (env.readEvents (env.openCanonical s.compilation) events).updates
    (s.removalsAtOnce env events)
  refine ⟨⟨_, fun key => ?_, ⟨hindex, hresidue, hdocuments, hknown, houtside⟩⟩, rfl⟩
  rw [Bool.false_and, Bool.false_or, decide_eq_true_iff, mem_removalsAtOnce]

lemma openCanonical_eq (h : s.compilation.outsideWorkspace = s₀.compilation.outsideWorkspace) :
    env.openCanonical s.compilation = env.openCanonical s₀.compilation := by
  have hdocuments := congrArg (fun c : Compilation => c.documents) h
  exact congrArg (fun documents : DocumentMap => documents.keys.map env.canonicalUri) hdocuments

lemma updates_readEvents_append (env : Env) (openCanonical : List String)
    (events : List FileEvent) (event : FileEvent) :
    (env.readEvents openCanonical (events ++ [event])).updates =
      (env.readEvents openCanonical events).updates ++
        (env.readEvents openCanonical [event]).updates := by
  have hread : ∀ batch : WatchedBatch, (env.readWatchedEvent openCanonical batch event).updates =
      batch.updates ++ (env.readWatchedEvent openCanonical {} event).updates := by
    intro batch
    unfold Env.readWatchedEvent
    rcases env.classifyWatchedEvent event openCanonical with
      _ | ⟨canonical, diskText⟩ | canonical | path
    · simp
    · dsimp only
      cases diskText.bind env.parse <;> simp
    · simp
    · simp
  rw [Env.readEvents, Env.readEvents, Env.readEvents, List.filter_append, List.foldl_append]
  cases hmanifest : env.eventIsManifest event with
  | true => simp [hmanifest]
  | false => simpa [hmanifest] using hread _

lemma Reached.isIndexed (h : Reached env s₀ gone written s) (key : String) :
    Env.IsIndexed s key ↔
      gone key = false ∧ (key ∈ written.map Prod.fst ∨ Env.IsIndexed s₀ key) := by
  have hmem : key ∈ s.compilation.workspaceDocuments ↔ gone key = false ∧
      (key ∈ written.map Prod.fst ∨ key ∈ s₀.compilation.workspaceDocuments) := by
    rw [← AList.lookup_isSome, ← AList.lookup_isSome, h.documents, ← isSome_latest]
    cases gone key <;> simp
  rw [Env.IsIndexed, Env.IsIndexed, hmem, h.knownFiles]
  tauto

/-- One event more, by itself: the files that it takes out are those that are gone behind it. -/
lemma outInTurn_concat {t : Indexing} {events : List FileEvent} (event : FileEvent) {key : String}
    (hopen : env.openCanonical t.compilation = env.openCanonical s.compilation)
    (hindexed : Env.IsIndexed t key ↔
      ¬ OutInTurn (Env.IsIndexed s key) (env.actsOn (env.openCanonical s.compilation) key events) ∧
        (.writes ∈ env.actsOn (env.openCanonical s.compilation) key events ∨
          Env.IsIndexed s key)) :
    OutInTurn (Env.IsIndexed s key)
        (env.actsOn (env.openCanonical s.compilation) key (events ++ [event])) ↔
      OutInTurn (Env.IsIndexed s key) (env.actsOn (env.openCanonical s.compilation) key events) ∧
        key ∉ (env.readEvents (env.openCanonical s.compilation) [event]).updates.map Prod.fst ∨
      key ∈ t.removalsAtOnce env [event] := by
  have hevent := Env.holds_readEvents env (env.openCanonical s.compilation) key [event]
  have hacts : env.actsOn (env.openCanonical s.compilation) key [event] =
      (env.actOn (env.openCanonical s.compilation) key event).toList := by
    rw [Env.actsOn, List.filterMap_cons]
    cases env.actOn (env.openCanonical s.compilation) key event <;> rfl
  have happend : env.actsOn (env.openCanonical s.compilation) key (events ++ [event]) =
      env.actsOn (env.openCanonical s.compilation) key events ++
        (env.actOn (env.openCanonical s.compilation) key event).toList :=
    List.filterMap_append.trans (congrArg _ hacts)
  rw [mem_removalsAtOnce, hopen, TakenOut, hindexed, hevent.writes, hacts, happend]
  cases env.actOn (env.openCanonical s.compilation) key event with
  | none => simp
  | some act =>
    rw [Option.toList_some, outInTurn_append]
    cases act with
    | writes => simp
    | removes => simp
    | removesIndexed =>
      simp only [List.mem_singleton, reduceCtorEq, not_false_eq_true, and_true, false_or,
        true_and]
      tauto

/-- The run: by induction on the events, the last one first. -/
lemma accounted_watchFilesInTurn (env : Env) (s : Indexing) (events : List FileEvent) :
    Accounted env s (fun key => OutInTurn (Env.IsIndexed s key)
      (env.actsOn (env.openCanonical s.compilation) key events)) events
      (s.watchFilesInTurn env events) := by
  induction events using List.reverseRecOn with
  | nil =>
    refine ⟨⟨_, fun key => ?_, reached_start env s⟩, rfl⟩
    simp [OutInTurn, TakenOut, Env.actsOn]
  | append_singleton events event ih =>
    obtain ⟨⟨gone, hgone, hreached⟩, hdirs⟩ := ih
    have hopen : env.openCanonical (s.watchFilesInTurn env events).compilation =
        env.openCanonical s.compilation := openCanonical_eq hreached.outside
    rw [watchFilesInTurn_concat, watchFilesAtOnce_eq, hopen]
    obtain ⟨hindex, hresidue, hdocuments, hknown, houtside⟩ := hreached.takeBatch
      (env.readEvents (env.openCanonical s.compilation) [event]).updates
      ((s.watchFilesInTurn env events).removalsAtOnce env [event])
    rw [← updates_readEvents_append] at hindex hdocuments hknown
    refine ⟨⟨_, fun key => ?_, ⟨hindex, hresidue, hdocuments, hknown, houtside⟩⟩, ?_⟩
    · have hholds := Env.holds_readEvents env (env.openCanonical s.compilation) key events
      have hindexed := hreached.isIndexed key
      rw [hholds.writes, ← Bool.not_eq_true, hgone] at hindexed
      rw [Bool.or_eq_true, Bool.and_eq_true, hgone, decide_eq_true_iff, decide_eq_true_iff]
      exact (outInTurn_concat event hopen hindexed).symm
    · rw [List.filter_append, List.foldl_append, ← hdirs]

lemma Accounted.sameIndexes {out out' : String → Prop} {events : List FileEvent} {s' : Indexing}
    (h : Accounted env s₀ out events s) (h' : Accounted env s₀ out' events s')
    (hout : ∀ key, out key ↔ out' key)
    (hcatalog : s.compilation.workspaceIndex.completionCatalog.Alike
      s'.compilation.workspaceIndex.completionCatalog)
    (hdirty : s.compilation.workspaceIndex.completionCatalogDirty =
      s'.compilation.workspaceIndex.completionCatalogDirty)
    (hsuppressed : s.compilation.workspaceIndex.catalogRebuildSuppressed =
      s'.compilation.workspaceIndex.catalogRebuildSuppressed) : SameIndexes s s' := by
  obtain ⟨⟨gone, hgone, hreached⟩, hdirs⟩ := h
  obtain ⟨⟨gone', hgone', hreached'⟩, hdirs'⟩ := h'
  have hsame : gone' = gone := by
    funext key
    rw [Bool.eq_iff_iff, hgone, hgone', hout]
  subst hsame
  exact {
    index := hreached.index.sameIndex hreached'.index
      (hreached.residue.trans hreached'.residue.symm) hcatalog hdirty hsuppressed
    documents := fun key => by rw [hreached.documents, hreached'.documents]
    outside := hreached.outside.trans hreached'.outside.symm
    knownFiles := fun key => by rw [hreached.knownFiles, hreached'.knownFiles]
    manifestLegacyDirs := hdirs.trans hdirs'.symm }

/-- A file that the events write is out of the documents exactly where it is gone. -/
lemma Accounted.out_iff {out : String → Prop} {events : List FileEvent} {key : String}
    (h : Accounted env s₀ out events s)
    (hwrites : .writes ∈ env.actsOn (env.openCanonical s₀.compilation) key events) :
    out key ↔ s.compilation.workspaceDocuments.lookup key = none := by
  obtain ⟨⟨gone, hgone, hreached⟩, -⟩ := h
  have hholds := Env.holds_readEvents env (env.openCanonical s₀.compilation) key events
  have hsome := (isSome_latest _ key).mpr (hholds.writes.mpr hwrites)
  rw [← hgone, hreached.documents]
  cases gone key with
  | true => simp
  | false =>
    rw [if_neg Bool.false_ne_true, Option.or_eq_none_iff]
    refine ⟨fun h => absurd h Bool.false_ne_true, fun h => ?_⟩
    rw [h.1] at hsome
    exact absurd hsome Bool.false_ne_true

/-- Where the documents agree, the batch keeps the order of its events on the files it writes. -/
lemma keepsOrder_of_documents {events : List FileEvent}
    (hsame : ∀ key, (s.watchFilesAtOnce env events).compilation.workspaceDocuments.lookup key =
      (s.watchFilesInTurn env events).compilation.workspaceDocuments.lookup key) :
    env.KeepsOrder s events := by
  have hbatch := accounted_watchFilesAtOnce env s events
  have hturn := accounted_watchFilesInTurn env s events
  intro key
  rw [← takenOut_iff_outInTurn]
  by_cases hwrites : .writes ∈ env.actsOn (env.openCanonical s.compilation) key events
  · rw [hbatch.out_iff hwrites, hturn.out_iff hwrites, hsame]
  · exact takenOut_iff_outInTurn.mpr fun h => absurd h hwrites

end Indexing

end WitcherScriptLanguage
