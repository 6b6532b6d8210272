import WitcherScriptLanguage.Lsp.EditQueue

/-!
# The edit writer drains its queue

A change is queued and the writer is notified; the writer takes the queued edits round by round
until it finds none (`edit_queue.rs`). A change that arrives while its file is processed stays
queued for another round. Left alone, the writer comes to rest from every state it can be in,
and what was queued last for a file is then what is published of it.
-/

namespace WitcherScriptLanguage.Server

open Library

def Event.isWriter : Event → Bool
  | .wake | .collect _ | .take | .publish | .release => true
  | _ => false

/-- The pending edits of files that the round of the writer will not come to. -/
def unclaimed (s : Server) (claimed : List Url) : Nat :=
  s.pendingEdits.keys.countP fun uri => decide (uri ∉ claimed)

section

variable {s : Server} {uri : Url} {rest : List Url}

lemma unclaimed_nil : s.unclaimed [] = s.pendingEdits.keys.length := by
  unfold unclaimed
  rw [List.countP_eq_length]
  exact fun uri _ => decide_eq_true (List.not_mem_nil)

lemma unclaimed_of_perm {uris : List Url} (h : uris.Perm s.pendingEdits.keys) :
    s.unclaimed uris = 0 := by
  unfold unclaimed
  rw [List.countP_eq_zero]
  intro uri huri hunclaimed
  exact of_decide_eq_true hunclaimed (h.mem_iff.mpr huri)

lemma unclaimed_of_gone (h : s.pendingEdits.lookup uri = none) :
    s.unclaimed rest = s.unclaimed (uri :: rest) := by
  unfold unclaimed
  apply List.countP_congr
  intro other hother
  have hne : other ≠ uri := by
    intro heq
    rw [heq, ← AList.mem_keys] at hother
    exact AList.lookup_eq_none.mp h hother
  rw [decide_eq_true_iff, decide_eq_true_iff, List.mem_cons]
  simp only [hne, false_or]

lemma unclaimed_erase :
    ({ s with pendingEdits := s.pendingEdits.erase uri } : Server).unclaimed rest ≤
      s.unclaimed (uri :: rest) := by
  unfold unclaimed
  have hkeys : (s.pendingEdits.erase uri).keys = s.pendingEdits.keys.filter (· != uri) := by
    rw [AList.keys_erase]
    exact s.pendingEdits.nodupKeys.erase_eq_filter uri
  rw [hkeys, List.countP_filter]
  apply List.countP_mono_left
  intro other _ hother
  simp only [Bool.and_eq_true, decide_eq_true_eq, bne_iff_ne] at hother
  rw [decide_eq_true_iff, List.mem_cons]
  exact fun hmem => hmem.elim hother.2 hother.1

/-- A file is pending at most once. -/
lemma unclaimed_le_succ : s.unclaimed rest ≤ s.unclaimed (uri :: rest) + 1 := by
  have hcount : ∀ uris : List Url, (uris.countP fun u => decide (u ∉ rest)) ≤
      (uris.countP fun u => decide (u ∉ uri :: rest)) + uris.count uri := by
    intro uris
    induction uris with
    | nil => exact Nat.le_refl _
    | cons u uris ih =>
      have hhead : (if decide (u ∉ rest) = true then 1 else 0) ≤
          (if decide (u ∉ uri :: rest) = true then 1 else 0) + if u == uri then 1 else 0 := by
        by_cases hu : u = uri
        · simp only [hu, beq_self_eq_true, if_true]
          split_ifs <;> omega
        · simp [hu]
      rw [List.countP_cons, List.countP_cons, List.count_cons]
      omega
  have honce : s.pendingEdits.keys.count uri ≤ 1 :=
    List.nodup_iff_count_le_one.mp s.pendingEdits.nodupKeys uri
  have hle := hcount s.pendingEdits.keys
  unfold unclaimed
  omega

end

/-- Another edit of the file is queued. -/
def overtaken (s : Server) (uri : Url) (target : Nat) : Bool :=
  (s.pendingEdits.lookup uri).any fun current => current.targetParseVersion != target

/-- A bound on the steps of the writer. A pending edit costs a take, a publication and a release,
and at most two more steps for the rounds around them. -/
def work (s : Server) : Nat :=
  (if s.editNotify then 3 else 0) +
    match s.worker with
    | .asleep => 5 * s.unclaimed []
    | .collecting => 5 * s.unclaimed [] + 2
    | .next rest => 3 * rest.length + 5 * s.unclaimed rest + 3
    | .processing uri edit rest => 3 * rest.length + 5 * s.unclaimed (uri :: rest) + 5 +
        if s.overtaken uri edit.targetParseVersion then 5 else 0
    | .published uri target rest => 3 * rest.length + 5 * s.unclaimed (uri :: rest) + 4 +
        if s.overtaken uri target then 5 else 0

section

variable {env : Env} {s s' : Server}

lemma work_wake (h : s.step env .wake = some s') : s'.work < s.work := by
  unfold step at h
  cases hworker : s.worker with
  | asleep =>
    simp only [hworker] at h
    obtain ⟨hnotify, hs'⟩ := Option.ite_none_right_eq_some.mp h
    rw [Bool.and_eq_true] at hnotify
    rw [← Option.some.inj hs']
    have hsame : ({ s with worker := .collecting, editNotify := false } : Server).unclaimed [] =
        s.unclaimed [] := rfl
    simp only [work, hworker, hnotify.2, hsame, if_true, Bool.false_eq_true, if_false]
    omega
  | collecting | next | processing | published =>
    simp only [hworker] at h
    exact absurd h (Option.some_ne_none _).symm

lemma work_collect {uris : List Url} (h : s.step env (.collect uris) = some s') :
    s'.work < s.work := by
  unfold step at h
  cases hworker : s.worker with
  | collecting =>
    simp only [hworker] at h
    obtain ⟨hperm, hs'⟩ := Option.ite_none_right_eq_some.mp h
    have hperm := List.isPerm_iff.mp hperm
    have hlength := hperm.length_eq
    have hclaimed := unclaimed_of_perm hperm
    have hkeys := @unclaimed_nil s
    rw [← Option.some.inj hs']
    cases uris with
    | nil =>
      have hsame : ({ s with worker := .asleep } : Server).unclaimed [] = s.unclaimed [] := rfl
      simp only [List.isEmpty_nil, if_true, work, hworker, hsame]
      omega
    | cons uri rest =>
      have hsame : ({ s with worker := .next (uri :: rest) } : Server).unclaimed (uri :: rest) =
          s.unclaimed (uri :: rest) := rfl
      rw [List.length_cons] at hlength
      simp only [List.isEmpty_cons, Bool.false_eq_true, if_false, work, hworker, hsame, hclaimed,
        List.length_cons]
      omega
  | asleep | next | processing | published =>
    simp only [hworker] at h
    exact absurd h (Option.some_ne_none _).symm

lemma work_take (h : s.step env .take = some s') : s'.work < s.work := by
  unfold step at h
  cases hworker : s.worker with
  | next uris =>
    cases uris with
    | nil =>
      simp only [hworker] at h
      rw [← Option.some.inj h]
      have hsame : ({ s with worker := .collecting } : Server).unclaimed [] = s.unclaimed [] := rfl
      simp only [work, hworker, hsame, List.length_nil]
      omega
    | cons uri rest =>
      simp only [hworker] at h
      obtain ⟨-, hs'⟩ := Option.ite_none_left_eq_some.mp h
      cases hlookup : s.pendingEdits.lookup uri with
      | none =>
        rw [hlookup] at hs'
        rw [← Option.some.inj hs']
        have hsame : ({ s with worker := .next rest } : Server).unclaimed rest =
            s.unclaimed rest := rfl
        have hgone := @unclaimed_of_gone s uri rest hlookup
        simp only [work, hworker, hsame, List.length_cons]
        omega
      | some edit =>
        rw [hlookup] at hs'
        rw [← Option.some.inj hs']
        have hsame : ({ s with worker := .processing uri edit rest } : Server).unclaimed
            (uri :: rest) = s.unclaimed (uri :: rest) := rfl
        have hcurrent : ({ s with worker := .processing uri edit rest } : Server).overtaken uri
            edit.targetParseVersion = false := by
          unfold overtaken
          rw [hlookup, Option.any_some, bne_self_eq_false]
        simp only [work, hworker, hsame, hcurrent, List.length_cons, Bool.false_eq_true, if_false]
        omega
  | asleep | collecting | processing | published =>
    simp only [hworker] at h
    exact absurd h (Option.some_ne_none _).symm

lemma work_publish (h : s.step env .publish = some s') : s'.work < s.work := by
  unfold step at h
  cases hworker : s.worker with
  | processing uri edit rest =>
    simp only [hworker] at h
    rw [← Option.some.inj h]
    have hsame : ({ s with
        compilation := env.processPendingEdit s.compilation uri edit
        worker := .published uri edit.targetParseVersion rest } : Server).unclaimed (uri :: rest) =
        s.unclaimed (uri :: rest) := rfl
    have hovertaken : ({ s with
        compilation := env.processPendingEdit s.compilation uri edit
        worker := .published uri edit.targetParseVersion rest } : Server).overtaken uri
          edit.targetParseVersion = s.overtaken uri edit.targetParseVersion := rfl
    simp only [work, hworker, hsame, hovertaken]
    omega
  | asleep | collecting | next | published =>
    simp only [hworker] at h
    exact absurd h (Option.some_ne_none _).symm

lemma work_release (h : s.step env .release = some s') : s'.work < s.work := by
  unfold step at h
  cases hworker : s.worker with
  | published uri target rest =>
    simp only [hworker] at h
    have hkept : ({ s with worker := .next rest } : Server).unclaimed rest = s.unclaimed rest := rfl
    cases hlookup : s.pendingEdits.lookup uri with
    | none =>
      rw [hlookup] at h
      rw [← Option.some.inj h]
      have hgone := @unclaimed_of_gone s uri rest hlookup
      simp only [work, hworker, hkept]
      omega
    | some current =>
      rw [hlookup] at h
      by_cases htarget : current.targetParseVersion = target
      · simp only [if_pos htarget] at h
        rw [← Option.some.inj h]
        have herased : ({ s with
            worker := .next rest
            pendingEdits := s.pendingEdits.erase uri } : Server).unclaimed rest ≤
            s.unclaimed (uri :: rest) := unclaimed_erase
        simp only [work, hworker]
        omega
      · simp only [if_neg htarget] at h
        rw [← Option.some.inj h]
        -- The file is pending again and costs another round.
        have hovertaken : s.overtaken uri target = true := by
          unfold overtaken
          rw [hlookup, Option.any_some, bne_iff_ne]
          exact htarget
        have hsucc := @unclaimed_le_succ s uri rest
        simp only [work, hworker, hkept, hovertaken, if_true]
        omega
  | asleep | collecting | next | processing =>
    simp only [hworker] at h
    exact absurd h (Option.some_ne_none _).symm

/-- Every step of the writer takes from the work that is left. -/
lemma work_lt {e : Event} (hwriter : e.isWriter = true) (h : s.step env e = some s') :
    s'.work < s.work := by
  cases e with
  | wake => exact work_wake h
  | collect uris => exact work_collect h
  | take => exact work_take h
  | publish => exact work_publish h
  | release => exact work_release h
  | openBegin | openCommit | changeBegin | changeFinish | closeBegin | closeCheck | closeCommit
  | spawn => exact absurd hwriter Bool.false_ne_true

/-- The writer cannot go on for ever on its own. -/
lemma length_le_work {es : List Event} (hwriter : ∀ e ∈ es, e.isWriter = true)
    (h : run (step env) s es = some s') : es.length ≤ s.work := by
  induction es generalizing s with
  | nil => exact Nat.zero_le _
  | cons e es ih =>
    obtain ⟨mid, hmid, hrest⟩ := run_cons_eq_some h
    rw [List.forall_mem_cons] at hwriter
    have hlt := work_lt hwriter.1 hmid
    have hle := ih hwriter.2 hrest
    rw [List.length_cons]
    omega

/-- Whoever queues an edit has seen the writer spawned and wakes it. -/
structure Attended (s : Server) : Prop where
  spawned : s.pendingEdits ≠ ∅ → s.editWriterSpawned = true
  notified : s.worker = .asleep → s.pendingEdits ≠ ∅ → s.editNotify = true

lemma attended_start : Attended {} where
  spawned := fun h => absurd rfl h
  notified := fun _ h => absurd rfl h

/-- The writer goes to sleep on an empty queue only. -/
lemma pendingEdits_of_collect {uris : List Url} (h : s.step env (.collect uris) = some s')
    (hasleep : s'.worker = .asleep) : s'.pendingEdits = ∅ := by
  unfold step at h
  cases hworker : s.worker with
  | collecting =>
    simp only [hworker] at h
    obtain ⟨hperm, hs'⟩ := Option.ite_none_right_eq_some.mp h
    have hlength := (List.isPerm_iff.mp hperm).length_eq
    rw [← Option.some.inj hs'] at hasleep ⊢
    cases uris with
    | nil =>
      apply AList.ext
      have hkeys : s.pendingEdits.entries.length = 0 := by
        rw [List.length_nil] at hlength
        rw [hlength, AList.keys, List.keys, List.length_map]
      exact List.length_eq_zero_iff.mp hkeys
    | cons uri rest => exact Worker.noConfusion hasleep
  | asleep | next | processing | published =>
    simp only [hworker] at h
    exact absurd h (Option.some_ne_none _).symm

lemma Attended.step (h : Attended s) {e : Event} (hstep : s.step env e = some s') :
    Attended s' := by
  cases moves_of_step hstep with
  | changeQueued hchanging happly hspawned =>
    exact ⟨fun _ => hspawned, fun _ _ => rfl⟩
  | spawn => exact ⟨fun _ => rfl, h.notified⟩
  | collectNone hcollecting =>
    exact ⟨h.spawned, fun hasleep hpending =>
      absurd (pendingEdits_of_collect hstep hasleep) hpending⟩
  | release hpublished hlookup htarget =>
    constructor
    · intro _
      apply h.spawned
      intro hempty
      rw [hempty, AList.lookup_empty] at hlookup
      exact absurd hlookup (Option.some_ne_none _).symm
    · exact fun hasleep => Worker.noConfusion hasleep
  | wake | collect | takeNone | takeGone | take | publish | releaseKept =>
    exact ⟨h.spawned, fun hasleep => Worker.noConfusion hasleep⟩
  | openIgnored | openBegin | openCommit | changeIgnored | changeUnopened | changeBegin
  | changeOutOfRange | changeProcessed | changeReplaced | closeIgnored | closeLoose
  | closeExcluded | closeBegin | closeCheck | closeCommit => exact ⟨h.spawned, h.notified⟩

/-- A writer that cannot move sleeps over an empty queue. -/
lemma Attended.rests (h : Attended s) (hlock : s.handler.holdsTreeLock = false)
    (hstuck : ∀ e : Event, e.isWriter = true → s.step env e = none) :
    s.worker = .asleep ∧ s.pendingEdits = ∅ := by
  cases hworker : s.worker with
  | asleep =>
    refine ⟨rfl, ?_⟩
    by_contra hpending
    have hwake := hstuck .wake rfl
    simp only [Server.step, hworker, h.spawned hpending, h.notified hworker hpending,
      Bool.and_self, if_true] at hwake
    exact absurd hwake (Option.some_ne_none _)
  | collecting =>
    have hcollect := hstuck (.collect s.pendingEdits.keys) rfl
    have hperm : s.pendingEdits.keys.isPerm s.pendingEdits.keys = true :=
      List.isPerm_iff.mpr (List.Perm.refl _)
    simp only [Server.step, hworker, hperm, if_true] at hcollect
    exact absurd hcollect (Option.some_ne_none _)
  | next uris =>
    have htake := hstuck .take rfl
    cases uris with
    | nil =>
      simp only [Server.step, hworker] at htake
      exact absurd htake (Option.some_ne_none _)
    | cons uri rest =>
      simp only [Server.step, hworker, hlock, Bool.false_eq_true, if_false] at htake
      cases hlookup : s.pendingEdits.lookup uri <;> rw [hlookup] at htake <;>
        exact absurd htake (Option.some_ne_none _)
  | processing uri edit rest =>
    have hpublish := hstuck .publish rfl
    simp only [Server.step, hworker] at hpublish
    exact absurd hpublish (Option.some_ne_none _)
  | published uri target rest =>
    have hrelease := hstuck .release rfl
    simp only [Server.step, hworker] at hrelease
    cases hlookup : s.pendingEdits.lookup uri with
    | none =>
      rw [hlookup] at hrelease
      exact absurd hrelease (Option.some_ne_none _)
    | some current =>
      rw [hlookup] at hrelease
      simp only at hrelease
      split_ifs at hrelease

lemma stuck_of_asleep (hasleep : s.worker = .asleep) (hnotify : s.editNotify = false) :
    ∀ e : Event, e.isWriter = true → s.step env e = none := by
  intro e hwriter
  cases e with
  | wake => simp [Server.step, hasleep, hnotify]
  | collect uris => simp [Server.step, hasleep]
  | take => simp [Server.step, hasleep]
  | publish => simp [Server.step, hasleep]
  | release => simp [Server.step, hasleep]
  | openBegin | openCommit | changeBegin | changeFinish | closeBegin | closeCheck | closeCommit
  | spawn => exact absurd hwriter Bool.false_ne_true

/-! ### What the writer publishes -/

/-- The edit in work is the one that is queued, and no notification is changing a text. -/
structure Exclusive (s : Server) : Prop where
  processing : ∀ uri edit rest, s.worker = .processing uri edit rest →
    s.pendingEdits.lookup uri = some edit
  locked : s.worker.holdsTreeLock = true → s.handler.holdsTreeLock = false

lemma exclusive_start : Exclusive {} where
  processing := nofun
  locked := nofun

lemma Exclusive.step (h : Exclusive s) {e : Event} (hstep : s.step env e = some s') :
    Exclusive s' := by
  have hunlocked : ∀ {w : Worker}, (∀ uri edit rest, w ≠ .processing uri edit rest) →
      w.holdsTreeLock = false := by
    intro w hw
    cases w with
    | processing uri edit rest => exact absurd rfl (hw uri edit rest)
    | asleep | collecting | next | published => rfl
  have hidles : ∀ {t : Server}, t.worker.holdsTreeLock = false → Exclusive t := by
    intro t ht
    refine ⟨fun uri edit rest hworker => ?_, fun hlock => ?_⟩
    · rw [hworker] at ht
      exact absurd ht Bool.noConfusion
    · rw [ht] at hlock
      exact absurd hlock Bool.false_ne_true
  cases moves_of_step hstep with
  | openIgnored | changeIgnored | closeIgnored => exact h
  | openBegin | openCommit | changeUnopened | changeOutOfRange | changeProcessed | changeReplaced
  | closeLoose | closeExcluded | closeBegin | closeCheck | closeCommit | spawn =>
    exact ⟨h.processing, fun hlock => by first | rfl | exact h.locked hlock⟩
  | changeBegin _ hlock _ => exact hidles hlock
  | changeQueued hchanging _ _ =>
    apply hidles
    -- The notification holds the lock, so the writer does not.
    by_contra hlock
    have hfree := h.locked (by simpa using hlock)
    rw [hchanging] at hfree
    exact Bool.noConfusion hfree
  | wake | collectNone | collect | takeNone | takeGone | publish | releaseKept | release =>
    exact hidles (hunlocked nofun)
  | take hnext hlock hlookup =>
    refine ⟨fun uri edit rest hworker => ?_, fun _ => hlock⟩
    obtain ⟨rfl, rfl, rfl⟩ := Worker.processing.inj hworker
    exact hlookup

/-- What the writer has published of a file and not yet taken from the queue is still published. -/
def PublicationStands (s : Server) (uri : Url) : Prop :=
  ∀ target rest edit, s.worker = .published uri target rest →
    s.pendingEdits.lookup uri = some edit → edit.targetParseVersion = target →
    s.publishedText uri = some edit.source

/-- The steps of the writer keep the latest text of a file. -/
lemma delivers_step (hparse : ∀ text, (env.parse text).isSome) {uri : Url} {e : Event}
    (hwriter : e.isWriter = true) (h : Exclusive s) (hstands : s.PublicationStands uri)
    (hstep : s.step env e = some s') :
    s'.PublicationStands uri ∧ s'.latestEditState uri = s.latestEditState uri := by
  cases moves_of_step hstep with
  | wake | collectNone | collect | takeNone | takeGone | take =>
    exact ⟨fun _ _ _ hworker => Worker.noConfusion hworker, rfl⟩
  | publish hworker =>
    rename_i u edit rest
    have hpending := h.processing u edit rest hworker
    have htext := env.openText_processPendingEdit hparse s.compilation u uri edit
    constructor
    · intro target rest' current hpublished hcurrent _
      obtain ⟨rfl, -, -⟩ := Worker.published.inj hpublished
      have hsame : edit = current := Option.some.inj (hpending.symm.trans hcurrent)
      rw [← hsame]
      exact htext.trans (if_pos rfl)
    · by_cases hu : uri = u
      · subst hu
        simp only [latestEditState, hpending]
      · rw [if_neg hu] at htext
        simp only [latestEditState, publishedText, htext]
  | releaseKept hworker _ => exact ⟨fun _ _ _ hworker => Worker.noConfusion hworker, rfl⟩
  | release hworker hlookup htarget =>
    rename_i u target rest current
    refine ⟨fun _ _ _ hworker => Worker.noConfusion hworker, ?_⟩
    by_cases hu : uri = u
    · subst hu
      have hpublished := hstands target rest current hworker hlookup htarget
      simp only [latestEditState, AList.lookup_erase, hlookup]
      exact hpublished
    · simp only [latestEditState, AList.lookup_erase_ne hu]
      rfl
  | openIgnored | openBegin | openCommit | changeIgnored | changeUnopened | changeBegin
  | changeOutOfRange | changeProcessed | changeQueued | changeReplaced | closeIgnored | closeLoose
  | closeExcluded | closeBegin | closeCheck | closeCommit | spawn =>
    exact absurd hwriter Bool.false_ne_true

lemma handler_of_writer {e : Event} (hwriter : e.isWriter = true) (hstep : s.step env e = some s') :
    s'.handler = s.handler := by
  cases moves_of_step hstep with
  | wake | collectNone | collect | takeNone | takeGone | take | publish | releaseKept | release => rfl
  | openIgnored | openBegin | openCommit | changeIgnored | changeUnopened | changeBegin
  | changeOutOfRange | changeProcessed | changeQueued | changeReplaced | closeIgnored | closeLoose
  | closeExcluded | closeBegin | closeCheck | closeCommit | spawn =>
    exact absurd hwriter Bool.false_ne_true

/-- The run of the writer: attended, exclusive, and with the latest texts that it found. -/
lemma delivers_run (hparse : ∀ text, (env.parse text).isSome) {es : List Event}
    (hwriter : ∀ e ∈ es, e.isWriter = true) (hattended : Attended s) (hexclusive : Exclusive s)
    (h : run (step env) s es = some s') : Attended s' ∧ s'.handler = s.handler ∧
      ∀ uri, s.PublicationStands uri → s'.latestEditState uri = s.latestEditState uri := by
  induction es generalizing s with
  | nil =>
    cases h
    exact ⟨hattended, rfl, fun _ _ => rfl⟩
  | cons e es ih =>
    obtain ⟨mid, hmid, hrest⟩ := run_cons_eq_some h
    rw [List.forall_mem_cons] at hwriter
    obtain ⟨hlast, hhandler, hlatest⟩ :=
      ih hwriter.2 (hattended.step hmid) (hexclusive.step hmid) hrest
    refine ⟨hlast, hhandler.trans (handler_of_writer hwriter.1 hmid), fun uri hstands => ?_⟩
    have hnext := delivers_step hparse hwriter.1 hexclusive hstands hmid
    exact (hlatest uri hnext.1).trans hnext.2

/-- From every reachable state the writer makes at most as many steps on its own as the work that
is left. Where it can make none it sleeps over an empty queue, and what was the latest text of a
file is published, whether it was queued or not. -/
theorem edit_writer_drains (hparse : ∀ text, (env.parse text).isSome) {es es' : List Event}
    (h : run (step env) {} es = some s) (hwriter : ∀ e ∈ es', e.isWriter = true)
    (hrun : run (step env) s es' = some s') :
    es'.length ≤ s.work ∧
    ((∀ e : Event, e.isWriter = true → s'.step env e = none) →
      s.handler.holdsTreeLock = false →
      s'.worker = .asleep ∧ s'.pendingEdits = ∅ ∧
        ∀ uri, s.PublicationStands uri → s'.publishedText uri = s.latestEditState uri) := by
  have hattended : Attended s :=
    run_invariant (fun _ _ _ h _ hs => Attended.step h hs) attended_start
      (allSteps_of_forall (fun _ _ => trivial) _ _) h
  have hexclusive : Exclusive s :=
    run_invariant (fun _ _ _ h _ hs => Exclusive.step h hs) exclusive_start
      (allSteps_of_forall (fun _ _ => trivial) _ _) h
  refine ⟨length_le_work hwriter hrun, fun hstuck hlock => ?_⟩
  obtain ⟨hlast, hhandler, hlatest⟩ := delivers_run hparse hwriter hattended hexclusive hrun
  obtain ⟨hasleep, hempty⟩ := hlast.rests (hhandler ▸ hlock) hstuck
  refine ⟨hasleep, hempty, fun uri hstands => ?_⟩
  have hpublished : s'.latestEditState uri = s'.publishedText uri := by
    unfold latestEditState
    rw [hempty, AList.lookup_empty]
  rw [← hpublished, hlatest uri hstands]

end

/-- A change of an open document is queued. -/
def queuedEdit : List Event :=
  [.openBegin "a.ws" "0", .openCommit, .spawn, .changeBegin "a.ws" [⟨some ⟨⟨0, 1⟩, ⟨0, 1⟩⟩, "1"⟩],
    .changeFinish]

/-- The round of the writer that publishes it. -/
def oneRound : List Event :=
  [.wake, .collect ["a.ws"], .take, .publish, .release, .take, .collect []]

lemma queuedEdit_runs : (run (step (flatEnv noDirs)) {} queuedEdit).isSome = true := by decide

/-- The server with the edit in its queue. -/
def queuedServer : Server := (run (step (flatEnv noDirs)) {} queuedEdit).get queuedEdit_runs

/-- The text of the edit is published when the writer has come to rest. -/
theorem edit_writer_drains_queuedEdit :
    ∃ s', run (step (flatEnv noDirs)) queuedServer oneRound = some s' ∧
      oneRound.length ≤ queuedServer.work ∧ queuedServer.publishedText "a.ws" = some "0" ∧
      s'.publishedText "a.ws" = some "01" := by
  have hround : (run (step (flatEnv noDirs)) queuedServer oneRound).isSome = true := by decide
  have hdrains := edit_writer_drains (fun _ => rfl) (Option.some_get queuedEdit_runs).symm
    (by decide) (Option.some_get hround).symm
  have hrests := hdrains.2 (stuck_of_asleep rfl rfl) (by decide)
  refine ⟨_, (Option.some_get hround).symm, hdrains.1, by decide, ?_⟩
  exact (hrests.2.2 "a.ws" fun _ _ _ hworker => Worker.noConfusion hworker).trans
    (show queuedServer.latestEditState "a.ws" = some "01" by decide)

end WitcherScriptLanguage.Server
