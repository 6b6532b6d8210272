import WitcherScriptLanguage.Lsp.ConsistentView

/-!
# Closed documents stay closed

A document that is closed while the queue holds no unpublished edit of it stays out of the open
documents until it is opened again, and the index keeps the contribution of the text that the
disk had at the close. The invariant links the queue, the writer and the notification in progress
to the view of the file.
-/

namespace WitcherScriptLanguage

open Library

namespace Server

def view (env : Env) (s : Server) (uri : Url) : FileView := env.view s.compilation uri

def excluded (env : Env) (s : Server) (uri : Url) : Bool :=
  (env.isUriExcluded s.knownFiles uri).1

/-- No edit of the document waits to be published: the queue is empty or holds what the writer
has just published and is about to take out. -/
def settled (s : Server) (uri : Url) : Bool :=
  match s.pendingEdits.lookup uri with
  | none => true
  | some edit =>
    match s.worker with
    | .published u target _ => u = uri && edit.targetParseVersion = target
    | _ => false

/-- The document is closed when no edit of it waits to be published, and no change of a closed
document arrives while the queue still holds its last edit. -/
def closesSettled (uri : Url) (s : Server) : Event → Bool
  | .closeBegin u _ => u ≠ uri || s.settled uri
  | .changeBegin u _ => u ≠ uri || (s.compilation.documents.lookup uri).isSome ||
    (s.pendingEdits.lookup uri).isNone
  | _ => true

def Event.uri? : Event → Option Url
  | .openBegin uri _ | .changeBegin uri _ | .closeBegin uri _ => some uri
  | _ => none

/-- The URL is that of the document or leads to another file. -/
def Distinct (env : Env) (uri v : Url) : Prop :=
  v = uri ∨ env.canonicalUri v ≠ env.canonicalUri uri

instance (env : Env) (uri v : Url) : Decidable (Distinct env uri v) :=
  inferInstanceAs (Decidable (_ ∨ _))

/-- What the notification in progress has read still holds. -/
def HandlerOk (env : Env) (uri : Url) (excluded : Bool) (view : FileView) (settled : Bool) :
    Handler → Prop
  | .idle => True
  | .opening u plan => u = uri → match plan with
    | .unchanged => True
    | .reuse existing => excluded = false ∧ view.buffer = none ∧
      view.workspaceCopy.or view.baseCopy = some existing
    | .publish document => env.Parsed document
  | .changing u _ _ => u = uri → view.buffer ≠ none
  | .closing u priorSource diskText => u = uri → settled = true ∧
      (env.fileScopeOf uri).isLoose = false ∧ excluded = false ∧
      priorSource = view.buffer.map (·.source) ∧ ∃ text, diskText = env.closedText uri text
  | .closingTo u plan => u = uri → settled = true ∧
      ∃ diskText, env.ClosesWith uri excluded view diskText plan

structure FileInv (env : Env) (uri : Url) (excluded : Bool) (s : Server) : Prop where
  excluded_eq : s.excluded env uri = excluded
  consistent : env.Consistent uri excluded (s.view env uri)
  closedSettled : (s.view env uri).buffer = none → s.settled uri = true
  processing : ∀ edit rest, s.worker = .processing uri edit rest →
    s.pendingEdits.lookup uri = some edit
  locked : s.worker.holdsTreeLock = true → s.handler.holdsTreeLock = false
  handlerOk : HandlerOk env uri excluded (s.view env uri) (s.settled uri) s.handler
  handlerUri : ∀ v, s.handler.uri? = some v → Distinct env uri v
  pendingUri : ∀ v ∈ s.pendingEdits, Distinct env uri v
  workerUri : ∀ v edit rest, s.worker = .processing v edit rest → Distinct env uri v

variable {env : Env} {uri : Url} {excluded : Bool} {s s' : Server} {e : Event}

/-- A worker that has published nothing of the document leaves nothing queued when settled. -/
lemma lookup_of_settled (h : s.settled uri = true)
    (hworker : ∀ target rest, s.worker ≠ .published uri target rest) :
    s.pendingEdits.lookup uri = none := by
  unfold settled at h
  cases hpending : s.pendingEdits.lookup uri with
  | none => rfl
  | some edit =>
    rw [hpending] at h
    cases hw : s.worker with
    | published u target rest =>
      simp [hw] at h
      exact absurd hw (h.1 ▸ hworker target rest)
    | asleep | collecting | next | processing => simp [hw] at h

lemma settled_of_lookup (h : s.pendingEdits.lookup uri = none) : s.settled uri = true := by
  simp [settled, h]

lemma HandlerOk.mono {view : FileView} {settled settled' : Bool} {handler : Handler}
    (h : HandlerOk env uri excluded view settled handler)
    (hmono : settled = true → settled' = true) :
    HandlerOk env uri excluded view settled' handler := by
  cases handler with
  | idle => trivial
  | opening u plan => exact h
  | changing u batch source => exact h
  | closing u priorSource diskText => exact fun hu => ⟨hmono (h hu).1, (h hu).2⟩
  | closingTo u plan => exact fun hu => ⟨hmono (h hu).1, (h hu).2⟩

/-- The end of a notification that leaves a consistent view. -/
lemma FileInv.finish (h : FileInv env uri excluded s) {c : Compilation}
    (hview : env.Consistent uri excluded (env.view c uri))
    (hclosed : (env.view c uri).buffer = none → s.settled uri = true) (v : Nat) :
    FileInv env uri excluded { s with handler := .idle, nextVersion := v, compilation := c } where
  excluded_eq := h.excluded_eq
  consistent := hview
  closedSettled := hclosed
  processing := h.processing
  locked _ := rfl
  handlerOk := trivial
  handlerUri := nofun
  pendingUri := h.pendingUri
  workerUri := h.workerUri

/-- The writer moves on without publishing or taking anything of the document. -/
lemma FileInv.idleWorker (h : FileInv env uri excluded s) {w : Worker} {notify : Bool}
    (hworker : ∀ target rest, s.worker ≠ .published uri target rest)
    (hw : w.holdsTreeLock = false) :
    FileInv env uri excluded { s with worker := w, editNotify := notify } := by
  have hsettled : s.settled uri = true →
      Server.settled { s with worker := w, editNotify := notify } uri = true :=
    fun hs => settled_of_lookup (s := { s with worker := w, editNotify := notify })
      (lookup_of_settled (s := s) hs hworker)
  exact { h with
    closedSettled := fun hnone => hsettled (h.closedSettled hnone)
    processing := fun edit rest hprocessing => by
      cases hprocessing
      cases hw
    locked := fun hlock => by
      rw [hw] at hlock
      cases hlock
    handlerOk := h.handlerOk.mono hsettled
    workerUri := fun v edit rest hprocessing => by
      cases hprocessing
      cases hw }

/-- A publication by a notification: the view is unchanged or that of the new document. -/
lemma FileInv.consistent_commitOpen (h : FileInv env uri excluded s) {u : Url}
    (hu : Distinct env uri u) {plan : OpenPlan}
    (hplan : HandlerOk env uri excluded (s.view env uri) (s.settled uri) (.opening u plan)) :
    env.Consistent uri excluded (env.view (env.commitOpen s.compilation u plan) uri) ∧
      ((env.view (env.commitOpen s.compilation u plan) uri).buffer = none →
        s.settled uri = true) := by
  rcases hu with rfl | hne
  · rw [Env.view_commitOpen]
    cases plan with
    | unchanged => exact ⟨h.consistent, h.closedSettled⟩
    | reuse existing =>
      obtain ⟨hincluded, hclosed, hcached⟩ := hplan rfl
      exact ⟨h.consistent.reuse hincluded hclosed hcached, nofun⟩
    | publish document => exact ⟨h.consistent.publish (hplan rfl), nofun⟩
  · rw [Env.view_commitOpen_of_ne plan hne]
    exact ⟨h.consistent, h.closedSettled⟩

/-- A parsed edit of the document replaces the buffer and its entry. -/
lemma FileInv.consistent_processPendingEdit (h : FileInv env uri excluded s) {u : Url}
    (hu : Distinct env uri u) (edit : PendingEdit) :
    env.Consistent uri excluded (env.view (env.processPendingEdit s.compilation u edit) uri) ∧
      ((env.view (env.processPendingEdit s.compilation u edit) uri).buffer = none →
        (s.view env uri).buffer = none) := by
  rcases hu with rfl | hne
  · rcases @Env.processPendingEdit_eq env s.compilation u edit with
      ⟨-, hnone⟩ | ⟨document, hparsed, -, hsome⟩
    · rw [hnone]
      exact ⟨h.consistent, id⟩
    · rw [hsome, Env.view_publishOpenDocument]
      exact ⟨h.consistent.publish hparsed, nofun⟩
  · rw [Env.view_processPendingEdit_of_ne edit hne]
    exact ⟨h.consistent, id⟩

lemma handlerOk_planOpen (h : FileInv env uri excluded s) {u : Url} (text : String)
    (hopen : u = uri → s.excluded env uri = true → (s.view env uri).buffer ≠ none) :
    HandlerOk env uri excluded (s.view env uri) (s.settled uri)
      (.opening u (env.planOpen s.compilation u text)) := by
  intro hu
  subst hu
  rcases @Env.planOpen_cases env s.compilation u text with
    hplan | ⟨existing, hplan, hclosed, hcached⟩ | ⟨document, hplan, hparsed⟩
  · rw [hplan]
    trivial
  · rw [hplan]
    refine ⟨?_, hclosed, hcached⟩
    cases hex : excluded with
    | false => rfl
    | true => exact absurd hclosed (hopen rfl (h.excluded_eq.trans hex))
  · rw [hplan]
    exact hparsed

/-- Queueing an edit of an open document. -/
lemma FileInv.enqueue (h : FileInv env uri excluded s) {u : Url} {batch : List ContentChange}
    {source : String} (hchanging : s.handler = .changing u batch source) (edit : PendingEdit) :
    FileInv env uri excluded { s with
      handler := .idle
      nextVersion := s.nextVersion + 1
      pendingEdits := s.pendingEdits.insert u edit
      editNotify := true } := by
  have hu : Distinct env uri u := h.handlerUri u (by rw [hchanging]; rfl)
  have hok := h.handlerOk
  rw [hchanging] at hok
  have hpending : ∀ v ∈ s.pendingEdits.insert u edit, Distinct env uri v := by
    intro v hv
    rcases (AList.mem_insert _).mp hv with rfl | hold
    · exact hu
    · exact h.pendingUri v hold
  have hlock : s.worker.holdsTreeLock = false := by
    cases hw : s.worker.holdsTreeLock with
    | false => rfl
    | true =>
      have := h.locked hw
      rw [hchanging] at this
      cases this
  exact {
    excluded_eq := h.excluded_eq
    consistent := h.consistent
    closedSettled := fun hnone => by
      by_cases huri : u = uri
      · exact absurd hnone (hok huri)
      · have hkept : (s.pendingEdits.insert u edit).lookup uri = s.pendingEdits.lookup uri :=
          AList.lookup_insert_ne (Ne.symm huri)
        have hold := h.closedSettled hnone
        unfold settled at hold ⊢
        rw [hkept]
        exact hold
    processing := fun edit' rest hw => by
      rw [show s.worker = .processing uri edit' rest from hw] at hlock
      cases hlock
    locked := fun _ => rfl
    handlerOk := trivial
    handlerUri := nofun
    pendingUri := hpending
    workerUri := h.workerUri }

lemma FileInv.excluded_workspace (h : FileInv env uri excluded s) (hexcluded : excluded = true) :
    env.indexKindOf uri = .workspace :=
  Env.indexKindOf_of_excluded (h.excluded_eq.trans hexcluded)

lemma FileInv.consistent_commitClose (h : FileInv env uri excluded s) {u : Url}
    (hu : Distinct env uri u) {plan : ClosePlan}
    (hplan : HandlerOk env uri excluded (s.view env uri) (s.settled uri) (.closingTo u plan)) :
    env.Consistent uri excluded (env.view (env.commitClose s.compilation u plan) uri) ∧
      ((env.view (env.commitClose s.compilation u plan) uri).buffer = none →
        s.settled uri = true) := by
  rcases hu with rfl | hne
  · obtain ⟨hsettled, diskText, hcloses⟩ := hplan rfl
    rw [Env.view_commitClose]
    exact ⟨(h.consistent.close hcloses h.excluded_workspace).1, fun _ => hsettled⟩
  · rw [Env.view_commitClose_of_ne plan hne]
    exact ⟨h.consistent, h.closedSettled⟩

/-- The writer holds an edit of the document only while it is open and no close of it runs. -/
lemma FileInv.unsettled (h : FileInv env uri excluded s) {edit : PendingEdit} {rest : List Url}
    (hworker : s.worker = .processing uri edit rest) : s.settled uri = false := by
  simp [settled, h.processing edit rest hworker, hworker]

lemma HandlerOk.published {view view' : FileView} {settled' : Bool} {handler : Handler}
    (h : HandlerOk env uri excluded view false handler) (hopen : view.buffer ≠ none)
    (hopen' : view'.buffer ≠ none) : HandlerOk env uri excluded view' settled' handler := by
  cases handler with
  | idle => trivial
  | opening u plan =>
    intro hu
    cases plan with
    | unchanged => trivial
    | reuse existing => exact absurd (h hu).2.1 hopen
    | publish document => exact h hu
  | changing u batch source => exact fun _ => hopen'
  | closing u priorSource diskText => exact fun hu => nomatch (h hu).1
  | closingTo u plan => exact fun hu => nomatch (h hu).1

lemma FileInv.publish (h : FileInv env uri excluded s) {u : Url} {edit : PendingEdit}
    {rest : List Url} (hworker : s.worker = .processing u edit rest) :
    FileInv env uri excluded { s with
      compilation := env.processPendingEdit s.compilation u edit
      worker := .published u edit.targetParseVersion rest } := by
  have hu := h.workerUri u edit rest hworker
  obtain ⟨hconsistent, hclosed⟩ := h.consistent_processPendingEdit hu edit
  have hprocessing : ∀ target rest', s.worker ≠ .published uri target rest' := by
    intro target rest' hw
    rw [hworker] at hw
    cases hw
  have hsettled : s.settled uri = true → Server.settled { s with
      compilation := env.processPendingEdit s.compilation u edit
      worker := .published u edit.targetParseVersion rest } uri = true :=
    fun hs => settled_of_lookup (s := { s with
      compilation := env.processPendingEdit s.compilation u edit
      worker := .published u edit.targetParseVersion rest })
      (lookup_of_settled (s := s) hs hprocessing)
  have hok : HandlerOk env uri excluded
      (env.view (env.processPendingEdit s.compilation u edit) uri)
      (Server.settled { s with
        compilation := env.processPendingEdit s.compilation u edit
        worker := .published u edit.targetParseVersion rest } uri) s.handler := by
    rcases hu with rfl | hne
    · have hunsettled := h.unsettled hworker
      have hopen : (s.view env u).buffer ≠ none := by
        intro hnone
        rw [h.closedSettled hnone] at hunsettled
        cases hunsettled
      have hok := h.handlerOk
      rw [hunsettled] at hok
      exact hok.published hopen fun hnone => hopen (hclosed hnone)
    · rw [Env.view_processPendingEdit_of_ne edit hne]
      exact h.handlerOk.mono hsettled
  exact {
    excluded_eq := h.excluded_eq
    consistent := hconsistent
    closedSettled := fun hnone => hsettled (h.closedSettled (hclosed hnone))
    processing := nofun
    locked := nofun
    handlerOk := hok
    handlerUri := h.handlerUri
    pendingUri := h.pendingUri
    workerUri := nofun }

/-- Every step that meets the condition keeps the invariant. -/
theorem FileInv.step (h : FileInv env uri excluded s) (hgood : closesSettled uri s e = true)
    (hdistinct : ∀ v, e.uri? = some v → Distinct env uri v) (hmoves : Moves env s e s') :
    FileInv env uri excluded s' := by
  cases hmoves with
  | openIgnored | changeIgnored | closeIgnored => exact h
  | changeUnopened =>
    exact { h with excluded_eq := (Env.isUriExcluded_stable _).trans h.excluded_eq }
  | @openBegin u text hidle hincluded =>
    exact { h with
      excluded_eq := (Env.isUriExcluded_stable _).trans h.excluded_eq
      locked := fun _ => rfl
      handlerOk := handlerOk_planOpen h text fun hu hexcluded => by
        subst hu
        rw [Server.excluded, hincluded] at hexcluded
        cases hexcluded
      handlerUri := fun v hv => hdistinct v hv }
  | @openCommit u plan hopening =>
    have hu : Distinct env uri u := h.handlerUri u (by rw [hopening]; rfl)
    have hok := h.handlerOk
    rw [hopening] at hok
    obtain ⟨hconsistent, hclosed⟩ := h.consistent_commitOpen hu hok
    exact h.finish hconsistent hclosed _
  | @changeBegin u batch source hidle hlock hlatest =>
    have hopen : u = uri → (s.view env uri).buffer ≠ none := by
      intro hu hnone
      subst hu
      have hclosed : s.compilation.documents.lookup u = none := hnone
      have hunqueued : s.pendingEdits.lookup u = none := by
        simpa [closesSettled, hclosed] using hgood
      simp [latestEditState, hunqueued, publishedText, Compilation.openText, hclosed] at hlatest
    exact { h with
      excluded_eq := (Env.isUriExcluded_stable _).trans h.excluded_eq
      locked := fun hworker => by
        rw [hlock] at hworker
        cases hworker
      handlerOk := hopen
      handlerUri := fun v hv => hdistinct v hv }
  | changeOutOfRange hchanging happly => exact h.finish h.consistent h.closedSettled _
  | @changeProcessed u batch source next hchanging happly hspawned =>
    have hu : Distinct env uri u := h.handlerUri u (by rw [hchanging]; rfl)
    obtain ⟨hconsistent, hclosed⟩ := h.consistent_processPendingEdit hu ⟨next, s.nextVersion⟩
    exact h.finish hconsistent (fun hnone => h.closedSettled (hclosed hnone)) _
  | changeQueued hchanging happly hspawned => exact h.enqueue hchanging _
  | @changeReplaced u batch source next hchanging happly =>
    have hu : Distinct env uri u := h.handlerUri u (by rw [hchanging]; rfl)
    have hok := h.handlerOk
    rw [hchanging] at hok
    obtain ⟨hconsistent, hclosed⟩ :=
      h.consistent_commitOpen hu (handlerOk_planOpen h next fun huri _ => hok huri)
    exact h.finish hconsistent hclosed _
  | @closeLoose u diskText hidle hloose =>
    have hok : u = uri → s.settled uri = true ∧
        ∃ text, env.ClosesWith uri excluded (s.view env uri) text .dropLoose := by
      intro hu
      subst hu
      exact ⟨by simpa [closesSettled] using hgood, diskText, .loose hloose⟩
    exact { h with locked := fun _ => rfl, handlerOk := hok, handlerUri := fun v hv => hdistinct v hv }
  | @closeExcluded u diskText hidle hloose hexcluded =>
    have hok : u = uri → s.settled uri = true ∧
        ∃ text, env.ClosesWith uri excluded (s.view env uri) text .dropExcluded := by
      intro hu
      subst hu
      exact ⟨by simpa [closesSettled] using hgood, diskText,
        .excluded hloose (h.excluded_eq.symm.trans hexcluded)⟩
    exact { h with locked := fun _ => rfl, handlerOk := hok, handlerUri := fun v hv => hdistinct v hv }
  | @closeBegin u diskText hidle hloose hincluded =>
    have hok : HandlerOk env uri excluded (s.view env uri) (s.settled uri)
        (.closing u (s.publishedText u) (env.closedText u diskText)) := by
      intro hu
      subst hu
      exact ⟨by simpa [closesSettled] using hgood, hloose, h.excluded_eq.symm.trans hincluded, rfl,
        diskText, rfl⟩
    exact { h with
      excluded_eq := (Env.isUriExcluded_stable _).trans h.excluded_eq
      locked := fun _ => rfl
      handlerOk := hok
      handlerUri := fun v hv => hdistinct v hv }
  | @closeCheck u priorSource diskText hclosing =>
    have hok := h.handlerOk
    rw [hclosing] at hok
    have hok' : HandlerOk env uri excluded (s.view env uri) (s.settled uri)
        (.closingTo u (env.planClosed s.compilation u priorSource diskText)) := by
      intro hu
      obtain ⟨hsettled, hloose, hincluded, hprior, text, htext⟩ := hok hu
      subst hu
      refine ⟨hsettled, text, ?_⟩
      rw [Env.planClosed_eq, hprior, htext]
      exact .disk hloose hincluded
    exact { h with
      locked := fun _ => rfl
      handlerOk := hok'
      handlerUri := fun v hv => h.handlerUri v (by rw [hclosing]; exact hv) }
  | @closeCommit u plan hclosing =>
    have hu : Distinct env uri u := h.handlerUri u (by rw [hclosing]; rfl)
    have hok := h.handlerOk
    rw [hclosing] at hok
    obtain ⟨hconsistent, hsettled⟩ := h.consistent_commitClose hu hok
    exact h.finish hconsistent hsettled _
  | spawn => exact { h with }
  | wake hworker | collectNone hworker | collect hworker | takeNone hworker | takeGone hworker =>
    exact h.idleWorker (fun target rest hw => by rw [hworker] at hw; cases hw) rfl
  | @take u rest edit hworker hlock hpending =>
    have hnext : ∀ target rest', s.worker ≠ .published uri target rest' := by
      intro target rest' hw
      rw [hworker] at hw
      cases hw
    have hsettled : s.settled uri = true →
        Server.settled { s with worker := .processing u edit rest } uri = true :=
      fun hs => settled_of_lookup (s := { s with worker := .processing u edit rest })
        (lookup_of_settled (s := s) hs hnext)
    exact { h with
      closedSettled := fun hnone => hsettled (h.closedSettled hnone)
      processing := fun edit' rest' hw => by
        cases hw
        exact hpending
      locked := fun _ => hlock
      handlerOk := h.handlerOk.mono hsettled
      workerUri := fun v edit' rest' hw => by
        cases hw
        exact h.pendingUri u (AList.lookup_isSome.mp (by rw [hpending]; rfl)) }
  | @publish u edit rest hworker => exact h.publish hworker
  | @releaseKept u target rest hworker hkept =>
    have hsettled : s.settled uri = true →
        Server.settled { s with worker := .next rest } uri = true := by
      intro hs
      apply settled_of_lookup
      cases hpending : s.pendingEdits.lookup uri with
      | none => rfl
      | some current =>
        simp only [settled, hpending, hworker, Bool.and_eq_true, decide_eq_true_eq] at hs
        exact absurd hs.2 (hkept current (by rw [hs.1]; exact hpending))
    exact { h with
      closedSettled := fun hnone => hsettled (h.closedSettled hnone)
      processing := fun _ _ hw => by cases hw
      locked := fun hw => by cases hw
      handlerOk := h.handlerOk.mono hsettled
      workerUri := fun _ _ _ hw => by cases hw }
  | @release u target rest current hworker hcurrent htarget =>
    have hsettled : s.settled uri = true → Server.settled
        { s with worker := .next rest, pendingEdits := s.pendingEdits.erase u } uri = true := by
      intro hs
      apply settled_of_lookup
      by_cases hu : uri = u
      · rw [hu]
        exact AList.lookup_erase _ _
      · have hkept : (s.pendingEdits.erase u).lookup uri = s.pendingEdits.lookup uri :=
          AList.lookup_erase_ne hu
        refine hkept.trans (lookup_of_settled hs fun target' rest' hw => ?_)
        rw [hworker] at hw
        cases hw
        exact hu rfl
    exact { h with
      closedSettled := fun hnone => hsettled (h.closedSettled hnone)
      processing := fun _ _ hw => by cases hw
      locked := fun hw => by cases hw
      handlerOk := h.handlerOk.mono hsettled
      pendingUri := fun v hv => h.pendingUri v (AList.mem_erase.mp hv).2
      workerUri := fun _ _ _ hw => by cases hw }

/-! ### Runs -/

/-- The run ends `post` behind a close of the document, whose read of the disk gave `diskText`. -/
def ClosedBefore (env : Env) (start : Server) (es : List Event) (uri : Url) (excluded : Bool)
    (diskText : Option String) (post : List Event) : Prop :=
  ∃ pre mid s₀ s₁, es = pre ++ .closeBegin uri diskText :: (mid ++ .closeCommit :: post) ∧
    run (Server.step env) start pre = some s₀ ∧ s₀.excluded env uri = excluded ∧
    s₀.step env (.closeBegin uri diskText) = some s₁ ∧ s₁.handler ≠ .idle ∧ .closeCommit ∉ mid

/-- After a close with no later open the document is not open, and once no edit of it is queued
the indexes hold what the disk had at the last close. -/
structure StaysClosed (env : Env) (start : Server) (es : List Event) (uri : Url) : Prop where
  closed : ∀ excluded diskText post s, ClosedBefore env start es uri excluded diskText post →
    (∀ text, .openBegin uri text ∉ post) → run (Server.step env) start es = some s →
    s.compilation.documents.lookup uri = none
  entry : ∀ excluded diskText post s, ClosedBefore env start es uri excluded diskText post →
    (∀ text, .openBegin uri text ∉ post) → (∀ text, .closeBegin uri text ∉ post) →
    run (Server.step env) start es = some s → s.pendingEdits.lookup uri = none →
    ∀ kind, (s.compilation.index kind).entry (env.canonicalUri uri) =
      env.closedEntry uri excluded diskText kind

/-- Nothing is queued, written or in progress. -/
structure Idle (s : Server) : Prop where
  handler : s.handler = .idle
  worker : s.worker = .asleep
  pendingEdits : s.pendingEdits = ∅

lemma FileInv.of_idle (h : s.Idle)
    (hconsistent : env.Consistent uri (s.excluded env uri) (s.view env uri)) :
    FileInv env uri (s.excluded env uri) s where
  excluded_eq := rfl
  consistent := hconsistent
  closedSettled _ := settled_of_lookup (by rw [h.pendingEdits]; rfl)
  processing edit rest hw := by
    rw [h.worker] at hw
    cases hw
  locked _ := by
    rw [h.handler]
    rfl
  handlerOk := by
    rw [h.handler]
    trivial
  handlerUri v hv := by
    rw [h.handler] at hv
    cases hv
  pendingUri v hv := by
    rw [h.pendingEdits] at hv
    exact absurd hv (AList.notMem_empty v)
  workerUri v edit rest hw := by
    rw [h.worker] at hw
    cases hw

/-- The close in progress will leave what `diskText` contributes. -/
inductive Closing (env : Env) (uri : Url) (excluded : Bool) (diskText : Option String)
    (s : Server) : Prop
  | reading {priorSource} : s.handler = .closing uri priorSource (env.closedText uri diskText) →
      Closing env uri excluded diskText s
  | planned {plan} : s.handler = .closingTo uri plan →
      env.ClosesWith uri excluded (s.view env uri) diskText plan →
      Closing env uri excluded diskText s

lemma Closing.uri_eq {diskText : Option String} (h : Closing env uri excluded diskText s) :
    s.handler.uri? = some uri := by
  cases h with
  | reading h => rw [h]; rfl
  | planned h _ => rw [h]; rfl

/-- Only its own notifications and the publication of its queued edit touch a file. -/
inductive Touches (uri : Url) (s : Server) : Event → Prop
  | opening {plan} : s.handler = .opening uri plan → Touches uri s .openCommit
  | changing {batch source} : s.handler = .changing uri batch source →
      Touches uri s .changeFinish
  | closing {plan} : s.handler = .closingTo uri plan → Touches uri s .closeCommit
  | publishing {edit rest} : s.worker = .processing uri edit rest → Touches uri s .publish

lemma view_eq_or_touches (hinv : FileInv env uri excluded s) (hmoves : Moves env s e s') :
    s'.view env uri = s.view env uri ∨ Touches uri s e := by
  cases hmoves with
  | @openCommit u plan hopening =>
    rcases hinv.handlerUri u (by rw [hopening]; rfl) with rfl | hne
    · exact .inr (.opening hopening)
    · exact .inl (Env.view_commitOpen_of_ne plan hne)
  | @changeProcessed u batch source next hchanging happly hspawned =>
    rcases hinv.handlerUri u (by rw [hchanging]; rfl) with rfl | hne
    · exact .inr (.changing hchanging)
    · exact .inl (Env.view_processPendingEdit_of_ne _ hne)
  | @changeReplaced u batch source next hchanging happly =>
    rcases hinv.handlerUri u (by rw [hchanging]; rfl) with rfl | hne
    · exact .inr (.changing hchanging)
    · exact .inl (Env.view_commitOpen_of_ne _ hne)
  | @closeCommit u plan hclosing =>
    rcases hinv.handlerUri u (by rw [hclosing]; rfl) with rfl | hne
    · exact .inr (.closing hclosing)
    · exact .inl (Env.view_commitClose_of_ne plan hne)
  | @publish u edit rest hworker =>
    rcases hinv.workerUri u edit rest hworker with rfl | hne
    · exact .inr (.publishing hworker)
    · exact .inl (Env.view_processPendingEdit_of_ne edit hne)
  | _ => exact .inl rfl

lemma Closing.settled {diskText : Option String} (h : Closing env uri excluded diskText s)
    (hinv : FileInv env uri excluded s) : s.settled uri = true := by
  have hok := hinv.handlerOk
  cases h with
  | reading h =>
    rw [h] at hok
    exact (hok rfl).1
  | planned h _ =>
    rw [h] at hok
    exact (hok rfl).1

/-- Until its commit nothing touches the file that a close is about. -/
lemma Closing.view_eq {diskText : Option String} (h : Closing env uri excluded diskText s)
    (hinv : FileInv env uri excluded s) (hcommit : e ≠ .closeCommit)
    (hmoves : Moves env s e s') : s'.view env uri = s.view env uri := by
  rcases view_eq_or_touches hinv hmoves with hsame | htouches
  · exact hsame
  · cases htouches with
    | opening h' =>
      cases h with
      | reading h => rw [h] at h'; cases h'
      | planned h _ => rw [h] at h'; cases h'
    | changing h' =>
      cases h with
      | reading h => rw [h] at h'; cases h'
      | planned h _ => rw [h] at h'; cases h'
    | closing h' => exact absurd rfl hcommit
    | publishing hworker =>
      have hunsettled := hinv.unsettled hworker
      rw [h.settled hinv] at hunsettled
      cases hunsettled

/-- A close goes from reading to its plan and stays with it until its commit. -/
lemma Closing.step {diskText : Option String} (h : Closing env uri excluded diskText s)
    (hinv : FileInv env uri excluded s) (hcommit : e ≠ .closeCommit)
    (hmoves : Moves env s e s') : Closing env uri excluded diskText s' := by
  have hview := h.view_eq hinv hcommit hmoves
  have hkeep : s'.handler = s.handler → Closing env uri excluded diskText s' := by
    intro hsame
    cases h with
    | reading h => exact .reading (hsame.trans h)
    | planned h hplan => exact .planned (hsame.trans h) (by rw [hview]; exact hplan)
  have hbusy : s.handler ≠ .idle := by
    intro hidle
    have huri := h.uri_eq
    rw [hidle] at huri
    cases huri
  cases hmoves with
  | openIgnored | openBegin | changeIgnored | changeUnopened | changeBegin | closeIgnored
  | closeLoose | closeExcluded | closeBegin => exact absurd ‹_› hbusy
  | openCommit h' | changeOutOfRange h' | changeProcessed h' | changeQueued h'
  | changeReplaced h' =>
    cases h with
    | reading h => rw [h] at h'; cases h'
    | planned h _ => rw [h] at h'; cases h'
  | @closeCheck u priorSource text hclosing =>
    cases h with
    | planned h _ => rw [h] at hclosing; cases hclosing
    | reading h =>
      have hok := hinv.handlerOk
      rw [h] at hok hclosing
      cases hclosing
      obtain ⟨-, hloose, hincluded, hprior, -⟩ := hok rfl
      refine .planned rfl ?_
      rw [hview, Env.planClosed_eq, hprior]
      exact .disk hloose hincluded
  | closeCommit => exact absurd rfl hcommit
  | _ => exact hkeep rfl

/-- The document has been closed and not opened since. -/
structure Closed (env : Env) (uri : Url) (s : Server) : Prop where
  buffer : (s.view env uri).buffer = none
  opening : ∀ plan, s.handler ≠ .opening uri plan

lemma Closed.step (h : Closed env uri s) (hinv : FileInv env uri excluded s)
    (hopen : ∀ text, e ≠ .openBegin uri text) (hmoves : Moves env s e s') :
    Closed env uri s' := by
  constructor
  · rcases view_eq_or_touches hinv hmoves with hsame | htouches
    · rw [hsame]
      exact h.buffer
    · cases htouches with
      | opening hopening => exact absurd hopening (h.opening _)
      | changing hchanging =>
        have hok := hinv.handlerOk
        rw [hchanging] at hok
        exact absurd h.buffer (hok rfl)
      | closing hclosing =>
        cases hmoves with | closeCommit hclosing' =>
        rw [hclosing] at hclosing'
        cases hclosing'
        rw [Server.view, Env.view_commitClose, Env.viewClosed_buffer]
      | publishing hworker =>
        have hunsettled := hinv.unsettled hworker
        rw [hinv.closedSettled h.buffer] at hunsettled
        cases hunsettled
  · intro plan hopening
    cases hmoves with
    | @openBegin u text hidle =>
      cases hopening
      exact hopen text rfl
    | openIgnored | changeIgnored | changeUnopened | closeIgnored | closeCheck | spawn | wake
    | collectNone | collect | takeNone | takeGone | take | publish | releaseKept | release =>
      first
      | exact h.opening plan hopening
      | cases hopening
    | _ => cases hopening

/-- No close of the document is in progress either. -/
structure ClosedWith (env : Env) (uri : Url) (entry : IndexKind → Option DocContribution)
    (s : Server) : Prop extends Closed env uri s where
  entry_eq : (s.view env uri).entry = entry
  closing : ∀ priorSource diskText, s.handler ≠ .closing uri priorSource diskText
  closingTo : ∀ plan, s.handler ≠ .closingTo uri plan

lemma ClosedWith.step {entry : IndexKind → Option DocContribution}
    (h : ClosedWith env uri entry s) (hinv : FileInv env uri excluded s)
    (hopen : ∀ text, e ≠ .openBegin uri text) (hclose : ∀ text, e ≠ .closeBegin uri text)
    (hmoves : Moves env s e s') : ClosedWith env uri entry s' := by
  have hview : s'.view env uri = s.view env uri := by
    rcases view_eq_or_touches hinv hmoves with hsame | htouches
    · exact hsame
    · cases htouches with
      | opening hopening => exact absurd hopening (h.opening _)
      | changing hchanging =>
        have hok := hinv.handlerOk
        rw [hchanging] at hok
        exact absurd h.buffer (hok rfl)
      | closing hclosing => exact absurd hclosing (h.closingTo _)
      | publishing hworker =>
        have hunsettled := hinv.unsettled hworker
        rw [hinv.closedSettled h.buffer] at hunsettled
        cases hunsettled
  have hbegin : ∀ u text, e = .closeBegin u text → u ≠ uri := by
    rintro u text rfl rfl
    exact hclose text rfl
  refine { h.toClosed.step hinv hopen hmoves with
    entry_eq := by rw [hview, h.entry_eq], closing := ?_, closingTo := ?_ }
  · intro priorSource diskText hclosing
    cases hmoves with
    | closeBegin =>
      cases hclosing
      exact hbegin _ _ rfl rfl
    | openIgnored | changeIgnored | changeUnopened | closeIgnored | spawn | wake
    | collectNone | collect | takeNone | takeGone | take | publish | releaseKept | release =>
      exact h.closing _ _ hclosing
    | _ => cases hclosing
  · intro plan hclosing
    cases hmoves with
    | closeLoose | closeExcluded =>
      cases hclosing
      exact hbegin _ _ rfl rfl
    | closeCheck hchecking =>
      cases hclosing
      exact h.closing _ _ hchecking
    | openIgnored | changeIgnored | changeUnopened | closeIgnored | spawn | wake
    | collectNone | collect | takeNone | takeGone | take | publish | releaseKept | release =>
      exact h.closingTo _ hclosing
    | _ => cases hclosing

/-- The commit of the close. -/
lemma Closing.commit {diskText : Option String} (h : Closing env uri excluded diskText s)
    (hinv : FileInv env uri excluded s) (hmoves : Moves env s .closeCommit s') :
    ClosedWith env uri (env.closedEntry uri excluded diskText) s' := by
  cases hmoves with | closeCommit hclosing =>
  cases h with
  | reading h =>
    rw [h] at hclosing
    cases hclosing
  | planned h hplan =>
    rw [h] at hclosing
    cases hclosing
    have hview := @Env.view_commitClose env s.compilation uri ‹_›
    exact {
      buffer := by rw [Server.view, hview, Env.viewClosed_buffer]
      opening := nofun
      entry_eq := by
        rw [Server.view, hview]
        exact (hinv.consistent.close hplan hinv.excluded_workspace).2
      closing := nofun
      closingTo := nofun }

/-- A close that is not ignored begins to read the disk or has its plan at once. -/
lemma Closing.begin {diskText : Option String} (hinv : FileInv env uri excluded s)
    (hbusy : s'.handler ≠ .idle) (hmoves : Moves env s (.closeBegin uri diskText) s') :
    Closing env uri excluded diskText s' := by
  cases hmoves with
  | closeIgnored hidle => exact absurd hidle hbusy
  | closeLoose hidle hloose => exact .planned rfl (.loose hloose)
  | closeExcluded hidle hloose hexcluded =>
    exact .planned rfl (.excluded hloose (hinv.excluded_eq.symm.trans hexcluded))
  | closeBegin => exact .reading rfl

/-- The step meets the condition and is about the document or about another file. -/
def Good (env : Env) (uri : Url) (s : Server) (e : Event) : Prop :=
  closesSettled uri s e = true ∧ ∀ v ∈ e.uri?, Distinct env uri v

lemma FileInv.run {es : List Event} (h : FileInv env uri excluded s)
    (hgood : AllSteps (Server.step env) (Good env uri) s es)
    (hrun : Library.run (Server.step env) s es = some s') : FileInv env uri excluded s' :=
  run_invariant (fun _ _ _ hinv hg hstep => hinv.step hg.1 hg.2 (moves_of_step hstep)) h hgood hrun

lemma Closing.run {diskText : Option String} {es : List Event}
    (h : Closing env uri excluded diskText s) (hinv : FileInv env uri excluded s)
    (hgood : AllSteps (Server.step env) (Good env uri) s es) (hcommit : .closeCommit ∉ es)
    (hrun : Library.run (Server.step env) s es = some s') :
    Closing env uri excluded diskText s' :=
  (run_invariant (I := fun s => Closing env uri excluded diskText s ∧ FileInv env uri excluded s)
    (fun _ _ _ hI hg hstep =>
      ⟨hI.1.step hI.2 hg.2 (moves_of_step hstep), hI.2.step hg.1.1 hg.1.2 (moves_of_step hstep)⟩)
    ⟨h, hinv⟩ (hgood.and_mem (P := fun e => e ≠ .closeCommit) fun _ he heq => hcommit (heq ▸ he))
    hrun).1

lemma Closed.run {es : List Event} (h : Closed env uri s) (hinv : FileInv env uri excluded s)
    (hgood : AllSteps (Server.step env) (Good env uri) s es)
    (hopen : ∀ text, .openBegin uri text ∉ es)
    (hrun : Library.run (Server.step env) s es = some s') : Closed env uri s' :=
  (run_invariant (I := fun s => Closed env uri s ∧ FileInv env uri excluded s)
    (fun _ _ _ hI hg hstep =>
      ⟨hI.1.step hI.2 hg.2 (moves_of_step hstep), hI.2.step hg.1.1 hg.1.2 (moves_of_step hstep)⟩)
    ⟨h, hinv⟩ (hgood.and_mem (P := fun e => ∀ text, e ≠ .openBegin uri text)
      fun _ he text heq => hopen text (heq ▸ he)) hrun).1

lemma ClosedWith.run {entry : IndexKind → Option DocContribution} {es : List Event}
    (h : ClosedWith env uri entry s) (hinv : FileInv env uri excluded s)
    (hgood : AllSteps (Server.step env) (Good env uri) s es)
    (hopen : ∀ text, .openBegin uri text ∉ es) (hclose : ∀ text, .closeBegin uri text ∉ es)
    (hrun : Library.run (Server.step env) s es = some s') : ClosedWith env uri entry s' :=
  (run_invariant (I := fun s => ClosedWith env uri entry s ∧ FileInv env uri excluded s)
    (fun _ _ _ hI hg hstep => ⟨hI.1.step hI.2 hg.2.1 hg.2.2 (moves_of_step hstep),
      hI.2.step hg.1.1 hg.1.2 (moves_of_step hstep)⟩)
    ⟨h, hinv⟩ (hgood.and_mem
      (P := fun e => (∀ text, e ≠ .openBegin uri text) ∧ ∀ text, e ≠ .closeBegin uri text)
      fun _ he => ⟨fun text heq => hopen text (heq ▸ he), fun text heq => hclose text (heq ▸ he)⟩)
    hrun).1

/-- The state behind the commit of a close. -/
lemma ClosedBefore.commit {start : Server} {es post : List Event} {diskText : Option String}
    (h : ClosedBefore env start es uri excluded diskText post)
    (hinv : FileInv env uri (start.excluded env uri) start)
    (hgood : AllSteps (Server.step env) (Good env uri) start es)
    (hrun : Library.run (Server.step env) start es = some s) :
    ∃ closed, FileInv env uri excluded closed ∧
      ClosedWith env uri (env.closedEntry uri excluded diskText) closed ∧
      AllSteps (Server.step env) (Good env uri) closed post ∧
      Library.run (Server.step env) closed post = some s := by
  obtain ⟨pre, mid, s₀, s₁, rfl, hpre, hexcluded, hbegin, hbusy, hcommit⟩ := h
  obtain ⟨s₀', hpre', hrun⟩ := run_append_eq_some hrun
  obtain rfl : s₀' = s₀ := Option.some.inj (hpre'.symm.trans hpre)
  obtain ⟨s₁', hbegin', hrun⟩ := run_cons_eq_some hrun
  obtain rfl : s₁' = s₁ := Option.some.inj (hbegin'.symm.trans hbegin)
  obtain ⟨s₂, hmid, hrun⟩ := run_append_eq_some hrun
  obtain ⟨s₃, hclosed, hrun⟩ := run_cons_eq_some hrun
  have hinv₀ := hinv.run hgood.append_left hpre
  rw [hinv₀.excluded_eq.symm.trans hexcluded] at hinv₀
  have hgood₀ := hgood.append_right hpre
  obtain ⟨hgoodBegin, hgood₁⟩ := allSteps_cons.mp hgood₀
  have hinv₁ := hinv₀.step hgoodBegin.1 hgoodBegin.2 (moves_of_step hbegin)
  have hmidGood := (hgood₁ _ hbegin).append_left
  have hinv₂ := hinv₁.run hmidGood hmid
  obtain ⟨hgoodCommit, hgood₃⟩ := allSteps_cons.mp ((hgood₁ _ hbegin).append_right hmid)
  have hclosing := (Closing.begin hinv₀ hbusy (moves_of_step hbegin)).run hinv₁ hmidGood hcommit hmid
  exact ⟨s₃, hinv₂.step hgoodCommit.1 hgoodCommit.2 (moves_of_step hclosed),
    hclosing.commit hinv₂ (moves_of_step hclosed), hgood₃ s₃ hclosed, hrun⟩

/-- From an idle server with a consistent view of the file, closed documents stay closed in every
run that closes them only when no edit of them waits. -/
theorem closed_stays_closed {start : Server} {es : List Event} (hidle : start.Idle)
    (hconsistent : env.Consistent uri (start.excluded env uri) (start.view env uri))
    (hdistinct : ∀ e ∈ es, ∀ v ∈ e.uri?, Distinct env uri v)
    (hgood : AllSteps (Server.step env) (fun s e => closesSettled uri s e = true) start es) :
    StaysClosed env start es uri := by
  have hinv := FileInv.of_idle hidle hconsistent
  have hsteps : AllSteps (Server.step env) (Good env uri) start es := hgood.and_mem hdistinct
  constructor
  · intro excluded diskText post s hbefore hopen hrun
    obtain ⟨closed, hinv', hclosed, hgood', hpost⟩ := hbefore.commit hinv hsteps hrun
    exact (hclosed.toClosed.run hinv' hgood' hopen hpost).buffer
  · intro excluded diskText post s hbefore hopen hclose hrun _ kind
    obtain ⟨closed, hinv', hclosed, hgood', hpost⟩ := hbefore.commit hinv hsteps hrun
    exact congrFun (hclosed.run hinv' hgood' hopen hclose hpost).entry_eq kind

lemma idle_empty : ({} : Server).Idle := ⟨rfl, rfl, rfl⟩

lemma consistent_empty (env : Env) (uri : Url) :
    env.Consistent uri (({} : Server).excluded env uri) (({} : Server).view env uri) where
  buffer := nofun
  workspaceCopy := nofun
  baseCopy := nofun
  misplaced kind _ := by cases kind <;> rfl
  cached _ _ := nofun

/-- Every file lies in the workspace. -/
def wholeWorkspace : ScopeConfig := { noDirs with workspaceRoots := [[]] }

/-- A document is opened and edited, and closed behind the publication of the edit. -/
def closedAfterPublish : List Event :=
  [.spawn, .openBegin "a.ws" "0", .openCommit,
    .changeBegin "a.ws" [appendAt 1 "1"], .changeFinish, .wake, .collect ["a.ws"], .take, .publish,
    .closeBegin "a.ws" (some "0"), .release, .closeCheck, .closeCommit]

theorem closed_stays_closed_afterPublish :
    StaysClosed (flatEnv wholeWorkspace) {} closedAfterPublish "a.ws" :=
  closed_stays_closed idle_empty (consistent_empty _ _) (by decide) (by decide)

/-- The document is closed while its edit is queued. -/
def closedWhileQueued : List Event :=
  [.spawn, .openBegin "a.ws" "0", .openCommit,
    .changeBegin "a.ws" [appendAt 1 "1"], .changeFinish,
    .closeBegin "a.ws" (some "0"), .closeCheck, .closeCommit,
    .wake, .collect ["a.ws"], .take, .publish, .release]

/-- The writer opens the document again. -/
theorem not_staysClosed_closedWhileQueued :
    ¬ StaysClosed (flatEnv wholeWorkspace) {} closedWhileQueued "a.ws" := by
  intro h
  have hbegin : (run (Server.step (flatEnv wholeWorkspace)) {} (closedWhileQueued.take 5)).map
      (fun s₀ => (s₀.excluded (flatEnv wholeWorkspace) "a.ws",
        (s₀.step (flatEnv wholeWorkspace) (.closeBegin "a.ws" (some "0"))).map fun s₁ =>
          s₁.handler.uri?)) = some (false, some (some "a.ws")) := by
    decide
  have hend : (run (Server.step (flatEnv wholeWorkspace)) {} closedWhileQueued).map
      (fun s => (s.compilation.documents.lookup "a.ws").isSome) = some true := by
    decide
  obtain ⟨s₀, hpre, hs₀⟩ := Option.map_eq_some_iff.mp hbegin
  obtain ⟨hexcluded, hstep⟩ := Prod.mk.inj hs₀
  obtain ⟨s₁, hs₁, huri⟩ := Option.map_eq_some_iff.mp hstep
  obtain ⟨s, hrun, hopen⟩ := Option.map_eq_some_iff.mp hend
  have hbusy : s₁.handler ≠ .idle := by
    intro hidle
    rw [hidle] at huri
    cases huri
  have hbefore : ClosedBefore (flatEnv wholeWorkspace) {} closedWhileQueued "a.ws" false (some "0")
      (closedWhileQueued.drop 8) :=
    ⟨_, [.closeCheck], s₀, s₁, rfl, hpre, hexcluded, hs₁, hbusy, by simp⟩
  have hclosed := h.closed _ _ _ s hbefore (by simp [closedWhileQueued]) hrun
  rw [hclosed] at hopen
  cases hopen

end Server

end WitcherScriptLanguage
