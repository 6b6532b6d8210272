import WitcherScriptLanguage.Lsp.EditQueue

/-!
# The edit queue keeps every change

Along a run of change notifications and steps of the edit writer, the latest text of an open
document is the fold of the batches received, and the published text is the fold of a prefix that
only grows, provided that a full replacement never arrives while an edit with another text is
queued: the replacement is published at once and the queued edit stays the latest.
-/

namespace WitcherScriptLanguage

open Library

namespace Server

/-- The events of change notifications and of the background edit writer. -/
def Event.isEdit : Event → Bool
  | .changeBegin .. | .changeFinish | .spawn | .wake | .collect _ | .take | .publish
  | .release => true
  | _ => false

/-- The batch of the document that a step has received. -/
def receivedBy (uri : Url) (s : Server) : Event → List (List ContentChange)
  | .changeFinish =>
    match s.handler with
    | .changing u batch _ => if u = uri then [batch] else []
    | _ => []
  | _ => []

/-- The batches of the document in the order received. -/
def received (env : Env) (uri : Url) (s : Server) (es : List Event) : List (List ContentChange) :=
  recordedBy (step env) (receivedBy uri) s es

/-- A full replacement of the document finds no edit with another text in the queue. -/
def replacesUnqueued (uri : Url) (s : Server) : Event → Bool
  | .changeFinish =>
    match s.handler with
    | .changing u batch source =>
      match applyBatch source true batch with
      | some (next, false) =>
        u ≠ uri || (s.pendingEdits.lookup uri).all fun edit => edit.source = next
      | _ => true
    | _ => true
  | _ => true

/-- No notification is in progress and the queue and the writer hold nothing of the document. -/
structure QuietAt (s : Server) (uri : Url) : Prop where
  idle : s.handler = .idle
  unqueued : s.pendingEdits.lookup uri = none
  unprocessed : ∀ edit rest, s.worker ≠ .processing uri edit rest
  released : ∀ target rest, s.worker ≠ .published uri target rest

/-- No update of the document is lost and none is taken back, from its text at the start. -/
structure KeepsEdits (env : Env) (start : Server) (es : List Event) (uri : Url)
    (text : String) : Prop where
  latest : ∀ pre post s, es = pre ++ post → run (step env) start pre = some s →
    s.handler = .idle →
    s.latestEditState uri = some (foldBatches text (received env uri start pre))
  drained : ∀ pre post s, es = pre ++ post → run (step env) start pre = some s →
    s.handler = .idle → s.pendingEdits.lookup uri = none →
    s.publishedText uri = some (foldBatches text (received env uri start pre))
  forward : ∃ position : Nat → Nat, Monotone position ∧
    ∀ pre post s, es = pre ++ post → run (step env) start pre = some s →
      position pre.length ≤ (received env uri start pre).length ∧
      s.publishedText uri =
        some (foldBatches text ((received env uri start pre).take (position pre.length)))

/-- `batches` have been received and the first `k` of them are published. -/
structure EditInv (uri : Url) (text : String) (s : Server) (batches : List (List ContentChange))
    (k : Nat) : Prop where
  position_le : k ≤ batches.length
  published : s.publishedText uri = some (foldBatches text (batches.take k))
  unqueued : s.pendingEdits.lookup uri = none →
    foldBatches text (batches.take k) = foldBatches text batches
  queued : ∀ edit, s.pendingEdits.lookup uri = some edit →
    edit.source = foldBatches text batches ∧ edit.targetParseVersion < s.nextVersion
  sync : s.editWriterSpawned = false → s.pendingEdits.lookup uri = none
  changing : ∀ batch source, s.handler = .changing uri batch source →
    source = foldBatches text batches
  processing : ∀ edit rest, s.worker = .processing uri edit rest →
    s.pendingEdits.lookup uri = some edit
  locked : s.worker.holdsTreeLock = true → s.handler.holdsTreeLock = false
  released : ∀ target rest, s.worker = .published uri target rest →
    target < s.nextVersion ∧
      ∀ edit, s.pendingEdits.lookup uri = some edit → edit.targetParseVersion = target →
        foldBatches text (batches.take k) = edit.source

variable {env : Env} {uri : Url} {text : String} {s s' : Server}
  {batches : List (List ContentChange)} {k : Nat}

lemma EditInv.latest (h : EditInv uri text s batches k) :
    s.latestEditState uri = some (foldBatches text batches) := by
  unfold latestEditState
  cases hqueued : s.pendingEdits.lookup uri with
  | none =>
    dsimp only
    rw [h.published, h.unqueued hqueued]
  | some edit =>
    dsimp only
    rw [(h.queued edit hqueued).1]

lemma EditInv.of_quiet (h : s.QuietAt uri) (htext : s.publishedText uri = some text) :
    EditInv uri text s [] 0 where
  position_le := Nat.le_refl 0
  published := htext
  unqueued := fun _ => rfl
  queued := fun edit hedit => by simp [h.unqueued] at hedit
  sync := fun _ => h.unqueued
  changing := fun batch source hchanging => by simp [h.idle] at hchanging
  processing := fun edit rest hworker => absurd hworker (h.unprocessed edit rest)
  locked := fun _ => by simp [h.idle, Handler.holdsTreeLock]
  released := fun target rest hworker => absurd hworker (h.released target rest)

/-- The batch that a finished notification adds. -/
lemma receivedBy_changing {u : Url} {batch : List ContentChange} {source : String}
    (h : s.handler = .changing u batch source) :
    receivedBy uri s .changeFinish = if u = uri then [batch] else [] := by
  simp [receivedBy, h]

lemma take_received {batch : List ContentChange} (hk : k ≤ batches.length) :
    (batches ++ [batch]).take k = batches.take k :=
  List.take_append_of_le_length hk

lemma take_all_received {batch : List ContentChange} :
    (batches ++ [batch]).take (batches.length + 1) = batches ++ [batch] :=
  List.take_of_length_le (by simp)

/-- A batch that is out of range changes neither the latest nor the published text. -/
lemma EditInv.outOfRange {u : Url} {batch : List ContentChange} {source : String}
    (h : EditInv uri text s batches k) (hchanging : s.handler = .changing u batch source)
    (happly : applyBatch source true batch = none) :
    EditInv uri text { s with handler := .idle } (batches ++ receivedBy uri s .changeFinish) k := by
  rw [receivedBy_changing hchanging]
  split_ifs with hu
  · subst hu
    have hfold : foldBatches text (batches ++ [batch]) = foldBatches text batches := by
      rw [foldBatches_snoc, ← h.changing batch source hchanging, afterBatch_outOfRange happly]
    exact {
      position_le := by
        have := h.position_le
        simp
        omega
      published := by
        rw [take_received h.position_le]
        exact h.published
      unqueued := fun hnone => by
        rw [take_received h.position_le, hfold]
        exact h.unqueued hnone
      queued := fun edit hedit => by
        rw [hfold]
        exact h.queued edit hedit
      sync := h.sync
      changing := nofun
      processing := h.processing
      locked := fun _ => rfl
      released := fun target rest hworker => by
        rw [take_received h.position_le]
        exact h.released target rest hworker }
  · rw [List.append_nil]
    exact { h with changing := nofun, locked := fun _ => rfl }

/-- Publishing the latest text of the document moves the position to the end. -/
lemma EditInv.publishLatest (h : EditInv uri text s batches k) {batch : List ContentChange}
    {source next : String} {valid : Bool} {c : Compilation}
    (hchanging : s.handler = .changing uri batch source)
    (happly : applyBatch source true batch = some (next, valid))
    (hc : c.openText uri = some next)
    (hqueue : ∀ edit, s.pendingEdits.lookup uri = some edit → edit.source = next) (v : Nat)
    (hv : s.nextVersion ≤ v) :
    EditInv uri text { s with handler := .idle, nextVersion := v, compilation := c }
      (batches ++ [batch]) (batches.length + 1) := by
  have hfold : foldBatches text (batches ++ [batch]) = next := by
    rw [foldBatches_snoc, ← h.changing batch source hchanging, afterBatch_eq happly]
  exact {
    position_le := by simp
    published := by
      rw [take_all_received, hfold]
      exact hc
    unqueued := fun _ => by rw [take_all_received]
    queued := fun edit hedit => by
      rw [hfold]
      exact ⟨hqueue edit hedit, Nat.lt_of_lt_of_le (h.queued edit hedit).2 hv⟩
    sync := h.sync
    changing := nofun
    processing := h.processing
    locked := fun _ => rfl
    released := fun target rest hworker => by
      refine ⟨Nat.lt_of_lt_of_le (h.released target rest hworker).1 hv, fun edit hedit _ => ?_⟩
      rw [take_all_received, hfold]
      exact (hqueue edit hedit).symm }

/-- The notification of another document leaves this one alone. -/
lemma EditInv.other (h : EditInv uri text s batches k) {c : Compilation}
    (hc : c.openText uri = s.compilation.openText uri)
    {pending : AList (fun _ : Url => PendingEdit)}
    (hpending : pending.lookup uri = s.pendingEdits.lookup uri) {v : Nat}
    (hv : s.nextVersion ≤ v) (notify : Bool) :
    EditInv uri text { s with
      handler := .idle, nextVersion := v, compilation := c, pendingEdits := pending
      editNotify := notify } batches k where
  position_le := h.position_le
  published := hc.trans h.published
  unqueued hnone := h.unqueued (hpending.symm.trans hnone)
  queued edit hedit :=
    have hold := h.queued edit (hpending.symm.trans hedit)
    ⟨hold.1, Nat.lt_of_lt_of_le hold.2 hv⟩
  sync hspawned := hpending.trans (h.sync hspawned)
  changing := nofun
  processing edit rest hworker := hpending.trans (h.processing edit rest hworker)
  locked _ := rfl
  released target rest hworker :=
    have hold := h.released target rest hworker
    ⟨Nat.lt_of_lt_of_le hold.1 hv, fun edit hedit => hold.2 edit (hpending.symm.trans hedit)⟩

lemma EditInv.enqueue (h : EditInv uri text s batches k) {batch : List ContentChange}
    {source next : String} (hchanging : s.handler = .changing uri batch source)
    (happly : applyBatch source true batch = some (next, true))
    (hspawned : s.editWriterSpawned = true) :
    EditInv uri text { s with
      handler := .idle
      nextVersion := s.nextVersion + 1
      pendingEdits := s.pendingEdits.insert uri ⟨next, s.nextVersion⟩
      editNotify := true } (batches ++ [batch]) k := by
  have hfold : foldBatches text (batches ++ [batch]) = next := by
    rw [foldBatches_snoc, ← h.changing batch source hchanging, afterBatch_eq happly]
  exact {
    position_le := by
      have := h.position_le
      simp
      omega
    published := by
      rw [take_received h.position_le]
      exact h.published
    unqueued := fun hnone => by simp at hnone
    queued := fun edit hedit => by
      rw [AList.lookup_insert] at hedit
      cases hedit
      exact ⟨hfold.symm, Nat.lt_succ_self _⟩
    sync := fun hno => by simp [hspawned] at hno
    changing := nofun
    processing := fun edit rest hworker => by
      have hlock := h.locked (by rw [hworker]; rfl)
      rw [hchanging] at hlock
      cases hlock
    locked := fun _ => rfl
    released := fun target rest hworker => by
      have hold := h.released target rest hworker
      refine ⟨Nat.lt_succ_of_lt hold.1, fun edit hedit htarget => ?_⟩
      -- The entry is newer than the one the writer has published.
      rw [AList.lookup_insert] at hedit
      cases hedit
      exact absurd htarget (Nat.ne_of_gt hold.1) }

lemma EditInv.publish (h : EditInv uri text s batches k) {edit : PendingEdit} {rest : List Url}
    {c : Compilation} (hworker : s.worker = .processing uri edit rest)
    (hc : c.openText uri = some edit.source) :
    EditInv uri text { s with
      compilation := c, worker := .published uri edit.targetParseVersion rest }
      batches batches.length := by
  have hpending := h.processing edit rest hworker
  have hqueued := h.queued edit hpending
  exact {
    position_le := Nat.le_refl _
    published := by
      rw [List.take_length, ← hqueued.1]
      exact hc
    unqueued := fun _ => by rw [List.take_length]
    queued := h.queued
    sync := h.sync
    changing := h.changing
    processing := nofun
    locked := nofun
    released := fun target rest' hpublished => by
      cases hpublished
      refine ⟨hqueued.2, fun current hcurrent _ => ?_⟩
      rw [List.take_length]
      exact (h.queued current hcurrent).1.symm }

lemma EditInv.publishOther (h : EditInv uri text s batches k) {u : Url} {edit : PendingEdit}
    {rest : List Url} {c : Compilation} (hu : u ≠ uri)
    (hc : c.openText uri = s.compilation.openText uri) :
    EditInv uri text { s with
      compilation := c, worker := .published u edit.targetParseVersion rest } batches k where
  position_le := h.position_le
  published := hc.trans h.published
  unqueued := h.unqueued
  queued := h.queued
  sync := h.sync
  changing := h.changing
  processing := nofun
  locked := nofun
  released target rest' hpublished := by
    cases hpublished
    exact absurd rfl hu

/-- A writer that neither processes nor has published an edit of the document. -/
lemma EditInv.idleWorker (h : EditInv uri text s batches k) {w : Worker} {notify : Bool}
    (hprocessing : ∀ edit rest, w = .processing uri edit rest →
      s.pendingEdits.lookup uri = some edit)
    (hlocked : w.holdsTreeLock = true → s.handler.holdsTreeLock = false)
    (hpublished : ∀ target rest, w ≠ .published uri target rest) :
    EditInv uri text { s with worker := w, editNotify := notify } batches k :=
  { h with
    processing := hprocessing
    locked := hlocked
    released := fun target rest hw => absurd hw (hpublished target rest) }

lemma EditInv.release (h : EditInv uri text s batches k) {u : Url} {target : Nat}
    {rest : List Url} {current : PendingEdit} (hworker : s.worker = .published u target rest)
    (hcurrent : s.pendingEdits.lookup u = some current)
    (htarget : current.targetParseVersion = target) :
    EditInv uri text
      { s with worker := .next rest, pendingEdits := s.pendingEdits.erase u } batches k := by
  by_cases hu : uri = u
  · subst hu
    have hgone : (s.pendingEdits.erase uri).lookup uri = none := AList.lookup_erase _ _
    exact { h with
      unqueued := fun _ =>
        ((h.released target rest hworker).2 current hcurrent htarget).trans
          (h.queued current hcurrent).1
      queued := fun edit hedit => by simp [hgone] at hedit
      sync := fun _ => hgone
      processing := nofun
      locked := nofun
      released := nofun }
  · have hkept : (s.pendingEdits.erase u).lookup uri = s.pendingEdits.lookup uri :=
      AList.lookup_erase_ne hu
    exact { h with
      unqueued := fun hnone => h.unqueued (hkept.symm.trans hnone)
      queued := fun edit hedit => h.queued edit (hkept.symm.trans hedit)
      sync := fun hspawned => hkept.trans (h.sync hspawned)
      processing := nofun
      locked := nofun
      released := nofun }

/-- Every step keeps the invariant and moves the position forward. -/
theorem EditInv.step (hparse : ∀ t, (env.parse t).isSome) (h : EditInv uri text s batches k)
    {e : Event} (hedit : e.isEdit = true) (hgood : replacesUnqueued uri s e = true)
    (hmoves : Moves env s e s') :
    ∃ k', k ≤ k' ∧ EditInv uri text s' (batches ++ receivedBy uri s e) k' := by
  have hk : k ≤ batches.length + 1 := Nat.le_succ_of_le h.position_le
  cases hmoves with
  | openIgnored | openBegin | openCommit | closeIgnored | closeLoose | closeExcluded
  | closeBegin | closeCheck | closeCommit => cases hedit
  | changeIgnored | changeUnopened =>
    simp only [receivedBy, List.append_nil]
    exact ⟨k, Nat.le_refl k, { h with }⟩
  | @changeBegin u batch source hidle hlock hlatest =>
    simp only [receivedBy, List.append_nil]
    refine ⟨k, Nat.le_refl k, { h with changing := ?_, locked := ?_ }⟩
    · intro batch' source' hchanging
      cases hchanging
      rw [h.latest] at hlatest
      exact (Option.some.inj hlatest).symm
    · intro hworker
      rw [hlock] at hworker
      cases hworker
  | changeOutOfRange hchanging happly =>
    exact ⟨k, Nat.le_refl k, h.outOfRange hchanging happly⟩
  | @changeProcessed u batch source next hchanging happly hspawned =>
    rw [receivedBy_changing hchanging]
    have hc := Env.openText_processPendingEdit hparse s.compilation u uri ⟨next, s.nextVersion⟩
    split_ifs with hu
    · subst hu
      rw [if_pos rfl] at hc
      have hnone := h.sync hspawned
      exact ⟨_, hk, h.publishLatest hchanging happly hc (fun edit hedit => by simp [hnone] at hedit)
        _ (Nat.le_succ _)⟩
    · rw [if_neg (Ne.symm hu)] at hc
      rw [List.append_nil]
      exact ⟨k, Nat.le_refl k, h.other hc rfl (Nat.le_succ _) _⟩
  | @changeQueued u batch source next hchanging happly hspawned =>
    rw [receivedBy_changing hchanging]
    split_ifs with hu
    · subst hu
      exact ⟨k, Nat.le_refl k, h.enqueue hchanging happly hspawned⟩
    · rw [List.append_nil]
      exact ⟨k, Nat.le_refl k,
        h.other rfl (AList.lookup_insert_ne (Ne.symm hu)) (Nat.le_succ _) true⟩
  | @changeReplaced u batch source next hchanging happly =>
    rw [receivedBy_changing hchanging]
    have hc := Env.openText_updateOpenDocument hparse s.compilation u uri next
    split_ifs with hu
    · subst hu
      rw [if_pos rfl] at hc
      have hqueue : ∀ edit, s.pendingEdits.lookup u = some edit → edit.source = next := by
        intro edit hedit
        simpa [replacesUnqueued, hchanging, happly, hedit] using hgood
      exact ⟨_, hk, h.publishLatest hchanging happly hc hqueue _ (Nat.le_refl _)⟩
    · rw [if_neg (Ne.symm hu)] at hc
      rw [List.append_nil]
      exact ⟨k, Nat.le_refl k, h.other hc rfl (Nat.le_refl _) _⟩
  | spawn =>
    simp only [receivedBy, List.append_nil]
    exact ⟨k, Nat.le_refl k, { h with sync := nofun }⟩
  | wake | collectNone | collect | takeNone | takeGone | releaseKept =>
    simp only [receivedBy, List.append_nil]
    exact ⟨k, Nat.le_refl k, h.idleWorker nofun nofun nofun⟩
  | @take u rest edit hworker hlock hpending =>
    simp only [receivedBy, List.append_nil]
    refine ⟨k, Nat.le_refl k, h.idleWorker ?_ (fun _ => hlock) nofun⟩
    intro edit' rest' hprocessing
    cases hprocessing
    exact hpending
  | @publish u edit rest hworker =>
    simp only [receivedBy, List.append_nil]
    have hc := Env.openText_processPendingEdit hparse s.compilation u uri edit
    by_cases hu : u = uri
    · subst hu
      rw [if_pos rfl] at hc
      exact ⟨_, h.position_le, h.publish hworker hc⟩
    · rw [if_neg (Ne.symm hu)] at hc
      exact ⟨k, Nat.le_refl k, h.publishOther hu hc⟩
  | release hworker hcurrent htarget =>
    simp only [receivedBy, List.append_nil]
    exact ⟨k, Nat.le_refl k, h.release hworker hcurrent htarget⟩

/-- The edit queue loses and takes back no update in every run in which full replacements find
no other edit of the document queued. -/
theorem edits_kept (hparse : ∀ t, (env.parse t).isSome) {start : Server} {es : List Event}
    (hquiet : start.QuietAt uri) (htext : start.publishedText uri = some text)
    (hedits : ∀ e ∈ es, e.isEdit = true)
    (hgood : AllSteps (Server.step env) (fun s e => replacesUnqueued uri s e = true) start es) :
    KeepsEdits env start es uri text := by
  have hsteps := hgood.and_mem hedits
  obtain ⟨position, hmono, -, hinv⟩ := run_monotone (I := EditInv uri text)
    (fun s e s' batches k h hg hs => h.step hparse hg.2 hg.1 (moves_of_step hs))
    (EditInv.of_quiet hquiet htext) hsteps
  have hinv' : ∀ pre post s, es = pre ++ post → run (Server.step env) start pre = some s →
      EditInv uri text s (received env uri start pre) (position pre.length) := hinv
  refine ⟨fun pre post s hes hrun _ => (hinv' pre post s hes hrun).latest,
    fun pre post s hes hrun _ hnone => ?_, position, hmono, fun pre post s hes hrun =>
      ⟨(hinv' pre post s hes hrun).position_le, (hinv' pre post s hes hrun).published⟩⟩
  have hfinal := hinv' pre post s hes hrun
  rw [hfinal.published, hfinal.unqueued hnone]

/-- A server with the edit writer at work and one open document. -/
def openedServer : Server where
  compilation := (flatEnv noDirs).updateOpenDocument {} "a.ws" "0"
  editWriterSpawned := true

lemma openedServer_quietAt : openedServer.QuietAt "a.ws" where
  idle := rfl
  unqueued := rfl
  unprocessed := nofun
  released := nofun

/-- Two incremental changes, the second of them while the writer publishes the first. -/
def twoEdits : List Event :=
  [.changeBegin "a.ws" [appendAt 1 "1"], .changeFinish, .wake, .collect ["a.ws"], .take, .publish,
    .changeBegin "a.ws" [appendAt 2 "2"], .changeFinish, .release, .take, .collect ["a.ws"]]

theorem edits_kept_twoEdits :
    KeepsEdits (flatEnv noDirs) openedServer twoEdits "a.ws" "0" :=
  edits_kept (fun _ => rfl) openedServer_quietAt rfl (by decide) (by decide)

/-- An incremental change, and a full replacement before the writer takes it. -/
def replacedWhileQueued : List Event :=
  [.changeBegin "a.ws" [appendAt 1 "1"], .changeFinish,
    .changeBegin "a.ws" [⟨none, "2"⟩], .changeFinish,
    .wake, .collect ["a.ws"], .take, .publish, .release]

/-- The queued edit overwrites the replacement. -/
theorem not_keepsEdits_replacedWhileQueued :
    ¬ KeepsEdits (flatEnv noDirs) openedServer replacedWhileQueued "a.ws" "0" := by
  intro h
  have hend : (run (Server.step (flatEnv noDirs)) openedServer replacedWhileQueued).map
      (fun s => (s.publishedText "a.ws", (s.pendingEdits.lookup "a.ws").isNone,
        s.handler.isIdle)) = some (some "01", true, true) := by
    decide
  obtain ⟨s, hrun, hs⟩ := Option.map_eq_some_iff.mp hend
  simp only [Prod.mk.injEq] at hs
  have hidle : s.handler = .idle := by
    have hbusy := hs.2.2
    cases hhandler : s.handler with
    | idle => rfl
    | opening | changing | closing | closingTo => simp [hhandler, Handler.isIdle] at hbusy
  have hdrained := h.drained replacedWhileQueued [] s (by simp) hrun hidle
    (Option.isNone_iff_eq_none.mp hs.2.1)
  rw [hs.1] at hdrained
  exact absurd hdrained (by decide)

end Server

end WitcherScriptLanguage
