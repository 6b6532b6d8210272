import WitcherScriptLanguage.Library.Gates
import WitcherScriptLanguage.Lsp.ViewRefresher

/-!
# The initial index

`_initialized` (`lifecycle.rs`) indexes the workspace and the base scripts, opens the requests that
wait for the index (`await_initial_index` in `edit_queue.rs`) and raises the version of the state.
A pull for diagnostics does not wait: before the index it gets an empty report
(`queries/diagnostics.rs`), and the client is asked to pull again.
-/

namespace WitcherScriptLanguage

open Library

/-- What `_initialized` does next. -/
inductive InitializedStage
  | indexWorkspace
  | indexBaseScripts
  /-- `initial_index_done.store(true)` -/
  | storeDone
  /-- `index_ready_notify.notify_waiters()` -/
  | notifyWaiters
  /-- `mark_state_changed` raises the version and then notifies the refresher. -/
  | markRaise
  | markNotify
  | complete
  deriving DecidableEq, Repr

namespace InitializedStage

/-- Both indexes are published and the flag says so. -/
def indexed : InitializedStage → Bool
  | indexWorkspace | indexBaseScripts | storeDone => false
  | notifyWaiters | markRaise | markNotify | complete => true

def notified : InitializedStage → Bool
  | indexWorkspace | indexBaseScripts | storeDone | notifyWaiters => false
  | markRaise | markNotify | complete => true

def marked : InitializedStage → Bool
  | indexWorkspace | indexBaseScripts | storeDone | notifyWaiters | markRaise => false
  | markNotify | complete => true

lemma indexed_of_marked {stage : InitializedStage} (h : stage.marked = true) :
    stage.indexed = true := by
  cases stage <;> first | rfl | cases h

end InitializedStage

structure InitialIndex where
  stage : InitializedStage := .indexWorkspace
  /-- `initial_index_done` and `index_ready_notify`, with the requests by number. -/
  gate : Gate Nat := {}
  views : ViewRefresher
  /-- The versions at which pulls were given empty reports. This is history. -/
  emptyReports : List UInt64 := []

namespace InitialIndex

inductive Event
  /-- The next step of `_initialized`. A step that indexes publishes its edits, or returns early
  with none. -/
  | initialized (edits : Option (List BuilderEdit))
  /-- A step of a request in `await_initial_index`. -/
  | request (i : Nat)
  /-- A pull for diagnostics looks at the flag. -/
  | pull
  /-- A step of the refresher, or of any other task that publishes or marks the state. -/
  | view (e : ViewRefresher.Event)

section

variable (supported : ViewKind → Bool)

/-- `index_workspace` and `index_base_scripts` -/
def index (s : InitialIndex) (edits : Option (List BuilderEdit)) : Option ViewRefresher :=
  match edits with
  | some edits => s.views.step supported (.publish edits)
  | none => some s.views

def advance (s : InitialIndex) (edits : Option (List BuilderEdit)) : Option InitialIndex :=
  match s.stage with
  | .indexWorkspace => (s.index supported edits).map fun views =>
      { s with views, stage := .indexBaseScripts }
  | .indexBaseScripts => (s.index supported edits).map fun views =>
      { s with views, stage := .storeDone }
  | .storeDone => some { s with gate := s.gate.unlock, stage := .notifyWaiters }
  | .notifyWaiters => some { s with gate := s.gate.callAll, stage := .markRaise }
  | .markRaise => (s.views.step supported .markRaise).map fun views =>
      { s with views, stage := .markNotify }
  | .markNotify => (s.views.step supported .markNotify).map fun views =>
      { s with views, stage := .complete }
  | .complete => none

/-- One step; `none` when the event cannot happen. -/
def step (s : InitialIndex) : Event → Option InitialIndex
  | .initialized edits => s.advance supported edits
  | .request i => (s.gate.move i).map fun gate => { s with gate }
  | .pull =>
    if s.gate.opened then some s
    else some { s with emptyReports := s.views.stateVersion :: s.emptyReports }
  | .view e => (s.views.step supported e).map fun views => { s with views }

end

def start (c : PublishedCompilation) : InitialIndex where
  views := .start c

/-- The version does not wrap around. -/
def Fits (s : InitialIndex) : Event → Prop
  | .initialized _ => s.views.Fits .markRaise
  | .view e => s.views.Fits e
  | .request _ | .pull => True

instance (s : ViewRefresher) : (e : ViewRefresher.Event) → Decidable (s.Fits e)
  | .raise | .markRaise => inferInstanceAs (Decidable (s.stateVersion.toNat + 1 < 2 ^ 64))
  | .publish _ | .notify | .markNotify | .await | .load | .emit => inferInstanceAs (Decidable True)

instance (s : InitialIndex) : (e : Event) → Decidable (s.Fits e)
  | .initialized _ => inferInstanceAs (Decidable (s.views.Fits .markRaise))
  | .view e => inferInstanceAs (Decidable (s.views.Fits e))
  | .request _ | .pull => inferInstanceAs (Decidable True)

def Event.isRequest (i : Nat) : Event → Bool
  | .request j => i = j
  | _ => false

/-- The steps of a run that one request takes. -/
def moves (i : Nat) (es : List Event) : Nat := es.countP fun e => e.isRequest i

end InitialIndex

namespace ViewRefresher

variable {supported : ViewKind → Bool} {s s' : ViewRefresher}

/-- The last version that the client was told of is among those announced. -/
def Announced (s : ViewRefresher) : Prop := s.lastEmitted = 0 ∨ s.lastEmitted ∈ s.emitted

lemma Announced.step (h : s.Announced) {e : Event} (hstep : s.step supported e = some s') :
    s'.Announced := by
  cases e with
  | publish | raise | notify | markNotify | await | load =>
    obtain ⟨-, hs'⟩ := Option.ite_none_right_eq_some.mp hstep
    rw [← Option.some.inj hs']
    exact h
  | markRaise =>
    rw [← Option.some.inj hstep]
    exact h
  | emit =>
    unfold ViewRefresher.step at hstep
    cases hread : s.read with
    | none =>
      rw [hread] at hstep
      exact absurd hstep (Option.some_ne_none _).symm
    | some read =>
      rw [hread] at hstep
      simp only at hstep
      by_cases hold : read.1 = s.lastEmitted
      · rw [if_pos hold] at hstep
        rw [← Option.some.inj hstep]
        exact h
      · rw [if_neg hold] at hstep
        rw [← Option.some.inj hstep]
        exact Or.inr (List.mem_append_right _ (List.mem_singleton_self read.1))

/-- No step takes the version back. -/
lemma stateVersion_le_step {e : Event} (hfits : s.Fits e)
    (hstep : s.step supported e = some s') : s.stateVersion ≤ s'.stateVersion :=
  ((since_refl s).step hfits hstep).version

end ViewRefresher

namespace InitialIndex

structure Inv (supported : ViewKind → Bool) (s : InitialIndex) : Prop where
  views : ViewRefresher.Inv supported s.views
  announced : s.views.Announced
  guarded : s.gate.Guarded
  opened : s.gate.opened = s.stage.indexed
  released : s.stage.notified = true → s.gate.Released
  reported : ∀ version ∈ s.emptyReports, version ≤ s.views.stateVersion
  outdated : s.stage.marked = true → ∀ version ∈ s.emptyReports, version < s.views.stateVersion

section

variable {supported : ViewKind → Bool} {s s' : InitialIndex}

lemma inv_start (c : PublishedCompilation) : Inv supported (start c) where
  views := ViewRefresher.inv_start c
  announced := Or.inl rfl
  guarded := Gate.guarded_start
  opened := rfl
  released := fun h => Bool.noConfusion h
  reported := List.forall_mem_nil _
  outdated := fun h => Bool.noConfusion h

/-- The views go on, and `_initialized` if it is the one that takes the step. -/
lemma Inv.withViews (h : Inv supported s) {views : ViewRefresher} {stage : InitializedStage}
    (hviews : ViewRefresher.Inv supported views) (hannounced : views.Announced)
    (hle : s.views.stateVersion ≤ views.stateVersion) (hindexed : stage.indexed = s.stage.indexed)
    (hnotified : stage.notified = s.stage.notified)
    (hmarked : stage.marked = true → s.stage.marked = true ∨
      s.views.stateVersion < views.stateVersion) :
    Inv supported { s with views, stage } := by
  have hreported : ∀ version ∈ s.emptyReports, version ≤ views.stateVersion :=
    fun version hversion => UInt64.le_trans (h.reported version hversion) hle
  refine ⟨hviews, hannounced, h.guarded, ?_, ?_, hreported, ?_⟩
  · exact h.opened.trans hindexed.symm
  · intro hcalled
    exact h.released (hnotified.symm.trans hcalled)
  · intro hafter version hversion
    rcases hmarked hafter with hbefore | hraised
    · exact UInt64.lt_of_lt_of_le (h.outdated hbefore version hversion) hle
    · exact UInt64.lt_of_le_of_lt (h.reported version hversion) hraised

/-- A step of the views, and of `_initialized` if it is the one that takes it. -/
lemma Inv.views_step (h : Inv supported s) {e : ViewRefresher.Event} {views : ViewRefresher}
    {stage : InitializedStage} (hfits : s.views.Fits e)
    (hstep : s.views.step supported e = some views) (hindexed : stage.indexed = s.stage.indexed)
    (hnotified : stage.notified = s.stage.notified)
    (hmarked : stage.marked = true → s.stage.marked = true ∨
      s.views.stateVersion < views.stateVersion) :
    Inv supported { s with views, stage } :=
  h.withViews (h.views.step hfits hstep) (h.announced.step hstep)
    (ViewRefresher.stateVersion_le_step hfits hstep) hindexed hnotified hmarked

lemma Inv.index (h : Inv supported s) {edits : Option (List BuilderEdit)} {views : ViewRefresher}
    {stage : InitializedStage} (hstep : s.index supported edits = some views)
    (hindexed : stage.indexed = s.stage.indexed) (hnotified : stage.notified = s.stage.notified)
    (hmarked : stage.marked = false) : Inv supported { s with views, stage } := by
  have hnot : stage.marked = true → s.stage.marked = true ∨
      s.views.stateVersion < views.stateVersion :=
    fun hafter => Bool.noConfusion (hmarked.symm.trans hafter)
  cases edits with
  | none =>
    rw [← Option.some.inj hstep] at hnot ⊢
    exact h.withViews h.views h.announced (UInt64.le_refl _) hindexed hnotified hnot
  | some edits =>
    exact h.views_step (show s.views.Fits (.publish edits) from trivial) hstep hindexed hnotified
      hnot

lemma Inv.advance (h : Inv supported s) {edits : Option (List BuilderEdit)}
    (hfits : s.views.Fits .markRaise) (hstep : s.advance supported edits = some s') :
    Inv supported s' := by
  unfold InitialIndex.advance at hstep
  cases hstage : s.stage with
  | indexWorkspace | indexBaseScripts =>
    rw [hstage] at hstep
    obtain ⟨views, hviews, rfl⟩ := Option.map_eq_some_iff.mp hstep
    apply h.index hviews
    · rw [hstage]
      rfl
    · rw [hstage]
      rfl
    · rfl
  | storeDone =>
    rw [hstage] at hstep
    rw [← Option.some.inj hstep]
    exact { h with
      guarded := Gate.guarded_unlock, opened := rfl
      released := fun hnotified => Bool.noConfusion hnotified
      outdated := fun hmarked => Bool.noConfusion hmarked }
  | notifyWaiters =>
    have hopened := h.opened
    rw [hstage] at hstep hopened
    rw [← Option.some.inj hstep]
    exact { h with
      guarded := h.guarded.callAll, opened := hopened
      released := fun _ => Gate.released_callAll hopened
      outdated := fun hmarked => Bool.noConfusion hmarked }
  | markRaise =>
    rw [hstage] at hstep
    obtain ⟨views, hviews, rfl⟩ := Option.map_eq_some_iff.mp hstep
    apply h.views_step hfits hviews
    · rw [hstage]
      rfl
    · rw [hstage]
      rfl
    · intro _
      right
      rw [← Option.some.inj hviews]
      exact ViewRefresher.lt_raised (UInt64.le_refl _) hfits
  | markNotify =>
    rw [hstage] at hstep
    obtain ⟨views, hviews, rfl⟩ := Option.map_eq_some_iff.mp hstep
    apply h.views_step (show s.views.Fits .markNotify from trivial) hviews
    · rw [hstage]
      rfl
    · rw [hstage]
      rfl
    · intro _
      left
      rw [hstage]
      rfl
  | complete =>
    rw [hstage] at hstep
    cases hstep

theorem Inv.step (h : Inv supported s) {e : Event} (hfits : s.Fits e)
    (hstep : s.step supported e = some s') : Inv supported s' := by
  cases e with
  | initialized edits => exact h.advance hfits hstep
  | request i =>
    obtain ⟨gate, hmove, rfl⟩ := Option.map_eq_some_iff.mp hstep
    exact { h with
      guarded := h.guarded.move hmove
      opened := (Gate.move_spec hmove).2.1.trans h.opened
      released := fun hnotified => (h.released hnotified).move hmove }
  | pull =>
    unfold InitialIndex.step at hstep
    split_ifs at hstep with hopened
    · rw [← Option.some.inj hstep]
      exact h
    · rw [← Option.some.inj hstep]
      refine { h with reported := ?_, outdated := ?_ }
      · exact List.forall_mem_cons.mpr ⟨UInt64.le_refl _, h.reported⟩
      · -- The flag is set before the version is raised.
        intro hmarked
        have hindexed := InitializedStage.indexed_of_marked hmarked
        exact absurd (h.opened.trans hindexed) hopened
  | view e =>
    obtain ⟨views, hviews, rfl⟩ := Option.map_eq_some_iff.mp hstep
    exact h.views_step hfits hviews rfl rfl Or.inl

/-- Behind the call `_initialized` leaves the requests alone. -/
lemma advance_notified (h : s.stage.notified = true) {edits : Option (List BuilderEdit)}
    (hstep : s.advance supported edits = some s') :
    s'.gate = s.gate ∧ s'.stage.notified = true := by
  unfold InitialIndex.advance at hstep
  cases hstage : s.stage with
  | indexWorkspace | indexBaseScripts | storeDone | notifyWaiters =>
    rw [hstage] at h
    cases h
  | markRaise | markNotify =>
    rw [hstage] at hstep
    obtain ⟨views, -, rfl⟩ := Option.map_eq_some_iff.mp hstep
    exact ⟨rfl, rfl⟩
  | complete =>
    rw [hstage] at hstep
    cases hstep

lemma notified_step (h : s.stage.notified = true) {e : Event}
    (hstep : s.step supported e = some s') : s'.stage.notified = true := by
  cases e with
  | initialized edits => exact (advance_notified h hstep).2
  | request i =>
    obtain ⟨gate, -, rfl⟩ := Option.map_eq_some_iff.mp hstep
    exact h
  | pull =>
    unfold InitialIndex.step at hstep
    split_ifs at hstep <;> rw [← Option.some.inj hstep] <;> exact h
  | view e =>
    obtain ⟨views, -, rfl⟩ := Option.map_eq_some_iff.mp hstep
    exact h

lemma remaining_step (h : s.stage.notified = true) (hreleased : s.gate.Released) {e : Event}
    (hstep : s.step supported e = some s') (i : Nat) :
    (s'.gate.passage i).remaining + (if e.isRequest i then 1 else 0) =
      (s.gate.passage i).remaining := by
  cases e with
  | initialized edits =>
    rw [(advance_notified h hstep).1]
    rfl
  | request j =>
    obtain ⟨gate, hmove, rfl⟩ := Option.map_eq_some_iff.mp hstep
    have hless := hreleased.remaining_move hmove i
    simpa [Event.isRequest, eq_comm] using hless
  | pull =>
    unfold InitialIndex.step at hstep
    split_ifs at hstep <;> rw [← Option.some.inj hstep] <;> rfl
  | view e =>
    obtain ⟨views, -, rfl⟩ := Option.map_eq_some_iff.mp hstep
    rfl

/-- Behind the call every step of a request brings it closer. -/
lemma remaining_run (hinv : Inv supported s) (h : s.stage.notified = true) {es : List Event}
    (hfits : AllSteps (step supported) Fits s es) (hrun : run (step supported) s es = some s')
    (i : Nat) :
    (s'.gate.passage i).remaining + moves i es = (s.gate.passage i).remaining := by
  induction es generalizing s with
  | nil =>
    cases hrun
    rfl
  | cons e es ih =>
    obtain ⟨mid, hmid, hrest⟩ := run_cons_eq_some hrun
    obtain ⟨he, hes⟩ := allSteps_cons.mp hfits
    have hless := remaining_step h (hinv.released h) hmid i
    have hlater := ih (hinv.step he hmid) (notified_step h hmid) (hes mid hmid) hrest
    rw [moves, List.countP_cons, ← moves, ← hless, ← hlater, Nat.add_assoc]

/-- In every order of steps: a request is let through only when both indexes are published; once
the waiting ones have been called nobody sleeps any more, so that four steps of its own bring
each request through; and when the server is at rest after `_initialized`, every pull that was
given an empty report is followed by a refresh. -/
theorem initial_index_served {c : PublishedCompilation} {s₁ s₂ : InitialIndex}
    {es₁ es₂ : List Event} (h₁ : run (step supported) (start c) es₁ = some s₁)
    (h₂ : run (step supported) s₁ es₂ = some s₂)
    (hfits : AllSteps (step supported) Fits (start c) (es₁ ++ es₂)) :
    (∀ i, s₁.gate.passage i = .passed → s₁.stage.indexed = true) ∧
      (s₁.stage.notified = true → ∀ i,
        (s₁.gate.passage i ≠ .passed → ∃ s, s₁.step supported (.request i) = some s) ∧
          (4 ≤ moves i es₂ → s₂.gate.passage i = .passed)) ∧
      (s₁.stage = .complete → s₁.views.Quiet →
        (∀ version ∈ s₁.emptyReports, ∃ later ∈ s₁.views.emitted, version < later) ∧
          ∀ kind, supported kind = true →
            s₁.views.requests.count kind = s₁.views.emitted.length) := by
  have hinv : Inv supported s₁ := run_invariant (fun _ _ _ h hf hs => Inv.step h hf hs)
    (inv_start c) hfits.append_left h₁
  refine ⟨?_, ?_, ?_⟩
  · intro i hpassed
    rw [← hinv.opened]
    exact hinv.guarded i hpassed
  · intro hnotified i
    constructor
    · intro hnot
      obtain ⟨gate, hmove⟩ := (hinv.released hnotified).exists_move hnot
      exact ⟨_, Option.map_eq_some_iff.mpr ⟨gate, hmove, rfl⟩⟩
    · intro hmoves
      have hrun := remaining_run hinv hnotified (hfits.append_right h₁) h₂ i
      have hle := (s₁.gate.passage i).remaining_le
      apply Passage.remaining_eq_zero.mp
      omega
  · intro hcomplete hquiet
    constructor
    · intro version hversion
      have hlt := hinv.outdated (by rw [hcomplete]; rfl) version hversion
      rw [hinv.views.known_of_quiet hquiet] at hlt
      rcases hinv.announced with hzero | hmem
      · rw [hzero] at hlt
        exact absurd hlt UInt64.not_lt_zero
      · exact ⟨_, hmem, hlt⟩
    · intro kind hkind
      rw [hinv.views.requested, if_pos hkind]

end

/-- A request registers and sleeps, a pull is answered before the index, and the sleeper is
called. -/
def indexing : List Event :=
  [.view .await, .request 0, .request 0, .request 0, .pull, .initialized none,
    .initialized (some [.setSuppressedBaseUris {"a.ws"}]), .view .raise, .view .notify,
    .initialized none, .initialized none]

/-- `_initialized` marks the state, and the refresher asks for a refresh. -/
def refreshing : List Event :=
  [.initialized none, .initialized none, .view .load, .view .emit, .view .await, .view .load,
    .view .emit, .view .await]

/-- The called request comes through. -/
def passing : List Event := [.request 0, .request 0, .request 0, .request 0]

/-- The state behind a run that goes through. -/
def behind (s : InitialIndex) (es : List Event) : InitialIndex :=
  (run (step fun _ => true) s es).getD s

theorem initial_index_served_onePull :
    (behind (start {}) (indexing ++ (refreshing ++ passing))).gate.passage 0 = .passed ∧
      ∃ later ∈ (behind (start {}) (indexing ++ refreshing)).views.emitted, 0 < later := by
  have h₁ : run (step fun _ => true) (start {}) indexing =
      some (behind (start {}) indexing) := rfl
  have h₂ : run (step fun _ => true) (behind (start {}) indexing) (refreshing ++ passing) =
      some (behind (start {}) (indexing ++ (refreshing ++ passing))) := rfl
  have h₃ : run (step fun _ => true) (start {}) (indexing ++ refreshing) =
      some (behind (start {}) (indexing ++ refreshing)) := rfl
  have h₄ : run (step fun _ => true) (behind (start {}) (indexing ++ refreshing)) passing =
      some (behind (start {}) (indexing ++ (refreshing ++ passing))) := rfl
  have hfits : AllSteps (step fun _ => true) Fits (start {})
      (indexing ++ (refreshing ++ passing)) := by decide +kernel
  constructor
  · exact ((initial_index_served h₁ h₂ hfits).2.1 rfl 0).2 (by decide)
  · have hempty : 0 ∈ (behind (start {}) (indexing ++ refreshing)).emptyReports :=
      List.mem_singleton_self 0
    rw [← List.append_assoc] at hfits
    exact ((initial_index_served h₃ h₄ hfits).2.2 rfl ⟨rfl, rfl, rfl⟩).1 0 hempty

end InitialIndex

end WitcherScriptLanguage
