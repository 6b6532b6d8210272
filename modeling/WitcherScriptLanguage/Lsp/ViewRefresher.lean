import WitcherScriptLanguage.Library.Notify
import WitcherScriptLanguage.Library.Runs
import WitcherScriptLanguage.Lsp.Compilation
import WitcherScriptLanguage.Resolve.MergedCatalogs

/-!
# Refreshing the views of the client

A publication stores the next compilation, raises the version of the state and notifies the view
refresher (`backend.rs`). The refresher wakes up, reads the version and asks the client to pull
its views again, unless it has already done so for that version (`view_refresh.rs`). An answer
that was computed from an old compilation must not stay on the screen.
-/

namespace WitcherScriptLanguage

open Library

/-- `Compilation` with its script environment and its filtered catalogs. -/
structure PublishedCompilation extends Compilation where
  scriptEnv : ScriptEnvironment := {}
  suppressedBaseUris : Finset String := ∅
  filteredBaseCatalogs : Option FilteredBaseCatalogs := none

/-- What the views of the client are computed from, beside the open buffer they belong to. -/
def PublishedCompilation.viewInputs (c : PublishedCompilation) : PublishedCompilation :=
  { c with documents := ∅ }

structure CompilationBuilder where
  base : PublishedCompilation
  workspaceIndex : Option WorkspaceIndex := none
  looseIndex : Option WorkspaceIndex := none
  baseScriptsIndex : Option WorkspaceIndex := none
  scriptEnv : Option ScriptEnvironment := none
  suppressedBaseUris : Option (Finset String) := none
  /-- `SetTo` -/
  filteredBaseCatalogs : Option (Option FilteredBaseCatalogs) := none
  documents : Option DocumentMap := none
  workspaceDocuments : Option DocumentMap := none
  baseScriptsDocuments : Option DocumentMap := none

/-- The methods that an edit calls on its builder. -/
inductive BuilderEdit
  | workspaceIndexMut (f : WorkspaceIndex → WorkspaceIndex)
  | looseIndexMut (f : WorkspaceIndex → WorkspaceIndex)
  | baseScriptsIndexMut (f : WorkspaceIndex → WorkspaceIndex)
  | setBaseScriptsIndex (index : WorkspaceIndex)
  | scriptEnvMut (f : ScriptEnvironment → ScriptEnvironment)
  | setSuppressedBaseUris (uris : Finset String)
  | setFilteredBaseCatalogs (catalogs : Option FilteredBaseCatalogs)
  | documentsMut (f : DocumentMap → DocumentMap)
  | workspaceDocumentsMut (f : DocumentMap → DocumentMap)
  | baseScriptsDocumentsMut (f : DocumentMap → DocumentMap)
  | setBaseScriptsDocuments (documents : DocumentMap)

namespace CompilationBuilder

variable (b : CompilationBuilder)

def apply : BuilderEdit → CompilationBuilder
  | .workspaceIndexMut f =>
    { b with workspaceIndex := some (f (b.workspaceIndex.getD b.base.workspaceIndex)) }
  | .looseIndexMut f => { b with looseIndex := some (f (b.looseIndex.getD b.base.looseIndex)) }
  | .baseScriptsIndexMut f =>
    { b with baseScriptsIndex := some (f (b.baseScriptsIndex.getD b.base.baseScriptsIndex)) }
  | .setBaseScriptsIndex index => { b with baseScriptsIndex := some index }
  | .scriptEnvMut f => { b with scriptEnv := some (f (b.scriptEnv.getD b.base.scriptEnv)) }
  | .setSuppressedBaseUris uris => { b with suppressedBaseUris := some uris }
  | .setFilteredBaseCatalogs catalogs => { b with filteredBaseCatalogs := some catalogs }
  | .documentsMut f => { b with documents := some (f (b.documents.getD b.base.documents)) }
  | .workspaceDocumentsMut f =>
    { b with
      workspaceDocuments := some (f (b.workspaceDocuments.getD b.base.workspaceDocuments)) }
  | .baseScriptsDocumentsMut f =>
    { b with
      baseScriptsDocuments := some (f (b.baseScriptsDocuments.getD b.base.baseScriptsDocuments)) }
  | .setBaseScriptsDocuments documents => { b with baseScriptsDocuments := some documents }

def changesViews : Bool :=
  b.workspaceIndex.isSome || b.looseIndex.isSome || b.baseScriptsIndex.isSome ||
    b.scriptEnv.isSome || b.suppressedBaseUris.isSome || b.filteredBaseCatalogs.isSome ||
    b.workspaceDocuments.isSome || b.baseScriptsDocuments.isSome

def finish : PublishedCompilation where
  workspaceIndex := b.workspaceIndex.getD b.base.workspaceIndex
  looseIndex := b.looseIndex.getD b.base.looseIndex
  baseScriptsIndex := b.baseScriptsIndex.getD b.base.baseScriptsIndex
  scriptEnv := b.scriptEnv.getD b.base.scriptEnv
  suppressedBaseUris := b.suppressedBaseUris.getD b.base.suppressedBaseUris
  filteredBaseCatalogs := b.filteredBaseCatalogs.getD b.base.filteredBaseCatalogs
  documents := b.documents.getD b.base.documents
  workspaceDocuments := b.workspaceDocuments.getD b.base.workspaceDocuments
  baseScriptsDocuments := b.baseScriptsDocuments.getD b.base.baseScriptsDocuments

/-- The builder that the edits leave. -/
def edited (current : PublishedCompilation) (edits : List BuilderEdit) : CompilationBuilder :=
  edits.foldl apply { base := current }

lemma base_edited (current : PublishedCompilation) (edits : List BuilderEdit) :
    (edited current edits).base = current := by
  have hfold : ∀ b : CompilationBuilder, (edits.foldl apply b).base = b.base := by
    induction edits with
    | nil => exact fun _ => rfl
    | cons edit edits ih =>
      intro b
      rw [List.foldl_cons, ih]
      cases edit <;> rfl
  exact hfold _

/-- An edit that changes no view leaves all that the views read. -/
lemma viewInputs_finish (h : b.changesViews = false) : b.finish.viewInputs = b.base.viewInputs := by
  unfold changesViews at h
  simp only [Bool.or_eq_false_iff, Option.isSome_eq_false_iff, Option.isNone_iff_eq_none] at h
  obtain ⟨⟨⟨⟨⟨⟨⟨hworkspace, hloose⟩, hbase⟩, henv⟩, hsuppressed⟩, hfiltered⟩, hworkspaceDocs⟩,
    hbaseDocs⟩ := h
  unfold finish PublishedCompilation.viewInputs
  rw [hworkspace, hloose, hbase, henv, hsuppressed, hfiltered, hworkspaceDocs, hbaseDocs]
  rfl

end CompilationBuilder

/-- The views that a client can be asked to pull again. -/
inductive ViewKind
  | semanticTokens | codeLens | diagnostic | inlayHint
  deriving DecidableEq, Repr

def ViewKind.all : List ViewKind := [.semanticTokens, .codeLens, .diagnostic, .inlayHint]

/-- The publication that holds the writer lock, after it has stored its compilation. -/
inductive Publishing
  | free
  | raising
  | notifying
  deriving DecidableEq

structure ViewRefresher where
  compilation : PublishedCompilation
  stateVersion : UInt64 := 0
  viewsDirty : Notify := {}
  writer : Publishing := .free
  /-- The calls of `mark_state_changed` that have raised the version and not notified yet. -/
  marking : Nat := 0
  /-- The version that the refresher has read, with the compilation of that moment. -/
  read : Option (UInt64 × PublishedCompilation) := none
  lastEmitted : UInt64 := 0
  emitted : List UInt64 := []
  requests : List ViewKind := []
  /-- The compilation when the version of the last refresh was read. This is history. -/
  shown : PublishedCompilation

namespace ViewRefresher

inductive Event
  | publish (edits : List BuilderEdit)
  | raise
  | notify
  /-- `mark_state_changed` -/
  | markRaise
  | markNotify
  | await
  | load
  | emit

/-- The requests that a refresh spawns. -/
def spawned (supported : ViewKind → Bool) : List ViewKind := ViewKind.all.filter supported

/-- One step; `none` when the event cannot happen. -/
def step (supported : ViewKind → Bool) (s : ViewRefresher) : Event → Option ViewRefresher
  | .publish edits =>
    if s.writer = .free then
      let builder := CompilationBuilder.edited s.compilation edits
      some { s with
        compilation := builder.finish
        writer := if builder.changesViews then .raising else .free }
    else none
  | .raise =>
    if s.writer = .raising then
      some { s with stateVersion := s.stateVersion + 1, writer := .notifying }
    else none
  | .notify =>
    if s.writer = .notifying then
      some { s with viewsDirty := s.viewsDirty.notifyOne, writer := .free }
    else none
  | .markRaise => some { s with stateVersion := s.stateVersion + 1, marking := s.marking + 1 }
  | .markNotify =>
    if 0 < s.marking then
      some { s with viewsDirty := s.viewsDirty.notifyOne, marking := s.marking - 1 }
    else none
  | .await =>
    if s.viewsDirty.waiter = .awake ∧ s.read = none then
      some { s with viewsDirty := s.viewsDirty.notified }
    else none
  | .load =>
    if s.viewsDirty.waiter = .called then
      some { s with
        viewsDirty := s.viewsDirty.resume
        read := some (s.stateVersion, s.compilation) }
    else none
  | .emit =>
    match s.read with
    | none => none
    | some (version, compilation) =>
      if version = s.lastEmitted then some { s with read := none }
      else some { s with
        read := none
        lastEmitted := version
        emitted := s.emitted ++ [version]
        requests := s.requests ++ spawned supported
        shown := compilation }

def start (c : PublishedCompilation) : ViewRefresher where
  compilation := c
  shown := c

/-- The version does not wrap around. -/
def Fits (s : ViewRefresher) : Event → Prop
  | .raise | .markRaise => s.stateVersion.toNat + 1 < 2 ^ 64
  | _ => True

/-- Nothing is being published, and the refresher waits. -/
def Quiet (s : ViewRefresher) : Prop :=
  s.writer = .free ∧ s.marking = 0 ∧ s.viewsDirty.waiter = .asleep

/-! ### The invariant -/

/-- The refresher knows the version, or something will let it look. -/
def Awaited (s : ViewRefresher) : Prop :=
  s.stateVersion = s.lastEmitted ∨ s.viewsDirty.Alerted ∨
    (∃ compilation, s.read = some (s.stateVersion, compilation)) ∨ s.writer = .notifying ∨
    0 < s.marking

structure Inv (supported : ViewKind → Bool) (s : ViewRefresher) : Prop where
  settled : s.viewsDirty.Settled
  reading : s.read ≠ none → s.viewsDirty.waiter = .awake
  emittedLe : s.lastEmitted ≤ s.stateVersion
  readLe : ∀ version compilation, s.read = some (version, compilation) →
    s.lastEmitted ≤ version ∧ version ≤ s.stateVersion
  awaited : s.Awaited
  shown : s.writer ≠ .raising → s.stateVersion = s.lastEmitted →
    s.compilation.viewInputs = s.shown.viewInputs
  seen : ∀ version compilation, s.read = some (version, compilation) → s.writer ≠ .raising →
    s.stateVersion = version → s.compilation.viewInputs = compilation.viewInputs
  increasing : s.emitted.Pairwise (· < ·) ∧ ∀ version ∈ s.emitted, version ≤ s.lastEmitted
  requested : ∀ kind, s.requests.count kind = if supported kind then s.emitted.length else 0

section

variable {supported : ViewKind → Bool} {s s' : ViewRefresher}

lemma inv_start (c : PublishedCompilation) : Inv supported (start c) where
  settled := fun _ => rfl
  reading := fun h => absurd rfl h
  emittedLe := UInt64.le_refl 0
  readLe := fun _ _ h => absurd h (Option.some_ne_none _).symm
  awaited := Or.inl rfl
  shown := fun _ _ => rfl
  seen := fun _ _ h => absurd h (Option.some_ne_none _).symm
  increasing := ⟨List.Pairwise.nil, List.forall_mem_nil _⟩
  requested := fun kind => by split_ifs <;> rfl

lemma count_spawned (kind : ViewKind) :
    (spawned supported).count kind = if supported kind then 1 else 0 := by
  unfold spawned
  split_ifs with h
  · rw [List.count_filter h]
    cases kind <;> rfl
  · rw [List.count_eq_zero]
    exact fun hmem => h (List.mem_filter.mp hmem).2

/-- A publication stores its compilation. -/
lemma Inv.publish (h : Inv supported s) (hfree : s.writer = .free) (edits : List BuilderEdit) :
    Inv supported { s with
      compilation := (CompilationBuilder.edited s.compilation edits).finish
      writer := if (CompilationBuilder.edited s.compilation edits).changesViews then .raising
        else .free } := by
  have hnot : s.writer ≠ .raising := by
    rw [hfree]
    exact Publishing.noConfusion
  by_cases hchanges : (CompilationBuilder.edited s.compilation edits).changesViews = true
  · rw [if_pos hchanges]
    refine { h with awaited := ?_, shown := ?_, seen := ?_ }
    · rcases h.awaited with hknown | halerted | hread | hnotifying | hmarking
      · exact Or.inl hknown
      · exact Or.inr (Or.inl halerted)
      · exact Or.inr (Or.inr (Or.inl hread))
      · exact Publishing.noConfusion (hfree.symm.trans hnotifying)
      · exact Or.inr (Or.inr (Or.inr (Or.inr hmarking)))
    · exact fun hraising => absurd rfl hraising
    · exact fun _ _ _ hraising => absurd rfl hraising
  · have hsame : (CompilationBuilder.edited s.compilation edits).finish.viewInputs =
        s.compilation.viewInputs := by
      rw [CompilationBuilder.viewInputs_finish _ (Bool.eq_false_iff.mpr hchanges),
        CompilationBuilder.base_edited]
    rw [if_neg hchanges]
    refine { h with awaited := ?_, shown := ?_, seen := ?_ }
    · have hawaited := h.awaited
      unfold Awaited at hawaited
      rw [hfree] at hawaited
      exact hawaited
    · exact fun _ hknown => hsame.trans (h.shown hnot hknown)
    · exact fun version compilation hread _ hversion =>
        hsame.trans (h.seen version compilation hread hnot hversion)

/-- What was read or shown is behind a raised version. -/
lemma lt_raised {version : UInt64} (hle : version ≤ s.stateVersion)
    (hfits : s.stateVersion.toNat + 1 < 2 ^ 64) : version < s.stateVersion + 1 := by
  rw [UInt64.le_iff_toNat_le] at hle
  rw [UInt64.lt_iff_toNat_lt, UInt64.toNat_add, UInt64.toNat_one, Nat.mod_eq_of_lt hfits]
  omega

/-- The version is raised while its notification is still to come. -/
lemma Inv.raised (h : Inv supported s) (hfits : s.stateVersion.toNat + 1 < 2 ^ 64)
    (writer : Publishing) (marking : Nat) (hcoming : writer = .notifying ∨ 0 < marking) :
    Inv supported { s with
      stateVersion := s.stateVersion + 1, writer := writer, marking := marking } := by
  have hlast := lt_raised h.emittedLe hfits
  refine { h with
    emittedLe := UInt64.le_of_lt hlast, readLe := ?_, awaited := ?_, shown := ?_, seen := ?_ }
  · intro version compilation hread
    have hle := h.readLe version compilation hread
    exact ⟨hle.1, UInt64.le_of_lt (lt_raised hle.2 hfits)⟩
  · exact Or.inr (Or.inr (Or.inr hcoming))
  · exact fun _ hknown => absurd hknown.symm (UInt64.ne_of_lt hlast)
  · intro version compilation hread _ hversion
    have hle := h.readLe version compilation hread
    exact absurd hversion.symm (UInt64.ne_of_lt (lt_raised hle.2 hfits))

/-- A notification lets the refresher look. -/
lemma Inv.notified (h : Inv supported s) (writer : Publishing) (marking : Nat)
    (hwriter : s.writer ≠ .raising ∨ writer = s.writer) :
    Inv supported { s with
      viewsDirty := s.viewsDirty.notifyOne, writer := writer, marking := marking } := by
  have hbefore : writer ≠ .raising → s.writer ≠ .raising := by
    intro hraising
    rcases hwriter with hnot | rfl
    · exact hnot
    · exact hraising
  refine { h with
    settled := Notify.settled_notifyOne, reading := ?_, awaited := ?_, shown := ?_, seen := ?_ }
  · exact fun hread => Notify.awake_notifyOne (h.reading hread)
  · exact Or.inr (Or.inl Notify.alerted_notifyOne)
  · exact fun hraising => h.shown (hbefore hraising)
  · exact fun version compilation hread hraising =>
      h.seen version compilation hread (hbefore hraising)

lemma Inv.await (h : Inv supported s) (hawake : s.viewsDirty.waiter = .awake)
    (hread : s.read = none) : Inv supported { s with viewsDirty := s.viewsDirty.notified } := by
  refine { h with settled := Notify.settled_notified, reading := ?_, awaited := ?_ }
  · exact fun hsome => absurd hread hsome
  · rcases h.awaited with hknown | halerted | hrest
    · exact Or.inl hknown
    · exact Or.inr (Or.inl (Notify.alerted_notified halerted hawake))
    · exact Or.inr (Or.inr hrest)

lemma Inv.load (h : Inv supported s) :
    Inv supported { s with
      viewsDirty := s.viewsDirty.resume, read := some (s.stateVersion, s.compilation) } := by
  refine { h with
    settled := Notify.settled_resume, reading := fun _ => rfl, readLe := ?_, awaited := ?_
    seen := ?_ }
  · intro version compilation hread
    obtain ⟨rfl, rfl⟩ := Prod.mk.inj (Option.some.inj hread)
    exact ⟨h.emittedLe, UInt64.le_refl _⟩
  · exact Or.inr (Or.inr (Or.inl ⟨s.compilation, rfl⟩))
  · intro version compilation hread _ _
    obtain ⟨rfl, rfl⟩ := Prod.mk.inj (Option.some.inj hread)
    rfl

/-- A version that was shown already needs no refresh. -/
lemma Inv.skip (h : Inv supported s) {compilation : PublishedCompilation}
    (hread : s.read = some (s.lastEmitted, compilation)) :
    Inv supported { s with read := none } := by
  refine { h with
    reading := fun hsome => absurd rfl hsome, readLe := ?_, awaited := ?_, seen := ?_ }
  · exact fun _ _ hnone => absurd hnone (Option.some_ne_none _).symm
  · rcases h.awaited with hknown | halerted | hcurrent | hrest
    · exact Or.inl hknown
    · exact Or.inr (Or.inl halerted)
    · obtain ⟨compilation', hcurrent⟩ := hcurrent
      rw [hread] at hcurrent
      exact Or.inl (Prod.mk.inj (Option.some.inj hcurrent)).1.symm
    · exact Or.inr (Or.inr (Or.inr hrest))
  · exact fun _ _ hnone => absurd hnone (Option.some_ne_none _).symm

lemma Inv.emit (h : Inv supported s) {version : UInt64} {compilation : PublishedCompilation}
    (hread : s.read = some (version, compilation)) (hnew : version ≠ s.lastEmitted) :
    Inv supported { s with
      read := none
      lastEmitted := version
      emitted := s.emitted ++ [version]
      requests := s.requests ++ spawned supported
      shown := compilation } := by
  obtain ⟨hlast, hle⟩ := h.readLe version compilation hread
  have hlt : s.lastEmitted < version := UInt64.lt_of_le_of_ne hlast hnew.symm
  refine { h with
    reading := fun hsome => absurd rfl hsome, emittedLe := hle, readLe := ?_, awaited := ?_
    shown := ?_, seen := ?_, increasing := ?_, requested := ?_ }
  · exact fun _ _ hnone => absurd hnone (Option.some_ne_none _).symm
  · rcases h.awaited with hknown | halerted | hcurrent | hrest
    · -- No version lies between the last one shown and the current one.
      have hback := UInt64.lt_of_lt_of_le hlt hle
      exact absurd hknown.symm (UInt64.ne_of_lt hback)
    · exact Or.inr (Or.inl halerted)
    · obtain ⟨compilation', hcurrent⟩ := hcurrent
      rw [hread] at hcurrent
      exact Or.inl (Prod.mk.inj (Option.some.inj hcurrent)).1.symm
    · exact Or.inr (Or.inr (Or.inr hrest))
  · exact h.seen version compilation hread
  · exact fun _ _ hnone => absurd hnone (Option.some_ne_none _).symm
  · obtain ⟨hpairwise, hbounds⟩ := h.increasing
    constructor
    · rw [List.pairwise_append]
      refine ⟨hpairwise, List.pairwise_singleton _ _, ?_⟩
      intro earlier hearlier later hlater
      rw [List.mem_singleton] at hlater
      rw [hlater]
      exact UInt64.lt_of_le_of_lt (hbounds earlier hearlier) hlt
    · intro earlier hearlier
      rcases List.mem_append.mp hearlier with hold | hlast
      · exact UInt64.le_trans (hbounds earlier hold) hlast
      · rw [List.mem_singleton.mp hlast]
        exact UInt64.le_refl _
  · intro kind
    rw [List.count_append, h.requested, count_spawned, List.length_append, List.length_singleton]
    split_ifs <;> rfl

theorem Inv.step (h : Inv supported s) {e : Event} (hfits : s.Fits e)
    (hstep : s.step supported e = some s') : Inv supported s' := by
  cases e with
  | publish edits =>
    obtain ⟨hfree, hs'⟩ := Option.ite_none_right_eq_some.mp hstep
    rw [← Option.some.inj hs']
    exact h.publish hfree edits
  | raise =>
    obtain ⟨-, hs'⟩ := Option.ite_none_right_eq_some.mp hstep
    rw [← Option.some.inj hs']
    exact h.raised hfits .notifying s.marking (Or.inl rfl)
  | notify =>
    obtain ⟨hnotifying, hs'⟩ := Option.ite_none_right_eq_some.mp hstep
    rw [← Option.some.inj hs']
    apply h.notified .free s.marking
    left
    rw [hnotifying]
    exact Publishing.noConfusion
  | markRaise =>
    rw [← Option.some.inj hstep]
    exact h.raised hfits s.writer (s.marking + 1) (Or.inr (Nat.succ_pos _))
  | markNotify =>
    obtain ⟨-, hs'⟩ := Option.ite_none_right_eq_some.mp hstep
    rw [← Option.some.inj hs']
    exact h.notified s.writer (s.marking - 1) (Or.inr rfl)
  | await =>
    obtain ⟨⟨hawake, hread⟩, hs'⟩ := Option.ite_none_right_eq_some.mp hstep
    rw [← Option.some.inj hs']
    exact h.await hawake hread
  | load =>
    obtain ⟨-, hs'⟩ := Option.ite_none_right_eq_some.mp hstep
    rw [← Option.some.inj hs']
    exact h.load
  | emit =>
    unfold ViewRefresher.step at hstep
    cases hread : s.read with
    | none =>
      rw [hread] at hstep
      exact absurd hstep (Option.some_ne_none _).symm
    | some read =>
      rw [hread] at hstep
      simp only at hstep
      by_cases hold : read.1 = s.lastEmitted
      · rw [if_pos hold] at hstep
        rw [← Option.some.inj hstep]
        apply @Inv.skip _ _ h read.2
        rw [hread, ← hold]
      · rw [if_neg hold] at hstep
        rw [← Option.some.inj hstep]
        exact h.emit hread hold

/-- In a quiet state the last refresh was for the current version. -/
lemma Inv.known_of_quiet (h : Inv supported s) (hquiet : s.Quiet) :
    s.stateVersion = s.lastEmitted := by
  obtain ⟨hfree, hmarking, hasleep⟩ := hquiet
  rcases h.awaited with hknown | halerted | ⟨compilation, hread⟩ | hnotifying | hpending
  · exact hknown
  · exact absurd halerted (Notify.not_alerted_of_asleep h.settled hasleep)
  · have hawake := h.reading (by rw [hread]; exact Option.some_ne_none _)
    exact Waiter.noConfusion (hasleep.symm.trans hawake)
  · exact Publishing.noConfusion (hfree.symm.trans hnotifying)
  · rw [hmarking] at hpending
    exact absurd hpending (Nat.lt_irrefl 0)

/-- What a state tells about an earlier one: views change with the version only. -/
structure Since (earlier s : ViewRefresher) : Prop where
  version : earlier.stateVersion ≤ s.stateVersion
  unchanged : s.stateVersion = earlier.stateVersion → s.writer ≠ .raising →
    earlier.compilation.viewInputs = s.compilation.viewInputs
  emitted : earlier.emitted.length ≤ s.emitted.length
  lastEmitted : s.emitted.length = earlier.emitted.length → s.lastEmitted = earlier.lastEmitted

variable {earlier : ViewRefresher}

lemma since_refl (s : ViewRefresher) : Since s s where
  version := UInt64.le_refl _
  unchanged := fun _ _ => rfl
  emitted := Nat.le_refl _
  lastEmitted := fun _ => rfl

lemma Since.raised (h : Since earlier s) (hfits : s.stateVersion.toNat + 1 < 2 ^ 64)
    (writer : Publishing) (marking : Nat) :
    Since earlier { s with
      stateVersion := s.stateVersion + 1, writer := writer, marking := marking } := by
  have hlt := lt_raised h.version hfits
  refine { h with version := UInt64.le_of_lt hlt, unchanged := ?_ }
  exact fun hsame => absurd hsame.symm (UInt64.ne_of_lt hlt)

lemma Since.step (h : Since earlier s) {e : Event} (hfits : s.Fits e)
    (hstep : s.step supported e = some s') : Since earlier s' := by
  cases e with
  | publish edits =>
    obtain ⟨hfree, hs'⟩ := Option.ite_none_right_eq_some.mp hstep
    rw [← Option.some.inj hs']
    refine { h with unchanged := ?_ }
    by_cases hchanges : (CompilationBuilder.edited s.compilation edits).changesViews = true
    · rw [if_pos hchanges]
      exact fun _ hraising => absurd rfl hraising
    · have hnot : s.writer ≠ .raising := by
        rw [hfree]
        exact Publishing.noConfusion
      intro hversion _
      rw [CompilationBuilder.viewInputs_finish _ (Bool.eq_false_iff.mpr hchanges),
        CompilationBuilder.base_edited]
      exact h.unchanged hversion hnot
  | raise =>
    obtain ⟨-, hs'⟩ := Option.ite_none_right_eq_some.mp hstep
    rw [← Option.some.inj hs']
    exact h.raised hfits .notifying s.marking
  | notify =>
    obtain ⟨hnotifying, hs'⟩ := Option.ite_none_right_eq_some.mp hstep
    rw [← Option.some.inj hs']
    refine { h with unchanged := fun hversion _ => h.unchanged hversion ?_ }
    rw [hnotifying]
    exact Publishing.noConfusion
  | markRaise =>
    rw [← Option.some.inj hstep]
    exact h.raised hfits s.writer (s.marking + 1)
  | markNotify | await | load =>
    obtain ⟨-, hs'⟩ := Option.ite_none_right_eq_some.mp hstep
    rw [← Option.some.inj hs']
    exact { h with }
  | emit =>
    unfold ViewRefresher.step at hstep
    cases hread : s.read with
    | none =>
      rw [hread] at hstep
      exact absurd hstep (Option.some_ne_none _).symm
    | some read =>
      rw [hread] at hstep
      simp only at hstep
      by_cases hold : read.1 = s.lastEmitted
      · rw [if_pos hold] at hstep
        rw [← Option.some.inj hstep]
        exact { h with }
      · rw [if_neg hold] at hstep
        rw [← Option.some.inj hstep]
        have hemitted := h.emitted
        refine { h with emitted := ?_, lastEmitted := ?_ }
        · rw [List.length_append]
          exact Nat.le_add_right_of_le hemitted
        · rw [List.length_append, List.length_singleton]
          intro hlength
          omega

/-- Whenever the server comes to rest, what an answer could have missed is followed by a refresh
of every view that the client supports, and no version is announced twice. -/
theorem missed_change_refreshed {c : PublishedCompilation} {s₁ s₂ : ViewRefresher}
    {es₁ es₂ : List Event} (h₁ : run (step supported) (start c) es₁ = some s₁)
    (h₂ : run (step supported) s₁ es₂ = some s₂)
    (hfits : AllSteps (step supported) Fits (start c) (es₁ ++ es₂)) (hquiet : s₂.Quiet) :
    s₂.emitted.Pairwise (· < ·) ∧
      (∀ kind, s₂.requests.count kind = if supported kind then s₂.emitted.length else 0) ∧
      (s₁.compilation.viewInputs ≠ s₂.compilation.viewInputs →
        s₁.emitted.length < s₂.emitted.length) := by
  have hinv₁ : Inv supported s₁ := run_invariant (fun _ _ _ h hf hs => Inv.step h hf hs)
    (inv_start c) hfits.append_left h₁
  have hfits₂ := hfits.append_right h₁
  have hinv₂ : Inv supported s₂ :=
    run_invariant (fun _ _ _ h hf hs => Inv.step h hf hs) hinv₁ hfits₂ h₂
  have hsince : Since s₁ s₂ :=
    run_invariant (fun _ _ _ h hf hs => Since.step h hf hs) (since_refl s₁) hfits₂ h₂
  refine ⟨hinv₂.increasing.1, hinv₂.requested, ?_⟩
  intro hchanged
  by_contra hnone
  have hlength : s₂.emitted.length = s₁.emitted.length := by
    have hle := hsince.emitted
    omega
  -- Without a refresh the version stands where it was, so nothing was published.
  have hback : s₂.stateVersion ≤ s₁.stateVersion := by
    rw [hinv₂.known_of_quiet hquiet, hsince.lastEmitted hlength]
    exact hinv₁.emittedLe
  have hversion := UInt64.le_antisymm hback hsince.version
  apply hchanged
  apply hsince.unchanged hversion
  rw [hquiet.1]
  exact Publishing.noConfusion

end

/-- The events of one publication, from a waiting refresher to a waiting refresher. -/
def onePublication : List Event :=
  [.publish [.setSuppressedBaseUris {"a.ws"}], .raise, .notify, .load, .emit, .await]

/-- A refresher that waits for its first notification. -/
def waiting : ViewRefresher := { start {} with viewsDirty := ⟨false, .asleep⟩ }

/-- The state behind the publication. -/
def refreshed : ViewRefresher where
  compilation := { suppressedBaseUris := {"a.ws"} }
  stateVersion := 1
  viewsDirty := ⟨false, .asleep⟩
  lastEmitted := 1
  emitted := [1]
  requests := ViewKind.all
  shown := { suppressedBaseUris := {"a.ws"} }

theorem missed_change_refreshed_onePublication :
    waiting.emitted.length < refreshed.emitted.length := by
  have hwaiting : run (step fun _ => true) (start {}) [.await] = some waiting := rfl
  have hrefreshed : run (step fun _ => true) waiting onePublication = some refreshed := rfl
  have hfits : AllSteps (step fun _ => true) Fits (start {}) ([.await] ++ onePublication) := by
    refine ⟨trivial, trivial, ?_, trivial, trivial, trivial, trivial, trivial⟩
    show (0 : UInt64).toNat + 1 < 2 ^ 64
    decide
  apply (missed_change_refreshed hwaiting hrefreshed hfits ⟨rfl, rfl, rfl⟩).2.2
  intro hsame
  have huris := congrArg PublishedCompilation.suppressedBaseUris hsame
  exact absurd huris (by decide)

end ViewRefresher

end WitcherScriptLanguage
