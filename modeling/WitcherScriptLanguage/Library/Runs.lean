import Mathlib.Data.List.Induction
import Mathlib.Data.Nat.Basic
import Mathlib.Order.Monotone.Basic
import Mathlib.Tactic.Lemma

/-!
# Runs of a machine

A machine takes an event to the next state, or to `none` where the event cannot happen. A run is
the list of its events, so the prefixes of a run are the points at which a property over all
reachable states is read. What a run records is the concatenation of what its steps record.
-/

namespace WitcherScriptLanguage.Library

variable {σ ε β : Type} (step : σ → ε → Option σ)

def run : σ → List ε → Option σ
  | s, [] => some s
  | s, e :: es => (step s e).bind fun s' => run s' es

/-- Every step of the run starts at a state that is good for its event. -/
def AllSteps (good : σ → ε → Prop) : σ → List ε → Prop
  | _, [] => True
  | s, e :: es => good s e ∧ match step s e with
    | some s' => AllSteps good s' es
    | none => True

/-- Whether a run is good can be computed. -/
def decideAllSteps (good : σ → ε → Prop) [∀ s e, Decidable (good s e)] :
    (s : σ) → (es : List ε) → Decidable (AllSteps step good s es)
  | _, [] => inferInstanceAs (Decidable True)
  | s, e :: es =>
    have : Decidable (match step s e with
        | some s' => AllSteps step good s' es
        | none => True) :=
      match step s e with
      | some s' => decideAllSteps good s' es
      | none => inferInstanceAs (Decidable True)
    inferInstanceAs (Decidable (_ ∧ _))

instance (good : σ → ε → Prop) [∀ s e, Decidable (good s e)] (s : σ) (es : List ε) :
    Decidable (AllSteps step good s es) :=
  decideAllSteps step good s es

/-- What the steps of a run record. -/
def recordedBy (record : σ → ε → List β) : σ → List ε → List β
  | _, [] => []
  | s, e :: es => record s e ++ match step s e with
    | some s' => recordedBy record s' es
    | none => []

variable {step}

@[simp] lemma run_nil (s : σ) : run step s [] = some s := rfl

lemma run_cons (s : σ) (e : ε) (es : List ε) :
    run step s (e :: es) = (step s e).bind fun s' => run step s' es := rfl

lemma run_append (s : σ) (es es' : List ε) :
    run step s (es ++ es') = (run step s es).bind fun s' => run step s' es' := by
  induction es generalizing s with
  | nil => rfl
  | cons e es ih =>
    rw [List.cons_append, run_cons, run_cons, Option.bind_assoc]
    exact congrArg _ (funext ih)

lemma run_cons_eq_some {s s' : σ} {e : ε} {es : List ε} (h : run step s (e :: es) = some s') :
    ∃ mid, step s e = some mid ∧ run step mid es = some s' :=
  Option.bind_eq_some_iff.mp h

lemma run_append_eq_some {s s' : σ} {es es' : List ε} (h : run step s (es ++ es') = some s') :
    ∃ mid, run step s es = some mid ∧ run step mid es' = some s' := by
  rw [run_append] at h
  exact Option.bind_eq_some_iff.mp h

lemma recordedBy_cons {record : σ → ε → List β} {s mid : σ} {e : ε} (es : List ε)
    (h : step s e = some mid) :
    recordedBy step record s (e :: es) = record s e ++ recordedBy step record mid es := by
  rw [recordedBy, h]

lemma allSteps_cons {good : σ → ε → Prop} {s : σ} {e : ε} {es : List ε} :
    AllSteps step good s (e :: es) ↔
      good s e ∧ ∀ s', step s e = some s' → AllSteps step good s' es := by
  rw [AllSteps]
  cases step s e <;> simp

lemma allSteps_of_forall {good : σ → ε → Prop} (h : ∀ s e, good s e) (s : σ) (es : List ε) :
    AllSteps step good s es := by
  induction es generalizing s with
  | nil => trivial
  | cons e es ih => exact allSteps_cons.mpr ⟨h s e, fun s' _ => ih s'⟩

lemma AllSteps.append_left {good : σ → ε → Prop} {s : σ} {es es' : List ε}
    (h : AllSteps step good s (es ++ es')) : AllSteps step good s es := by
  induction es generalizing s with
  | nil => trivial
  | cons e es ih =>
    obtain ⟨hgood, hrest⟩ := allSteps_cons.mp h
    exact allSteps_cons.mpr ⟨hgood, fun s' hs' => ih (hrest s' hs')⟩

lemma AllSteps.append_right {good : σ → ε → Prop} {s s' : σ} {es es' : List ε}
    (h : AllSteps step good s (es ++ es')) (hrun : run step s es = some s') :
    AllSteps step good s' es' := by
  induction es generalizing s with
  | nil =>
    cases hrun
    exact h
  | cons e es ih =>
    obtain ⟨mid, hmid, hrest⟩ := run_cons_eq_some hrun
    exact ih ((allSteps_cons.mp h).2 mid hmid) hrest

lemma AllSteps.and_mem {good : σ → ε → Prop} {P : ε → Prop} {s : σ} {es : List ε}
    (h : AllSteps step good s es) (hP : ∀ e ∈ es, P e) :
    AllSteps step (fun s e => good s e ∧ P e) s es := by
  induction es generalizing s with
  | nil => trivial
  | cons e es ih =>
    obtain ⟨hgood, hrest⟩ := allSteps_cons.mp h
    exact allSteps_cons.mpr ⟨⟨hgood, hP e (by simp)⟩,
      fun s' hs' => ih (hrest s' hs') fun e' he' => hP e' (by simp [he'])⟩

/-- What every good step preserves holds at the end of a good run. -/
theorem run_invariant {good : σ → ε → Prop} {I : σ → Prop}
    (hstep : ∀ s e s', I s → good s e → step s e = some s' → I s') {s s' : σ} {es : List ε}
    (hs : I s) (hgood : AllSteps step good s es) (hrun : run step s es = some s') : I s' := by
  induction es generalizing s with
  | nil =>
    cases hrun
    exact hs
  | cons e es ih =>
    obtain ⟨mid, hmid, hrest⟩ := run_cons_eq_some hrun
    obtain ⟨he, hes⟩ := allSteps_cons.mp hgood
    exact ih (hstep s e mid hs he hmid) (hes mid hmid) hrest

/-- An invariant about a state, the record up to it and a position that no step lowers: along
a good run the positions can be chosen so that they never go back. -/
theorem run_monotone {good : σ → ε → Prop} {record : σ → ε → List β}
    {I : σ → List β → Nat → Prop}
    (hstep : ∀ s e s' h k, I s h k → good s e → step s e = some s' →
      ∃ k', k ≤ k' ∧ I s' (h ++ record s e) k')
    {s : σ} {es : List ε} {h : List β} {k : Nat} (hs : I s h k) (hgood : AllSteps step good s es) :
    ∃ position : Nat → Nat, Monotone position ∧ position 0 = k ∧
      ∀ pre post s', es = pre ++ post → run step s pre = some s' →
        I s' (h ++ recordedBy step record s pre) (position pre.length) := by
  induction es generalizing s h k with
  | nil =>
    refine ⟨fun _ => k, monotone_const, rfl, fun pre post s' hsplit hrun => ?_⟩
    obtain ⟨rfl, -⟩ := List.nil_eq_append_iff.mp hsplit
    cases hrun
    simpa [recordedBy] using hs
  | cons e es ih =>
    cases hmid : step s e with
    | none =>
      refine ⟨fun _ => k, monotone_const, rfl, fun pre post s' hsplit hrun => ?_⟩
      cases pre with
      | nil =>
        cases hrun
        simpa [recordedBy] using hs
      | cons e' pre =>
        obtain ⟨rfl, -⟩ := List.cons.inj hsplit
        simp [run_cons, hmid] at hrun
    | some mid =>
      obtain ⟨he, hes⟩ := allSteps_cons.mp hgood
      obtain ⟨k', hk, hmidI⟩ := hstep s e mid h k hs he hmid
      obtain ⟨position, hmono, hzero, hall⟩ := ih hmidI (hes mid hmid)
      refine ⟨fun i => match i with | 0 => k | i + 1 => position i, ?_, rfl, ?_⟩
      · intro i j hij
        match i, j with
        | 0, 0 => exact le_refl k
        | 0, j + 1 => exact hk.trans (hzero ▸ hmono (Nat.zero_le j))
        | i + 1, j + 1 => exact hmono (Nat.le_of_succ_le_succ hij)
      · intro pre post s' hsplit hrun
        cases pre with
        | nil =>
          cases hrun
          simpa [recordedBy] using hs
        | cons e' pre =>
          obtain ⟨rfl, hrest⟩ := List.cons.inj hsplit
          rw [run_cons, hmid] at hrun
          rw [recordedBy_cons pre hmid, ← List.append_assoc]
          exact hall pre post s' hrest hrun

/-- What every good step preserves, together with what the run has recorded. -/
theorem run_invariant_recorded {good : σ → ε → Prop} {record : σ → ε → List β}
    {I : σ → List β → Prop}
    (hstep : ∀ s e s' h, I s h → good s e → step s e = some s' → I s' (h ++ record s e))
    {s s' : σ} {es : List ε} (hs : I s []) (hgood : AllSteps step good s es)
    (hrun : run step s es = some s') : I s' (recordedBy step record s es) := by
  have hmonotone : ∃ position : Nat → Nat, Monotone position ∧ position 0 = 0 ∧
      ∀ pre post s', es = pre ++ post → run step s pre = some s' →
        I s' ([] ++ recordedBy step record s pre) :=
    run_monotone (I := fun s h _ => I s h)
      (fun s e s' h _ hI hg hs' => ⟨_, le_refl _, hstep s e s' h hI hg hs'⟩) hs hgood
  obtain ⟨-, -, -, hall⟩ := hmonotone
  simpa using hall es [] s' (List.append_nil es).symm hrun

lemma mem_recordedBy_append {record : σ → ε → List β} {s : σ} {es : List ε} (es' : List ε) {b : β}
    (h : b ∈ recordedBy step record s es) : b ∈ recordedBy step record s (es ++ es') := by
  induction es generalizing s with
  | nil => cases h
  | cons e es ih =>
    rw [recordedBy] at h
    rw [List.cons_append, recordedBy]
    rcases List.mem_append.mp h with hstep | hrest
    · exact List.mem_append_left _ hstep
    · refine List.mem_append_right _ ?_
      cases hmid : step s e with
      | none =>
        rw [hmid] at hrest
        cases hrest
      | some mid =>
        rw [hmid] at hrest
        exact ih hrest

section UpToLast

variable {α : Type} {matters : List α → α → Bool}

/-- The list up to its last element that matters behind those before it. -/
def upToLast (matters : List α → α → Bool) (xs : List α) : Option (List α) :=
  (xs.foldl (fun found x =>
    (found.1 ++ [x], if matters found.1 x then some (found.1 ++ [x]) else found.2))
    (([] : List α), none)).2

@[simp] lemma upToLast_nil : upToLast matters [] = none := rfl

lemma upToLast_concat (xs : List α) (x : α) : upToLast matters (xs ++ [x]) =
    if matters xs x then some (xs ++ [x]) else upToLast matters xs := by
  have hread : (xs.foldl (fun found x =>
      (found.1 ++ [x], if matters found.1 x then some (found.1 ++ [x]) else found.2))
      (([] : List α), (none : Option (List α)))).1 = xs := by
    induction xs using List.reverseRecOn with
    | nil => rfl
    | append_singleton xs x ih => rw [List.foldl_append, List.foldl_cons, List.foldl_nil, ih]
  rw [upToLast, List.foldl_append, List.foldl_cons, List.foldl_nil, hread]
  rfl

end UpToLast

end WitcherScriptLanguage.Library
