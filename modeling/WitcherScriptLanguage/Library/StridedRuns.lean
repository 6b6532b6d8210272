import Mathlib.Data.List.Basic
import Mathlib.Data.Nat.Basic
import Mathlib.Order.Basic
import Mathlib.Tactic.Lemma

/-!
# Runs with a stride

A scan over the indexes of a list takes entries, each with the entries behind it up to a stride,
and steps over others. A pass over the list starts such scans where it can and resumes behind the
last entry taken. No entry is in two runs.
-/

namespace WitcherScriptLanguage.Library

/-- The entries that a scan from an index on takes. -/
inductive Scanned (stride : Nat) (takes skips : Nat → Prop) (count : Nat) : Nat → List Nat → Prop
  | stop (scan : Nat) : Scanned stride takes skips count scan []
  | skip {scan : Nat} {run : List Nat} (hlt : scan < count) (hskips : skips scan)
      (hrest : Scanned stride takes skips count (scan + 1) run) :
      Scanned stride takes skips count scan run
  | take {scan : Nat} {run : List Nat} (hlt : scan < count) (htakes : takes scan)
      (hrest : Scanned stride takes skips count (scan + stride) run) :
      Scanned stride takes skips count scan (scan :: run)

namespace Scanned

variable {stride count scan : Nat} {takes skips : Nat → Prop} {run : List Nat}

lemma le (h : Scanned stride takes skips count scan run) : ∀ i ∈ run, scan ≤ i := by
  induction h with
  | stop => exact fun i hi => absurd hi List.not_mem_nil
  | skip _ _ _ ih => exact fun i hi => (Nat.le_succ _).trans (ih i hi)
  | take _ _ _ ih =>
    intro i hi
    rcases List.mem_cons.mp hi with rfl | hi
    · exact le_refl _
    · exact (Nat.le_add_right _ _).trans (ih i hi)

lemma taken (h : Scanned stride takes skips count scan run) : ∀ i ∈ run, takes i := by
  induction h with
  | stop => exact fun i hi => absurd hi List.not_mem_nil
  | skip _ _ _ ih => exact ih
  | take _ htakes _ ih => exact List.forall_mem_cons.mpr ⟨htakes, ih⟩

lemma spaced (h : Scanned stride takes skips count scan run) :
    run.Pairwise fun i j => i + stride ≤ j := by
  induction h with
  | stop => exact List.Pairwise.nil
  | skip _ _ _ ih => exact ih
  | take _ _ hrest ih => exact List.pairwise_cons.mpr ⟨hrest.le, ih⟩

/-- What a scan passes on its way to the last entry it takes was taken or stepped over. -/
lemma passed (hstride : 0 < stride) (h : Scanned stride takes skips count scan run) {i last : Nat}
    (hscan : scan ≤ i) (hlast : last ∈ run) (hi : i ≤ last) :
    skips i ∨ ∃ j ∈ run, j ≤ i ∧ i < j + stride := by
  induction h with
  | stop => exact absurd hlast List.not_mem_nil
  | skip _ hskips _ ih =>
    rcases Nat.eq_or_lt_of_le hscan with rfl | hlt
    · exact Or.inl hskips
    · exact ih hlt hlast
  | @take scan run _ _ _ ih =>
    by_cases hin : i < scan + stride
    · exact Or.inr ⟨scan, List.mem_cons_self, hscan, hin⟩
    rcases List.mem_cons.mp hlast with rfl | hlast
    · exact absurd (Nat.lt_add_of_pos_right hstride) fun hpos => hin (hi.trans_lt hpos)
    · rcases ih (Nat.le_of_not_lt hin) hlast with hskips | ⟨j, hj, hcovers⟩
      · exact Or.inl hskips
      · exact Or.inr ⟨j, List.mem_cons_of_mem _ hj, hcovers⟩

end Scanned

/-- The entries of a run, the first one apart, and how far each of them reaches. -/
structure StridedRun where
  stride : Nat
  head : Nat
  tail : List Nat
  deriving DecidableEq, Repr

namespace StridedRun

def entries (r : StridedRun) : List Nat := r.head :: r.tail

def last (r : StridedRun) : Nat := r.entries.getLast (List.cons_ne_nil _ _)

/-- The first index behind a run. -/
def stop (r : StridedRun) : Nat := r.last + r.stride

def Covers (r : StridedRun) (i : Nat) : Prop := ∃ v ∈ r.entries, v ≤ i ∧ i < v + r.stride

/-- A run whose entries follow each other, none within the reach of another one. -/
structure Spaced (r : StridedRun) : Prop where
  stride_pos : 0 < r.stride
  entries : r.entries.Pairwise fun i j => i + r.stride ≤ j

variable {r : StridedRun}

lemma last_mem : r.last ∈ r.entries := List.getLast_mem _

namespace Spaced

lemma head_le (h : r.Spaced) {v : Nat} (hv : v ∈ r.entries) : r.head ≤ v := by
  rcases List.mem_cons.mp hv with rfl | hv
  · exact le_refl _
  · exact (Nat.le_add_right _ _).trans ((List.pairwise_cons.mp h.entries).1 v hv)

lemma le_last (h : r.Spaced) {v : Nat} (hv : v ∈ r.entries) : v ≤ r.last := by
  have hsplit : r.entries = r.entries.dropLast ++ [r.last] :=
    (List.dropLast_concat_getLast (List.cons_ne_nil r.head r.tail)).symm
  have hspaced := h.entries
  rw [hsplit, List.pairwise_append] at hspaced
  rw [hsplit, List.mem_append, List.mem_singleton] at hv
  rcases hv with hv | rfl
  · exact (Nat.le_add_right _ _).trans (hspaced.2.2 v hv _ (List.mem_singleton_self _))
  · exact le_refl _

lemma mem_lt_stop (h : r.Spaced) {v : Nat} (hv : v ∈ r.entries) : v < r.stop :=
  Nat.lt_of_le_of_lt (h.le_last hv) (Nat.lt_add_of_pos_right h.stride_pos)

lemma head_lt_stop (h : r.Spaced) : r.head < r.stop := h.mem_lt_stop List.mem_cons_self

lemma covers_bounds (h : r.Spaced) {i : Nat} (hi : r.Covers i) : r.head ≤ i ∧ i < r.stop := by
  obtain ⟨v, hv, hle, hlt⟩ := hi
  exact ⟨(h.head_le hv).trans hle,
    hlt.trans_le (Nat.add_le_add_right (h.le_last hv) r.stride)⟩

lemma covers_of_mem (h : r.Spaced) {v : Nat} (hv : v ∈ r.entries) : r.Covers v :=
  ⟨v, hv, le_refl _, Nat.lt_add_of_pos_right h.stride_pos⟩

end Spaced

/-- The run that a scan behind its first entry makes is spaced. -/
lemma spaced_of_scanned {stride count head : Nat} {takes skips : Nat → Prop} {tail : List Nat}
    (hstride : 0 < stride) (h : Scanned stride takes skips count (head + stride) tail) :
    Spaced ⟨stride, head, tail⟩ :=
  ⟨hstride, List.pairwise_cons.mpr ⟨h.le, h.spaced⟩⟩

/-- Up to its end a run covers what its scan has not stepped over. -/
lemma covers_or_skips {stride count head : Nat} {takes skips : Nat → Prop} {tail : List Nat}
    (hstride : 0 < stride) (h : Scanned stride takes skips count (head + stride) tail) {i : Nat}
    (hle : head ≤ i) (hlt : i < (⟨stride, head, tail⟩ : StridedRun).stop) :
    (⟨stride, head, tail⟩ : StridedRun).Covers i ∨ skips i := by
  by_cases hhead : i < head + stride
  · exact Or.inl ⟨head, List.mem_cons_self, hle, hhead⟩
  have hlast : (⟨stride, head, tail⟩ : StridedRun).last ∈ head :: tail := StridedRun.last_mem
  by_cases hreach : (⟨stride, head, tail⟩ : StridedRun).last ≤ i
  · exact Or.inl ⟨_, hlast, hreach, hlt⟩
  rcases List.mem_cons.mp hlast with heq | hmem
  · exact absurd (heq.le.trans hle) hreach
  · rcases h.passed hstride (Nat.le_of_not_lt hhead) hmem (Nat.le_of_not_le hreach) with
      hskips | ⟨j, hj, hcovers⟩
    · exact Or.inr hskips
    · exact Or.inl ⟨j, List.mem_cons_of_mem _ hj, hcovers⟩

end StridedRun

/-- What a pass over a list from an index on makes of the runs that start in it. -/
inductive Runs (runAt : Nat → Option StridedRun) (count : Nat) : Nat → List StridedRun → Prop
  | done {idx : Nat} (hle : count ≤ idx) : Runs runAt count idx []
  | pass {idx : Nat} {runs : List StridedRun} (hlt : idx < count) (hnone : runAt idx = none)
      (hrest : Runs runAt count (idx + 1) runs) : Runs runAt count idx runs
  | run {idx : Nat} {r : StridedRun} {runs : List StridedRun} (hlt : idx < count)
      (hrun : runAt idx = some r) (hrest : Runs runAt count r.stop runs) :
      Runs runAt count idx (r :: runs)

/-- The runs start where they are asked for. -/
structure StartsRuns (runAt : Nat → Option StridedRun) : Prop where
  head : ∀ idx r, runAt idx = some r → r.head = idx
  spaced : ∀ idx r, runAt idx = some r → r.Spaced

namespace Runs

variable {runAt : Nat → Option StridedRun} {count idx : Nat} {runs runs' : List StridedRun}

lemma unique (h : Runs runAt count idx runs) (h' : Runs runAt count idx runs') : runs = runs' := by
  induction h generalizing runs' with
  | done hle =>
    cases h' with
    | done => rfl
    | pass hlt => exact absurd hlt hle.not_gt
    | run hlt => exact absurd hlt hle.not_gt
  | pass hlt hnone _ ih =>
    cases h' with
    | done hle => exact absurd hlt hle.not_gt
    | pass _ _ hrest => exact ih hrest
    | run _ hrun => rw [hnone] at hrun; cases hrun
  | run hlt hrun _ ih =>
    cases h' with
    | done hle => exact absurd hlt hle.not_gt
    | pass _ hnone => rw [hnone] at hrun; cases hrun
    | run _ hrun' hrest =>
      rw [hrun] at hrun'
      cases hrun'
      rw [ih hrest]

lemma runAt_head (hstarts : StartsRuns runAt) (h : Runs runAt count idx runs) :
    ∀ r ∈ runs, runAt r.head = some r ∧ r.head < count := by
  induction h with
  | done => exact fun r hr => absurd hr List.not_mem_nil
  | pass _ _ _ ih => exact ih
  | run hlt hrun _ ih =>
    refine List.forall_mem_cons.mpr ⟨?_, ih⟩
    rw [hstarts.head _ _ hrun]
    exact ⟨hrun, hlt⟩

lemma spaced (hstarts : StartsRuns runAt) (h : Runs runAt count idx runs) :
    ∀ r ∈ runs, r.Spaced :=
  fun r hr => hstarts.spaced _ r (h.runAt_head hstarts r hr).1

lemma le_head (hstarts : StartsRuns runAt) (h : Runs runAt count idx runs) :
    ∀ r ∈ runs, idx ≤ r.head := by
  induction h with
  | done => exact fun r hr => absurd hr List.not_mem_nil
  | pass _ _ _ ih => exact fun r hr => (Nat.le_succ _).trans (ih r hr)
  | @run idx r runs _ hrun _ ih =>
    have hhead := hstarts.head _ _ hrun
    refine List.forall_mem_cons.mpr ⟨hhead.ge, fun s hs => ?_⟩
    exact (hhead.ge.trans (hstarts.spaced _ _ hrun).head_lt_stop.le).trans (ih s hs)

/-- Behind a run there is nothing that it covers. -/
lemma not_covers_of_stop_le (hstarts : StartsRuns runAt) {r : StridedRun} (hr : r.Spaced)
    (h : Runs runAt count r.stop runs) : ∀ s ∈ runs, ∀ i, r.Covers i → ¬ s.Covers i := by
  intro s hs i hi hsi
  have hbehind := h.le_head hstarts s hs
  have hafter := ((h.spaced hstarts s hs).covers_bounds hsi).1
  exact absurd (hr.covers_bounds hi).2 (hbehind.trans hafter).not_gt

/-- No entry is in two runs. -/
theorem disjoint (hstarts : StartsRuns runAt) (h : Runs runAt count idx runs) :
    runs.Pairwise fun r s => ∀ i, r.Covers i → ¬ s.Covers i := by
  induction h with
  | done => exact List.Pairwise.nil
  | pass _ _ _ ih => exact ih
  | run _ hrun hrest ih =>
    exact List.pairwise_cons.mpr
      ⟨hrest.not_covers_of_stop_le hstarts (hstarts.spaced _ _ hrun), ih⟩

/-- A run covers what could start a run within its reach. -/
def Encloses (runAt : Nat → Option StridedRun) (r : StridedRun) : Prop :=
  ∀ i, r.head ≤ i → i < r.stop → (runAt i).isSome = true → r.Covers i

/-- Whatever starts a run is in one. -/
theorem exists_covers (hstarts : StartsRuns runAt)
    (hencloses : ∀ i r, runAt i = some r → Encloses runAt r) (h : Runs runAt count idx runs)
    {i : Nat} (hle : idx ≤ i) (hlt : i < count) (hsome : (runAt i).isSome = true) :
    ∃ r ∈ runs, r.Covers i := by
  induction h with
  | done hcount => exact absurd (hlt.trans_le hcount) (Nat.not_lt.mpr hle)
  | @pass idx runs _ hnone _ ih =>
    rcases Nat.eq_or_lt_of_le hle with rfl | hbehind
    · rw [hnone] at hsome
      cases hsome
    · exact ih hbehind
  | @run idx r runs _ hrun _ ih =>
    by_cases hin : i < r.stop
    · have hhead := hstarts.head idx r hrun
      exact ⟨r, List.mem_cons_self, hencloses idx r hrun i (hhead.le.trans hle) hin hsome⟩
    · obtain ⟨s, hs, hcovers⟩ := ih (Nat.le_of_not_lt hin)
      exact ⟨s, List.mem_cons_of_mem _ hs, hcovers⟩

/-- A stretch without runs is passed entry by entry. -/
lemma pass_to {stop : Nat} (h : Runs runAt count stop runs) (hle : idx ≤ stop)
    (hnone : ∀ i, idx ≤ i → i < stop → runAt i = none) : Runs runAt count idx runs := by
  induction hle using Nat.decreasingInduction with
  | self => exact h
  | of_succ i hlt ih =>
    have hrest := ih fun j hj hj' => hnone j (Nat.le_of_succ_le hj) hj'
    by_cases hcount : i < count
    · exact Runs.pass hcount (hnone i (le_refl _) hlt) hrest
    · cases hrest with
      | done => exact Runs.done (Nat.le_of_not_lt hcount)
      | pass hi => exact absurd hi (by omega)
      | run hi => exact absurd hi (by omega)

/-- A pass that starts only some of the runs makes just these, when none starts within the
others. -/
theorem filter {p : StridedRun → Bool} {runAt' : Nat → Option StridedRun}
    (hstarts : StartsRuns runAt) (hsome : ∀ i, runAt' i = (runAt i).filter p)
    (hnone : ∀ i r, runAt i = some r → p r = false → ∀ j, i ≤ j → j < r.stop → runAt' j = none)
    (h : Runs runAt count idx runs) : Runs runAt' count idx (runs.filter p) := by
  induction h with
  | done hle => exact Runs.done hle
  | pass hlt hrun _ ih => exact Runs.pass hlt (by rw [hsome, hrun]; rfl) ih
  | @run idx r runs hlt hrun _ ih =>
    cases hp : p r with
    | true =>
      rw [List.filter_cons_of_pos hp]
      exact Runs.run hlt (by rw [hsome, hrun]; exact Option.filter_some_pos hp) ih
    | false =>
      rw [List.filter_cons_of_neg (by rw [hp]; exact Bool.false_ne_true)]
      have hbehind : idx ≤ r.stop :=
        (hstarts.head _ _ hrun).ge.trans (hstarts.spaced _ _ hrun).head_lt_stop.le
      exact ih.pass_to hbehind (hnone idx r hrun hp)

end Runs

/-- A list with a value for each entry, after the runs have put theirs. -/
structure Filled {α : Type} (value : StridedRun → Option α) (runs : List StridedRun)
    (before after : List (Option α)) : Prop where
  length : after.length = before.length
  inside : ∀ r ∈ runs, ∀ a, value r = some a → ∀ v ∈ r.entries, after[v]? = some (some a)
  outside : ∀ v, (∀ r ∈ runs, ∀ a, value r = some a → v ∉ r.entries) → after[v]? = before[v]?

namespace Filled

variable {α : Type} {value : StridedRun → Option α} {before mid after : List (Option α)}
  {runs : List StridedRun}

lemma nil : Filled value [] before before :=
  ⟨rfl, fun _ hr => absurd hr List.not_mem_nil, fun _ _ => rfl⟩

/-- The first run puts its value, which the later ones leave there. -/
lemma cons {r : StridedRun} (hfirst : Filled value [r] before mid)
    (hrest : Filled value runs mid after) (hapart : ∀ s ∈ runs, ∀ v ∈ r.entries, v ∉ s.entries) :
    Filled value (r :: runs) before after where
  length := hrest.length.trans hfirst.length
  inside := by
    refine List.forall_mem_cons.mpr ⟨fun a ha v hv => ?_, hrest.inside⟩
    rw [hrest.outside v fun s hs _ _ => hapart s hs v hv]
    exact hfirst.inside r (List.mem_singleton_self r) a ha v hv
  outside := by
    intro v hv
    rw [hrest.outside v fun s hs => hv s (List.mem_cons_of_mem _ hs)]
    refine hfirst.outside v fun s hs => ?_
    rw [List.mem_singleton.mp hs]
    exact hv r List.mem_cons_self

/-- Where nothing stood before, a value is that of the run of its entry. -/
lemma exists_run {n v : Nat} {a : α} (h : Filled value runs (List.replicate n none) after)
    (ha : after[v]? = some (some a)) : ∃ r ∈ runs, v ∈ r.entries ∧ value r = some a := by
  by_contra hnot
  by_cases hin : ∃ r ∈ runs, ∃ b, value r = some b ∧ v ∈ r.entries
  · obtain ⟨r, hr, b, hb, hv⟩ := hin
    have hvalue := h.inside r hr b hb v hv
    rw [ha, Option.some.injEq, Option.some.injEq] at hvalue
    exact hnot ⟨r, hr, hv, hvalue ▸ hb⟩
  · rw [h.outside v fun r hr b hb hv => hin ⟨r, hr, b, hb, hv⟩, List.getElem?_replicate] at ha
    split_ifs at ha
    cases ha

end Filled

/-- One value put at each of several indexes, all of which have to be there. -/
def putAll {α : Type} (x : α) : List Nat → List α → Option (List α)
  | [], l => some l
  | v :: vs, l => if v < l.length then putAll x vs (l.set v x) else none

lemma exists_putAll {α : Type} (x : α) {vs : List Nat} {l : List α} (h : ∀ v ∈ vs, v < l.length) :
    ∃ l', putAll x vs l = some l' ∧ l'.length = l.length ∧ (∀ v ∈ vs, l'[v]? = some x) ∧
      ∀ i, i ∉ vs → l'[i]? = l[i]? := by
  induction vs generalizing l with
  | nil => exact ⟨l, rfl, rfl, fun v hv => absurd hv List.not_mem_nil, fun _ _ => rfl⟩
  | cons v vs ih =>
    obtain ⟨hv, hvs⟩ := List.forall_mem_cons.mp h
    obtain ⟨l', hl', hlength, hin, hout⟩ := ih (l := l.set v x) (by simpa using hvs)
    refine ⟨l', ?_, by simpa using hlength, List.forall_mem_cons.mpr ⟨?_, hin⟩, fun i hi => ?_⟩
    · rw [putAll, if_pos hv, hl']
    · by_cases hmem : v ∈ vs
      · exact hin v hmem
      · rw [hout v hmem, List.getElem?_set_self hv]
    · rw [List.mem_cons, not_or] at hi
      rw [hout i hi.2, List.getElem?_set_ne (Ne.symm hi.1)]

/-- The targets of a pass, and the runs that it has met. -/
structure RunPass (α : Type) where
  targets : List (Option α)
  runs : List StridedRun
  deriving DecidableEq, Repr

namespace RunPass

variable {α : Type}

/-- A run of two or more entries puts a value at each of them. -/
def align (pass : RunPass α) (run : StridedRun) (value : Option α) : Option (RunPass α) :=
  if 2 ≤ run.entries.length then
    value.bind fun a =>
      (putAll (some a) run.entries pass.targets).map fun targets => ⟨targets, pass.runs ++ [run]⟩
  else some ⟨pass.targets, pass.runs ++ [run]⟩

/-- The value that a run puts, if any. -/
def valueOf (value : StridedRun → Option α) (r : StridedRun) : Option α :=
  if 2 ≤ r.entries.length then value r else none

lemma exists_align {value : StridedRun → Option α} (pass : RunPass α) {r : StridedRun} {a : α}
    (ha : value r = some a) (hlt : ∀ v ∈ r.entries, v < pass.targets.length) :
    ∃ pass', pass.align r (value r) = some pass' ∧ pass'.runs = pass.runs ++ [r] ∧
      Filled (valueOf value) [r] pass.targets pass'.targets := by
  by_cases htwo : 2 ≤ r.entries.length
  · obtain ⟨targets, htargets, hlength, hin, hout⟩ := exists_putAll (some a) hlt
    refine ⟨⟨targets, pass.runs ++ [r]⟩, ?_, rfl, hlength, fun s hs b hb v hv => ?_, fun v hv => ?_⟩
    · rw [align, if_pos htwo, ha, Option.bind_some, htargets, Option.map_some]
    · rw [List.mem_singleton.mp hs] at hb hv
      rw [valueOf, if_pos htwo, ha] at hb
      cases hb
      exact hin v hv
    · exact hout v (hv r (List.mem_singleton_self r) a (by rw [valueOf, if_pos htwo, ha]))
  · refine ⟨⟨pass.targets, pass.runs ++ [r]⟩, by rw [align, if_neg htwo], rfl, rfl,
      fun s hs b hb => ?_, fun _ _ => rfl⟩
    rw [List.mem_singleton.mp hs, valueOf, if_neg htwo] at hb
    cases hb

/-- A pass over the entries of a list, with a bound on its rounds. -/
def run (runAt : Nat → Option StridedRun) (value : StridedRun → Option α) (count : Nat) :
    Nat → Nat → RunPass α → Option (RunPass α)
  | 0, idx, pass => if idx < count then none else some pass
  | rounds + 1, idx, pass =>
    if idx < count then
      match runAt idx with
      | some r => (pass.align r (value r)).bind (run runAt value count rounds r.stop)
      | none => run runAt value count rounds (idx + 1) pass
    else some pass

/-- A pass comes to its end, and each run has put its value. -/
theorem exists_run {runAt : Nat → Option StridedRun} {value : StridedRun → Option α}
    {count : Nat} (rounds idx : Nat) (pass : RunPass α) (hstarts : StartsRuns runAt)
    (hlt : ∀ i r, runAt i = some r → ∀ v ∈ r.entries, v < count)
    (hvalue : ∀ i r, runAt i = some r → ∃ a, value r = some a)
    (hcount : pass.targets.length = count) (hrounds : count ≤ idx + rounds) :
    ∃ pass' runs, run runAt value count rounds idx pass = some pass' ∧
      Runs runAt count idx runs ∧ pass'.runs = pass.runs ++ runs ∧
      Filled (valueOf value) runs pass.targets pass'.targets := by
  induction rounds generalizing idx pass with
  | zero =>
    have hidx : count ≤ idx := hrounds
    refine ⟨pass, [], ?_, Runs.done hidx, (List.append_nil _).symm, Filled.nil⟩
    rw [run, if_neg hidx.not_gt]
  | succ rounds ih =>
    by_cases hidx : idx < count
    · cases hrun : runAt idx with
      | none =>
        obtain ⟨pass', runs, hpass, hruns, hfilled⟩ := ih (idx + 1) pass hcount (by omega)
        refine ⟨pass', runs, ?_, Runs.pass hidx hrun hruns, hfilled⟩
        rw [run, if_pos hidx, hrun]
        exact hpass
      | some r =>
        obtain ⟨a, ha⟩ := hvalue idx r hrun
        have hspaced := hstarts.spaced idx r hrun
        have hhead := hstarts.head idx r hrun
        obtain ⟨mid, hmid, hmidRuns, hput⟩ :=
          exists_align pass ha (by rw [hcount]; exact hlt idx r hrun)
        obtain ⟨pass', runs, hpass, hruns, hpassRuns, hfilled⟩ :=
          ih r.stop mid (hput.length.trans hcount) (by have := hspaced.head_lt_stop; omega)
        refine ⟨pass', r :: runs, ?_, Runs.run hidx hrun hruns, ?_, ?_⟩
        · rw [run, if_pos hidx, hrun]
          simp only [hmid, Option.bind_some]
          exact hpass
        · rw [hpassRuns, hmidRuns, List.append_assoc]
          rfl
        · refine hput.cons hfilled fun s hs v hv hsv => ?_
          exact hruns.not_covers_of_stop_le hstarts hspaced s hs v (hspaced.covers_of_mem hv)
            ((hruns.spaced hstarts s hs).covers_of_mem hsv)
    · refine ⟨pass, [], ?_, Runs.done (Nat.le_of_not_lt hidx), (List.append_nil _).symm, Filled.nil⟩
      rw [run, if_neg hidx]

end RunPass

end WitcherScriptLanguage.Library
