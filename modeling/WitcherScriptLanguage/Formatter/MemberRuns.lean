import WitcherScriptLanguage.Formatter.Rendering
import WitcherScriptLanguage.Library.StridedRuns

/-!
# Runs of members

The columns that the formatter gives to the colons and the defaults of the fields of a class
(`member_colon_targets` and `member_default_align_targets` in `formatter/declarations.rs`). The
loops index the members as the source does, which fails past their end, and have a bound on their
rounds.
-/

namespace WitcherScriptLanguage.Formatting

open Library

/-- The two blanks between a field and its default. -/
def defaultGap : List Char := [' ', ' ']

namespace Formatter

variable (f : Formatter)

def isMergeableDefaultPair (members : List Node) (varIdx : Nat) : Option Bool :=
  match members[varIdx + 1]? with
  | none => some false
  | some default => do
    let varDecl ← members[varIdx]?
    return varDecl.label.kind = .memberVarDecl && default.label.kind = .memberDefaultVal &&
      isAlignableField varDecl && f.defaultOnSameLine varDecl default

/-- The loop of `alignment_run`. A comment between members doesn't break the run; a blank line
does. -/
def alignmentLoop (members : List Node) (stride : Nat) (isRunMember : Nat → Option Bool) :
    Nat → Nat → Nat → Option (List Nat)
  | 0, _, scan => if scan < members.length then none else some []
  | rounds + 1, prev, scan =>
    if scan < members.length then do
      let before ← members[prev]?
      let member ← members[scan]?
      if blankLineBetweenRows before.label.endRow member.label.startRow then some []
      else if member.label.kind = .comment then
        alignmentLoop members stride isRunMember rounds scan (scan + 1)
      else if ← isRunMember scan then
        (alignmentLoop members stride isRunMember rounds (scan + stride - 1) (scan + stride)).map
          (scan :: ·)
      else some []
    else some []

def alignmentRun (members : List Node) (runStart stride : Nat) (isRunMember : Nat → Option Bool) :
    Option StridedRun :=
  (alignmentLoop members stride isRunMember members.length (runStart + stride - 1)
    (runStart + stride)).map fun tail => ⟨stride, runStart, tail⟩

def isColonRunMember (members : List Node) (i : Nat) : Option Bool := do
  if isAlignableField (← members[i]?) then return !(← f.isMergeableDefaultPair members i)
  else return false

def colonAlignRun (members : List Node) (runStart : Nat) : Option StridedRun :=
  alignmentRun members runStart 1 (f.isColonRunMember members)

def sameLineDefaultPairRun (members : List Node) (runStart : Nat) : Option StridedRun :=
  alignmentRun members runStart 2 (f.isMergeableDefaultPair members)

def CommentAt (members : List Node) (i : Nat) : Prop :=
  ∃ m, members[i]? = some m ∧ m.label.kind = .comment

def PairAt (members : List Node) (i : Nat) : Prop := f.isMergeableDefaultPair members i = some true

instance (members : List Node) (i : Nat) : Decidable (f.PairAt members i) :=
  inferInstanceAs (Decidable (_ = _))

/-- A field that is no part of a pair on one line. -/
def FieldAt (members : List Node) (i : Nat) : Prop := f.isColonRunMember members i = some true

instance (members : List Node) (i : Nat) : Decidable (f.FieldAt members i) :=
  inferInstanceAs (Decidable (_ = _))

variable {f} {members : List Node} {i : Nat}

lemma exists_getElem?_eq (h : i < members.length) : ∃ m, members[i]? = some m :=
  ⟨members[i], List.getElem?_eq_getElem h⟩

/-- The look at the next member does not go past the end. -/
lemma exists_isMergeableDefaultPair (h : i < members.length) :
    ∃ b, f.isMergeableDefaultPair members i = some b := by
  obtain ⟨m, hm⟩ := exists_getElem?_eq h
  cases hnext : members[i + 1]? with
  | none => exact ⟨false, by simp only [isMergeableDefaultPair, hnext]⟩
  | some default =>
    simp only [isMergeableDefaultPair, hnext, hm]
    exact ⟨_, rfl⟩

lemma exists_isColonRunMember (h : i < members.length) :
    ∃ b, f.isColonRunMember members i = some b := by
  obtain ⟨m, hm⟩ := exists_getElem?_eq h
  obtain ⟨b, hb⟩ := exists_isMergeableDefaultPair (f := f) h
  rw [isColonRunMember, hm, hb]
  cases hfield : isAlignableField m with
  | true => exact ⟨!b, by simp [hfield]⟩
  | false => exact ⟨false, by simp [hfield]⟩

lemma PairAt.exists_members (h : f.PairAt members i) :
    ∃ varDecl default, members[i]? = some varDecl ∧ members[i + 1]? = some default ∧
      isAlignableField varDecl = true ∧ default.label.kind = .memberDefaultVal ∧
      f.defaultOnSameLine varDecl default = true := by
  rw [PairAt, isMergeableDefaultPair] at h
  cases hnext : members[i + 1]? with
  | none =>
    rw [hnext] at h
    cases h
  | some default =>
    cases hm : members[i]? with
    | none => simp [hnext, hm] at h
    | some m =>
      simp only [hnext, hm, Option.pure_def, Option.bind_eq_bind, Option.bind_some,
        Option.some.injEq, Bool.and_eq_true, decide_eq_true_eq] at h
      exact ⟨m, default, rfl, rfl, h.1.2, h.1.1.2, h.2⟩

lemma FieldAt.exists_member (h : f.FieldAt members i) :
    (∃ m, members[i]? = some m ∧ isAlignableField m = true) ∧ ¬ f.PairAt members i := by
  rw [FieldAt, isColonRunMember] at h
  cases hm : members[i]? with
  | none => simp [hm] at h
  | some m =>
    cases hfield : isAlignableField m with
    | false => simp [hm, hfield] at h
    | true =>
      refine ⟨⟨m, rfl, hfield⟩, fun hpair => ?_⟩
      rw [PairAt] at hpair
      simp [hm, hpair] at h

lemma fieldAt_of_isAlignableField {m : Node} (hm : members[i]? = some m)
    (hfield : isAlignableField m = true) (hpair : f.isMergeableDefaultPair members i = some false) :
    f.FieldAt members i := by
  rw [FieldAt, isColonRunMember, hm]
  simp [hfield, hpair]

lemma kind_of_isAlignableField {m : Node} (h : isAlignableField m = true) :
    m.label.kind = .memberVarDecl := by
  by_contra hne
  rw [isAlignableField, if_pos (Or.inl hne)] at h
  cases h

lemma not_pairAt_of_comment (h : CommentAt members i) : ¬ f.PairAt members i := by
  rintro hpair
  obtain ⟨m, hm, hcomment⟩ := h
  obtain ⟨varDecl, -, hvar, -, hfield, -⟩ := hpair.exists_members
  rw [hm, Option.some.injEq] at hvar
  rw [← hvar] at hfield
  rw [kind_of_isAlignableField hfield] at hcomment
  cases hcomment

/-- The scan comes to its end: the member before the one looked at is always there. -/
lemma exists_alignmentLoop {isRunMember : Nat → Option Bool} {stride : Nat}
    (rounds prev scan : Nat) (hstride : 0 < stride)
    (hmember : ∀ i < members.length, ∃ b, isRunMember i = some b)
    (hprev : prev + 1 = scan) (hrounds : members.length ≤ scan + rounds) :
    ∃ run, alignmentLoop members stride isRunMember rounds prev scan = some run ∧
      Scanned stride (fun i => isRunMember i = some true) (CommentAt members) members.length scan
        run := by
  induction rounds generalizing prev scan with
  | zero =>
    have hend : members.length ≤ scan := hrounds
    exact ⟨[], by rw [alignmentLoop, if_neg hend.not_gt], Scanned.stop scan⟩
  | succ rounds ih =>
    by_cases hscan : scan < members.length
    · obtain ⟨before, hbefore⟩ := exists_getElem?_eq (show prev < members.length by omega)
      obtain ⟨m, hm⟩ := exists_getElem?_eq hscan
      obtain ⟨b, hb⟩ := hmember scan hscan
      simp only [alignmentLoop, if_pos hscan, hbefore, hm, Option.bind_eq_bind, Option.bind_some]
      split_ifs with hblank hcomment
      · exact ⟨[], rfl, Scanned.stop scan⟩
      · obtain ⟨run, hrun, hscanned⟩ := ih scan (scan + 1) rfl (by omega)
        exact ⟨run, hrun, Scanned.skip hscan ⟨m, hm, hcomment⟩ hscanned⟩
      · cases b with
        | false => exact ⟨[], by rw [hb]; rfl, Scanned.stop scan⟩
        | true =>
          obtain ⟨run, hrun, hscanned⟩ :=
            ih (scan + stride - 1) (scan + stride) (by omega) (by omega)
          refine ⟨scan :: run, ?_, Scanned.take hscan hb hscanned⟩
          rw [hb, Option.bind_some, if_pos rfl, hrun, Option.map_some]
    · exact ⟨[], by rw [alignmentLoop, if_neg hscan], Scanned.stop scan⟩

lemma exists_alignmentRun {isRunMember : Nat → Option Bool} {stride runStart : Nat}
    (hstride : 0 < stride) (hmember : ∀ i < members.length, ∃ b, isRunMember i = some b) :
    ∃ tail, alignmentRun members runStart stride isRunMember = some ⟨stride, runStart, tail⟩ ∧
      Scanned stride (fun i => isRunMember i = some true) (CommentAt members) members.length
        (runStart + stride) tail := by
  obtain ⟨tail, htail, hscanned⟩ := exists_alignmentLoop members.length (runStart + stride - 1)
    (runStart + stride) hstride hmember (by omega) (Nat.le_add_left _ _)
  exact ⟨tail, by rw [alignmentRun, htail, Option.map_some], hscanned⟩

/-- What a run of pairs is. -/
lemma exists_sameLineDefaultPairRun (f : Formatter) (members : List Node) (i : Nat) :
    ∃ tail, f.sameLineDefaultPairRun members i = some ⟨2, i, tail⟩ ∧
      Scanned 2 (f.PairAt members) (CommentAt members) members.length (i + 2) tail :=
  exists_alignmentRun Nat.two_pos fun _ => exists_isMergeableDefaultPair

/-- What a run of fields is. -/
lemma exists_colonAlignRun (f : Formatter) (members : List Node) (i : Nat) :
    ∃ tail, f.colonAlignRun members i = some ⟨1, i, tail⟩ ∧
      Scanned 1 (f.FieldAt members) (CommentAt members) members.length (i + 1) tail :=
  exists_alignmentRun Nat.one_pos fun _ => exists_isColonRunMember

variable (f) (members)

/-- `.iter().map(..).max().unwrap_or(0)` over the members of a run -/
def widest (members : List Node) (run : StridedRun) (width : Nat → Node → Option Nat) :
    Option Nat := do
  let widths ← run.entries.mapM fun v => (members[v]?).bind (width v)
  return widths.max?.getD 0

def colonColumn (members : List Node) (run : StridedRun) : Option Nat := do
  let width ← widest members run fun _ member => f.memberVarPreColonWidth member
  return f.indentWidth + width

def memberColonLoop (members : List Node) : Nat → Nat → RunPass Nat → Option (RunPass Nat)
  | 0, idx, pass => if idx < members.length then none else some pass
  | rounds + 1, idx, pass =>
    if idx < members.length then do
      if ← f.isMergeableDefaultPair members idx then
        let run ← f.sameLineDefaultPairRun members idx
        memberColonLoop members rounds (run.last + 2)
          (← pass.align run (f.colonColumn members run))
      else if isAlignableField (← members[idx]?) then
        let run ← f.colonAlignRun members idx
        memberColonLoop members rounds (run.last + 1)
          (← pass.align run (f.colonColumn members run))
      else memberColonLoop members rounds (idx + 1) pass
    else some pass

def noTargets (members : List Node) : RunPass Nat := ⟨List.replicate members.length none, []⟩

def memberColonTargets (members : List Node) : Option (RunPass Nat) :=
  if f.alignMemberColons then f.memberColonLoop members members.length 0 (noTargets members)
  else some (noTargets members)

def defaultColumn (members : List Node) (colonTargets : List (Option Nat)) (run : StridedRun) :
    Option Nat := do
  let width ← widest members run fun v member =>
    (colonTargets[v]?).map (f.memberVarLineWidthToSemicolon member)
  return f.indentWidth + width + utf8Bytes defaultGap

def memberDefaultLoop (members : List Node) (colonTargets : List (Option Nat)) :
    Nat → Nat → RunPass Nat → Option (RunPass Nat)
  | 0, idx, pass => if idx < members.length then none else some pass
  | rounds + 1, idx, pass =>
    if idx < members.length then do
      if ← f.isMergeableDefaultPair members idx then
        let run ← f.sameLineDefaultPairRun members idx
        memberDefaultLoop members colonTargets rounds (run.last + 2)
          (← pass.align run (f.defaultColumn members colonTargets run))
      else memberDefaultLoop members colonTargets rounds (idx + 1) pass
    else some pass

def memberDefaultAlignTargets (members : List Node) (colonTargets : List (Option Nat)) :
    Option (RunPass Nat) :=
  if f.alignMemberColons then
    f.memberDefaultLoop members colonTargets members.length 0 (noTargets members)
  else some (noTargets members)

def pairRunAt (i : Nat) : Option StridedRun :=
  if f.PairAt members i then f.sameLineDefaultPairRun members i else none

def colonRunAt (i : Nat) : Option StridedRun :=
  if f.PairAt members i then f.sameLineDefaultPairRun members i
  else if f.FieldAt members i then f.colonAlignRun members i
  else none

variable {f members}

lemma memberColonLoop_eq (rounds idx : Nat) (pass : RunPass Nat) :
    f.memberColonLoop members rounds idx pass =
      RunPass.run (f.colonRunAt members) (f.colonColumn members) members.length rounds idx
        pass := by
  induction rounds generalizing idx pass with
  | zero => rfl
  | succ rounds ih =>
    by_cases hidx : idx < members.length
    · obtain ⟨m, hm⟩ := exists_getElem?_eq hidx
      obtain ⟨b, hb⟩ := exists_isMergeableDefaultPair (f := f) hidx
      rw [memberColonLoop, RunPass.run, if_pos hidx, if_pos hidx, hb, hm]
      cases b with
      | true =>
        obtain ⟨tail, htail, -⟩ := exists_sameLineDefaultPairRun f members idx
        rw [colonRunAt, if_pos (show f.PairAt members idx from hb), htail]
        simp only [Option.bind_eq_bind, Option.bind_some, if_true, ih]
        rfl
      | false =>
        have hpair : ¬ f.PairAt members idx := by
          rw [PairAt, hb]
          decide
        rw [colonRunAt, if_neg hpair]
        cases hfield : isAlignableField m with
        | true =>
          obtain ⟨tail, htail, -⟩ := exists_colonAlignRun f members idx
          rw [if_pos (fieldAt_of_isAlignableField hm hfield hb), htail]
          simp only [Option.bind_eq_bind, Option.bind_some, hfield, if_true, ih,
            Bool.false_eq_true, if_false]
          rfl
        | false =>
          have hnot : ¬ f.FieldAt members idx := by
            intro hat
            obtain ⟨⟨m', hm', hfield'⟩, -⟩ := hat.exists_member
            rw [hm, Option.some.injEq] at hm'
            rw [hm', hfield'] at hfield
            cases hfield
          rw [if_neg hnot]
          simp only [Option.bind_eq_bind, Option.bind_some, hfield, ih, Bool.false_eq_true,
            if_false]
    · rw [memberColonLoop, RunPass.run, if_neg hidx, if_neg hidx]

lemma memberDefaultLoop_eq (colonTargets : List (Option Nat)) (rounds idx : Nat)
    (pass : RunPass Nat) :
    f.memberDefaultLoop members colonTargets rounds idx pass =
      RunPass.run (f.pairRunAt members) (f.defaultColumn members colonTargets) members.length rounds
        idx pass := by
  induction rounds generalizing idx pass with
  | zero => rfl
  | succ rounds ih =>
    by_cases hidx : idx < members.length
    · obtain ⟨b, hb⟩ := exists_isMergeableDefaultPair (f := f) hidx
      rw [memberDefaultLoop, RunPass.run, if_pos hidx, if_pos hidx, hb]
      cases b with
      | true =>
        obtain ⟨tail, htail, -⟩ := exists_sameLineDefaultPairRun f members idx
        rw [pairRunAt, if_pos (show f.PairAt members idx from hb), htail]
        simp only [Option.bind_eq_bind, Option.bind_some, if_true, ih]
        rfl
      | false =>
        have hpair : ¬ f.PairAt members idx := by
          rw [PairAt, hb]
          decide
        rw [pairRunAt, if_neg hpair]
        simp only [Option.bind_eq_bind, Option.bind_some, ih, Bool.false_eq_true, if_false]
    · rw [memberDefaultLoop, RunPass.run, if_neg hidx, if_neg hidx]

/-- A run of the passes: pairs with their defaults, or fields. -/
structure IsRun (f : Formatter) (members : List Node) (r : StridedRun) : Prop where
  spaced : r.Spaced
  kind : r.stride = 2 ∧ (∀ v ∈ r.entries, f.PairAt members v) ∨
    r.stride = 1 ∧ ∀ v ∈ r.entries, f.FieldAt members v
  lt : ∀ v ∈ r.entries, v < members.length

lemma PairAt.lt (h : f.PairAt members i) : i < members.length := by
  obtain ⟨varDecl, -, hvar, -⟩ := h.exists_members
  exact (List.getElem?_eq_some_iff.mp hvar).1

lemma FieldAt.lt (h : f.FieldAt members i) : i < members.length := by
  obtain ⟨⟨m, hm, -⟩, -⟩ := h.exists_member
  exact (List.getElem?_eq_some_iff.mp hm).1

lemma isRun_of_pairRunAt {r : StridedRun} (h : f.pairRunAt members i = some r) :
    r.head = i ∧ r.stride = 2 ∧ IsRun f members r := by
  obtain ⟨tail, htail, hscanned⟩ := exists_sameLineDefaultPairRun f members i
  rw [pairRunAt, htail] at h
  split_ifs at h with hpair
  cases h
  have hpairs : ∀ v ∈ i :: tail, f.PairAt members v :=
    List.forall_mem_cons.mpr ⟨hpair, hscanned.taken⟩
  exact ⟨rfl, rfl, StridedRun.spaced_of_scanned Nat.two_pos hscanned, Or.inl ⟨rfl, hpairs⟩,
    fun v hv => (hpairs v hv).lt⟩

lemma isRun_of_colonRunAt {r : StridedRun} (h : f.colonRunAt members i = some r) :
    r.head = i ∧ IsRun f members r := by
  obtain ⟨tail, htail, hscanned⟩ := exists_colonAlignRun f members i
  rw [colonRunAt] at h
  split_ifs at h with hpair hfield
  · obtain ⟨hhead, -, hrun⟩ := isRun_of_pairRunAt (f := f) (i := i) (r := r)
      (by rw [pairRunAt, if_pos hpair, h])
    exact ⟨hhead, hrun⟩
  · rw [htail] at h
    cases h
    have hfields : ∀ v ∈ i :: tail, f.FieldAt members v :=
      List.forall_mem_cons.mpr ⟨hfield, hscanned.taken⟩
    exact ⟨rfl, StridedRun.spaced_of_scanned Nat.one_pos hscanned, Or.inr ⟨rfl, hfields⟩,
      fun v hv => (hfields v hv).lt⟩

lemma startsRuns_pairRunAt : StartsRuns (f.pairRunAt members) :=
  ⟨fun _ _ h => (isRun_of_pairRunAt h).1, fun _ _ h => (isRun_of_pairRunAt h).2.2.spaced⟩

lemma startsRuns_colonRunAt : StartsRuns (f.colonRunAt members) :=
  ⟨fun _ _ h => (isRun_of_colonRunAt h).1, fun _ _ h => (isRun_of_colonRunAt h).2.spaced⟩

/-- Within the reach of a run only comments are passed by. -/
lemma covers_or_comment {r : StridedRun} (h : f.colonRunAt members i = some r) {j : Nat}
    (hle : i ≤ j) (hlt : j < r.stop) : r.Covers j ∨ CommentAt members j := by
  obtain ⟨tail, htail, hscanned⟩ := exists_colonAlignRun f members i
  obtain ⟨tail', htail', hscanned'⟩ := exists_sameLineDefaultPairRun f members i
  rw [colonRunAt, htail, htail'] at h
  split_ifs at h
  · cases h
    exact StridedRun.covers_or_skips Nat.two_pos hscanned' hle hlt
  · cases h
    exact StridedRun.covers_or_skips Nat.one_pos hscanned hle hlt

/-- No pair starts within a run of fields. -/
lemma pairRunAt_eq_none_of_fields {r : StridedRun} {j : Nat}
    (h : f.colonRunAt members i = some r) (hstride : r.stride ≠ 2) (hle : i ≤ j)
    (hlt : j < r.stop) : f.pairRunAt members j = none := by
  refine if_neg ?_
  rcases covers_or_comment h hle hlt with ⟨v, hv, hvle, hvlt⟩ | hcomment
  · rcases (isRun_of_colonRunAt h).2.kind with ⟨htwo, -⟩ | ⟨hone, hfields⟩
    · exact absurd htwo hstride
    · rw [hone] at hvlt
      rw [le_antisymm (Nat.lt_succ_iff.mp hvlt) hvle]
      exact (hfields v hv).exists_member.2
  · exact not_pairAt_of_comment hcomment

lemma isSome_colonRunAt_iff :
    (f.colonRunAt members i).isSome = true ↔ f.PairAt members i ∨ f.FieldAt members i := by
  obtain ⟨tail, htail, -⟩ := exists_colonAlignRun f members i
  obtain ⟨tail', htail', -⟩ := exists_sameLineDefaultPairRun f members i
  rw [colonRunAt, htail, htail']
  split_ifs with hpair hfield
  · exact ⟨fun _ => Or.inl hpair, fun _ => rfl⟩
  · exact ⟨fun _ => Or.inr hfield, fun _ => rfl⟩
  · simp [hpair, hfield]

lemma not_isSome_colonRunAt_of_comment (h : CommentAt members i) :
    ¬ (f.colonRunAt members i).isSome = true := by
  rw [isSome_colonRunAt_iff]
  rintro (hpair | hfield)
  · exact not_pairAt_of_comment h hpair
  · obtain ⟨⟨m, hm, hat⟩, -⟩ := hfield.exists_member
    obtain ⟨m', hm', hcomment⟩ := h
    rw [hm, Option.some.injEq] at hm'
    rw [← hm', kind_of_isAlignableField hat] at hcomment
    cases hcomment

lemma encloses_of_colonRunAt {r : StridedRun} (h : f.colonRunAt members i = some r) :
    Runs.Encloses (f.colonRunAt members) r := by
  intro j hle hlt hsome
  rw [(isRun_of_colonRunAt h).1] at hle
  rcases covers_or_comment h hle hlt with hcovers | hcomment
  · exact hcovers
  · exact absurd hsome (not_isSome_colonRunAt_of_comment hcomment)

/-- The second pass meets the runs of pairs of the first one. -/
lemma runs_pairRunAt {runs : List StridedRun}
    (h : Runs (f.colonRunAt members) members.length 0 runs) :
    Runs (f.pairRunAt members) members.length 0 (runs.filter fun r => r.stride = 2) := by
  refine h.filter startsRuns_colonRunAt (fun i => ?_) fun i r hr hstride j hle hlt => ?_
  · rw [pairRunAt, colonRunAt]
    split_ifs with hpair hfield
    · obtain ⟨tail, htail, -⟩ := exists_sameLineDefaultPairRun f members i
      rw [htail]
      rfl
    · obtain ⟨tail, htail, -⟩ := exists_colonAlignRun f members i
      rw [htail]
      rfl
    · rfl
  · exact pairRunAt_eq_none_of_fields hr (by simpa using hstride) hle hlt

/-! ### The columns -/

/-- A list can be read where each of its entries can. -/
lemma exists_mapM {α β : Type} {g : α → Option β} {l : List α} (h : ∀ a ∈ l, ∃ b, g a = some b) :
    ∃ bs, l.mapM g = some bs ∧ ∀ a ∈ l, ∀ b, g a = some b → b ∈ bs := by
  induction l with
  | nil => exact ⟨[], rfl, fun a ha => absurd ha List.not_mem_nil⟩
  | cons a l ih =>
    obtain ⟨⟨b, hb⟩, hrest⟩ := List.forall_mem_cons.mp h
    obtain ⟨bs, hbs, hmem⟩ := ih hrest
    refine ⟨b :: bs, by simp [hb, hbs], List.forall_mem_cons.mpr ⟨fun c hc => ?_, ?_⟩⟩
    · rw [hb, Option.some.injEq] at hc
      exact hc ▸ List.mem_cons_self
    · exact fun x hx c hc => List.mem_cons_of_mem _ (hmem x hx c hc)

/-- Each entry of a run is measured, and none is wider than the widest. -/
lemma exists_widest {r : StridedRun} (width : Nat → Node → Option Nat)
    (h : ∀ v ∈ r.entries, ∃ m w, members[v]? = some m ∧ width v m = some w) :
    ∃ max, widest members r width = some max ∧ ∀ v ∈ r.entries, ∀ m w, members[v]? = some m →
      width v m = some w → w ≤ max := by
  have hmeasured : ∀ v ∈ r.entries, ∃ w, (members[v]?).bind (width v) = some w := by
    intro v hv
    obtain ⟨m, w, hm, hw⟩ := h v hv
    exact ⟨w, by rw [hm, Option.bind_some, hw]⟩
  obtain ⟨widths, hwidths, hmem⟩ := exists_mapM hmeasured
  refine ⟨widths.max?.getD 0, by rw [widest, hwidths]; rfl, fun v hv m w hm hw => ?_⟩
  exact List.le_max?_getD_of_mem (hmem v hv w (by rw [hm, Option.bind_some, hw]))

/-- The colon column of a run leaves each of its fields the room that it needs. -/
lemma exists_colonColumn {r : StridedRun} (h : IsRun f members r) :
    ∃ col, f.colonColumn members r = some col ∧ ∀ v ∈ r.entries, ∀ m, members[v]? = some m →
      f.indentWidth + f.memberVarPreColonWidth m ≤ col := by
  obtain ⟨width, hwidth, hle⟩ := exists_widest
    (fun _ member => some (f.memberVarPreColonWidth member)) fun v hv =>
      (exists_getElem?_eq (h.lt v hv)).imp fun m hm => ⟨_, hm, rfl⟩
  refine ⟨f.indentWidth + width, ?_, fun v hv m hm => ?_⟩
  · rw [colonColumn, hwidth]
    rfl
  · exact Nat.add_le_add_left (hle v hv m _ hm rfl) _

/-- The default column of a run leaves each of its fields the room that it needs up to its `;` and
the gap behind it. -/
lemma exists_defaultColumn {r : StridedRun} {colonTargets : List (Option Nat)}
    (h : IsRun f members r) (hlength : colonTargets.length = members.length) :
    ∃ col, f.defaultColumn members colonTargets r = some col ∧ ∀ v ∈ r.entries, ∀ m target,
      members[v]? = some m → colonTargets[v]? = some target →
        f.indentWidth + f.memberVarLineWidthToSemicolon m target + utf8Bytes defaultGap ≤ col := by
  have hmeasured : ∀ v ∈ r.entries, ∃ m w, members[v]? = some m ∧
      (colonTargets[v]?).map (f.memberVarLineWidthToSemicolon m) = some w := by
    intro v hv
    obtain ⟨m, hm⟩ := exists_getElem?_eq (h.lt v hv)
    have htarget : v < colonTargets.length := hlength ▸ h.lt v hv
    refine ⟨m, f.memberVarLineWidthToSemicolon m colonTargets[v], hm, ?_⟩
    rw [List.getElem?_eq_getElem htarget, Option.map_some]
  obtain ⟨width, hwidth, hle⟩ := exists_widest _ hmeasured
  refine ⟨f.indentWidth + width + utf8Bytes defaultGap, ?_, fun v hv m target hm htarget => ?_⟩
  · rw [defaultColumn, hwidth]
    rfl
  · have hfits := hle v hv m _ hm (by rw [htarget, Option.map_some])
    exact Nat.add_le_add_right (Nat.add_le_add_left hfits _) _

/-- The targets of a pass are the columns of its runs, of which each leaves the fields of the run
the room that they need. -/
structure Columns (f : Formatter) (members : List Node) (pass : RunPass Nat)
    (needs : Nat → Node → Nat) : Prop where
  length : pass.targets.length = members.length
  isRun : ∀ r ∈ pass.runs, IsRun f members r
  disjoint : pass.runs.Pairwise fun r s => ∀ i, r.Covers i → ¬ s.Covers i
  column : ∀ r ∈ pass.runs, 2 ≤ r.entries.length → ∃ col, ∀ v ∈ r.entries,
    pass.targets[v]? = some (some col) ∧ ∀ m, members[v]? = some m → needs v m ≤ col
  aligned : ∀ v col, pass.targets[v]? = some (some col) →
    ∃ r ∈ pass.runs, 2 ≤ r.entries.length ∧ v ∈ r.entries

lemma columns_noTargets (needs : Nat → Node → Nat) :
    Columns f members (noTargets members) needs where
  length := List.length_replicate
  isRun := fun r hr => absurd hr List.not_mem_nil
  disjoint := List.Pairwise.nil
  column := fun r hr => absurd hr List.not_mem_nil
  aligned := by
    intro v col hcol
    rw [noTargets, List.getElem?_replicate] at hcol
    split_ifs at hcol
    cases hcol

/-- A pass whose runs are runs of the members and whose columns are wide enough. -/
lemma exists_columns {runAt : Nat → Option StridedRun}
    (value : StridedRun → Option Nat) (needs : Nat → Node → Nat) (hstarts : StartsRuns runAt)
    (hrun : ∀ i r, runAt i = some r → IsRun f members r)
    (hvalue : ∀ r, IsRun f members r → ∃ col, value r = some col ∧
      ∀ v ∈ r.entries, ∀ m, members[v]? = some m → needs v m ≤ col) :
    ∃ pass,
      RunPass.run runAt value members.length members.length 0 (noTargets members) = some pass ∧
      Runs runAt members.length 0 pass.runs ∧ Columns f members pass needs := by
  obtain ⟨pass, runs, hpass, hruns, hpassRuns, hfilled⟩ := RunPass.exists_run members.length 0
    (noTargets members) hstarts (fun i r hr => (hrun i r hr).lt)
    (fun i r hr => (hvalue r (hrun i r hr)).imp fun _ h => h.1) List.length_replicate
    (Nat.zero_add _).ge
  obtain rfl : pass.runs = runs := hpassRuns
  have hall : ∀ r ∈ pass.runs, IsRun f members r := fun r hr =>
    hrun _ r (hruns.runAt_head hstarts r hr).1
  refine ⟨pass, hpass, hruns, hfilled.length.trans List.length_replicate, hall,
    hruns.disjoint hstarts, ?_, ?_⟩
  · intro r hr htwo
    obtain ⟨col, hcol, hwide⟩ := hvalue r (hall r hr)
    refine ⟨col, fun v hv => ⟨hfilled.inside r hr col ?_ v hv, hwide v hv⟩⟩
    rw [RunPass.valueOf, if_pos htwo, hcol]
  · intro v col hcol
    obtain ⟨r, hr, hv, hput⟩ := hfilled.exists_run hcol
    refine ⟨r, hr, ?_, hv⟩
    by_contra hone
    rw [RunPass.valueOf, if_neg hone] at hput
    cases hput

/-- The room that a field needs in front of its colon. -/
def colonNeed (f : Formatter) (_ : Nat) (member : Node) : Nat :=
  f.indentWidth + f.memberVarPreColonWidth member

/-- The room that a field needs up to its `;` and the gap behind it. -/
def defaultNeed (f : Formatter) (colonTargets : List (Option Nat)) (v : Nat) (member : Node) :
    Nat :=
  f.indentWidth + f.memberVarLineWidthToSemicolon member ((colonTargets[v]?).getD none) +
    utf8Bytes defaultGap

/-- What the two passes make of the members. -/
structure AlignedBy (f : Formatter) (members : List Node) (colons defaults : RunPass Nat) :
    Prop where
  colonTargets : f.memberColonTargets members = some colons
  defaultTargets : f.memberDefaultAlignTargets members colons.targets = some defaults
  colon : Columns f members colons (colonNeed f)
  default : Columns f members defaults (defaultNeed f colons.targets)
  /-- Each pair and each field is in a run. -/
  covered : f.alignMemberColons = true → ∀ i, f.PairAt members i ∨ f.FieldAt members i →
    ∃ r ∈ colons.runs, r.Covers i
  /-- The second pass meets the runs of pairs again. -/
  pairs : defaults.runs = colons.runs.filter fun r => r.stride = 2

/-- Both passes come to their end on every list of members. -/
theorem exists_alignedBy (f : Formatter) (members : List Node) :
    ∃ colons defaults, AlignedBy f members colons defaults := by
  cases halign : f.alignMemberColons with
  | false =>
    refine ⟨noTargets members, noTargets members, ?_, ?_, columns_noTargets _,
      columns_noTargets _, fun h => absurd h (by rw [halign]; decide), rfl⟩
    · rw [memberColonTargets, halign]
      rfl
    · rw [memberDefaultAlignTargets, halign]
      rfl
  | true =>
    obtain ⟨colons, hcolons, hruns, hcolumns⟩ := exists_columns (f.colonColumn members)
      (colonNeed f) startsRuns_colonRunAt
      (fun i r hr => (isRun_of_colonRunAt hr).2) fun r hr => exists_colonColumn hr
    obtain ⟨defaults, hdefaults, hpairs, hdefaultColumns⟩ := exists_columns
      (f.defaultColumn members colons.targets) (defaultNeed f colons.targets) startsRuns_pairRunAt
      (fun i r hr => (isRun_of_pairRunAt hr).2.2) fun r hr => by
        obtain ⟨col, hcol, hwide⟩ := exists_defaultColumn hr hcolumns.length
        refine ⟨col, hcol, fun v hv m hm => ?_⟩
        have htarget : v < colons.targets.length := hcolumns.length ▸ hr.lt v hv
        rw [defaultNeed, List.getElem?_eq_getElem htarget, Option.getD_some]
        exact hwide v hv m _ hm (List.getElem?_eq_getElem htarget)
    refine ⟨colons, defaults, ?_, ?_, hcolumns, hdefaultColumns, fun _ i hi => ?_,
      hpairs.unique (runs_pairRunAt hruns)⟩
    · rw [memberColonTargets, halign, if_pos rfl, memberColonLoop_eq]
      exact hcolons
    · rw [memberDefaultAlignTargets, halign, if_pos rfl, memberDefaultLoop_eq]
      exact hdefaults
    · exact hruns.exists_covers startsRuns_colonRunAt (fun _ _ => encloses_of_colonRunAt)
        (Nat.zero_le i) (hi.elim PairAt.lt FieldAt.lt) (isSome_colonRunAt_iff.mpr hi)

end Formatter

end WitcherScriptLanguage.Formatting
