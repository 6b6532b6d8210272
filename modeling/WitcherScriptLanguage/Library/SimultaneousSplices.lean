import Mathlib.Data.List.Pairwise
import WitcherScriptLanguage.Library.Splices

/-!
# Simultaneous splices

Splices whose ranges do not overlap, some of them perhaps insertions at one offset or at the start
of a replaced range. Put into the text at once, the insertions of an offset come in their order in
front of what replaces a range there. Applied one by one from the last start to the first, splices
of one start meet each other's texts.
-/

namespace WitcherScriptLanguage.Library

variable {α : Type} (size : α → Nat)

namespace Splice

/-- The ranges do not overlap; insertions may touch anything. -/
def Disjoint (a b : Splice α) : Prop := a.stop ≤ b.start ∨ b.stop ≤ a.start

instance : DecidableRel (Disjoint (α := α)) := fun a b =>
  inferInstanceAs (Decidable (a.stop ≤ b.start ∨ b.stop ≤ a.start))

instance : Std.Symm (Disjoint (α := α)) := ⟨fun _ _ h => Or.symm h⟩

def inserts (s : Splice α) : Bool := s.stop ≤ s.start

def replaces (s : Splice α) : Bool := s.start < s.stop

lemma replaces_eq_not (s : Splice α) : s.replaces = !s.inserts := by
  rw [replaces, inserts, ← decide_not, decide_eq_decide]
  omega

end Splice

open Splice

def startingAt (p : Nat) (splices : List (Splice α)) : List (Splice α) :=
  splices.filter fun s => s.start = p

def startingBehind (p : Nat) (splices : List (Splice α)) : List (Splice α) :=
  splices.filter fun s => p < s.start

/-- What comes into the text at an offset: the insertions in their order, then what replaces the
range that starts there. -/
def incoming (p : Nat) (splices : List (Splice α)) : List α :=
  ((startingAt p splices).filter inserts).flatMap Splice.text ++
    ((startingAt p splices).filter replaces).flatMap Splice.text

def covered (splices : List (Splice α)) (p : Nat) : Bool :=
  splices.any fun s => s.start ≤ p && p < s.stop

def spliceFrom (splices : List (Splice α)) : Nat → List α → List α
  | p, [] => incoming p splices
  | p, a :: text =>
    incoming p splices ++ ((if covered splices p then [] else [a]) ++
      spliceFrom splices (p + size a) text)

/-- Every range of the original text is replaced by its text. -/
def simultaneous (text : List α) (splices : List (Splice α)) : List α :=
  spliceFrom size splices 0 text

variable {size} {p q : Nat} {splices : List (Splice α)} {range kept text before : List α}

lemma mem_startingAt {s : Splice α} : s ∈ startingAt p splices ↔ s ∈ splices ∧ s.start = p := by
  rw [startingAt, List.mem_filter, decide_eq_true_iff]

lemma mem_startingBehind {s : Splice α} :
    s ∈ startingBehind p splices ↔ s ∈ splices ∧ p < s.start := by
  rw [startingBehind, List.mem_filter, decide_eq_true_iff]

lemma startingAt_eq_nil (h : ∀ s ∈ splices, s.start ≠ p) : startingAt p splices = [] :=
  List.filter_eq_nil_iff.mpr fun s hs => by simpa using h s hs

lemma startingBehind_eq_nil (h : ∀ s ∈ splices, s.start ≤ p) : startingBehind p splices = [] :=
  List.filter_eq_nil_iff.mpr fun s hs => by simpa using h s hs

lemma startingAt_startingBehind (h : p < q) :
    startingAt q (startingBehind p splices) = startingAt q splices := by
  rw [startingAt, startingBehind, List.filter_filter]
  apply List.filter_congr
  intro s _
  by_cases hs : s.start = q
  · simp [hs, h]
  · simp [hs]

lemma incoming_startingBehind (h : p < q) :
    incoming q (startingBehind p splices) = incoming q splices := by
  rw [incoming, startingAt_startingBehind h, incoming]

/-- Behind an offset that the splices up to it do not reach over, only the later ones matter. -/
lemma spliceFrom_startingBehind (hstop : ∀ s ∈ splices, s.start ≤ p → s.stop ≤ q) (h : p < q)
    (text : List α) :
    spliceFrom size splices q text = spliceFrom size (startingBehind p splices) q text := by
  induction text generalizing q with
  | nil => rw [spliceFrom, spliceFrom, incoming_startingBehind h]
  | cons a text ih =>
    have hcovered : covered splices q = covered (startingBehind p splices) q := by
      rw [Bool.eq_iff_iff, covered, covered, List.any_eq_true, List.any_eq_true]
      constructor
      · rintro ⟨s, hs, hcover⟩
        refine ⟨s, mem_startingBehind.mpr ⟨hs, ?_⟩, hcover⟩
        simp only [Bool.and_eq_true, decide_eq_true_eq] at hcover
        by_contra hle
        have hend := hstop s hs (by omega)
        omega
      · rintro ⟨s, hs, hcover⟩
        exact ⟨s, (mem_startingBehind.mp hs).1, hcover⟩
    have hrest := ih (q := q + size a) (fun s hs hle => (hstop s hs hle).trans (by omega)) (by omega)
    rw [spliceFrom, spliceFrom, incoming_startingBehind h, hcovered, hrest]

/-- The splices from an offset on, against the text there: at every offset an element is kept, or
one splice replaces a range, besides the insertions. -/
inductive Laid (size : α → Nat) : Nat → List α → List (Splice α) → Prop
  | done {p : Nat} {splices : List (Splice α)} : (∀ s ∈ splices, s.start = p ∧ s.stop = p) →
      Laid size p [] splices
  | keep {p : Nat} {a : α} {text : List α} {splices : List (Splice α)} :
      (∀ s ∈ splices, p ≤ s.start) →
      (∀ s ∈ startingAt p splices, s.stop = p) →
        Laid size (p + size a) text (startingBehind p splices) → Laid size p (a :: text) splices
  | replace {p : Nat} {range text : List α} {splices : List (Splice α)} {r : Splice α} :
      range ≠ [] → (∀ s ∈ splices, p ≤ s.start) →
      (∀ s ∈ startingAt p splices, s.stop = p ∨ s = r) →
        (startingAt p splices).filter replaces = [r] → r.stop = p + lengthOf size range →
          (∀ s ∈ startingBehind p splices, r.stop ≤ s.start) →
            Laid size (p + lengthOf size range) text (startingBehind p splices) →
              Laid size p (range ++ text) splices

lemma Laid.le_start (h : Laid size p text splices) : ∀ s ∈ splices, p ≤ s.start := by
  cases h with
  | done hsame => exact fun s hs => Nat.le_of_eq (hsame s hs).1.symm
  | keep hbehind _ _ => exact hbehind
  | replace _ hbehind _ _ _ _ _ => exact hbehind

section Positive

variable (hpos : ∀ a, 0 < size a)
include hpos

lemma lengthOf_pos (h : range ≠ []) : 0 < lengthOf size range := by
  cases range with
  | nil => exact absurd rfl h
  | cons a range =>
    have ha := hpos a
    rw [lengthOf_cons]
    omega

lemma isBoundary_append {k : Nat} (h : IsBoundary size (range ++ text) k)
    (hle : lengthOf size range ≤ k) : IsBoundary size text (k - lengthOf size range) := by
  obtain ⟨front, after, htext, hlength⟩ := (isBoundary_iff hpos).mp h
  rcases List.append_eq_append_iff.mp htext with ⟨mid, rfl, rfl⟩ | ⟨mid, rfl, rfl⟩
  · rw [lengthOf_append] at hlength
    refine (isBoundary_iff hpos).mpr ⟨mid, after, rfl, ?_⟩
    omega
  · have hmid : lengthOf size mid = 0 := by
      rw [lengthOf_append] at hle
      omega
    refine (isBoundary_iff hpos).mpr ⟨[], text, rfl, ?_⟩
    rw [lengthOf_append, lengthOf_nil]
    omega

omit hpos in
/-- At one offset at most one of the splices replaces a range. -/
lemma replaces_startingAt (hdisjoint : splices.Pairwise Splice.Disjoint) {r : Splice α}
    (hr : r ∈ (startingAt p splices).filter replaces) :
    (startingAt p splices).filter replaces = [r] := by
  have hsub : ((startingAt p splices).filter replaces).Pairwise Splice.Disjoint :=
    (hdisjoint.sublist List.filter_sublist).sublist List.filter_sublist
  have hall : ∀ s ∈ (startingAt p splices).filter replaces, s.start = p ∧ s.start < s.stop := by
    intro s hs
    obtain ⟨hat, hrep⟩ := List.mem_filter.mp hs
    exact ⟨(mem_startingAt.mp hat).2, of_decide_eq_true hrep⟩
  cases hlist : (startingAt p splices).filter replaces with
  | nil =>
    rw [hlist] at hr
    cases hr
  | cons s rest =>
    rw [hlist] at hr hsub hall
    cases rest with
    | nil => rw [List.mem_singleton.mp hr]
    | cons s' rest =>
      have hs := hall s List.mem_cons_self
      have hs' := hall s' (List.mem_cons_of_mem _ List.mem_cons_self)
      rcases (List.pairwise_cons.mp hsub).1 s' List.mem_cons_self with h | h
      · omega
      · omega

/-- Splices of the text that do not overlap can be laid out. -/
lemma laid_of_disjoint (hstart : ∀ s ∈ splices, p ≤ s.start ∧ s.start ≤ s.stop)
    (hin : ∀ s ∈ splices, IsBoundary size text (s.start - p) ∧ IsBoundary size text (s.stop - p))
    (hdisjoint : splices.Pairwise Splice.Disjoint) : Laid size p text splices := by
  induction hn : text.length using Nat.strong_induction_on generalizing p text splices with
  | _ n ih =>
    have hlater : (startingBehind p splices).Pairwise Splice.Disjoint :=
      hdisjoint.sublist List.filter_sublist
    -- The rest of the text behind a part that the later splices leave alone.
    have hrest : ∀ {front behind : List α}, text = front ++ behind → front ≠ [] →
        (∀ s ∈ startingBehind p splices, p + lengthOf size front ≤ s.start) →
          Laid size (p + lengthOf size front) behind (startingBehind p splices) := by
      intro front behind htext hfront hreach
      have hlt : behind.length < n := by
        have hlength := List.length_pos_iff.mpr hfront
        rw [← hn, htext, List.length_append]
        omega
      refine ih _ hlt (fun s hs => ⟨hreach s hs, ?_⟩) (fun s hs => ?_) hlater rfl
      · exact (hstart s (mem_startingBehind.mp hs).1).2
      · have hs' := (mem_startingBehind.mp hs).1
        have hboundary := hin s hs'
        have hle := hreach s hs
        have hle' := (hstart s hs').2
        rw [htext] at hboundary
        rw [Nat.sub_add_eq, Nat.sub_add_eq]
        exact ⟨isBoundary_append hpos hboundary.1 (by omega),
          isBoundary_append hpos hboundary.2 (by omega)⟩
    cases hreplacing : (startingAt p splices).filter replaces with
    | nil =>
      have hinsert : ∀ s ∈ startingAt p splices, s.stop = p := by
        intro s hs
        obtain ⟨hmem, hp⟩ := mem_startingAt.mp hs
        have hnot : ¬s.replaces = true := List.filter_eq_nil_iff.mp hreplacing s hs
        rw [replaces, decide_eq_true_iff] at hnot
        have hle := (hstart s hmem).2
        omega
      cases text with
      | nil =>
        refine .done fun s hs => ?_
        have hempty : ∀ {k : Nat}, IsBoundary size [] k → k = 0 := by
          intro k hk
          obtain ⟨front, behind, htext, hlength⟩ := (isBoundary_iff hpos).mp hk
          rw [(List.append_eq_nil_iff.mp htext.symm).1] at hlength
          exact hlength.symm
        have hat := hempty (hin s hs).1
        have hto := hempty (hin s hs).2
        have hle := hstart s hs
        omega
      | cons a text =>
        refine .keep (fun s hs => (hstart s hs).1) hinsert ?_
        have hkept := @hrest [a] text rfl (List.cons_ne_nil a []) ?_
        · rwa [lengthOf_cons, lengthOf_nil, Nat.add_zero] at hkept
        · intro s hs
          obtain ⟨hmem, hlt⟩ := mem_startingBehind.mp hs
          obtain ⟨front, behind, htext, hlength⟩ := (isBoundary_iff hpos).mp (hin s hmem).1
          cases front with
          | nil =>
            rw [lengthOf_nil] at hlength
            omega
          | cons b front =>
            obtain ⟨rfl, -⟩ := List.cons.inj htext
            rw [lengthOf_cons] at hlength ⊢
            rw [lengthOf_nil]
            omega
    | cons r others =>
      have hr : r ∈ (startingAt p splices).filter replaces := by
        rw [hreplacing]
        exact List.mem_cons_self
      have hone := replaces_startingAt hdisjoint hr
      obtain ⟨hat, hwide⟩ := List.mem_filter.mp hr
      obtain ⟨hmem, hp⟩ := mem_startingAt.mp hat
      rw [replaces, decide_eq_true_iff] at hwide
      obtain ⟨range, behind, htext, hlength⟩ := (isBoundary_iff hpos).mp (hin r hmem).2
      have hrange : range ≠ [] := by
        rintro rfl
        rw [lengthOf_nil] at hlength
        omega
      have hreach : ∀ s ∈ startingBehind p splices, r.stop ≤ s.start := by
        intro s hs
        obtain ⟨hsmem, hlt⟩ := mem_startingBehind.mp hs
        have hne : r ≠ s := by
          rintro rfl
          omega
        have hle := (hstart s hsmem).2
        rcases hdisjoint.forall hmem hsmem hne with h | h
        · exact h
        · omega
      have hinsert : ∀ s ∈ startingAt p splices, s.stop = p ∨ s = r := by
        intro s hs
        by_cases hrep : s.replaces = true
        · right
          have hs' : s ∈ (startingAt p splices).filter replaces := List.mem_filter.mpr ⟨hs, hrep⟩
          rw [hone] at hs'
          exact List.mem_singleton.mp hs'
        · left
          obtain ⟨hsmem, hsp⟩ := mem_startingAt.mp hs
          rw [replaces, decide_eq_true_iff] at hrep
          have hle := (hstart s hsmem).2
          omega
      have hstop : r.stop = p + lengthOf size range := by omega
      subst htext
      refine .replace hrange (fun s hs => (hstart s hs).1) hinsert hone hstop hreach ?_
      exact hrest rfl hrange fun s hs => hstop ▸ hreach s hs

omit hpos in
/-- Nothing comes in where no splice starts. -/
lemma incoming_eq_nil (h : ∀ s ∈ splices, s.start ≠ p) : incoming p splices = [] := by
  rw [incoming, startingAt_eq_nil h]
  rfl

lemma spliceFrom_keep {a : α} (hbehind : ∀ s ∈ splices, p ≤ s.start)
    (hinsert : ∀ s ∈ startingAt p splices, s.stop = p) :
    spliceFrom size splices p (a :: text) = incoming p splices ++ ([a] ++
      spliceFrom size (startingBehind p splices) (p + size a) text) := by
  have ha := hpos a
  have hstop : ∀ s ∈ splices, s.start ≤ p → s.stop ≤ p := by
    intro s hs hle
    have hp : s.start = p := by
      have hge := hbehind s hs
      omega
    exact Nat.le_of_eq (hinsert s (mem_startingAt.mpr ⟨hs, hp⟩))
  have hnot : covered splices p = false := by
    rw [covered, List.any_eq_false]
    intro s hs hcover
    simp only [Bool.and_eq_true, decide_eq_true_eq] at hcover
    have hle := hstop s hs hcover.1
    omega
  have hrest := @spliceFrom_startingBehind _ size p (p + size a) splices
    (fun s hs hle => (hstop s hs hle).trans (by omega)) (by omega) text
  rw [spliceFrom, hnot, if_neg Bool.false_ne_true, hrest]

omit hpos in
/-- A covered range in which no splice starts is dropped. -/
lemma spliceFrom_covered (hnone : ∀ s ∈ splices, q ≤ s.start → q + lengthOf size range ≤ s.start)
    {r : Splice α} (hr : r ∈ splices) (hstart : r.start ≤ q)
    (hstop : q + lengthOf size range ≤ r.stop) (hsize : ∀ a ∈ range, 0 < size a) (text : List α) :
    spliceFrom size splices q (range ++ text) =
      spliceFrom size splices (q + lengthOf size range) text := by
  induction range generalizing q with
  | nil => rfl
  | cons a range ih =>
    have ha := hsize a List.mem_cons_self
    rw [lengthOf_cons] at hnone hstop ⊢
    have hincoming : incoming q splices = [] := by
      apply incoming_eq_nil
      intro s hs heq
      have hreach := hnone s hs (Nat.le_of_eq heq.symm)
      omega
    have hcovered : covered splices q = true := by
      rw [covered, List.any_eq_true]
      refine ⟨r, hr, ?_⟩
      simp only [Bool.and_eq_true, decide_eq_true_eq]
      omega
    have hrest := @ih (q + size a) (fun s hs hle => by
      have hreach := hnone s hs (by omega)
      omega) (by omega) (by omega) fun b hb => hsize b (List.mem_cons_of_mem a hb)
    rw [List.cons_append, spliceFrom, hincoming, hcovered, if_pos rfl, hrest, Nat.add_assoc]
    rfl

lemma spliceFrom_replace {r : Splice α} (hrange : range ≠ [])
    (hbehind : ∀ s ∈ splices, p ≤ s.start)
    (hinsert : ∀ s ∈ startingAt p splices, s.stop = p ∨ s = r)
    (hone : (startingAt p splices).filter replaces = [r])
    (hstop : r.stop = p + lengthOf size range)
    (hreach : ∀ s ∈ startingBehind p splices, r.stop ≤ s.start) :
    spliceFrom size splices p (range ++ text) = incoming p splices ++
      spliceFrom size (startingBehind p splices) (p + lengthOf size range) text := by
  have hlength := lengthOf_pos hpos hrange
  have hr : r ∈ splices ∧ r.start = p := by
    have hmem : r ∈ (startingAt p splices).filter replaces := by
      rw [hone]
      exact List.mem_singleton_self r
    exact mem_startingAt.mp (List.mem_filter.mp hmem).1
  have hlater : ∀ s ∈ splices, p < s.start → p + lengthOf size range ≤ s.start := by
    intro s hs hlt
    rw [← hstop]
    exact hreach s (mem_startingBehind.mpr ⟨hs, hlt⟩)
  have hover : ∀ s ∈ splices, s.start ≤ p → s.stop ≤ p + lengthOf size range := by
    intro s hs hle
    have hp : s.start = p := by
      have hge := hbehind s hs
      omega
    rcases hinsert s (mem_startingAt.mpr ⟨hs, hp⟩) with h | rfl
    · omega
    · exact Nat.le_of_eq hstop
  cases range with
  | nil => exact absurd rfl hrange
  | cons a range =>
    have ha := hpos a
    have hcovered : covered splices p = true := by
      rw [covered, List.any_eq_true]
      refine ⟨r, hr.1, ?_⟩
      simp only [Bool.and_eq_true, decide_eq_true_eq]
      omega
    rw [lengthOf_cons] at hlater hover hstop ⊢
    have hrest := @spliceFrom_covered _ size (p + size a) splices range (fun s hs hle => by
      have hfar := hlater s hs (by omega)
      omega) r hr.1 (by omega) (by omega) (fun b _ => hpos b) text
    have hbelow := @spliceFrom_startingBehind _ size p (p + (size a + lengthOf size range)) splices
      hover (by omega) text
    rw [List.cons_append, spliceFrom, hcovered, if_pos rfl, List.nil_append, hrest, Nat.add_assoc,
      hbelow]

end Positive

/-! ### One by one -/

/-- The splices of one offset are the last ones to be applied, in the order of the list. -/
lemma rightmostFirst_split (hbehind : ∀ s ∈ splices, p ≤ s.start) :
    rightmostFirst splices = rightmostFirst (startingBehind p splices) ++ startingAt p splices := by
  induction splices with
  | nil => rfl
  | cons s splices ih =>
    have hs := hbehind s List.mem_cons_self
    have hrest := ih fun s' hs' => hbehind s' (List.mem_cons_of_mem s hs')
    have hlast : ∀ l : List (Splice α), (∀ b ∈ l, b.start = p) →
        List.orderedInsert (fun a b : Splice α => b.start ≤ a.start) s l = s :: l := by
      intro l hl
      cases l with
      | nil => rfl
      | cons b l =>
        have hb := hl b List.mem_cons_self
        rw [List.orderedInsert, if_pos (by omega)]
    have hat : ∀ b ∈ startingAt p splices, b.start = p := fun b hb => (mem_startingAt.mp hb).2
    rw [rightmostFirst, List.insertionSort_cons]
    rw [rightmostFirst] at hrest
    rw [hrest]
    by_cases hp : s.start = p
    · have hback : startingBehind p (s :: splices) = startingBehind p splices := by
        rw [startingBehind, List.filter_cons_of_neg (by simp [hp]), startingBehind]
      have hfront : startingAt p (s :: splices) = s :: startingAt p splices := by
        rw [startingAt, List.filter_cons_of_pos (by simp [hp]), startingAt]
      have hskip : ∀ l : List (Splice α), (∀ b ∈ l, p < b.start) →
          List.orderedInsert (fun a b : Splice α => b.start ≤ a.start) s
            (l ++ startingAt p splices) = l ++ s :: startingAt p splices := by
        intro l hl
        induction l with
        | nil => exact hlast _ hat
        | cons b l ihl =>
          have hb := hl b List.mem_cons_self
          rw [List.cons_append, List.orderedInsert, if_neg (by omega),
            ihl fun c hc => hl c (List.mem_cons_of_mem b hc)]
          rfl
      rw [hback, hfront]
      apply hskip
      intro b hb
      have hmem := (rightmostFirst_perm (startingBehind p splices)).mem_iff.mp hb
      exact (mem_startingBehind.mp hmem).2
    · have hback : startingBehind p (s :: splices) = s :: startingBehind p splices := by
        rw [startingBehind, List.filter_cons_of_pos (by simp; omega), startingBehind]
      have hfront : startingAt p (s :: splices) = startingAt p splices := by
        rw [startingAt, List.filter_cons_of_neg (by simpa using hp), startingAt]
      have hinsert : ∀ l : List (Splice α),
          List.orderedInsert (fun a b : Splice α => b.start ≤ a.start) s
            (l ++ startingAt p splices) =
          List.orderedInsert (fun a b : Splice α => b.start ≤ a.start) s l ++
            startingAt p splices := by
        intro l
        induction l with
        | nil =>
          cases hl : startingAt p splices with
          | nil => rfl
          | cons b rest =>
            rw [List.nil_append, ← hl, hlast _ hat, hl]
            rfl
        | cons b l ihl =>
          rw [List.cons_append, List.orderedInsert, List.orderedInsert, ihl]
          split_ifs <;> rfl
      rw [hback, hfront, hinsert]
      rfl

/-- The splices of one offset, one after the other, on the range that one of them replaces. -/
def settle (size : α → Nat) (group : List (Splice α)) (range : List α) : Option (List α) :=
  group.foldlM (fun text s => (cut size text (s.stop - s.start)).map fun parts =>
    s.text ++ parts.2) range

lemma settle_cons (s : Splice α) (group : List (Splice α)) (range : List α) :
    settle size (s :: group) range = (cut size range (s.stop - s.start)).bind fun parts =>
      settle size group (s.text ++ parts.2) := by
  rw [settle, List.foldlM_cons, Option.bind_eq_bind, Option.bind_map]
  rfl

def lengthIn (size : α → Nat) (group : List (Splice α)) : Nat :=
  (group.map fun s => lengthOf size s.text).sum

def lengthOut (group : List (Splice α)) : Nat := (group.map fun s => s.stop - s.start).sum

lemma lengthOf_incoming (p : Nat) (splices : List (Splice α)) :
    lengthOf size (incoming p splices) = lengthIn size (startingAt p splices) := by
  rw [incoming]
  generalize startingAt p splices = group
  induction group with
  | nil => rfl
  | cons s group ih =>
    rw [lengthOf_append] at ih ⊢
    rw [lengthIn] at ih ⊢
    rw [List.map_cons, List.sum_cons, ← ih]
    cases hs : s.inserts with
    | true =>
      have hnot : ¬s.replaces = true := by
        rw [replaces_eq_not, hs]
        exact Bool.false_ne_true
      rw [List.filter_cons_of_pos hs, List.filter_cons_of_neg hnot, List.flatMap_cons,
        lengthOf_append, Nat.add_assoc]
    | false =>
      have hyes : s.replaces = true := by
        rw [replaces_eq_not, hs]
        rfl
      have hnot : ¬s.inserts = true := by
        rw [hs]
        exact Bool.false_ne_true
      rw [List.filter_cons_of_neg hnot, List.filter_cons_of_pos hyes, List.flatMap_cons,
        lengthOf_append, Nat.add_left_comm]

lemma lengthOut_filter (group : List (Splice α)) :
    lengthOut group = lengthOut (group.filter replaces) := by
  induction group with
  | nil => rfl
  | cons s group ih =>
    rw [lengthOut, List.map_cons, List.sum_cons]
    rw [lengthOut] at ih
    by_cases hs : s.replaces = true
    · rw [List.filter_cons_of_pos hs, ih]
      rfl
    · rw [List.filter_cons_of_neg hs, ih]
      rw [replaces, decide_eq_true_iff] at hs
      omega

section Positive

variable (hpos : ∀ a, 0 < size a)
include hpos

lemma cut_append_add (before rest : List α) (k : Nat) :
    cut size (before ++ rest) (lengthOf size before + k) =
      (cut size rest k).map fun parts => (before ++ parts.1, parts.2) := by
  induction before with
  | nil =>
    rw [lengthOf_nil, Nat.zero_add]
    exact Option.map_id'.symm
  | cons a before ih =>
    have ha := hpos a
    obtain ⟨n, hn⟩ : ∃ n, lengthOf size (a :: before) + k = n + 1 :=
      ⟨size a + lengthOf size before + k - 1, by rw [lengthOf_cons]; omega⟩
    rw [lengthOf_cons] at hn
    have hle : size a ≤ n + 1 := by omega
    have hrest : n + 1 - size a = lengthOf size before + k := by omega
    rw [lengthOf_cons, hn, List.cons_append, cut, if_pos hle, hrest, ih, Option.map_map]
    rfl

omit hpos in
lemma cut_append_right {k : Nat} (hle : k ≤ lengthOf size range) (tail : List α) :
    cut size (range ++ tail) k =
      (cut size range k).map fun parts => (parts.1, parts.2 ++ tail) := by
  induction range generalizing k with
  | nil =>
    have hk : k = 0 := Nat.le_zero.mp hle
    rw [hk, cut_zero, cut_zero]
    rfl
  | cons a range ih =>
    cases k with
    | zero =>
      rw [cut_zero, cut_zero]
      rfl
    | succ k =>
      rw [lengthOf_cons] at hle
      rw [List.cons_append, cut, cut, ih (by omega)]
      split_ifs
      · rw [Option.map_map, Option.map_map]
        rfl
      · rfl

/-- What is around the range of an offset stays as it is. -/
lemma foldlM_startingAt {group : List (Splice α)} (hlength : lengthOf size before = p)
    (hgroup : ∀ s ∈ group, s.start = p ∧ p ≤ s.stop)
    (hreach : ∀ s ∈ group, s.replaces = true → s.stop ≤ p + lengthOf size range)
    (hone : (group.filter replaces).length ≤ 1) (tail : List α) :
    group.foldlM (replaceRange size) (before ++ (range ++ tail)) =
      (settle size group range).map fun text => before ++ (text ++ tail) := by
  induction group generalizing range with
  | nil => rfl
  | cons s group ih =>
    obtain ⟨hstart, hstop⟩ := hgroup s List.mem_cons_self
    have hwidth : s.stop - s.start ≤ lengthOf size range := by
      by_cases hs : s.replaces = true
      · have hle := hreach s List.mem_cons_self hs
        omega
      · rw [replaces, decide_eq_true_iff] at hs
        omega
    have hto : s.stop = lengthOf size before + (s.stop - s.start) := by omega
    have hcutStart : cut size (before ++ (range ++ tail)) s.start = some (before, range ++ tail) := by
      rw [hstart, ← hlength]
      exact cut_append hpos before _
    have hcutStop : cut size (before ++ (range ++ tail)) s.stop =
        (cut size range (s.stop - s.start)).map fun parts =>
          (before ++ parts.1, parts.2 ++ tail) := by
      rw [hto, cut_append_add hpos, ← hto, cut_append_right hwidth, Option.map_map]
      rfl
    have hstep : replaceRange size (before ++ (range ++ tail)) s =
        (cut size range (s.stop - s.start)).map fun parts =>
          before ++ ((s.text ++ parts.2) ++ tail) := by
      have hle : s.start ≤ s.stop := by omega
      rw [replaceRange, if_pos hle, hcutStart, hcutStop]
      cases cut size range (s.stop - s.start) with
      | none => rfl
      | some parts => simp
    rw [List.foldlM_cons, hstep, settle_cons]
    cases hcut : cut size range (s.stop - s.start) with
    | none => rfl
    | some parts =>
      have hrest : ∀ s' ∈ group, s'.replaces = true →
          s'.stop ≤ p + lengthOf size (s.text ++ parts.2) := by
        intro s' hs' hrep'
        by_cases hs : s.replaces = true
        · rw [List.filter_cons_of_pos hs, List.length_cons] at hone
          have hempty : group.filter replaces = [] := List.eq_nil_of_length_eq_zero (by omega)
          exact absurd hrep' (List.filter_eq_nil_iff.mp hempty s' hs')
        · rw [replaces, decide_eq_true_iff] at hs
          have hzero : s.stop - s.start = 0 := by omega
          rw [hzero, cut_zero, Option.some.injEq] at hcut
          have hle := hreach s' (List.mem_cons_of_mem s hs') hrep'
          rw [← hcut, lengthOf_append]
          simp only
          omega
      have hfewer : (group.filter replaces).length ≤ 1 :=
        (((List.sublist_cons_self s group).filter _).length_le).trans hone
      have hih := ih (fun s' hs' => hgroup s' (List.mem_cons_of_mem s hs')) hrest hfewer
      rw [Option.map_some, Option.bind_some, Option.bind_eq_bind, Option.bind_some, hih]

omit hpos in
lemma lengthOf_settle {group : List (Splice α)} {result : List α}
    (h : settle size group range = some result) :
    lengthOf size result + lengthOut group = lengthOf size range + lengthIn size group := by
  induction group generalizing range with
  | nil =>
    cases h
    rfl
  | cons s group ih =>
    rw [settle_cons, Option.bind_eq_some_iff] at h
    obtain ⟨⟨front, behind⟩, hcut, hrest⟩ := h
    obtain ⟨rfl, hfront⟩ := cut_eq_some hcut
    have hlength := ih hrest
    simp only [lengthOf_append, lengthOut, lengthIn] at hlength ⊢
    rw [List.map_cons, List.sum_cons, List.map_cons, List.sum_cons]
    omega

/-! ### When one by one is all at once -/

omit hpos in
/-- The range of the text behind `p` that is replaced at `q`. -/
def rangeAt (size : α → Nat) (p : Nat) (text : List α) (splices : List (Splice α)) (q : Nat) :
    List α :=
  (((startingAt q splices).filter replaces).head?.map fun r =>
    textBefore size (textAfter size text (q - p)) (r.stop - r.start)).getD []

omit hpos in
/-- At every offset the splices, one after the other, give what comes in. -/
def SplicesSettled (size : α → Nat) (p : Nat) (text : List α) (splices : List (Splice α)) : Prop :=
  ∀ q, p ≤ q → settle size (startingAt q splices) (rangeAt size p text splices q) =
    some (incoming q splices)

lemma textAfter_append_add (front : List α) (k : Nat) :
    textAfter size (front ++ text) (lengthOf size front + k) = textAfter size text k := by
  rw [textAfter, cut_append_add hpos, Option.map_map]
  rfl

lemma rangeAt_append {front : List α} (h : p < q) (hle : p + lengthOf size front ≤ q) :
    rangeAt size p (front ++ text) splices q =
      rangeAt size (p + lengthOf size front) text (startingBehind p splices) q := by
  have hq : q - p = lengthOf size front + (q - (p + lengthOf size front)) := by omega
  rw [rangeAt, rangeAt, startingAt_startingBehind h, hq, textAfter_append_add hpos]

lemma settled_iff {front : List α} (hfront : front ≠ [])
    (hnone : ∀ s ∈ splices, p < s.start → p + lengthOf size front ≤ s.start)
    (hrange : rangeAt size p (front ++ text) splices p = range) :
    SplicesSettled size p (front ++ text) splices ↔
      settle size (startingAt p splices) range = some (incoming p splices) ∧
        SplicesSettled size (p + lengthOf size front) text (startingBehind p splices) := by
  have hlength := lengthOf_pos hpos hfront
  have hlater : ∀ q, p + lengthOf size front ≤ q →
      (settle size (startingAt q splices) (rangeAt size p (front ++ text) splices q) =
          some (incoming q splices) ↔
        settle size (startingAt q (startingBehind p splices))
            (rangeAt size (p + lengthOf size front) text (startingBehind p splices) q) =
          some (incoming q (startingBehind p splices))) := by
    intro q hq
    rw [rangeAt_append hpos (by omega) hq, startingAt_startingBehind (by omega),
      incoming_startingBehind (by omega)]
  constructor
  · intro h
    have hp := h p (Nat.le_refl p)
    rw [hrange] at hp
    exact ⟨hp, fun q hq => (hlater q hq).mp (h q (by omega))⟩
  · rintro ⟨hp, hrest⟩ q hq
    by_cases hsame : q = p
    · rw [hsame, hrange]
      exact hp
    · by_cases hreach : p + lengthOf size front ≤ q
      · exact (hlater q hreach).mpr (hrest q hreach)
      · have hapart : ∀ s ∈ splices, s.start ≠ q := by
          intro s hs heq
          have hle := hnone s hs (by omega)
          omega
        rw [incoming_eq_nil hapart, rangeAt, startingAt_eq_nil hapart]
        rfl

/-- Two texts with equal parts at the end, as far as their lengths go. -/
lemma append_inj_of_lengthOf {front front' behind behind' : List α}
    (h : front ++ behind = front' ++ behind') (hlength : lengthOf size behind = lengthOf size behind') :
    front = front' ∧ behind = behind' := by
  have hempty : ∀ {mid : List α}, lengthOf size mid = 0 → mid = [] := by
    intro mid hmid
    by_contra hne
    have hmid' := lengthOf_pos hpos hne
    omega
  rcases List.append_eq_append_iff.mp h with ⟨mid, rfl, rfl⟩ | ⟨mid, rfl, rfl⟩
  · rw [lengthOf_append] at hlength
    have hmid := hempty (by omega : lengthOf size mid = 0)
    rw [hmid]
    simp
  · rw [lengthOf_append] at hlength
    have hmid := hempty (by omega : lengthOf size mid = 0)
    rw [hmid]
    simp

/-- What the splices that start at one offset do to the text behind it. -/
structure Handled (size : α → Nat) (p : Nat) (range kept text : List α)
    (splices : List (Splice α)) : Prop where
  behind : ∀ s ∈ splices, p ≤ s.start
  group : ∀ s ∈ startingAt p splices, s.start = p ∧ p ≤ s.stop
  reach : ∀ s ∈ startingAt p splices, s.replaces = true → s.stop ≤ p + lengthOf size range
  one : ((startingAt p splices).filter replaces).length ≤ 1
  out : lengthOut (startingAt p splices) = lengthOf size range
  spec : spliceFrom size splices p (range ++ (kept ++ text)) = incoming p splices ++ (kept ++
    spliceFrom size (startingBehind p splices) (p + lengthOf size (range ++ kept)) text)

/-- One offset: the splices behind it have been applied. -/
lemma Handled.step (h : Handled size p range kept text splices)
    (hlength : lengthOf size before = p) {result : List α}
    (hrest : ∀ X, (rightmostFirst (startingBehind p splices)).foldlM (replaceRange size)
        (before ++ (range ++ kept) ++ text) = some X →
      ∃ T, X = before ++ (range ++ kept) ++ T ∧
        lengthOf size T = lengthOf size (spliceFrom size (startingBehind p splices)
          (p + lengthOf size (range ++ kept)) text))
    (hresult : (rightmostFirst splices).foldlM (replaceRange size)
      (before ++ (range ++ (kept ++ text))) = some result) :
    ∃ settled T, result = before ++ (settled ++ (kept ++ T)) ∧
      settle size (startingAt p splices) range = some settled ∧
      (rightmostFirst (startingBehind p splices)).foldlM (replaceRange size)
        (before ++ (range ++ kept) ++ text) = some (before ++ (range ++ kept) ++ T) ∧
      lengthOf size (kept ++ T) = lengthOf size (kept ++ spliceFrom size
        (startingBehind p splices) (p + lengthOf size (range ++ kept)) text) ∧
      lengthOf size settled = lengthOf size (incoming p splices) := by
  have htext : before ++ (range ++ (kept ++ text)) = before ++ (range ++ kept) ++ text := by
    simp only [List.append_assoc]
  rw [rightmostFirst_split h.behind, List.foldlM_append, htext, Option.bind_eq_bind,
    Option.bind_eq_some_iff] at hresult
  obtain ⟨X, hX, hgroup⟩ := hresult
  obtain ⟨T, rfl, hT⟩ := hrest X hX
  have hshape : before ++ (range ++ kept) ++ T = before ++ (range ++ (kept ++ T)) := by
    simp only [List.append_assoc]
  rw [hshape, foldlM_startingAt hpos hlength h.group h.reach h.one, Option.map_eq_some_iff] at hgroup
  obtain ⟨settled, hsettled, rfl⟩ := hgroup
  refine ⟨settled, T, rfl, hsettled, hX, by rw [lengthOf_append, lengthOf_append, hT], ?_⟩
  have hsame := lengthOf_settle hsettled
  rw [h.out] at hsame
  rw [lengthOf_incoming]
  omega

/-- The splices from one offset on: what they make of the text, and when this is what they make of
it all at once. -/
structure Applies (size : α → Nat) (p : Nat) (text before : List α) (splices : List (Splice α)) :
    Prop where
  length : ∀ X, (rightmostFirst splices).foldlM (replaceRange size) (before ++ text) = some X →
    ∃ T, X = before ++ T ∧ lengthOf size T = lengthOf size (spliceFrom size splices p text)
  iff_settled : (rightmostFirst splices).foldlM (replaceRange size) (before ++ text) =
    some (before ++ spliceFrom size splices p text) ↔ SplicesSettled size p text splices

lemma Handled.applies (h : Handled size p range kept text splices)
    (hlength : lengthOf size before = p)
    (hrest : Applies size (p + lengthOf size (range ++ kept)) text (before ++ (range ++ kept))
      (startingBehind p splices))
    (hsettled : SplicesSettled size p (range ++ (kept ++ text)) splices ↔
      settle size (startingAt p splices) range = some (incoming p splices) ∧
        SplicesSettled size (p + lengthOf size (range ++ kept)) text (startingBehind p splices)) :
    Applies size p (range ++ (kept ++ text)) before splices where
  length X hX := by
    obtain ⟨settled, T, rfl, -, -, htail, hhead⟩ := h.step hpos hlength hrest.length hX
    refine ⟨_, rfl, ?_⟩
    rw [h.spec, lengthOf_append size settled, lengthOf_append size (incoming p splices), htail,
      hhead]
  iff_settled := by
    rw [hsettled, ← hrest.iff_settled]
    have htext : before ++ (range ++ (kept ++ text)) = before ++ (range ++ kept) ++ text := by
      simp only [List.append_assoc]
    constructor
    · intro hresult
      obtain ⟨settled, T, hX, hgroup, hfold, htail, -⟩ := h.step hpos hlength hrest.length hresult
      rw [h.spec, List.append_cancel_left_eq] at hX
      obtain ⟨hin, hkept⟩ := append_inj_of_lengthOf hpos hX htail.symm
      rw [List.append_cancel_left_eq] at hkept
      rw [hgroup, hfold, hin, hkept]
      exact ⟨rfl, rfl⟩
    · rintro ⟨hgroup, hfold⟩
      have hshape : before ++ (range ++ kept) ++ spliceFrom size (startingBehind p splices)
          (p + lengthOf size (range ++ kept)) text = before ++ (range ++ (kept ++
            spliceFrom size (startingBehind p splices) (p + lengthOf size (range ++ kept)) text)) := by
        simp only [List.append_assoc]
      rw [rightmostFirst_split h.behind, List.foldlM_append, htext, hfold, Option.bind_eq_bind,
        Option.bind_some, hshape, foldlM_startingAt hpos hlength h.group h.reach h.one, hgroup,
        Option.map_some, h.spec]

omit hpos in
lemma filter_replaces_eq_nil (hinsert : ∀ s ∈ startingAt p splices, s.stop = p) :
    (startingAt p splices).filter replaces = [] := by
  rw [List.filter_eq_nil_iff]
  intro s hs hrep
  rw [replaces, decide_eq_true_iff, (mem_startingAt.mp hs).2, hinsert s hs] at hrep
  exact absurd hrep (Nat.lt_irrefl p)

lemma handled_keep {a : α} (hbehind : ∀ s ∈ splices, p ≤ s.start)
    (hinsert : ∀ s ∈ startingAt p splices, s.stop = p) : Handled size p [] [a] text splices where
  behind := hbehind
  group s hs := ⟨(mem_startingAt.mp hs).2, Nat.le_of_eq (hinsert s hs).symm⟩
  reach s hs _ := by
    have hstop := hinsert s hs
    omega
  one := by
    rw [filter_replaces_eq_nil hinsert]
    exact Nat.zero_le 1
  out := by
    rw [lengthOut_filter, filter_replaces_eq_nil hinsert]
    rfl
  spec := by
    have hspec := @spliceFrom_keep _ size p splices text hpos a hbehind hinsert
    rw [List.nil_append, List.nil_append, lengthOf_cons, lengthOf_nil, Nat.add_zero]
    exact hspec

lemma handled_replace {r : Splice α} (hrange : range ≠ []) (hbehind : ∀ s ∈ splices, p ≤ s.start)
    (hinsert : ∀ s ∈ startingAt p splices, s.stop = p ∨ s = r)
    (hone : (startingAt p splices).filter replaces = [r])
    (hstop : r.stop = p + lengthOf size range)
    (hreach : ∀ s ∈ startingBehind p splices, r.stop ≤ s.start) :
    Handled size p range [] text splices where
  behind := hbehind
  group s hs := by
    refine ⟨(mem_startingAt.mp hs).2, ?_⟩
    rcases hinsert s hs with h | rfl
    · exact Nat.le_of_eq h.symm
    · omega
  reach s hs _ := by
    rcases hinsert s hs with h | rfl
    · omega
    · exact Nat.le_of_eq hstop
  one := by
    rw [hone]
    exact Nat.le_refl 1
  out := by
    have hr : r ∈ (startingAt p splices).filter replaces := by
      rw [hone]
      exact List.mem_singleton_self r
    have hstart := (mem_startingAt.mp (List.mem_filter.mp hr).1).2
    rw [lengthOut_filter, hone, lengthOut, List.map_singleton, List.sum_singleton]
    omega
  spec := by
    rw [List.nil_append, List.nil_append, List.append_nil]
    exact spliceFrom_replace hpos hrange hbehind hinsert hone hstop hreach

omit hpos in
lemma settle_eq_of_empty (h : startingAt q splices = []) :
    settle size (startingAt q splices) (rangeAt size p text splices q) =
      some (incoming q splices) := by
  have hin : incoming q splices = [] := by
    rw [incoming, h]
    rfl
  rw [hin, rangeAt, h]
  rfl

omit hpos in
lemma applies_nil (p : Nat) (before : List α) : Applies size p [] before [] where
  length X hX := by
    cases hX
    exact ⟨[], rfl, rfl⟩
  iff_settled := iff_of_true rfl fun _ _ => settle_eq_of_empty rfl

omit hpos in
/-- Insertions at the end of the text. -/
lemma handled_done (hsame : ∀ s ∈ splices, s.start = p ∧ s.stop = p) :
    Handled size p [] [] [] splices where
  behind s hs := Nat.le_of_eq (hsame s hs).1.symm
  group s hs := by
    have hs' := hsame s (mem_startingAt.mp hs).1
    exact ⟨hs'.1, Nat.le_of_eq hs'.2.symm⟩
  reach s hs _ := by
    have hs' := hsame s (mem_startingAt.mp hs).1
    omega
  one := by
    rw [filter_replaces_eq_nil fun s hs => (hsame s (mem_startingAt.mp hs).1).2]
    exact Nat.zero_le 1
  out := by
    rw [lengthOut_filter, filter_replaces_eq_nil fun s hs => (hsame s (mem_startingAt.mp hs).1).2]
    rfl
  spec := by
    rw [startingBehind_eq_nil fun s hs => Nat.le_of_eq (hsame s hs).1]
    exact (List.append_nil _).symm

/-- Laid out splices are put in at once exactly when those of each offset settle. -/
lemma Laid.applies (h : Laid size p text splices) (hlength : lengthOf size before = p) :
    Applies size p text before splices := by
  induction h generalizing before with
  | @done p splices hsame =>
    have hnone : startingBehind p splices = [] :=
      startingBehind_eq_nil fun s hs => Nat.le_of_eq (hsame s hs).1
    have hinsert : ∀ s ∈ startingAt p splices, s.stop = p :=
      fun s hs => (hsame s (mem_startingAt.mp hs).1).2
    have hrange : rangeAt size p ([] ++ ([] ++ [])) splices p = [] := by
      rw [rangeAt, filter_replaces_eq_nil hinsert]
      rfl
    refine (handled_done hsame).applies hpos hlength ?_ ?_
    · rw [hnone]
      exact applies_nil _ _
    · rw [hnone]
      constructor
      · intro hsettled
        have hp := hsettled p (Nat.le_refl p)
        rw [hrange] at hp
        exact ⟨hp, fun _ _ => settle_eq_of_empty rfl⟩
      · rintro ⟨hp, -⟩ q _
        by_cases hq : q = p
        · rw [hq, hrange]
          exact hp
        · apply settle_eq_of_empty
          refine startingAt_eq_nil fun s hs heq => ?_
          rw [(hsame s hs).1] at heq
          exact hq heq.symm
  | @keep p a text splices hbehind hinsert hrest ih =>
    have hlength' : lengthOf size (before ++ ([] ++ [a])) = p + size a := by
      rw [lengthOf_append, hlength]
      rfl
    have hrange : rangeAt size p ([a] ++ text) splices p = [] := by
      rw [rangeAt, filter_replaces_eq_nil hinsert]
      rfl
    have hsize : lengthOf size [a] = size a := by
      rw [lengthOf_cons, lengthOf_nil, Nat.add_zero]
    have hnone : ∀ s ∈ splices, p < s.start → p + lengthOf size [a] ≤ s.start := by
      intro s hs hlt
      rw [hsize]
      exact hrest.le_start s (mem_startingBehind.mpr ⟨hs, hlt⟩)
    have happlies := ih hlength'
    have hsettled := settled_iff hpos (List.cons_ne_nil a []) hnone hrange
    rw [hsize] at hsettled
    refine (handled_keep hpos hbehind hinsert).applies hpos hlength ?_ ?_
    · rw [List.nil_append, hsize]
      exact happlies
    · rw [List.nil_append, List.nil_append, hsize]
      exact hsettled
  | @replace p range text splices r hrange hbehind hinsert hone hstop hreach hrest ih =>
    have hlength' : lengthOf size (before ++ (range ++ [])) = p + lengthOf size range := by
      rw [List.append_nil, lengthOf_append, hlength]
    have hr : r ∈ (startingAt p splices).filter replaces := by
      rw [hone]
      exact List.mem_singleton_self r
    have hstart := (mem_startingAt.mp (List.mem_filter.mp hr).1).2
    have hwidth : r.stop - r.start = lengthOf size range := by omega
    have hat : rangeAt size p (range ++ text) splices p = range := by
      rw [rangeAt, hone, List.head?_cons, Option.map_some, Option.getD_some, Nat.sub_self, hwidth,
        textAfter, cut_zero, Option.map_some, Option.getD_some, textBefore_append hpos]
    have hnone : ∀ s ∈ splices, p < s.start → p + lengthOf size range ≤ s.start := by
      intro s hs hlt
      rw [← hstop]
      exact hreach s (mem_startingBehind.mpr ⟨hs, hlt⟩)
    have happlies := ih hlength'
    have hsettled := settled_iff hpos hrange hnone hat
    have hhandled := @handled_replace _ size p splices range text hpos r hrange hbehind hinsert hone
      hstop hreach
    have hresult := hhandled.applies hpos hlength (by
      rw [List.append_nil] at happlies ⊢
      exact happlies) (by
      rw [List.nil_append, List.append_nil]
      exact hsettled)
    rw [List.nil_append] at hresult
    exact hresult

/-- Splices of the text that do not overlap are put in at once exactly when those of each offset
settle. -/
theorem applySplices_iff_settled (hin : ∀ s ∈ splices, s.InText size text)
    (hdisjoint : splices.Pairwise Splice.Disjoint) :
    applySplices size text splices = some (simultaneous size text splices) ↔
      SplicesSettled size 0 text splices := by
  have hlaid : Laid size 0 text splices :=
    laid_of_disjoint hpos (fun s hs => ⟨Nat.zero_le _, (hin s hs).1⟩) (fun s hs => (hin s hs).2)
      hdisjoint
  have happlies : Applies size 0 text [] splices := hlaid.applies hpos rfl
  exact happlies.iff_settled

omit hpos in
/-- No insertion is listed in front of another splice with its start. -/
def ReplacesFirst (splices : List (Splice α)) : Prop :=
  splices.Pairwise fun a b => a.start = b.start → a.inserts = false

/-- The range that a splice replaces, cut out of the text. -/
lemma cut_rangeAt {r : Splice α} (hin : r.InText size text)
    (hone : (startingAt r.start splices).filter replaces = [r]) :
    cut size (rangeAt size 0 text splices r.start) (r.stop - r.start) =
      some (rangeAt size 0 text splices r.start, []) := by
  obtain ⟨hle, hstart, hstop⟩ := hin
  obtain ⟨upto, behind, rfl, hupto⟩ := (isBoundary_iff hpos).mp hstop
  obtain ⟨front, range, rfl, hfront⟩ := exists_cut_before hpos hstart (hupto ▸ hle)
  have hwidth : r.stop - r.start = lengthOf size range := by
    rw [lengthOf_append] at hupto
    omega
  have hrange : rangeAt size 0 (front ++ range ++ behind) splices r.start = range := by
    rw [rangeAt, hone, List.head?_cons, Option.map_some, Option.getD_some, Nat.sub_zero, hwidth,
      ← hfront, List.append_assoc, textAfter_append hpos, textBefore_append hpos]
  have hcut := cut_append hpos range []
  rw [List.append_nil] at hcut
  rw [hrange, hwidth, hcut]

/-- Where insertions are listed last, at most one of them stands at an offset, behind what replaces
a range there. -/
lemma settled_of_replacesFirst (hin : ∀ s ∈ splices, s.InText size text)
    (hdisjoint : splices.Pairwise Splice.Disjoint) (h : ReplacesFirst splices) :
    SplicesSettled size 0 text splices := by
  intro q _
  have hstart : ∀ s ∈ startingAt q splices, s.start = q := fun s hs => (mem_startingAt.mp hs).2
  have hgroup : (startingAt q splices).Pairwise fun a _ => a.inserts = false := by
    have hsub : (startingAt q splices).Pairwise fun a b => a.start = b.start → a.inserts = false :=
      h.sublist List.filter_sublist
    exact hsub.imp_of_mem fun ha hb hab => hab ((hstart _ ha).trans (hstart _ hb).symm)
  have hmem : ∀ s ∈ startingAt q splices, s ∈ splices := fun s hs => (mem_startingAt.mp hs).1
  cases hlist : startingAt q splices with
  | nil =>
    rw [← hlist]
    exact settle_eq_of_empty hlist
  | cons s rest =>
    have hs : s ∈ startingAt q splices := by
      rw [hlist]
      exact List.mem_cons_self
    have hq := hstart s hs
    subst hq
    cases hkind : s.inserts with
    | true =>
      have hrest : rest = [] := by
        cases rest with
        | nil => rfl
        | cons s' rest =>
          rw [hlist] at hgroup
          have hfirst := (List.pairwise_cons.mp hgroup).1 s' List.mem_cons_self
          rw [hkind] at hfirst
          cases hfirst
      have hnot : s.replaces = false := by
        rw [replaces_eq_not, hkind]
        rfl
      have hstop : s.stop - s.start = 0 := by
        rw [inserts, decide_eq_true_iff] at hkind
        omega
      subst hrest
      rw [rangeAt, incoming, hlist]
      simp [hkind, hnot, settle, hstop, cut_zero]
    | false =>
      have hrep : s.replaces = true := by
        rw [replaces_eq_not, hkind]
        rfl
      have hsrep : s ∈ (startingAt s.start splices).filter replaces := List.mem_filter.mpr ⟨hs, hrep⟩
      have hone := replaces_startingAt hdisjoint hsrep
      have hcut := cut_rangeAt hpos (hin s (hmem s hs)) hone
      have hothers : ∀ s' ∈ rest, s'.inserts = true := by
        intro s' hs'
        cases hkind' : s'.inserts with
        | true => rfl
        | false =>
          rw [hlist, List.filter_cons_of_pos hrep, List.cons_eq_cons] at hone
          have hrep' : s'.replaces = true := by
            rw [replaces_eq_not, hkind']
            rfl
          have hmem' : s' ∈ rest.filter replaces := List.mem_filter.mpr ⟨hs', hrep'⟩
          rw [hone.2] at hmem'
          cases hmem'
      cases rest with
      | nil =>
        rw [incoming, hlist]
        simp [hkind, hrep, settle, hcut]
      | cons s' rest =>
        have hkind' := hothers s' List.mem_cons_self
        have hnot' : s'.replaces = false := by
          rw [replaces_eq_not, hkind']
          rfl
        have hstop' : s'.stop - s'.start = 0 := by
          rw [inserts, decide_eq_true_iff] at hkind'
          omega
        have hrest : rest = [] := by
          cases rest with
          | nil => rfl
          | cons s'' rest =>
            rw [hlist] at hgroup
            have hsecond := (List.pairwise_cons.mp (List.pairwise_cons.mp hgroup).2).1 s''
              List.mem_cons_self
            rw [hkind'] at hsecond
            cases hsecond
        subst hrest
        rw [incoming, hlist]
        simp [hkind, hrep, hkind', hnot', settle, hcut, hstop', cut_zero]

omit hpos in
/-- The range of the splice in the original text. -/
def Splice.ends (s : Splice α) : Nat × Nat := (s.start, s.stop)

omit hpos in
/-- The splice with another text. -/
def Splice.withText (s : Splice α) (text : List α) : Splice α := { s with text }

omit hpos in
lemma settle_of_empty {group : List (Splice α)}
    (h : ∀ s ∈ group, s.inserts = true ∧ s.text = []) (text : List α) :
    settle size group text = some text := by
  induction group with
  | nil => rfl
  | cons s group ih =>
    obtain ⟨hinserts, hempty⟩ := h s List.mem_cons_self
    have hzero : s.stop - s.start = 0 := by
      rw [inserts, decide_eq_true_iff] at hinserts
      omega
    have hrest := ih fun s' hs' => h s' (List.mem_cons_of_mem s hs')
    rw [settle_cons, hzero, cut_zero, Option.bind_some, hempty, List.nil_append, hrest]

omit hpos in
/-- The last of the splices that come one after another has the last word at their start. -/
lemma settle_concat {group later : List (Splice α)} {s : Splice α} {result : List α}
    (hlater : ∀ s' ∈ later, s'.inserts = true ∧ s'.text = [])
    (h : settle size (group ++ s :: later) range = some result) : ∃ rest, result = s.text ++ rest := by
  rw [settle, List.foldlM_append, Option.bind_eq_bind, Option.bind_eq_some_iff] at h
  obtain ⟨current, -, h⟩ := h
  change settle size (s :: later) current = some result at h
  rw [settle_cons, Option.bind_eq_some_iff] at h
  obtain ⟨parts, -, h⟩ := h
  rw [settle_of_empty hlater, Option.some.injEq] at h
  exact ⟨parts.2, h.symm⟩

omit hpos in
/-- An insertion that is listed in front of another splice with its start, such that nothing is
replaced there behind that one. -/
lemma exists_of_not_replacesFirst (hdisjoint : splices.Pairwise Splice.Disjoint)
    (h : ¬ReplacesFirst splices) : ∃ front i mid j back, splices = front ++ i :: (mid ++ j :: back) ∧
      i.start = j.start ∧ i.inserts = true ∧
        ∀ s ∈ back, s.start = j.start → s.inserts = true := by
  have hpair : ∃ front i mid j back, splices = front ++ i :: (mid ++ j :: back) ∧
      i.start = j.start ∧ i.inserts = true := by
    clear hdisjoint
    induction splices with
    | nil => exact absurd List.Pairwise.nil h
    | cons s splices ih =>
      rw [ReplacesFirst, List.pairwise_cons, not_and_or] at h
      rcases h with hfirst | hrest
      · push Not at hfirst
        obtain ⟨j, hj, hstart, hinserts⟩ := hfirst
        obtain ⟨mid, back, rfl⟩ := List.append_of_mem hj
        exact ⟨[], s, mid, j, back, rfl, hstart, by simpa using hinserts⟩
      · obtain ⟨front, i, mid, j, back, rfl, hstart, hinserts⟩ := ih hrest
        exact ⟨s :: front, i, mid, j, back, rfl, hstart, hinserts⟩
  obtain ⟨front, i, mid, j, back, rfl, hstart, hinserts⟩ := hpair
  by_cases hback : ∀ s ∈ back, s.start = j.start → s.inserts = true
  · exact ⟨front, i, mid, j, back, rfl, hstart, hinserts, hback⟩
  · push Not at hback
    obtain ⟨k, hk, hkstart, hkinserts⟩ := hback
    obtain ⟨mid', back', rfl⟩ := List.append_of_mem hk
    refine ⟨front, i, mid ++ j :: mid', k, back', by simp, hstart.trans hkstart.symm, hinserts, ?_⟩
    -- Two splices that replace ranges from one start overlap.
    intro s hs hsstart
    cases hsinserts : s.inserts with
    | true => rfl
    | false =>
      have hsub : (k :: back').Sublist (front ++ i :: (mid ++ j :: (mid' ++ k :: back'))) :=
        ((((List.sublist_append_right mid' _).cons j).trans
          (List.sublist_append_right mid _)).cons i).trans (List.sublist_append_right front _)
      have hlist : (k :: back').Pairwise Splice.Disjoint := hdisjoint.sublist hsub
      have hover := (List.pairwise_cons.mp hlist).1 s hs
      have hk' : k.stop ≤ k.start → False := by
        intro hle
        rw [inserts, decide_eq_true hle] at hkinserts
        exact hkinserts rfl
      have hs' : s.stop ≤ s.start → False := by
        intro hle
        rw [inserts, decide_eq_true hle] at hsinserts
        cases hsinserts
      rcases hover with h | h
      · exact absurd (by omega) hk'
      · exact absurd (by omega) hs'

omit hpos in
lemma disjoint_of_ends {splices' : List (Splice α)}
    (hends : splices'.map Splice.ends = splices.map Splice.ends)
    (hdisjoint : splices.Pairwise Splice.Disjoint) : splices'.Pairwise Splice.Disjoint := by
  have hmap : ∀ l : List (Splice α), l.Pairwise Splice.Disjoint ↔
      (l.map Splice.ends).Pairwise fun a b => a.2 ≤ b.1 ∨ b.2 ≤ a.1 := by
    intro l
    rw [List.pairwise_map]
    rfl
  rw [hmap, hends, ← hmap]
  exact hdisjoint

omit hpos in
lemma inText_of_ends {splices' : List (Splice α)}
    (hends : splices'.map Splice.ends = splices.map Splice.ends)
    (hin : ∀ s ∈ splices, s.InText size text) : ∀ s ∈ splices', s.InText size text := by
  intro s hs
  have hmem : s.ends ∈ splices.map Splice.ends := by
    rw [← hends]
    exact List.mem_map_of_mem hs
  obtain ⟨s', hs', heq⟩ := List.mem_map.mp hmem
  obtain ⟨hstart, hstop⟩ := Prod.mk.inj heq
  have hs'' := hin s' hs'
  rw [Splice.InText, hstart, hstop] at hs''
  exact hs''

/-- If the ranges are replaced at once whatever the texts are, insertions are listed last. -/
lemma replacesFirst_of_forall {x y : α} (hxy : x ≠ y) (hin : ∀ s ∈ splices, s.InText size text)
    (hdisjoint : splices.Pairwise Splice.Disjoint)
    (h : ∀ splices' : List (Splice α), splices'.map Splice.ends = splices.map Splice.ends →
      applySplices size text splices' = some (simultaneous size text splices')) :
    ReplacesFirst splices := by
  by_contra hnot
  obtain ⟨front, i, mid, j, back, rfl, hstart, hinserts, hback⟩ :=
    exists_of_not_replacesFirst hdisjoint hnot
  -- Only the two splices have a text, and the second one is applied last.
  have hclear : ∀ l : List (Splice α),
      (l.map fun s => s.withText []).map Splice.ends = l.map Splice.ends := by
    intro l
    rw [List.map_map]
    rfl
  have hends : (front.map (·.withText []) ++ i.withText [x] :: (mid.map (·.withText []) ++
      j.withText [y] :: back.map (·.withText []))).map Splice.ends =
        (front ++ i :: (mid ++ j :: back)).map Splice.ends := by
    simp only [List.map_append, List.map_cons, hclear]
    rfl
  have hsettled := (applySplices_iff_settled hpos (inText_of_ends hends hin)
    (disjoint_of_ends hends hdisjoint)).mp (h _ hends) j.start (Nat.zero_le _)
  have hsplit : ∀ (l l' : List (Splice α)) (s : Splice α), s.start = j.start →
      startingAt j.start (l ++ s :: l') = startingAt j.start l ++ s :: startingAt j.start l' := by
    intro l l' s hs
    rw [startingAt, List.filter_append, List.filter_cons_of_pos (by simpa using hs), startingAt,
      startingAt]
  have hempty : ∀ l : List (Splice α), ∀ s ∈ startingAt j.start (l.map (·.withText [])),
      s.text = [] := by
    intro l s hs
    obtain ⟨s', -, rfl⟩ := List.mem_map.mp (mem_startingAt.mp hs).1
    rfl
  rw [hsplit _ _ (i.withText [x]) hstart, hsplit _ _ (j.withText [y]) rfl] at hsettled
  rw [← List.cons_append, ← List.append_assoc] at hsettled
  obtain ⟨rest, hlast⟩ := settle_concat (by
    intro s hs
    refine ⟨?_, hempty back s hs⟩
    obtain ⟨hmem, hs'⟩ := mem_startingAt.mp hs
    obtain ⟨s', hmem', rfl⟩ := List.mem_map.mp hmem
    exact hback s' hmem' hs') hsettled
  have hfirst : ∃ rest', incoming j.start (front.map (·.withText []) ++ i.withText [x] ::
      (mid.map (·.withText []) ++ j.withText [y] :: back.map (·.withText []))) = x :: rest' := by
    have hnone : ((startingAt j.start (front.map (·.withText []))).filter inserts).flatMap
        Splice.text = [] := by
      rw [List.flatMap_eq_nil_iff]
      exact fun s hs => hempty front s (List.mem_filter.mp hs).1
    have hin' : (i.withText [x]).inserts = true := hinserts
    rw [incoming, hsplit _ _ (i.withText [x]) hstart, List.filter_append, List.flatMap_append, hnone,
      List.filter_cons_of_pos hin', List.flatMap_cons]
    exact ⟨_, rfl⟩
  obtain ⟨rest', hfirst⟩ := hfirst
  rw [hfirst] at hlast
  exact hxy (List.cons.inj hlast).1

/-- The splices of a text are all put in at once, whatever their texts are, exactly when no
insertion is listed in front of another splice with its start. -/
theorem forall_applySplices_iff {x y : α} (hxy : x ≠ y) (hin : ∀ s ∈ splices, s.InText size text)
    (hdisjoint : splices.Pairwise Splice.Disjoint) :
    (∀ splices' : List (Splice α), splices'.map Splice.ends = splices.map Splice.ends →
      applySplices size text splices' = some (simultaneous size text splices')) ↔
      ReplacesFirst splices := by
  refine ⟨replacesFirst_of_forall hpos hxy hin hdisjoint, fun h splices' hends => ?_⟩
  have hin' := inText_of_ends hends hin
  have hdisjoint' := disjoint_of_ends hends hdisjoint
  refine (applySplices_iff_settled hpos hin' hdisjoint').mpr
    (settled_of_replacesFirst hpos hin' hdisjoint' ?_)
  have hmap : ∀ l : List (Splice α), ReplacesFirst l ↔
      (l.map Splice.ends).Pairwise fun a b => a.1 = b.1 → decide (a.2 ≤ a.1) = false := by
    intro l
    rw [List.pairwise_map]
    rfl
  rw [hmap, hends, ← hmap]
  exact h

/-! ### Where a text ends up -/

omit hpos in
/-- Sums over the splices from an offset on, those that start there first. -/
lemma sum_startingAt (f : Splice α → Nat) (hbehind : ∀ s ∈ splices, p ≤ s.start) :
    (splices.map f).sum =
      ((startingAt p splices).map f).sum + ((startingBehind p splices).map f).sum := by
  induction splices with
  | nil => rfl
  | cons s splices ih =>
    have hs := hbehind s List.mem_cons_self
    have hrest := ih fun s' hs' => hbehind s' (List.mem_cons_of_mem s hs')
    rw [startingAt, startingBehind] at hrest ⊢
    by_cases hp : s.start = p
    · rw [List.filter_cons_of_pos (by simpa using hp), List.filter_cons_of_neg (by simp [hp])]
      simp only [List.map_cons, List.sum_cons, hrest]
      omega
    · rw [List.filter_cons_of_neg (by simpa using hp),
        List.filter_cons_of_pos (by simp only [decide_eq_true_eq]; omega)]
      simp only [List.map_cons, List.sum_cons, hrest]
      omega

omit hpos in
/-- The splices that end in front of an offset. -/
def endingBy (q : Nat) (splices : List (Splice α)) : List (Splice α) :=
  splices.filter fun s => s.stop ≤ q

omit hpos in
lemma startingAt_endingBy (q : Nat) :
    startingAt p (endingBy q splices) = endingBy q (startingAt p splices) := by
  rw [startingAt, endingBy, endingBy, startingAt, List.filter_comm]

omit hpos in
lemma startingBehind_endingBy (q : Nat) :
    startingBehind p (endingBy q splices) = endingBy q (startingBehind p splices) := by
  rw [startingBehind, endingBy, endingBy, startingBehind, List.filter_comm]

omit hpos in
lemma lengthIn_endingBy (hbehind : ∀ s ∈ splices, p ≤ s.start) (q : Nat) :
    lengthIn size (endingBy q splices) = lengthIn size (endingBy q (startingAt p splices)) +
      lengthIn size (endingBy q (startingBehind p splices)) := by
  have hsum := sum_startingAt (fun s => lengthOf size s.text)
    (fun s hs => hbehind s (List.mem_filter.mp hs).1 : ∀ s ∈ endingBy q splices, p ≤ s.start)
  rw [startingAt_endingBy, startingBehind_endingBy] at hsum
  exact hsum

omit hpos in
lemma lengthOut_endingBy (hbehind : ∀ s ∈ splices, p ≤ s.start) (q : Nat) :
    lengthOut (endingBy q splices) = lengthOut (endingBy q (startingAt p splices)) +
      lengthOut (endingBy q (startingBehind p splices)) := by
  have hsum := sum_startingAt (fun s => s.stop - s.start)
    (fun s hs => hbehind s (List.mem_filter.mp hs).1 : ∀ s ∈ endingBy q splices, p ≤ s.start)
  rw [startingAt_endingBy, startingBehind_endingBy] at hsum
  exact hsum

omit hpos in
/-- The text of a splice stands in the spliced text where the splices that end in front of it have
moved its start. -/
def MovedTo (size : α → Nat) (p : Nat) (splices : List (Splice α)) (r : Splice α)
    (result : List α) : Prop :=
  ∃ front back, result = front ++ (r.text ++ back) ∧
    lengthOf size front + lengthOut (endingBy r.start splices) =
      (r.start - p) + lengthIn size (endingBy r.start splices) ∧
    lengthOut (endingBy r.start splices) ≤ r.start - p

omit hpos in
lemma Handled.movedTo {r : Splice α} (h : Handled size p range kept text splices)
    (hreach : p + lengthOf size (range ++ kept) ≤ r.start)
    (hrest : MovedTo size (p + lengthOf size (range ++ kept)) (startingBehind p splices) r
      (spliceFrom size (startingBehind p splices) (p + lengthOf size (range ++ kept)) text)) :
    MovedTo size p splices r (spliceFrom size splices p (range ++ (kept ++ text))) := by
  obtain ⟨front, back, hresult, hlength, hout⟩ := hrest
  have hall : endingBy r.start (startingAt p splices) = startingAt p splices := by
    rw [endingBy, List.filter_eq_self]
    intro s hs
    rw [decide_eq_true_iff]
    rw [lengthOf_append] at hreach
    by_cases hrep : s.replaces = true
    · have hstop := h.reach s hs hrep
      omega
    · rw [replaces, decide_eq_true_iff] at hrep
      have hstart := (h.group s hs).1
      omega
  have hin' := @lengthIn_endingBy _ size p splices h.behind r.start
  have hout' := @lengthOut_endingBy _ p splices h.behind r.start
  rw [hall] at hin' hout'
  have hgroup := h.out
  rw [lengthOf_append] at hlength hout hreach
  refine ⟨incoming p splices ++ (kept ++ front), back, ?_, ?_, ?_⟩
  · rw [h.spec, hresult]
    simp only [List.append_assoc]
  · rw [lengthOf_append, lengthOf_append, lengthOf_incoming, hin', hout']
    omega
  · rw [hout']
    omega

lemma Laid.movedTo (h : Laid size p text splices) (hle : ∀ s ∈ splices, s.start ≤ s.stop)
    {r : Splice α} (hr : r ∈ splices) (hrep : r.replaces = true) :
    MovedTo size p splices r (spliceFrom size splices p text) := by
  have hwide : r.start < r.stop := of_decide_eq_true hrep
  induction h with
  | @done p splices hsame =>
    have hr' := hsame r hr
    omega
  | @keep p a text splices hbehind hinsert hrest ih =>
    have hlater : r ∈ startingBehind p splices := by
      refine mem_startingBehind.mpr ⟨hr, ?_⟩
      have hge := hbehind r hr
      by_contra hlt
      have hstop := hinsert r (mem_startingAt.mpr ⟨hr, by omega⟩)
      omega
    have hhandled := @handled_keep _ size p splices text hpos a hbehind hinsert
    have hmoved := ih (fun s hs => hle s (mem_startingBehind.mp hs).1) hlater
    have hstart := hrest.le_start r hlater
    have hsize : p + lengthOf size ([] ++ [a]) = p + size a := rfl
    have hresult := @Handled.movedTo _ size p splices [] [a] text r hhandled
      (by rw [hsize]; exact hstart) (by rw [hsize]; exact hmoved)
    exact hresult
  | @replace p range text splices r' hrange hbehind hinsert hone hstop hreach hrest ih =>
    have hhandled := @handled_replace _ size p splices range text hpos r' hrange hbehind hinsert hone
      hstop hreach
    by_cases hp : r.start = p
    · have hmem : r ∈ (startingAt p splices).filter replaces :=
        List.mem_filter.mpr ⟨mem_startingAt.mpr ⟨hr, hp⟩, hrep⟩
      rw [hone] at hmem
      have hsame : r = r' := List.mem_singleton.mp hmem
      subst hsame
      have hfirst : endingBy r.start splices = (startingAt p splices).filter inserts := by
        rw [endingBy, startingAt, List.filter_filter]
        apply List.filter_congr
        intro s hs
        have hs' := hbehind s hs
        have hs'' := hle s hs
        rw [inserts, Bool.eq_iff_iff, Bool.and_eq_true]
        simp only [decide_eq_true_eq]
        omega
      have hout : lengthOut (endingBy r.start splices) = 0 := by
        rw [hfirst, lengthOut_filter, List.filter_filter]
        have hnone : (startingAt p splices).filter (fun s => s.replaces && s.inserts) = [] := by
          rw [List.filter_eq_nil_iff]
          intro s _ hboth
          rw [Bool.and_eq_true, replaces_eq_not] at hboth
          rw [hboth.2] at hboth
          exact Bool.false_ne_true hboth.1
        rw [hnone]
        rfl
      have hin : lengthOf size (((startingAt p splices).filter inserts).flatMap Splice.text) =
          lengthIn size (endingBy r.start splices) := by
        rw [hfirst, lengthIn]
        generalize (startingAt p splices).filter inserts = group
        induction group with
        | nil => rfl
        | cons s group ihgroup =>
          rw [List.flatMap_cons, lengthOf_append, ihgroup, List.map_cons, List.sum_cons]
      refine ⟨((startingAt p splices).filter inserts).flatMap Splice.text,
        spliceFrom size (startingBehind p splices) (p + lengthOf size range) text, ?_, ?_, ?_⟩
      · rw [spliceFrom_replace hpos hrange hbehind hinsert hone hstop hreach, incoming, hone]
        simp
      · rw [hin, hout]
        omega
      · rw [hout]
        exact Nat.zero_le _
    · have hlater : r ∈ startingBehind p splices := by
        refine mem_startingBehind.mpr ⟨hr, ?_⟩
        have hge := hbehind r hr
        omega
      have hmoved := ih (fun s hs => hle s (mem_startingBehind.mp hs).1) hlater
      have hstart := hrest.le_start r hlater
      have hsize : p + lengthOf size (range ++ []) = p + lengthOf size range := by
        rw [List.append_nil]
      exact @Handled.movedTo _ size p splices range [] text r hhandled
        (by rw [hsize]; exact hstart) (by rw [hsize]; exact hmoved)

/-- Where the text of a replaced range stands when all splices are put in at once. -/
theorem movedTo_simultaneous (hin : ∀ s ∈ splices, s.InText size text)
    (hdisjoint : splices.Pairwise Splice.Disjoint) {r : Splice α} (hr : r ∈ splices)
    (hrep : r.replaces = true) : MovedTo size 0 splices r (simultaneous size text splices) := by
  have hlaid : Laid size 0 text splices :=
    laid_of_disjoint hpos (fun s hs => ⟨Nat.zero_le _, (hin s hs).1⟩) (fun s hs => (hin s hs).2)
      hdisjoint
  exact hlaid.movedTo hpos (fun s hs => (hin s hs).1) hr hrep

end Positive

end WitcherScriptLanguage.Library
