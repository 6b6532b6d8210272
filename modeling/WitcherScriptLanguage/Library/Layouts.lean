import Mathlib.Data.List.Chain
import WitcherScriptLanguage.Library.Splices

/-!
# Layouts

A text as lexemes with blanks in front of them. The lexemes of a text are determined up to the
markers among them (such as braces), which show by their first character, and so are the blanks.
Rewriting one text into another keeps the lexemes if the new blanks still keep them apart.
-/

namespace WitcherScriptLanguage.Library

variable {α : Type}

/-- A lexeme with the blanks in front of it. -/
structure Placed (α : Type) where
  gap : List α
  lexeme : List α
  deriving DecidableEq

/-- What a language says of its lexemes. -/
structure Lexis (α : Type) where
  blank : α → Bool
  /-- Characters that are a lexeme wherever one starts with them. -/
  marker : α → Bool
  /-- The blanks keep the lexemes on both sides apart. -/
  apart : List α → List α → List α → Prop

def textOf (layout : List (Placed α)) : List α := layout.flatMap fun p => p.gap ++ p.lexeme

def lexemesOf (layout : List (Placed α)) : List (List α) := layout.map Placed.lexeme

@[simp] lemma textOf_nil : textOf ([] : List (Placed α)) = [] := rfl

@[simp] lemma textOf_cons (p : Placed α) (layout : List (Placed α)) :
    textOf (p :: layout) = p.gap ++ (p.lexeme ++ textOf layout) := by
  rw [textOf, List.flatMap_cons, List.append_assoc]
  rfl

@[simp] lemma textOf_append (l l' : List (Placed α)) : textOf (l ++ l') = textOf l ++ textOf l' :=
  List.flatMap_append

@[simp] lemma lexemesOf_append (l l' : List (Placed α)) :
    lexemesOf (l ++ l') = lexemesOf l ++ lexemesOf l' := List.map_append

namespace Lexis

variable (x : Lexis α)

/-- A lexeme starts with no blank, and a marker stands alone. -/
structure Ok (p : Placed α) : Prop where
  blank : ∀ a ∈ p.gap, x.blank a = true
  starts : ∃ a rest, p.lexeme = a :: rest ∧ x.blank a = false ∧ (x.marker a = true → rest = [])

def startsLexeme : List α → Bool
  | [] => false
  | a :: rest => !x.blank a && (!x.marker a || rest.isEmpty)

lemma startsLexeme_iff {lexeme : List α} : x.startsLexeme lexeme = true ↔
    ∃ a rest, lexeme = a :: rest ∧ x.blank a = false ∧ (x.marker a = true → rest = []) := by
  cases lexeme with
  | nil => simp [startsLexeme]
  | cons a rest => cases hmark : x.marker a <;> simp [startsLexeme, hmark]

instance (p : Placed α) : Decidable (x.Ok p) :=
  decidable_of_iff ((∀ a ∈ p.gap, x.blank a = true) ∧ x.startsLexeme p.lexeme = true)
    ⟨fun h => ⟨h.1, x.startsLexeme_iff.mp h.2⟩, fun h => ⟨h.blank, x.startsLexeme_iff.mpr h.starts⟩⟩

def KeepsApart (p q : Placed α) : Prop := x.apart p.lexeme q.gap q.lexeme

/-- The layout spells its lexemes. -/
structure Spells (layout : List (Placed α)) : Prop where
  ok : ∀ p ∈ layout, x.Ok p
  apart : layout.IsChain x.KeepsApart

def isMarked (lexeme : List α) : Bool := lexeme.head?.any x.marker

/-- The lexemes other than markers. -/
def unmarked (layout : List (Placed α)) : List (List α) :=
  (lexemesOf layout).filter fun lexeme => !x.isMarked lexeme

/-- Neither a blank nor a marker. -/
def solid (a : α) : Bool := !x.blank a && !x.marker a

variable {x} {layout layout' : List (Placed α)}

@[simp] lemma unmarked_nil : x.unmarked [] = [] := rfl

lemma unmarked_append (l l' : List (Placed α)) :
    x.unmarked (l ++ l') = x.unmarked l ++ x.unmarked l' := by
  rw [unmarked, lexemesOf, List.map_append, List.filter_append]
  rfl

lemma unmarked_cons_of_marked {p : Placed α} (h : x.isMarked p.lexeme = true) :
    x.unmarked (p :: layout) = x.unmarked layout := by
  rw [unmarked, lexemesOf, List.map_cons, List.filter_cons_of_neg (by simp [h])]
  rfl

lemma unmarked_cons_of_not_marked {p : Placed α} (h : x.isMarked p.lexeme = false) :
    x.unmarked (p :: layout) = p.lexeme :: x.unmarked layout := by
  rw [unmarked, lexemesOf, List.map_cons, List.filter_cons_of_pos (by simp [h])]
  rfl

lemma gap_eq_of_append {gap gap' : List α} {a a' : α} {rest rest' : List α}
    (hgap : ∀ b ∈ gap, x.blank b = true) (hgap' : ∀ b ∈ gap', x.blank b = true)
    (ha : x.blank a = false) (ha' : x.blank a' = false)
    (h : gap ++ a :: rest = gap' ++ a' :: rest') : gap = gap' ∧ a :: rest = a' :: rest' := by
  induction gap generalizing gap' with
  | nil =>
    cases gap' with
    | nil => exact ⟨rfl, h⟩
    | cons b gap' =>
      have heq : a = b := (List.cons.inj h).1
      have hb := hgap' b List.mem_cons_self
      rw [← heq, ha] at hb
      cases hb
  | cons b gap ih =>
    have hb := hgap b List.mem_cons_self
    cases gap' with
    | nil =>
      have heq : b = a' := (List.cons.inj h).1
      rw [heq, ha'] at hb
      cases hb
    | cons b' gap' =>
      obtain ⟨rfl, hrest⟩ := List.cons.inj h
      obtain ⟨rfl, heq⟩ := ih (fun c hc => hgap c (List.mem_cons_of_mem b hc))
        (fun c hc => hgap' c (List.mem_cons_of_mem b hc)) hrest
      exact ⟨rfl, heq⟩

/-- A text has one layout with given lexemes, wherever its markers are. -/
theorem eq_of_textOf_eq (hok : ∀ p ∈ layout, x.Ok p) (hok' : ∀ p ∈ layout', x.Ok p)
    (htext : textOf layout = textOf layout') (hlexemes : x.unmarked layout = x.unmarked layout') :
    layout = layout' := by
  induction layout generalizing layout' with
  | nil =>
    cases layout' with
    | nil => rfl
    | cons p' layout' =>
      obtain ⟨a, rest, hlexeme, -, -⟩ := (hok' p' List.mem_cons_self).starts
      rw [textOf_cons, hlexeme] at htext
      simp at htext
  | cons p layout ih =>
    obtain ⟨a, rest, hlexeme, hblank, hmarker⟩ := (hok p List.mem_cons_self).starts
    cases layout' with
    | nil =>
      rw [textOf_cons, hlexeme] at htext
      simp at htext
    | cons p' layout' =>
      obtain ⟨a', rest', hlexeme', hblank', hmarker'⟩ := (hok' p' List.mem_cons_self).starts
      rw [textOf_cons, textOf_cons, hlexeme, hlexeme', List.cons_append, List.cons_append] at htext
      obtain ⟨hgap, hbehind⟩ := gap_eq_of_append (hok p List.mem_cons_self).blank
        (hok' p' List.mem_cons_self).blank hblank hblank' htext
      obtain ⟨rfl, -⟩ := List.cons.inj hbehind
      have hp : x.isMarked p.lexeme = x.marker a := by
        rw [isMarked, hlexeme]
        rfl
      have hp' : x.isMarked p'.lexeme = x.marker a := by
        rw [isMarked, hlexeme']
        rfl
      -- Both start with a marker, or both go on with the same lexeme.
      have hsame : p.lexeme = p'.lexeme ∧ x.unmarked layout = x.unmarked layout' := by
        cases hmark : x.marker a with
        | true =>
          rw [hmark] at hp hp'
          rw [unmarked_cons_of_marked hp, unmarked_cons_of_marked hp'] at hlexemes
          rw [hlexeme, hlexeme', hmarker hmark, hmarker' hmark]
          exact ⟨rfl, hlexemes⟩
        | false =>
          rw [hmark] at hp hp'
          rw [unmarked_cons_of_not_marked hp, unmarked_cons_of_not_marked hp'] at hlexemes
          exact List.cons.inj hlexemes
      have hrest : rest = rest' := by
        have hcons := hsame.1
        rw [hlexeme, hlexeme'] at hcons
        exact (List.cons.inj hcons).2
      rw [hrest] at hbehind
      have htail : textOf layout = textOf layout' := List.append_cancel_left (List.cons.inj hbehind).2
      have hlayout := ih (fun q hq => hok q (List.mem_cons_of_mem p hq))
        (fun q hq => hok' q (List.mem_cons_of_mem p' hq)) htail hsame.2
      have hplaced : p = p' := by
        cases p
        cases p'
        cases hgap
        cases hsame.1
        rfl
      rw [hlayout, hplaced]

lemma spells_append {l l' : List (Placed α)} : x.Spells (l ++ l') ↔
    x.Spells l ∧ x.Spells l' ∧ ∀ p ∈ l.getLast?, ∀ q ∈ l'.head?, x.KeepsApart p q := by
  constructor
  · intro h
    obtain ⟨hl, hl', hseam⟩ := List.isChain_append.mp h.apart
    exact ⟨⟨fun p hp => h.ok p (List.mem_append_left l' hp), hl⟩,
      ⟨fun p hp => h.ok p (List.mem_append_right l hp), hl'⟩, hseam⟩
  · rintro ⟨hl, hl', hseam⟩
    refine ⟨fun p hp => ?_, List.isChain_append.mpr ⟨hl.apart, hl'.apart, hseam⟩⟩
    rcases List.mem_append.mp hp with hp | hp
    · exact hl.ok p hp
    · exact hl'.ok p hp

lemma spells_singleton {p : Placed α} : x.Spells [p] ↔ x.Ok p :=
  ⟨fun h => h.ok p List.mem_cons_self, fun h =>
    ⟨fun q hq => by rwa [List.mem_singleton.mp hq], List.isChain_singleton p⟩⟩

/-- Other blanks in front of the first lexeme. -/
lemma Spells.regap {gap gap' lexeme : List α} (h : x.Spells (⟨gap, lexeme⟩ :: layout))
    (hgap : ∀ a ∈ gap', x.blank a = true) : x.Spells (⟨gap', lexeme⟩ :: layout) := by
  obtain ⟨hseam, hlayout⟩ := List.isChain_cons.mp h.apart
  refine ⟨fun p hp => ?_, List.isChain_cons.mpr ⟨hseam, hlayout⟩⟩
  rcases List.mem_cons.mp hp with rfl | hp
  · exact ⟨hgap, (h.ok _ List.mem_cons_self).starts⟩
  · exact h.ok p (List.mem_cons_of_mem _ hp)

/-- The characters of the lexemes other than markers. -/
lemma countP_solid (hok : ∀ p ∈ layout, x.Ok p) : (textOf layout).countP x.solid =
    ((x.unmarked layout).map fun lexeme => lexeme.countP x.solid).sum := by
  induction layout with
  | nil => rfl
  | cons p layout ih =>
    have hp := hok p List.mem_cons_self
    have hgap : p.gap.countP x.solid = 0 := by
      rw [List.countP_eq_zero]
      intro a ha
      rw [solid, hp.blank a ha]
      exact Bool.false_ne_true
    have hrest := ih fun q hq => hok q (List.mem_cons_of_mem p hq)
    rw [textOf_cons, List.countP_append, List.countP_append, hgap, hrest, Nat.zero_add]
    cases hmarked : x.isMarked p.lexeme with
    | true =>
      obtain ⟨a, rest, hlexeme, -, hmarker⟩ := hp.starts
      have ha : x.marker a = true := by
        rw [isMarked, hlexeme] at hmarked
        exact hmarked
      have hcount : p.lexeme.countP x.solid = 0 := by
        rw [hlexeme, hmarker ha, List.countP_eq_zero]
        intro b hb
        rw [List.mem_singleton.mp hb, solid, ha, Bool.not_true, Bool.and_false]
        exact Bool.false_ne_true
      rw [unmarked_cons_of_marked hmarked, hcount, Nat.zero_add]
    | false => rw [unmarked_cons_of_not_marked hmarked, List.map_cons, List.sum_cons]

end Lexis

end WitcherScriptLanguage.Library
