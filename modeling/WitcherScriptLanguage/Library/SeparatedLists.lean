import Mathlib.Data.List.Chain
import Mathlib.Tactic.Lemma

/-!
# Separated lists

Lists that alternate between entries and separators and begin and end with an entry. An entry is
taken out together with one of the separators next to it.
-/

namespace WitcherScriptLanguage.Library

inductive ListToken
  | entry
  | separator
  deriving DecidableEq, Repr

/-- Entries with a separator between any two of them; the list may be empty. -/
structure Separated (l : List ListToken) : Prop where
  head : ∀ x ∈ l.head?, x = .entry
  last : ∀ x ∈ l.getLast?, x = .entry
  alternates : l.IsChain (· ≠ ·)

lemma ListToken.eq_entry_of_ne {x : ListToken} (h : .separator ≠ x) : x = .entry := by
  cases x with
  | entry => rfl
  | separator => exact absurd rfl h

lemma ListToken.eq_separator_of_ne {x : ListToken} (h : x ≠ .entry) : x = .separator := by
  cases x with
  | entry => exact absurd rfl h
  | separator => rfl

namespace Separated

variable {a b : List ListToken}

/-- An entry goes with the separator behind it. -/
lemma remove_next (h : Separated (a ++ .entry :: .separator :: b)) : Separated (a ++ b) := by
  obtain ⟨hhead, hlast, hchain⟩ := h
  obtain ⟨hfront, hrest, hjoint⟩ := List.isChain_append.mp hchain
  rw [List.isChain_cons_cons, List.isChain_cons] at hrest
  obtain ⟨-, hnext, hback⟩ := hrest
  have hb : ∀ y ∈ b.head?, y = .entry := fun y hy => ListToken.eq_entry_of_ne (hnext y hy)
  have hne : b ≠ [] := by
    rintro rfl
    have hseparator := hlast .separator (by simp)
    cases hseparator
  refine ⟨fun x hx => ?_, fun x hx => ?_, List.isChain_append.mpr ⟨hfront, hback, ?_⟩⟩
  · cases a with
    | nil => exact hb x hx
    | cons y a => exact hhead x hx
  · refine hlast x ?_
    rw [List.getLast?_append_of_ne_nil _ hne] at hx
    rwa [List.getLast?_append_of_ne_nil _ (List.cons_ne_nil _ _), List.getLast?_cons_of_ne_nil
      (List.cons_ne_nil _ _), List.getLast?_cons_of_ne_nil hne]
  · intro x hx y hy
    rw [hb y hy]
    exact hjoint x hx .entry rfl

/-- An entry goes with the separator in front of it. -/
lemma remove_prev (h : Separated (a ++ .separator :: .entry :: b)) : Separated (a ++ b) := by
  obtain ⟨hhead, hlast, hchain⟩ := h
  obtain ⟨hfront, hrest, hjoint⟩ := List.isChain_append.mp hchain
  rw [List.isChain_cons_cons, List.isChain_cons] at hrest
  obtain ⟨-, hnext, hback⟩ := hrest
  have ha : ∀ x ∈ a.getLast?, x = .entry := fun x hx =>
    ListToken.eq_entry_of_ne (hjoint x hx .separator rfl).symm
  have hne : a ≠ [] := by
    rintro rfl
    have hseparator := hhead .separator rfl
    cases hseparator
  refine ⟨fun x hx => ?_, fun x hx => ?_, List.isChain_append.mpr ⟨hfront, hback, ?_⟩⟩
  · refine hhead x ?_
    rw [List.head?_append_of_ne_nil _ hne] at hx
    rwa [List.head?_append_of_ne_nil _ hne]
  · cases b with
    | nil => exact ha x (by simpa using hx)
    | cons y b =>
      refine hlast x ?_
      rw [List.getLast?_append_of_ne_nil _ (List.cons_ne_nil _ _)] at hx
      rwa [List.getLast?_append_of_ne_nil _ (List.cons_ne_nil _ _), List.getLast?_cons_of_ne_nil
        (List.cons_ne_nil _ _), List.getLast?_cons_of_ne_nil (List.cons_ne_nil _ _)]
  · intro x hx y hy
    rw [ha x hx]
    exact hnext y hy

/-- A list without separators has one entry only. -/
lemma sole_of_not_mem (h : Separated (a ++ .entry :: b)) (ha : .separator ∉ a)
    (hb : .separator ∉ b) : a = [] ∧ b = [] := by
  obtain ⟨-, hback, hjoint⟩ := List.isChain_append.mp h.alternates
  constructor
  · rcases List.eq_nil_or_concat' a with rfl | ⟨front, x, rfl⟩
    · rfl
    · have hx := ListToken.eq_separator_of_ne (hjoint x (by simp) .entry rfl)
      exact absurd (by simp [hx]) ha
  · cases b with
    | nil => rfl
    | cons y b =>
      have hy := ListToken.eq_separator_of_ne ((List.isChain_cons.mp hback).1 y rfl).symm
      exact absurd (by simp [hy]) hb

/-- Without a separator only the sole entry of a list can go. -/
lemma sole_of_remove (h : Separated (a ++ .entry :: b)) (h' : Separated (a ++ b)) :
    a = [] ∧ b = [] := by
  obtain ⟨-, hback, hjoint⟩ := List.isChain_append.mp h.alternates
  have ha : ∀ x ∈ a.getLast?, x = .separator := fun x hx =>
    ListToken.eq_separator_of_ne (hjoint x hx .entry rfl)
  have hb : ∀ y ∈ b.head?, y = .separator := fun y hy =>
    ListToken.eq_separator_of_ne ((List.isChain_cons.mp hback).1 y hy).symm
  rcases List.eq_nil_or_concat a with rfl | ⟨front, x, rfl⟩
  · refine ⟨rfl, ?_⟩
    cases b with
    | nil => rfl
    | cons y b =>
      have hentry := h'.head y rfl
      rw [hb y rfl] at hentry
      cases hentry
  · have hx := ha x (by simp)
    cases b with
    | nil =>
      have hentry := h'.last x (by simp)
      rw [hx] at hentry
      cases hentry
    | cons y b =>
      have hne := (List.isChain_append.mp h'.alternates).2.2 x (by simp) y rfl
      exact absurd (hx.trans (hb y rfl).symm) hne

end Separated

end WitcherScriptLanguage.Library
