import Mathlib.Data.List.Infix
import Mathlib.Tactic.Lemma

/-!
# Searching in folded texts

Two loops that look for a needle in a haystack after both have been folded symbol by symbol: one
compares the windows of the needle's length, the other counts how many symbols of the needle have
been met in order. They decide whether the folded needle is a contiguous part and a subsequence
of the folded haystack.
-/

namespace WitcherScriptLanguage.Library.TextSearch

variable {α β : Type}

/-- The contiguous parts of a given length, from left to right. -/
def windows (n : Nat) : List α → List (List α)
  | [] => []
  | c :: rest => if n ≤ (c :: rest).length then (c :: rest).take n :: windows n rest else []

lemma mem_windows {n : Nat} (hn : 0 < n) {l w : List α} :
    w ∈ windows n l ↔ w.length = n ∧ w <:+: l := by
  induction l with
  | nil =>
    rw [windows, List.infix_nil]
    constructor
    · exact nofun
    · rintro ⟨hlength, rfl⟩
      exact absurd hlength (Nat.ne_of_lt hn)
  | cons c rest ih =>
    rw [windows, List.infix_cons_iff]
    split_ifs with hle
    · rw [List.mem_cons, ih]
      constructor
      · rintro (rfl | ⟨hlength, hrest⟩)
        · exact ⟨by rw [List.length_take, Nat.min_eq_left hle], .inl (List.take_prefix n _)⟩
        · exact ⟨hlength, .inr hrest⟩
      · rintro ⟨hlength, hbegins | hrest⟩
        · left
          rw [← hlength]
          exact List.prefix_iff_eq_take.mp hbegins
        · exact .inr ⟨hlength, hrest⟩
    · constructor
      · exact nofun
      · rintro ⟨hlength, hbegins | hrest⟩
        · have h := hbegins.length_le
          omega
        · have h := hrest.length_le
          rw [List.length_cons] at hle
          omega

/-- Some window is the needle up to folding just when the folded needle is a part. -/
theorem exists_window_iff (fold : α → β) {needle haystack : List α} (hne : needle ≠ []) :
    (∃ w ∈ windows needle.length haystack, w.map fold = needle.map fold) ↔
      needle.map fold <:+: haystack.map fold := by
  have hpos := List.length_pos_iff.mpr hne
  rw [List.infix_map_iff]
  constructor
  · rintro ⟨w, hw, hfold⟩
    exact ⟨w, ((mem_windows hpos).mp hw).2, hfold.symm⟩
  · rintro ⟨w, hw, hfold⟩
    have hlength : w.length = needle.length := by
      have h := congrArg List.length hfold
      rw [List.length_map, List.length_map] at h
      exact h.symm
    exact ⟨w, (mem_windows hpos).mpr ⟨hlength, hw⟩, hfold.symm⟩

section Subsequence

variable [DecidableEq β] (fold : α → β) (needle : List α)

/-- How many symbols of the needle are met, if the first `matched` ones have been met already. -/
def matchedFrom : Nat → List α → Nat
  | matched, [] => matched
  | matched, c :: rest =>
    if matched = needle.length then matched
    else if needle[matched]?.map fold = some (fold c) then matchedFrom (matched + 1) rest
    else matchedFrom matched rest

/-- Meeting every symbol as soon as it occurs finds a subsequence if there is one. -/
theorem matchedFrom_eq_length_iff {matched : Nat} (hle : matched ≤ needle.length)
    (haystack : List α) : matchedFrom fold needle matched haystack = needle.length ↔
      ((needle.drop matched).map fold).Sublist (haystack.map fold) := by
  induction haystack generalizing matched with
  | nil =>
    rw [matchedFrom, List.map_nil, List.sublist_nil, List.map_eq_nil_iff, List.drop_eq_nil_iff]
    omega
  | cons c rest ih =>
    rw [matchedFrom]
    split_ifs with hall hmet
    · rw [hall, List.drop_length]
      exact iff_of_true rfl (List.nil_sublist _)
    · have hlt : matched < needle.length := by omega
      rw [List.getElem?_eq_getElem hlt, Option.map_some, Option.some_inj] at hmet
      rw [ih hlt, List.drop_eq_getElem_cons hlt, List.map_cons, List.map_cons, hmet,
        List.cons_sublist_cons]
    · have hlt : matched < needle.length := by omega
      rw [List.getElem?_eq_getElem hlt, Option.map_some, Option.some_inj] at hmet
      rw [ih hle, List.drop_eq_getElem_cons hlt, List.map_cons, List.map_cons,
        List.sublist_cons_iff]
      constructor
      · exact .inl
      · rintro (h | ⟨r, hr, -⟩)
        · exact h
        · exact absurd (List.cons.inj hr).1 hmet

end Subsequence

end WitcherScriptLanguage.Library.TextSearch
