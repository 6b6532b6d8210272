import Mathlib.Data.Nat.Digits.Defs
import Mathlib.Tactic.IntervalCases

/-!
# Numerals in a text

Numerals of base at most 16 contain no dash and are injective, so a list of numerals joined by
dashes determines the numbers.
-/

namespace WitcherScriptLanguage.Library

variable {b : Nat}

lemma digitChar_ne_dash {d : Nat} (hd : d < 16) : Nat.digitChar d ≠ '-' := by
  interval_cases d <;> decide

lemma digitChar_injOn {d e : Nat} (hd : d < 16) (he : e < 16)
    (h : Nat.digitChar d = Nat.digitChar e) : d = e := by
  have hall : ∀ d : Fin 16, ∀ e : Fin 16, Nat.digitChar d = Nat.digitChar e → d = e := by decide
  exact congrArg Fin.val (hall ⟨d, hd⟩ ⟨e, he⟩ h)

lemma dash_notMem_toDigits (hb : 1 < b) (hle : b ≤ 16) (n : Nat) : '-' ∉ Nat.toDigits b n := by
  induction n using Nat.strong_induction_on with
  | h n ih =>
    rw [Nat.toDigits_eq_if hb]
    split_ifs with hn
    · simp [(digitChar_ne_dash (by omega : n < 16)).symm]
    · have hdiv : n / b < n := Nat.div_lt_self (by omega) hb
      have hmod : n % b < 16 := (Nat.mod_lt n (by omega)).trans_le hle
      simp [ih (n / b) hdiv, (digitChar_ne_dash hmod).symm]

theorem toDigits_injective (hb : 1 < b) (hle : b ≤ 16) {m n : Nat}
    (h : Nat.toDigits b m = Nat.toDigits b n) : m = n := by
  induction m using Nat.strong_induction_on generalizing n with
  | h m ih =>
    rw [Nat.toDigits_eq_if hb, @Nat.toDigits_eq_if b n hb] at h
    have hlast (k : Nat) : k % b < 16 := (Nat.mod_lt k (by omega)).trans_le hle
    split_ifs at h with hm hn hn
    · exact digitChar_injOn (by omega) (by omega) (List.cons.inj h).1
    · have hlength := congrArg List.length h
      simp at hlength
    · have hlength := congrArg List.length h
      simp at hlength
    · obtain ⟨hinit, htail⟩ := List.append_inj' h rfl
      have hdiv : m / b = n / b := ih (m / b) (Nat.div_lt_self (by omega) hb) hinit
      have hmod : m % b = n % b := digitChar_injOn (hlast m) (hlast n) (List.cons.inj htail).1
      calc
        m = b * (m / b) + m % b := (Nat.div_add_mod m b).symm
        _ = b * (n / b) + n % b := by rw [hdiv, hmod]
        _ = n := Nat.div_add_mod n b

/-- Lists without the separator are determined by their join. -/
lemma intercalate_injective {α : Type} [DecidableEq α] {sep : α} {ls ls' : List (List α)}
    (hls : ls ≠ []) (hls' : ls' ≠ []) (h : ∀ l ∈ ls, sep ∉ l) (h' : ∀ l ∈ ls', sep ∉ l)
    (heq : [sep].intercalate ls = [sep].intercalate ls') : ls = ls' := by
  have hsplit := congrArg (List.splitOn sep) heq
  rwa [List.splitOn_intercalate sep h hls, List.splitOn_intercalate sep h' hls'] at hsplit

end WitcherScriptLanguage.Library
