import Mathlib.Data.List.Basic
import Mathlib.Data.Nat.Digits.Defs

/-!
# Decimal numerals

The decimal spelling of a number has digits only, has no upper and lower case, and is the
spelling of no other number.
-/

namespace Numerals

theorem toString_injective {m n : ℕ} (h : (toString m).toList = (toString n).toList) :
    m = n := by
  have hdigits : Nat.toDigits 10 m = Nat.toDigits 10 n := by
    rw [← Nat.toList_repr, ← Nat.toList_repr]
    exact h
  rw [← Nat.ofDigitChars_ten_toDigits (n := m), hdigits, Nat.ofDigitChars_ten_toDigits]

theorem all_isDigit_toString (n : ℕ) : (toString n).toList.all Char.isDigit = true := by
  rw [Nat.toString_eq_repr, Nat.toList_repr, List.all_eq_true]
  exact fun c hc => Nat.isDigit_of_mem_toDigits (by decide) (by decide) hc

theorem map_toLower_toString (n : ℕ) :
    (toString n).toList.map Char.toLower = (toString n).toList := by
  conv_rhs => rw [← List.map_id (toString n).toList]
  refine List.map_congr_left fun c hc => ?_
  have hdigit := List.all_eq_true.mp (all_isDigit_toString n) c hc
  refine dif_neg fun hupper => ?_
  rw [Char.isDigit, Bool.and_eq_true, decide_eq_true_iff, decide_eq_true_iff] at hdigit
  have hlow : 65 ≤ c.toNat := hupper.1
  have hhigh : c.toNat ≤ 57 := hdigit.2
  omega

end Numerals
