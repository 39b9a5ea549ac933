import Mathlib.Data.Nat.Digits.Defs

/-!
# Numbers in decimal

A number's decimal text says which number it is.
-/

namespace Catamorphic.Decimal

theorem toString_inj {n m : Nat} (h : (toString n).toList = (toString m).toList) : n = m := by
  rw [Nat.toString_eq_repr, Nat.toList_repr, Nat.toString_eq_repr, Nat.toList_repr] at h
  rw [← Nat.ofDigitChars_ten_toDigits (n := n), h, Nat.ofDigitChars_ten_toDigits]

end Catamorphic.Decimal
