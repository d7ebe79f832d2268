import Mathlib.Data.Nat.Bitwise

/-!
# The low bits of a 64-bit word

Several encodings of the program keep flags in the few least significant bits of a 64-bit word
and compare the rest as a number.  Reasoning about such a word is easiest when it is split into
its high part `x / 32` and its low part `x % 32`: a mask or a cleared bit below bit 5
only touches the low part, and the low part is small enough for every fact about it to be decided
by evaluation.

* `land_eq` splits `&&&` on natural numbers at any power of two.
* `toNat_and_not` and `toNat_and` say what clearing and selecting bits below bit 5 of a `UInt64`
  does to its high and low parts.
-/

set_option autoImplicit false

namespace LowBits

/-! ## Splitting bitwise operations at a power of two -/

theorem land_eq (a b k : Nat) :
    a &&& b = (a / 2 ^ k &&& b / 2 ^ k) * 2 ^ k + (a % 2 ^ k &&& b % 2 ^ k) := by
  rw [← Nat.and_div_two_pow, ← Nat.and_mod_two_pow, Nat.div_add_mod']

/-! ## Masks below bit 5 of a `UInt64` -/

/-- Clearing the bits of a small mask keeps the high part and masks the low part. -/
theorem toNat_and_not (x m : UInt64) (hm : m.toNat < 32) :
    (x &&& ~~~m).toNat = x.toNat / 32 * 32 + (x.toNat % 32 &&& 31 - m.toNat) := by
  have hx := x.toNat_lt
  have hdiv : (UInt64.size - 1 - m.toNat) / 2 ^ 5 = 2 ^ 59 - 1 := by
    simp [UInt64.size]; omega
  have hmod : (UInt64.size - 1 - m.toNat) % 2 ^ 5 = 31 - m.toNat := by
    simp [UInt64.size]; omega
  rw [UInt64.toNat_and, UInt64.toNat_not, land_eq _ _ 5, hdiv, hmod,
    Nat.and_two_pow_sub_one_eq_mod, Nat.mod_eq_of_lt (by simp at hx; omega)]
  rfl

/-- Selecting the bits of a small mask only reads the low part. -/
theorem toNat_and (x m : UInt64) (hm : m.toNat < 32) :
    (x &&& m).toNat = x.toNat % 32 &&& m.toNat := by
  have hm' : m.toNat < 2 ^ 5 := by simpa using hm
  rw [UInt64.toNat_and, land_eq _ _ 5, Nat.div_eq_of_lt hm', Nat.mod_eq_of_lt hm', Nat.and_zero]
  simp

end LowBits
