import Mathlib.Data.Nat.Size
import Mathlib.Data.Nat.Bitwise

/-!
# The leading bits two words agree on

A crit-bit trie routes a key at a node by comparing one of its chars with the node's value:
how many of the leading bits of two `w`-bit words agree (`leadAgree`), and whether a char differs
from the value before a given bit or at it.  This file develops that count on its own.

## What is here

* `le_leadAgree_iff`: agreeing on `k` leading bits is the xor of the words staying below
  `2 ^ (w - k)`.
* `min_le_leadAgree`, `leadAgree_eq_of_lt`: the count is an ultrametric; two words that agree with
  a third on `k` leading bits agree with each other on `k`, and when one agreement is strictly
  longer than the other, the shorter one is exact.
* `and_two_pow_sub_two_pow_eq_zero_iff`, `testBit_iff_two_pow_le`: the two bit tests a node makes,
  a mask of the high bits and one bit, read as bounds on the xor.
-/

set_option autoImplicit false

namespace LeadBits

/-- The number of leading bits on which two `w`-bit words agree: `w` less the width of their
xor. -/
def leadAgree (w a b : Nat) : Nat := w - ((a ^^^ b) % 2 ^ w).size

/-- The width of a word, as `countl_zero` computes it from `log2`. -/
theorem size_eq_ite_log2 (x : Nat) : x.size = if x = 0 then 0 else x.log2 + 1 := by
  split_ifs with hx
  · rw [hx, Nat.size_zero]
  · apply le_antisymm
    · exact Nat.size_le.2 (Nat.lt_log2_self)
    · exact Nat.succ_le_of_lt (Nat.lt_size.2 (Nat.log2_self_le hx))

theorem leadAgree_comm (w a b : Nat) : leadAgree w a b = leadAgree w b a := by
  rw [leadAgree, leadAgree, Nat.xor_comm]

@[simp] theorem leadAgree_self (w a : Nat) : leadAgree w a a = w := by
  simp [leadAgree]

theorem leadAgree_le (w a b : Nat) : leadAgree w a b ≤ w := Nat.sub_le _ _

/-- Agreeing on `k` leading bits is the xor staying below `2 ^ (w - k)`. -/
theorem le_leadAgree_iff {w k : Nat} (hk : k ≤ w) (a b : Nat) :
    k ≤ leadAgree w a b ↔ (a ^^^ b) % 2 ^ w < 2 ^ (w - k) := by
  have hsz : ((a ^^^ b) % 2 ^ w).size ≤ w := Nat.size_le.2 (Nat.mod_lt _ (Nat.two_pow_pos w))
  rw [leadAgree, ← Nat.size_le]
  omega

/-- The xor of `a` and `c` is the xor of the two xors through `b`. -/
theorem xor_mod_two_pow_trans (w a b c : Nat) :
    (a ^^^ c) % 2 ^ w = (a ^^^ b) % 2 ^ w ^^^ (b ^^^ c) % 2 ^ w := by
  rw [← Nat.xor_mod_two_pow, Nat.xor_assoc, ← Nat.xor_assoc b, Nat.xor_self, Nat.zero_xor]

/-- **The count is an ultrametric**: two words that agree with a third on `k` leading bits agree
with each other on `k` leading bits. -/
theorem min_le_leadAgree (w a b c : Nat) :
    min (leadAgree w a b) (leadAgree w b c) ≤ leadAgree w a c := by
  have hm : min (leadAgree w a b) (leadAgree w b c) ≤ w :=
    le_trans (min_le_left _ _) (leadAgree_le _ _ _)
  have hab := (le_leadAgree_iff hm a b).1 (min_le_left _ _)
  have hbc := (le_leadAgree_iff hm b c).1 (min_le_right _ _)
  rw [le_leadAgree_iff hm, xor_mod_two_pow_trans w a b c]
  exact Nat.xor_lt_two_pow hab hbc

/-- When `b` agrees with `c` on more leading bits than with `a`, `a` agrees with `c` on exactly as
many as with `b`. -/
theorem leadAgree_eq_of_lt {w a b c : Nat} (h : leadAgree w a b < leadAgree w b c) :
    leadAgree w a c = leadAgree w a b := by
  have h₁ := min_le_leadAgree w a b c
  have h₂ := min_le_leadAgree w a c b
  rw [leadAgree_comm w c b] at h₂
  omega

/-! ## The bit tests -/

/-- The bits of `2 ^ W - 2 ^ s`: those from `s` up to `W`. -/
theorem testBit_two_pow_sub_two_pow {s W : Nat} (h : s ≤ W) (i : Nat) :
    (2 ^ W - 2 ^ s).testBit i = (decide (i < W) && !decide (i < s)) := by
  have hs : 2 ^ s - 1 < 2 ^ W := lt_of_lt_of_le (Nat.sub_lt (Nat.two_pow_pos s) Nat.one_pos)
    (Nat.pow_le_pow_right Nat.two_pos h)
  have := Nat.testBit_two_pow_sub_succ hs i
  rwa [Nat.sub_add_cancel Nat.one_le_two_pow, Nat.testBit_two_pow_sub_one] at this

/-- A word below `2 ^ W` has no bit in the mask of the bits from `s` up iff it is below
`2 ^ s`. -/
theorem and_two_pow_sub_two_pow_eq_zero_iff {x s W : Nat} (hx : x < 2 ^ W) (hs : s ≤ W) :
    x &&& (2 ^ W - 2 ^ s) = 0 ↔ x < 2 ^ s := by
  constructor
  · intro h
    apply Nat.lt_pow_two_of_testBit
    intro i hi
    by_cases hiW : i < W
    · -- a bit of `x` from `s` up would be a bit of the mask
      have hb := congrArg (Nat.testBit · i) h
      simp only [Nat.testBit_and, testBit_two_pow_sub_two_pow hs, Nat.zero_testBit] at hb
      simpa [hiW, Nat.not_lt.2 hi] using hb
    · exact Nat.testBit_lt_two_pow
        (lt_of_lt_of_le hx (Nat.pow_le_pow_right Nat.two_pos (Nat.not_lt.1 hiW)))
  · intro h
    apply Nat.eq_of_testBit_eq
    intro i
    rw [Nat.testBit_and, testBit_two_pow_sub_two_pow hs, Nat.zero_testBit]
    by_cases his : i < s
    · simp [his]
    · rw [Nat.testBit_lt_two_pow
        (lt_of_lt_of_le h (Nat.pow_le_pow_right Nat.two_pos (Nat.not_lt.1 his)))]
      rfl

/-- Shifting the mask of the bits from `b` up by one, within `W` bits, gives the mask of the bits
from `b + 1` up. -/
theorem shiftLeft_one_two_pow_sub_two_pow {b W : Nat} (h : b < W) :
    ((2 ^ W - 2 ^ b) <<< 1) % 2 ^ W = 2 ^ W - 2 ^ (b + 1) := by
  have hle : 2 ^ (b + 1) ≤ 2 ^ W := Nat.pow_le_pow_right Nat.two_pos h
  have hpos : 0 < 2 ^ b := Nat.two_pow_pos b
  have hsplit : (2 ^ W - 2 ^ b) <<< 1 = (2 ^ W - 2 ^ (b + 1)) + 2 ^ W := by
    rw [Nat.shiftLeft_eq, Nat.pow_succ] at *
    omega
  rw [hsplit, Nat.add_mod_right, Nat.mod_eq_of_lt]
  rw [Nat.pow_succ] at *
  omega

/-- Below `2 ^ (b + 1)`, bit `b` is set exactly from `2 ^ b` up. -/
theorem testBit_iff_two_pow_le {x b : Nat} (hx : x < 2 ^ (b + 1)) :
    x.testBit b = true ↔ 2 ^ b ≤ x := by
  refine ⟨Nat.ge_two_pow_of_testBit, fun h => ?_⟩
  have hdiv : x / 2 ^ b = 1 := by
    apply Nat.div_eq_of_lt_le
    · simpa using h
    · rw [Nat.pow_succ] at hx
      omega
  simp [Nat.testBit_eq_decide_div_mod_eq, hdiv]

end LeadBits
