import Mathlib.Data.Nat.Bitwise
import Mathlib.Data.Nat.ModEq
import Mathlib.Tactic.Ring
import Lmake.BasicUtils
import Lmake.Lib.Escape

/-!
# The base64 text of a checksum

`_Crc<Sz>::base64()` (hash.cc) writes the `Sz` bits of a checksum as `Base64Sz = div_up<6>(Sz)`
digits of six bits, the least significant first, in the alphabet `A-Z a-z 0-9 - _`.
`_Crc<Sz>::s_from_base64` reads such a text back from its last digit, shifting the value by six
bits at each one, and throws on a text of another size or on a byte outside the alphabet.

A checksum of `Sz` bits is a `BitVec Sz`.  For `Crc96` the code keeps the value in a
`uint128_t`, of which the digest (`Msk`) and `s_from_base64` only ever set the low 96 bits.

## Main results

* `base64Val_base64Char`: each digit reads back as the six bits it was written for.
* `foldlM_base64Loop`: the decoder, run over the digits of `n` rounds of the encoder, shifts in
  the low `6 * n` bits of the value.
* `sFromBase64_base64`: every checksum reads back from its text.
* `mem_base64`: the text is made of alphabet bytes only.
-/

set_option autoImplicit false

namespace Hash

open Lmake

/-- `div_up<6>(Sz)`, the number of digits of a checksum of `Sz` bits. -/
def base64Sz (sz : Nat) : Nat := if sz = 0 then 0 else (sz - 1) / 6 + 1

/-- The digit `base64()` writes for six bits. -/
def base64Char (d : UInt8) : UInt8 :=
  if d < 26 then 'A'.toUInt8 + d
  else if d < 52 then 'a'.toUInt8 + d - 26
  else if d < 62 then '0'.toUInt8 + d - 52
  else if d = 62 then '-'.toUInt8
  else '_'.toUInt8

/-- The loop of `base64()`: `n` digits of `v`, six bits at a time from the least significant. -/
def base64Loop {sz : Nat} : Nat → BitVec sz → List UInt8
  | 0, _ => []
  | n + 1, v => base64Char (UInt8.ofNat (v &&& 0x3f).toNat) :: base64Loop n (v >>> 6)

/-- `_Crc<Sz>::base64()`. -/
def base64 {sz : Nat} (v : BitVec sz) : List UInt8 := base64Loop (base64Sz sz) v

/-- The six bits `s_from_base64` reads from a digit. -/
def base64Val (c : UInt8) : Except String UInt8 :=
  if 'A'.toUInt8 ≤ c ∧ c ≤ 'Z'.toUInt8 then .ok (c - 'A'.toUInt8)
  else if 'a'.toUInt8 ≤ c ∧ c ≤ 'z'.toUInt8 then .ok (26 + c - 'a'.toUInt8)
  else if '0'.toUInt8 ≤ c ∧ c ≤ '9'.toUInt8 then .ok (52 + c - '0'.toUInt8)
  else if c = '-'.toUInt8 then .ok 62
  else if c = '_'.toUInt8 then .ok 63
  else .error ("bad base64 digit : " ++ String.singleton (Char.ofNat c.toNat))

/-- One digit of `s_from_base64`: the value so far shifted by six bits, and the digit below. -/
def base64Step {sz : Nat} (res : BitVec sz) (c : UInt8) : Except String (BitVec sz) := do
  let d ← base64Val c
  pure ((res <<< 6) ||| BitVec.ofNat sz d.toNat)

/-- `_Crc<Sz>::s_from_base64(sv)`: the digits from the last one to the first. -/
def sFromBase64 {sz : Nat} (sv : List UInt8) : Except String (BitVec sz) := do
  throwUnless (sv.length == base64Sz sz)
    ("bad size : " ++ toString sv.length ++ "!=" ++ toString (base64Sz sz))
  sv.reverse.foldlM base64Step 0

/-! ## Digits -/

/-- The bytes of the alphabet. -/
def isBase64Char (c : UInt8) : Bool :=
  ('A'.toUInt8 ≤ c && c ≤ 'Z'.toUInt8) || ('a'.toUInt8 ≤ c && c ≤ 'z'.toUInt8) ||
    ('0'.toUInt8 ≤ c && c ≤ '9'.toUInt8) || c == '-'.toUInt8 || c == '_'.toUInt8

theorem base64Val_base64Char (d : UInt8) (hd : d < 64) : base64Val (base64Char d) = .ok d := by
  revert d
  apply Escape.forall_uint8
  decide +kernel

theorem isBase64Char_base64Char (d : UInt8) : isBase64Char (base64Char d) = true := by
  revert d
  apply Escape.forall_uint8
  decide +kernel

/-! ## The value of the digits -/

section Width

variable {sz : Nat}

/-- The low six bits the encoder takes, as a number. -/
theorem toNat_and_3f (v : BitVec sz) : (v &&& 0x3f).toNat = v.toNat % 64 := by
  have hlt := v.isLt
  calc (v &&& 0x3f).toNat
      = v.toNat % 2 ^ sz &&& 63 % 2 ^ sz := by
        rw [BitVec.toNat_and, Nat.mod_eq_of_lt hlt]
        rfl
    _ = (v.toNat &&& 63) % 2 ^ sz := Nat.and_mod_two_pow.symm
    _ = v.toNat &&& 2 ^ 6 - 1 := Nat.mod_eq_of_lt (lt_of_le_of_lt Nat.and_le_left hlt)
    _ = v.toNat % 64 := Nat.and_two_pow_sub_one_eq_mod _ 6

/-- The decoder's step, on six bits `d`, is `res * 64 + d` cut to the width. -/
theorem toNat_shiftLeft_or (res : BitVec sz) {d : Nat} (hd : d < 64) :
    ((res <<< 6) ||| BitVec.ofNat sz d).toNat = (res.toNat * 64 + d) % 2 ^ sz := by
  rw [BitVec.toNat_or, BitVec.toNat_shiftLeft, BitVec.toNat_ofNat, ← Nat.or_mod_two_pow,
    ← Nat.shiftLeft_add_eq_or_of_lt (by simpa using hd), Nat.shiftLeft_eq]

theorem base64Step_base64Char (res v : BitVec sz) :
    base64Step res (base64Char (UInt8.ofNat (v &&& 0x3f).toNat)) =
      .ok ((res <<< 6) ||| BitVec.ofNat sz (v.toNat % 64)) := by
  have hd : v.toNat % 64 < 64 := Nat.mod_lt _ (by decide)
  have hd8 : (UInt8.ofNat (v.toNat % 64)).toNat = v.toNat % 64 :=
    Nat.mod_eq_of_lt (by omega)
  rw [toNat_and_3f, base64Step,
    base64Val_base64Char _ (UInt8.lt_iff_toNat_lt.mpr (by rw [hd8]; exact hd))]
  simp only [bind, Except.bind, pure, Except.pure, hd8]

@[simp]
theorem length_base64Loop (n : Nat) (v : BitVec sz) : (base64Loop n v).length = n := by
  induction n generalizing v with
  | zero => rfl
  | succ n ih => simp [base64Loop, ih]

/-- The decoder, run over the digits of `n` rounds of the encoder from `acc`, shifts in the low
`6 * n` bits of the value.  The induction is on `n`: the first digit written is the last read. -/
theorem foldlM_base64Loop (n : Nat) (v acc : BitVec sz) :
    (base64Loop n v).reverse.foldlM base64Step acc =
      .ok (BitVec.ofNat sz (acc.toNat * 64 ^ n + v.toNat % 64 ^ n)) := by
  induction n generalizing v with
  | zero => simp [base64Loop, Nat.mod_one, pure, Except.pure]
  | succ n ih =>
    rw [base64Loop, List.reverse_cons, List.foldlM_append, ih (v >>> 6)]
    simp only [bind, Except.bind, List.foldlM_cons, List.foldlM_nil, base64Step_base64Char]
    congr 1
    apply BitVec.eq_of_toNat_eq
    rw [toNat_shiftLeft_or _ (Nat.mod_lt _ (by decide)), BitVec.toNat_ofNat, BitVec.toNat_ofNat,
      BitVec.toNat_ushiftRight, Nat.shiftRight_eq_div_pow, show (2 : Nat) ^ 6 = 64 from rfl]
    -- the six new bits go below those read so far, which are `v / 64` cut to `6 * n` bits
    have hv : v.toNat % 64 ^ (n + 1) = v.toNat % 64 + 64 * (v.toNat / 64 % 64 ^ n) := by
      rw [pow_succ', Nat.mod_mul]
    calc ((acc.toNat * 64 ^ n + v.toNat / 64 % 64 ^ n) % 2 ^ sz * 64 + v.toNat % 64) % 2 ^ sz
        = ((acc.toNat * 64 ^ n + v.toNat / 64 % 64 ^ n) * 64 + v.toNat % 64) % 2 ^ sz :=
          Nat.ModEq.add_right _ (Nat.ModEq.mul_right _ (Nat.mod_modEq _ _))
      _ = (acc.toNat * 64 ^ (n + 1) + v.toNat % 64 ^ (n + 1)) % 2 ^ sz := by
          rw [hv, pow_succ]
          congr 1
          ring

/-- Every checksum reads back from its text. -/
theorem sFromBase64_base64 (v : BitVec sz) : sFromBase64 (base64 v) = .ok v := by
  have hle : 2 ^ sz ≤ 64 ^ base64Sz sz := by
    rw [show (64 : Nat) = 2 ^ 6 by rfl, ← Nat.pow_mul]
    exact Nat.pow_le_pow_right (by decide) (by unfold base64Sz; split <;> omega)
  simp only [sFromBase64, base64, throwUnless, length_base64Loop, beq_self_eq_true, if_true,
    bind, Except.bind, foldlM_base64Loop]
  congr 1
  apply BitVec.eq_of_toNat_eq
  have h0 : (0 : BitVec sz).toNat = 0 := by simp
  rw [BitVec.toNat_ofNat, h0, Nat.zero_mul, Nat.zero_add,
    Nat.mod_eq_of_lt (lt_of_lt_of_le v.isLt hle), Nat.mod_eq_of_lt v.isLt]

/-- The text is made of alphabet bytes only. -/
theorem mem_base64 (v : BitVec sz) : ∀ c ∈ base64 v, isBase64Char c = true := by
  unfold base64
  generalize base64Sz sz = n
  induction n generalizing v with
  | zero => simp [base64Loop]
  | succ n ih =>
    intro c hc
    rcases List.mem_cons.mp hc with rfl | hc
    · exact isBase64Char_base64Char _
    · exact ih _ c hc

end Width

end Hash
