import Lmake.BasicUtils

/-!
# The allocator under the persistent files

`AllocFile` (`store/alloc.hh`) hands out blocks of `sz` consecutive slots of a `StructFile`,
whose slot `0` stands for no item: the file starts with one slot.  Freed blocks are kept on one
free list per bucket of sizes, linked through the blocks themselves, and reused last in first
out; when the free list of its bucket is empty, a block is taken at the end of the file, with the
largest size of its bucket.  Sizes up to `2^Mantissa` each have a bucket of their own, larger ones
are grouped as floating point numbers with `Mantissa` bits of mantissa.

The model keeps the slots as a list, an element standing at the first slot of its block, and each
free list as the list of its blocks, head first.  A freed block keeps its content: the link that
the source writes into it is the free list itself.  `emplace`, `pop` and `shorten` are those of the
source once the `SWEAR` of `_free` and the capacity check of `emplace_back` pass, which
`emplaceChk`, `deallocChk` and their equations say: the bucket of every size of an index has its
free list in the header, and the file has room below `2^NIdxBits` slots.

As long as the free lists hold blocks of the file other than the null slot (`Wf`, which the
invariant of `Blocks` gives), `emplace` hands out a slot that is not the null one, holding the new
element, and leaves every other slot as it was.
-/

set_option autoImplicit false

namespace Store

open Lmake

/-! ## Buckets -/

/-- `n_bits`: the number of bits needed to store `n` states. -/
def nBits (n : Nat) : Nat := if n ≤ 1 then 0 else Nat.log2 (n - 1) + 1

/-- `Alloc::bucket<Mantissa>`: the free list of the blocks of `sz` slots. -/
def bucket (mantissa sz : Nat) : Nat :=
  if mantissa = 0 then 0
  else if sz ≤ 2 ^ mantissa then sz - 1
  else
    let exp := nBits sz - mantissa
    -- the most significant bit is always set: it is masked, as in IEEE floats; the source
    -- keeps the result in a `uint8_t`
    let m := (((sz - 1) >>> exp) + 1 - 2 ^ (mantissa - 1)) % 2 ^ 8
    ((exp + 1) <<< (mantissa - 1)) + m - 1

/-- The largest size that goes in a bucket, as a number: what `Alloc::sz<Mantissa>` computes on
the buckets of a 32-bit index (`Alloc.sz_of_lt_nFree32`); `Alloc.sz` is the function on `size_t`. -/
def bucketSz (mantissa b : Nat) : Nat :=
  if mantissa = 0 then 1
  else if b < 2 ^ mantissa then b + 1
  else
    let exp := ((b + 1) >>> (mantissa - 1)) - 1
    let m := 2 ^ (mantissa - 1) + b - ((exp + 1) <<< (mantissa - 1)) + 1
    m <<< exp

/-! ### Buckets when the mantissa fits a byte

Past `2^Mantissa`, a bucket is an exponent `e` and a mantissa `q` of `Mantissa` bits, and holds
blocks of `q * 2^e` slots (`bucketSz_of_eq`).  While the masked mantissa fits the `uint8_t` of
`bucket`, the bucket of a size is the smallest one that holds it (`le_bucketSz_bucket`,
`bucketSz_pred_bucket_lt`), and both functions grow (`bucket_mono`, `bucketSz_mono`): what
`_shorten` asserts of them holds.
-/

section Mantissa

variable {m : Nat}

theorem two_pow_eq_two_mul (hm : 0 < m) : 2 ^ m = 2 * 2 ^ (m - 1) := by
  rw [← Nat.pow_succ']
  congr 1
  omega

/-- Past the first sizes, a bucket's size is a mantissa of `m` bits times a power of two. -/
theorem bucketSz_of_eq (hm : 0 < m) {b e q : Nat} (hb : b + 1 = e * 2 ^ (m - 1) + q)
    (hq : 2 ^ (m - 1) ≤ q) (hq' : q < 2 * 2 ^ (m - 1)) : bucketSz m b = q * 2 ^ e := by
  have hpow := two_pow_eq_two_mul hm
  have hh : 0 < 2 ^ (m - 1) := Nat.two_pow_pos _
  unfold bucketSz
  rw [if_neg (by omega)]
  by_cases hlin : b < 2 ^ m
  · rw [if_pos hlin]
    -- below `2^m`, the sizes are `q` itself, or `2^m` at the start of the second octave
    rcases e with _ | _ | e
    · simp at hb ⊢
      omega
    · simp at hb ⊢
      omega
    · have : 2 * 2 ^ (m - 1) ≤ (e + 1 + 1) * 2 ^ (m - 1) := Nat.mul_le_mul_right _ (by omega)
      omega
  · rw [if_neg hlin]
    have hdiv : (b + 1) >>> (m - 1) = e + 1 := by
      rw [Nat.shiftRight_eq_div_pow, hb, Nat.add_comm, Nat.add_mul_div_right _ _ hh,
        Nat.div_eq_of_lt_le (by rw [Nat.one_mul]; exact hq) (by omega)]
      omega
    have hmul : (e + 1) * 2 ^ (m - 1) = e * 2 ^ (m - 1) + 2 ^ (m - 1) := Nat.add_one_mul _ _
    simp only [hdiv, Nat.add_sub_cancel, Nat.shiftLeft_eq, hmul]
    congr 1
    omega

/-- Past `2^m`, `bucket` keeps the `m` leading bits `q` of `x - 1` and its exponent `e`: the
bucket is `e * 2^(m-1) + q`.  The mantissa, masked of its leading bit, fits the `uint8_t` of the
source when `m ≤ 8`. -/
theorem bucket_of_lt (hm : 0 < m) (hm8 : m ≤ 8) {x : Nat} (hx : 2 ^ m < x) :
    ∃ e q, 2 ^ (m - 1) ≤ q ∧ q < 2 * 2 ^ (m - 1) ∧ q * 2 ^ e < x ∧ x ≤ (q + 1) * 2 ^ e ∧
      bucket m x = e * 2 ^ (m - 1) + q := by
  have hpow := two_pow_eq_two_mul hm
  have hx1 : x - 1 ≠ 0 := by
    have := Nat.one_lt_two_pow (n := m) (by omega)
    omega
  have hlo : 2 ^ (x - 1).log2 ≤ x - 1 := Nat.log2_self_le hx1
  have hhi : x - 1 < 2 ^ ((x - 1).log2 + 1) := Nat.lt_log2_self
  have hmk : m ≤ (x - 1).log2 := by
    by_contra h
    have : 2 ^ ((x - 1).log2 + 1) ≤ 2 ^ m := Nat.pow_le_pow_right (by decide) (by omega)
    omega
  have hnb : nBits x = (x - 1).log2 + 1 := by simp [nBits, show ¬ x ≤ 1 by omega]
  obtain ⟨e, he⟩ : ∃ e, (x - 1).log2 = e + (m - 1) := ⟨(x - 1).log2 - (m - 1), by omega⟩
  rw [he] at hlo hhi hnb
  have hqlo : 2 ^ (m - 1) ≤ (x - 1) / 2 ^ e := by
    rw [Nat.le_div_iff_mul_le (Nat.two_pow_pos _), ← Nat.pow_add, Nat.add_comm]
    exact hlo
  have hqhi : (x - 1) / 2 ^ e < 2 * 2 ^ (m - 1) := by
    rw [Nat.div_lt_iff_lt_mul (Nat.two_pow_pos _), ← hpow, ← Nat.pow_add]
    rw [show m + e = e + (m - 1) + 1 by omega]
    exact hhi
  refine ⟨e, (x - 1) / 2 ^ e, hqlo, hqhi, ?_, ?_, ?_⟩
  · have := Nat.div_mul_le_self (x - 1) (2 ^ e)
    omega
  · have := Nat.lt_mul_div_succ (x - 1) (Nat.two_pow_pos e)
    rw [Nat.mul_comm] at this
    omega
  · have hmt : ((x - 1) / 2 ^ e + 1 - 2 ^ (m - 1)) % 2 ^ 8 = (x - 1) / 2 ^ e + 1 - 2 ^ (m - 1) := by
      have : 2 ^ (m - 1) ≤ 2 ^ 7 := Nat.pow_le_pow_right (by decide) (by omega)
      exact Nat.mod_eq_of_lt (by omega)
    have hexp : e + (m - 1) + 1 - m = e := by omega
    have hmul : (e + 1) * 2 ^ (m - 1) = e * 2 ^ (m - 1) + 2 ^ (m - 1) := Nat.add_one_mul _ _
    unfold bucket
    rw [if_neg (by omega), if_neg (by omega)]
    simp only [hnb, hexp, Nat.shiftRight_eq_div_pow, Nat.shiftLeft_eq, hmt, hmul]
    omega

/-- Up to `2^m`, each size has its own bucket. -/
theorem bucket_of_le (hm : 0 < m) {x : Nat} (hx : x ≤ 2 ^ m) : bucket m x = x - 1 := by
  simp [bucket, hx, show m ≠ 0 by omega]

theorem bucketSz_of_lt (hm : 0 < m) {b : Nat} (hb : b < 2 ^ m) : bucketSz m b = b + 1 := by
  simp [bucketSz, hb, show m ≠ 0 by omega]

/-- Past `2^m`, the bucket of `x` has the size of the next mantissa `q + 1` at the exponent of `x`,
and the bucket before it the size of `q`. -/
theorem bucketSz_bucket_eq (hm : 0 < m) (hm8 : m ≤ 8) {x : Nat} (hx : 2 ^ m < x) :
    ∃ e q, 2 ^ (m - 1) ≤ q ∧ q * 2 ^ e < x ∧ x ≤ (q + 1) * 2 ^ e ∧
      bucketSz m (bucket m x) = (q + 1) * 2 ^ e ∧ bucketSz m (bucket m x - 1) = q * 2 ^ e := by
  obtain ⟨e, q, hq, hq', hlo, hhi, hb⟩ := bucket_of_lt hm hm8 hx
  refine ⟨e, q, hq, hlo, hhi, ?_, bucketSz_of_eq hm (by omega) hq hq'⟩
  rcases Nat.lt_or_ge (q + 1) (2 * 2 ^ (m - 1)) with hq1 | hq1
  · exact bucketSz_of_eq hm (show bucket m x + 1 = e * 2 ^ (m - 1) + (q + 1) by omega)
      (by omega) hq1
  · -- a mantissa of all ones: the next bucket starts the next octave
    have hmul : (e + 1) * 2 ^ (m - 1) = e * 2 ^ (m - 1) + 2 ^ (m - 1) := Nat.add_one_mul _ _
    rw [bucketSz_of_eq hm (show bucket m x + 1 = (e + 1) * 2 ^ (m - 1) + 2 ^ (m - 1) by omega)
      le_rfl (by omega), Nat.pow_succ, show q + 1 = 2 * 2 ^ (m - 1) by omega]
    simp only [Nat.mul_comm, Nat.mul_left_comm, Nat.mul_assoc]

/-- The size of the bucket of `x`, and of the bucket before it, past `2^m`. -/
theorem bucketSz_bucket_of_lt (hm : 0 < m) (hm8 : m ≤ 8) {x : Nat} (hx : 2 ^ m < x) :
    x ≤ bucketSz m (bucket m x) ∧ bucketSz m (bucket m x - 1) < x := by
  obtain ⟨e, q, -, hlo, hhi, hsz, hprev⟩ := bucketSz_bucket_eq hm hm8 hx
  rw [hsz, hprev]
  exact ⟨hhi, hlo⟩

/-- The bucket of `x` holds blocks of `x` slots. -/
theorem le_bucketSz_bucket (hm : 0 < m) (hm8 : m ≤ 8) {x : Nat} (hx : 0 < x) :
    x ≤ bucketSz m (bucket m x) := by
  by_cases hlin : x ≤ 2 ^ m
  · rw [bucket_of_le hm hlin, bucketSz_of_lt hm (by omega)]
    omega
  · exact (bucketSz_bucket_of_lt hm hm8 (by omega)).1

/-- The bucket before the one of `x` holds blocks of fewer than `x` slots: `bucket` picks the
smallest bucket that fits. -/
theorem bucketSz_pred_bucket_lt (hm : 0 < m) (hm8 : m ≤ 8) {x : Nat} (hx : 0 < bucket m x) :
    bucketSz m (bucket m x - 1) < x := by
  by_cases hlin : x ≤ 2 ^ m
  · rw [bucket_of_le hm hlin] at hx ⊢
    rw [bucketSz_of_lt hm (by omega)]
    omega
  · exact (bucketSz_bucket_of_lt hm hm8 (by omega)).2

theorem bucketSz_pos (hm : 0 < m) (b : Nat) : 0 < bucketSz m b := by
  unfold bucketSz
  rw [if_neg (by omega)]
  split
  · omega
  · rw [Nat.shiftLeft_eq]
    exact Nat.mul_pos (by omega) (Nat.two_pow_pos _)

/-- Bucket sizes grow with the bucket. -/
theorem bucketSz_le_succ (hm : 0 < m) (b : Nat) : bucketSz m b ≤ bucketSz m (b + 1) := by
  by_cases hlin : b + 1 < 2 ^ m
  · rw [bucketSz_of_lt hm (by omega), bucketSz_of_lt hm hlin]
    omega
  · have hpow := two_pow_eq_two_mul hm
    have hh : 0 < 2 ^ (m - 1) := Nat.two_pow_pos _
    -- `b + 1` is `e` octaves of `2^(m-1)` and a mantissa `q` of `m` bits
    obtain ⟨e, he⟩ : ∃ e, (b + 1) / 2 ^ (m - 1) = e + 1 :=
      ⟨(b + 1) / 2 ^ (m - 1) - 1, by
        have : 1 ≤ (b + 1) / 2 ^ (m - 1) := (Nat.one_le_div_iff hh).mpr (by omega)
        omega⟩
    have hdm := Nat.div_add_mod (b + 1) (2 ^ (m - 1))
    have hmod := Nat.mod_lt (b + 1) hh
    rw [he, Nat.mul_comm, Nat.add_one_mul] at hdm
    have hcur : bucketSz m b = (2 ^ (m - 1) + (b + 1) % 2 ^ (m - 1)) * 2 ^ e :=
      bucketSz_of_eq hm (by omega) (by omega) (by omega)
    rw [hcur]
    rcases Nat.lt_or_ge ((b + 1) % 2 ^ (m - 1) + 1) (2 ^ (m - 1)) with hq1 | hq1
    · rw [bucketSz_of_eq hm (show b + 1 + 1 = e * 2 ^ (m - 1) +
        (2 ^ (m - 1) + (b + 1) % 2 ^ (m - 1) + 1) by omega) (by omega) (by omega)]
      exact Nat.mul_le_mul_right _ (by omega)
    · have hmul : (e + 1) * 2 ^ (m - 1) = e * 2 ^ (m - 1) + 2 ^ (m - 1) := Nat.add_one_mul _ _
      rw [bucketSz_of_eq hm (show b + 1 + 1 = (e + 1) * 2 ^ (m - 1) + 2 ^ (m - 1) by omega)
        le_rfl (by omega), Nat.pow_succ]
      calc (2 ^ (m - 1) + (b + 1) % 2 ^ (m - 1)) * 2 ^ e ≤ (2 * 2 ^ (m - 1)) * 2 ^ e :=
            Nat.mul_le_mul_right _ (by omega)
        _ = 2 ^ (m - 1) * (2 ^ e * 2) := by simp only [Nat.mul_comm, Nat.mul_left_comm, Nat.mul_assoc]

/-- Bucket sizes grow strictly: no two buckets have the same size. -/
theorem bucketSz_lt_succ (hm : 0 < m) (b : Nat) : bucketSz m b < bucketSz m (b + 1) := by
  by_cases hlin : b + 1 < 2 ^ m
  · rw [bucketSz_of_lt hm (by omega), bucketSz_of_lt hm hlin]
    omega
  · have hpow := two_pow_eq_two_mul hm
    have hh : 0 < 2 ^ (m - 1) := Nat.two_pow_pos _
    have he0 : 0 < 2 ^ 0 := Nat.two_pow_pos 0
    -- `b + 1` is `e` octaves of `2^(m-1)` and a mantissa `q` of `m` bits
    obtain ⟨e, he⟩ : ∃ e, (b + 1) / 2 ^ (m - 1) = e + 1 :=
      ⟨(b + 1) / 2 ^ (m - 1) - 1, by
        have : 1 ≤ (b + 1) / 2 ^ (m - 1) := (Nat.one_le_div_iff hh).mpr (by omega)
        omega⟩
    have hdm := Nat.div_add_mod (b + 1) (2 ^ (m - 1))
    have hmod := Nat.mod_lt (b + 1) hh
    have hpe : 0 < 2 ^ e := Nat.two_pow_pos e
    rw [he, Nat.mul_comm, Nat.add_one_mul] at hdm
    have hcur : bucketSz m b = (2 ^ (m - 1) + (b + 1) % 2 ^ (m - 1)) * 2 ^ e :=
      bucketSz_of_eq hm (by omega) (by omega) (by omega)
    rw [hcur]
    rcases Nat.lt_or_ge ((b + 1) % 2 ^ (m - 1) + 1) (2 ^ (m - 1)) with hq1 | hq1
    · -- the next mantissa, in the same octave
      rw [bucketSz_of_eq hm (show b + 1 + 1 = e * 2 ^ (m - 1) +
        (2 ^ (m - 1) + (b + 1) % 2 ^ (m - 1) + 1) by omega) (by omega) (by omega)]
      exact Nat.mul_lt_mul_of_pos_right (by omega) hpe
    · -- a mantissa of all ones: the next bucket starts the next octave
      have hmul : (e + 1) * 2 ^ (m - 1) = e * 2 ^ (m - 1) + 2 ^ (m - 1) := Nat.add_one_mul _ _
      rw [bucketSz_of_eq hm (show b + 1 + 1 = (e + 1) * 2 ^ (m - 1) + 2 ^ (m - 1) by omega)
        le_rfl (by omega), Nat.pow_succ]
      calc (2 ^ (m - 1) + (b + 1) % 2 ^ (m - 1)) * 2 ^ e < (2 * 2 ^ (m - 1)) * 2 ^ e :=
            Nat.mul_lt_mul_of_pos_right (by omega) hpe
        _ = 2 ^ (m - 1) * (2 ^ e * 2) := by simp only [Nat.mul_comm, Nat.mul_left_comm, Nat.mul_assoc]

theorem bucketSz_mono (hm : 0 < m) {b b' : Nat} (h : b ≤ b') : bucketSz m b ≤ bucketSz m b' := by
  induction h with
  | refl => exact le_rfl
  | step _ ih => exact Nat.le_trans ih (bucketSz_le_succ hm _)

/-- Larger sizes go in later buckets. -/
theorem bucket_mono (hm : 0 < m) (hm8 : m ≤ 8) {x y : Nat} (hx : 0 < x) (h : x ≤ y) :
    bucket m x ≤ bucket m y := by
  by_contra hlt
  have hy := le_bucketSz_bucket hm hm8 (show 0 < y by omega)
  have hmono := bucketSz_mono hm (show bucket m y ≤ bucket m x - 1 by omega)
  have hpred := bucketSz_pred_bucket_lt hm hm8 (show 0 < bucket m x by omega)
  omega

/-- `bucket` and `bucketSz` form a Galois connection: a size goes in a bucket up to `b` exactly
when it fits the size of `b`. -/
theorem bucket_le_iff (hm : 0 < m) (hm8 : m ≤ 8) {x : Nat} (hx : 0 < x) (b : Nat) :
    bucket m x ≤ b ↔ x ≤ bucketSz m b := by
  constructor
  · intro h
    exact Nat.le_trans (le_bucketSz_bucket hm hm8 hx) (bucketSz_mono hm h)
  · intro h
    by_contra hlt
    have hmono := bucketSz_mono hm (show b ≤ bucket m x - 1 by omega)
    have hpred := bucketSz_pred_bucket_lt hm hm8 (show 0 < bucket m x by omega)
    omega

theorem bucket_bucketSz (hm : 0 < m) (hm8 : m ≤ 8) (b : Nat) : bucket m (bucketSz m b) = b := by
  have hpos := bucketSz_pos hm b
  have hle := (bucket_le_iff hm hm8 hpos b).mpr le_rfl
  rcases Nat.eq_zero_or_pos b with rfl | hb
  · omega
  · -- the bucket before `b` is too small
    have hprev : ¬ bucket m (bucketSz m b) ≤ b - 1 := by
      rw [bucket_le_iff hm hm8 hpos]
      have := bucketSz_lt_succ hm (b - 1)
      rw [Nat.sub_add_cancel hb] at this
      omega
    omega

theorem bucket_bucketSz_succ (hm : 0 < m) (hm8 : m ≤ 8) (b : Nat) :
    bucket m (bucketSz m b + 1) = b + 1 := by
  have hle : bucket m (bucketSz m b + 1) ≤ b + 1 :=
    (bucket_le_iff hm hm8 (by omega) _).mpr (bucketSz_lt_succ hm b)
  have hgt : ¬ bucket m (bucketSz m b + 1) ≤ b := by
    rw [bucket_le_iff hm hm8 (by omega)]
    omega
  omega

/-- The next size goes in the same bucket or in the next one. -/
theorem bucket_succ_le (hm : 0 < m) (hm8 : m ≤ 8) {x : Nat} (hx : 0 < x) :
    bucket m (x + 1) ≤ bucket m x + 1 := by
  rw [bucket_le_iff hm hm8 (by omega)]
  have := le_bucketSz_bucket hm hm8 hx
  have := bucketSz_lt_succ hm (bucket m x)
  omega

/-- The bucket of `x` holds blocks of fewer than `2 * x` slots. -/
theorem bucketSz_bucket_lt (hm : 0 < m) (hm8 : m ≤ 8) {x : Nat} (hx : 0 < x) :
    bucketSz m (bucket m x) < 2 * x := by
  rcases Nat.lt_or_ge (2 ^ m) x with hlog | hlin
  · obtain ⟨e, q, hq, hlo, -, hsz, -⟩ := bucketSz_bucket_eq hm hm8 hlog
    have hqe : 2 ^ e ≤ q * 2 ^ e := Nat.le_mul_of_pos_left _ (by have := Nat.two_pow_pos (m - 1); omega)
    rw [hsz, Nat.add_one_mul]
    omega
  · rw [bucket_of_le hm hlin, bucketSz_of_lt hm (by omega)]
    omega

/-- A bucket holds more slots than its number. -/
theorem lt_bucketSz (hm : 0 < m) (b : Nat) : b < bucketSz m b := by
  induction b with
  | zero => exact bucketSz_pos hm 0
  | succ b ih => exact Nat.lt_of_le_of_lt ih (bucketSz_lt_succ hm b)

end Mantissa

/-- The laws the header of `alloc.hh` states of `bucket` and `sz`: with a mantissa of `1` to `8`
bits, the first bucket holds size `1`, the next size goes in the same bucket or in the next one,
`sz` gives the largest size of each bucket, so that `sz(bucket(s))` is the smallest bucket size
that holds `s`; without mantissa, every size goes in bucket `0`, of size `1`. -/
theorem bucket_laws :
    (∀ m, 0 < m → m ≤ 8 →
      bucket m 1 = 0 ∧
      (∀ s, 0 < s → bucket m s ≤ bucket m (s + 1) ∧ bucket m (s + 1) ≤ bucket m s + 1) ∧
      (∀ b, bucket m (bucketSz m b) = b ∧ bucket m (bucketSz m b + 1) = b + 1) ∧
      (∀ s, 0 < s → s ≤ bucketSz m (bucket m s) ∧
        ∀ b, s ≤ bucketSz m b → bucketSz m (bucket m s) ≤ bucketSz m b)) ∧
    (∀ s, bucket 0 s = 0 ∧ bucketSz 0 (bucket 0 s) = 1) := by
  refine ⟨fun m hm hm8 => ⟨?_, fun s hs => ?_, fun b => ?_, fun s hs => ?_⟩, fun s => ?_⟩
  · exact bucket_of_le hm Nat.one_le_two_pow
  · exact ⟨bucket_mono hm hm8 hs (by omega), bucket_succ_le hm hm8 hs⟩
  · exact ⟨bucket_bucketSz hm hm8 b, bucket_bucketSz_succ hm hm8 b⟩
  · -- the size of the bucket of `s` is below that of any bucket that holds `s`
    refine ⟨le_bucketSz_bucket hm hm8 hs, fun b hb => bucketSz_mono hm ?_⟩
    exact (bucket_le_iff hm hm8 hs b).mpr hb
  · simp [bucket, bucketSz]

/-! ## The functions on `size_t`

`Alloc::bucket` and `Alloc::sz` compute on `size_t`, with their exponent and their mantissa in
`uint8_t`s, and `sz` asserts that its exponent is a shift of `size_t`.  On the sizes of a 32-bit
index and on the buckets it has free lists for, they compute `bucket` and `bucketSz`
(`Alloc.bucket_toNat`, `Alloc.sz_of_lt_nFree32`), so that the laws hold there
(`bucket_laws_idx32`).  Past these buckets `sz` wraps (`sz_wraps`). -/

namespace Alloc

/-- `Alloc::bucket<Mantissa>` on `size_t`. -/
def bucket (mantissa : Nat) (sz : UInt64) : UInt64 :=
  if mantissa = 0 then 0
  else if sz.toNat ≤ 2 ^ mantissa then sz - 1
  else
    let mantissa1 := (mantissa - 1).toUInt64
    let szBits : UInt8 := (nBits sz.toNat).toUInt8
    let exp : UInt8 := szBits - mantissa.toUInt8
    -- the most significant bit is always set: it is masked, as in IEEE floats
    let m : UInt8 := (((sz - 1) >>> exp.toUInt64) + 1 - ((1 : UInt64) <<< mantissa1)).toUInt8
    ((exp.toUInt64 + 1) <<< mantissa1) + m.toUInt64 - 1

/-- `Alloc::sz<Mantissa>` on `size_t`. -/
def sz (mantissa : Nat) (b : UInt64) : Except String UInt64 :=
  if mantissa = 0 then pure 1
  else if b.toNat < 2 ^ mantissa then pure (b + 1)
  else do
    let mantissa1 := (mantissa - 1).toUInt64
    let exp : UInt8 := (((b + 1) >>> mantissa1) - 1).toUInt8
    swear (exp.toNat < 64) "exp<NBits<size_t>"
    let m : UInt64 := ((1 : UInt64) <<< mantissa1) + b - ((exp.toUInt64 + 1) <<< mantissa1) + 1
    pure (m <<< exp.toUInt64)

variable {m : Nat}

/-- Past `2^m`, a size `x` has `nBits x - m` bits below its `m` leading ones. -/
theorem nBits_facts (hm : 0 < m) {x : Nat} (hx : 2 ^ m < x) (hx64 : x ≤ 2 ^ 64) :
    m < nBits x ∧ nBits x ≤ 64 ∧ 2 ^ (m - 1) ≤ (x - 1) >>> (nBits x - m) ∧
      (x - 1) >>> (nBits x - m) < 2 ^ m := by
  have hx1 : x - 1 ≠ 0 := by
    have := Nat.one_lt_two_pow (n := m) (by omega)
    omega
  have hlo : 2 ^ (x - 1).log2 ≤ x - 1 := Nat.log2_self_le hx1
  have hhi : x - 1 < 2 ^ ((x - 1).log2 + 1) := Nat.lt_log2_self
  have hnb : nBits x = (x - 1).log2 + 1 := by simp [nBits, show ¬ x ≤ 1 by omega]
  have hmk : m ≤ (x - 1).log2 := by
    by_contra h
    have : 2 ^ ((x - 1).log2 + 1) ≤ 2 ^ m := Nat.pow_le_pow_right (by decide) (by omega)
    omega
  have h64 : (x - 1).log2 < 64 := (Nat.log2_lt hx1).mpr (by omega)
  rw [hnb, Nat.shiftRight_eq_div_pow]
  refine ⟨by omega, by omega, ?_, ?_⟩
  · rw [Nat.le_div_iff_mul_le (Nat.two_pow_pos _), ← Nat.pow_add]
    exact Nat.le_trans (Nat.pow_le_pow_right (by decide) (by omega)) hlo
  · rw [Nat.div_lt_iff_lt_mul (Nat.two_pow_pos _), ← Nat.pow_add]
    exact Nat.lt_of_lt_of_le hhi (Nat.pow_le_pow_right (by decide) (by omega))

/-- On a size of `size_t`, `Alloc::bucket` computes `bucket`: neither the `uint8_t`s nor `size_t`
wrap. -/
theorem bucket_toNat (hm : 0 < m) (hm8 : m ≤ 8) {s : UInt64} (hs : 0 < s.toNat) :
    (bucket m s).toNat = Store.bucket m s.toNat := by
  have hs1 : (1 : UInt64) ≤ s := UInt64.le_iff_toNat_le.mpr (by rw [UInt64.toNat_one]; omega)
  have hsub : (s - 1).toNat = s.toNat - 1 := by
    rw [UInt64.toNat_sub_of_le _ _ hs1]
    rfl
  unfold bucket Store.bucket
  rw [if_neg (show m ≠ 0 by omega), if_neg (show m ≠ 0 by omega)]
  split
  · exact hsub
  · rename_i hlin
    dsimp only
    obtain ⟨hmb, hb64, hqlo, hqhi⟩ := nBits_facts hm (by omega) (Nat.le_of_lt s.toNat_lt)
    have h8 : 2 ^ m ≤ 2 ^ 8 := Nat.pow_le_pow_right (by decide) hm8
    have hpow : 2 ^ m = 2 * 2 ^ (m - 1) := two_pow_eq_two_mul hm
    have hm1 : (m - 1).toUInt64.toNat = m - 1 := by
      rw [UInt64.toNat_ofNat']
      exact Nat.mod_eq_of_lt (by omega)
    -- the exponent, in a `uint8_t`
    have hexp : ((nBits s.toNat).toUInt8 - m.toUInt8).toUInt64.toNat = nBits s.toNat - m := by
      have hbits : ((nBits s.toNat).toUInt8).toNat = nBits s.toNat := by
        rw [UInt8.toNat_ofNat']
        exact Nat.mod_eq_of_lt (by omega)
      have hm' : m.toUInt8.toNat = m := by
        rw [UInt8.toNat_ofNat']
        exact Nat.mod_eq_of_lt (by omega)
      rw [UInt8.toNat_toUInt64, UInt8.toNat_sub_of_le _ _ (UInt8.le_iff_toNat_le.mpr (by omega)),
        hbits, hm']
    generalize ((nBits s.toNat).toUInt8 - m.toUInt8) = e8 at hexp ⊢
    -- the masked mantissa, in a `uint8_t`
    have hlead : ((1 : UInt64) <<< (m - 1).toUInt64).toNat = 2 ^ (m - 1) := by
      rw [UInt64.toNat_shiftLeft, hm1, UInt64.toNat_one, Nat.mod_eq_of_lt (show m - 1 < 64 by omega),
        Nat.one_shiftLeft, Nat.mod_eq_of_lt (Nat.pow_lt_pow_right (by decide) (by omega))]
    have hq : ((s - 1) >>> e8.toUInt64 + 1 - (1 : UInt64) <<< (m - 1).toUInt64).toNat =
        (s.toNat - 1) >>> (nBits s.toNat - m) + 1 - 2 ^ (m - 1) := by
      have hshr : ((s - 1) >>> e8.toUInt64 + 1).toNat = (s.toNat - 1) >>> (nBits s.toNat - m) + 1 := by
        rw [UInt64.toNat_add, UInt64.toNat_shiftRight, hsub, hexp,
          Nat.mod_eq_of_lt (show nBits s.toNat - m < 64 by omega), UInt64.toNat_one,
          Nat.mod_eq_of_lt (by omega)]
      rw [UInt64.toNat_sub_of_le _ _ (UInt64.le_iff_toNat_le.mpr (by rw [hshr, hlead]; omega)),
        hshr, hlead]
    have hq8 : ((s - 1) >>> e8.toUInt64 + 1 - (1 : UInt64) <<< (m - 1).toUInt64).toUInt8.toUInt64.toNat =
        ((s.toNat - 1) >>> (nBits s.toNat - m) + 1 - 2 ^ (m - 1)) % 2 ^ 8 := by
      rw [UInt8.toNat_toUInt64, UInt64.toNat_toUInt8, hq]
    generalize ((s - 1) >>> e8.toUInt64 + 1 - (1 : UInt64) <<< (m - 1).toUInt64).toUInt8 = q8 at hq8 ⊢
    -- the bucket, in a `size_t`
    have hsmall : (nBits s.toNat - m + 1) <<< (m - 1) ≤ 64 * 2 ^ 7 := by
      rw [Nat.shiftLeft_eq]
      exact Nat.mul_le_mul (by omega) (Nat.pow_le_pow_right (by decide) (by omega))
    have hhead : ((e8.toUInt64 + 1) <<< (m - 1).toUInt64).toNat =
        (nBits s.toNat - m + 1) <<< (m - 1) := by
      rw [UInt64.toNat_shiftLeft, UInt64.toNat_add, hexp, UInt64.toNat_one, hm1,
        Nat.mod_eq_of_lt (show nBits s.toNat - m + 1 < 2 ^ 64 by omega),
        Nat.mod_eq_of_lt (show m - 1 < 64 by omega), Nat.mod_eq_of_lt (by omega)]
    have hpos : 1 ≤ (nBits s.toNat - m + 1) <<< (m - 1) := by
      rw [Nat.shiftLeft_eq]
      exact Nat.mul_pos (by omega) (Nat.two_pow_pos _)
    have hsum : ((e8.toUInt64 + 1) <<< (m - 1).toUInt64 + q8.toUInt64).toNat =
        (nBits s.toNat - m + 1) <<< (m - 1) +
          ((s.toNat - 1) >>> (nBits s.toNat - m) + 1 - 2 ^ (m - 1)) % 2 ^ 8 := by
      have := Nat.mod_lt ((s.toNat - 1) >>> (nBits s.toNat - m) + 1 - 2 ^ (m - 1))
        (show 0 < 2 ^ 8 by decide)
      rw [UInt64.toNat_add, hhead, hq8, Nat.mod_eq_of_lt (by omega)]
    rw [UInt64.toNat_sub_of_le _ _ (UInt64.le_iff_toNat_le.mpr (by rw [hsum, UInt64.toNat_one]; omega)),
      hsum, UInt64.toNat_one]

/-- On a bucket whose size fits `size_t`, `Alloc::sz` computes `bucketSz`: its exponent passes
the assertion, and nothing wraps. -/
theorem sz_eq (hm : 0 < m) (hm8 : m ≤ 8) {b : UInt64} (hb : bucketSz m b.toNat < 2 ^ 64) :
    ∃ n : UInt64, sz m b = .ok n ∧ n.toNat = bucketSz m b.toNat := by
  have hlt := lt_bucketSz hm b.toNat
  have hm1 : (m - 1).toUInt64.toNat = m - 1 := by
    rw [UInt64.toNat_ofNat']
    exact Nat.mod_eq_of_lt (by omega)
  have hb1 : (b + 1).toNat = b.toNat + 1 := by
    rw [UInt64.toNat_add, UInt64.toNat_one, Nat.mod_eq_of_lt (by omega)]
  unfold sz
  rw [if_neg (show m ≠ 0 by omega)]
  split
  · rename_i hlin
    exact ⟨_, rfl, by rw [hb1, bucketSz_of_lt hm hlin]⟩
  · rename_i hlin
    dsimp only
    have hpow : 2 ^ m = 2 * 2 ^ (m - 1) := two_pow_eq_two_mul hm
    have hh : 0 < 2 ^ (m - 1) := Nat.two_pow_pos _
    -- `b + 1` is `e + 1` octaves of `2^(m-1)` and the rest of a mantissa `q` of `m` bits
    obtain ⟨e, he⟩ : ∃ e, (b.toNat + 1) / 2 ^ (m - 1) = e + 1 :=
      ⟨(b.toNat + 1) / 2 ^ (m - 1) - 1, by
        have : 1 ≤ (b.toNat + 1) / 2 ^ (m - 1) := (Nat.one_le_div_iff hh).mpr (by omega)
        omega⟩
    have hdm := Nat.div_add_mod (b.toNat + 1) (2 ^ (m - 1))
    have hmod := Nat.mod_lt (b.toNat + 1) hh
    rw [he, Nat.mul_comm, Nat.add_one_mul] at hdm
    have hsz : bucketSz m b.toNat = (2 ^ (m - 1) + (b.toNat + 1) % 2 ^ (m - 1)) * 2 ^ e :=
      bucketSz_of_eq hm (by omega) (by omega) (by omega)
    -- the size fits `size_t`, so the exponent is below 64
    have he64 : e < 64 := by
      have : 2 ^ e < 2 ^ 64 := Nat.lt_of_le_of_lt (Nat.le_mul_of_pos_left _ (by omega)) (hsz ▸ hb)
      exact (Nat.pow_lt_pow_iff_right (by decide)).mp this
    have h7 : 2 ^ (m - 1) ≤ 2 ^ 7 := Nat.pow_le_pow_right (by decide) (by omega)
    -- so is `b`, and none of the sums below wraps
    have hsmall : b.toNat + 1 ≤ 64 * 2 ^ 7 + 2 ^ 8 := by
      have : e * 2 ^ (m - 1) ≤ 64 * 2 ^ 7 := Nat.mul_le_mul (by omega) h7
      omega
    have hlead : ((1 : UInt64) <<< (m - 1).toUInt64).toNat = 2 ^ (m - 1) := by
      rw [UInt64.toNat_shiftLeft, hm1, UInt64.toNat_one, Nat.mod_eq_of_lt (show m - 1 < 64 by omega),
        Nat.one_shiftLeft, Nat.mod_eq_of_lt (Nat.pow_lt_pow_right (by decide) (by omega))]
    -- the exponent, in a `uint8_t`
    have hexp : (((b + 1) >>> (m - 1).toUInt64) - 1).toUInt8.toNat = e := by
      have hshr : ((b + 1) >>> (m - 1).toUInt64).toNat = e + 1 := by
        rw [UInt64.toNat_shiftRight, hb1, hm1, Nat.mod_eq_of_lt (show m - 1 < 64 by omega),
          Nat.shiftRight_eq_div_pow, he]
      rw [UInt64.toNat_toUInt8, UInt64.toNat_sub_of_le _ _
        (UInt64.le_iff_toNat_le.mpr (by rw [hshr, UInt64.toNat_one]; omega)), hshr,
        UInt64.toNat_one, Nat.add_sub_cancel, Nat.mod_eq_of_lt (by omega)]
    generalize (((b + 1) >>> (m - 1).toUInt64) - 1).toUInt8 = e8 at hexp ⊢
    have hswear : swear (decide (e8.toNat < 64)) "exp<NBits<size_t>" = .ok () := by
      rw [swear_eq_ok, hexp, decide_eq_true_iff]
      exact he64
    rw [hswear, ok_bind]
    refine ⟨_, rfl, ?_⟩
    -- the mantissa `q`, shifted by the exponent
    have he8 : e8.toUInt64.toNat = e := by rw [UInt8.toNat_toUInt64, hexp]
    have hhead : ((e8.toUInt64 + 1) <<< (m - 1).toUInt64).toNat = (e + 1) * 2 ^ (m - 1) := by
      have : (e + 1) * 2 ^ (m - 1) < 2 ^ 64 :=
        Nat.lt_of_le_of_lt (Nat.mul_le_mul (show e + 1 ≤ 64 by omega) h7) (by decide)
      rw [UInt64.toNat_shiftLeft, UInt64.toNat_add, he8, UInt64.toNat_one, hm1,
        Nat.mod_eq_of_lt (show e + 1 < 2 ^ 64 by omega), Nat.mod_eq_of_lt (show m - 1 < 64 by omega),
        Nat.shiftLeft_eq, Nat.mod_eq_of_lt this]
    have hadd : ((1 : UInt64) <<< (m - 1).toUInt64 + b).toNat = 2 ^ (m - 1) + b.toNat := by
      rw [UInt64.toNat_add, hlead, Nat.mod_eq_of_lt (by omega)]
    have hmant : ((1 : UInt64) <<< (m - 1).toUInt64 + b - (e8.toUInt64 + 1) <<< (m - 1).toUInt64 + 1).toNat =
        2 ^ (m - 1) + (b.toNat + 1) % 2 ^ (m - 1) := by
      have hmul : (e + 1) * 2 ^ (m - 1) = e * 2 ^ (m - 1) + 2 ^ (m - 1) := Nat.add_one_mul _ _
      rw [UInt64.toNat_add, UInt64.toNat_sub_of_le _ _ (UInt64.le_iff_toNat_le.mpr
        (by rw [hadd, hhead]; omega)), hadd, hhead, UInt64.toNat_one, Nat.mod_eq_of_lt (by omega)]
      omega
    rw [UInt64.toNat_shiftLeft, hmant, he8, Nat.mod_eq_of_lt (show e < 64 by omega), Nat.shiftLeft_eq,
      ← hsz, Nat.mod_eq_of_lt hb]

/-- `NFree` of `Alloc::Hdr` for a 32-bit index: a free list for each bucket up to that of the
largest index, `lsb_msk(32)`. -/
def nFree32 (mantissa : Nat) : UInt64 := bucket mantissa 0xFFFFFFFF + 1

/-- The bucket of the largest 32-bit index, below `2^33`. -/
theorem bucket_top (hm : 0 < m) (hm8 : m ≤ 8) :
    (bucket m 0xFFFFFFFF).toNat = Store.bucket m (2 ^ 32 - 1) ∧
      Store.bucket m (2 ^ 32 - 1) < 2 ^ 33 := by
  refine ⟨bucket_toNat hm hm8 (s := 0xFFFFFFFF) (by decide), ?_⟩
  exact Nat.lt_of_le_of_lt (Nat.le_of_lt (lt_bucketSz hm _))
    (Nat.lt_of_lt_of_le (bucketSz_bucket_lt hm hm8 (by decide)) (by decide))

/-- The buckets below `NFree` are those of the sizes of a 32-bit index. -/
theorem toNat_le_of_lt_nFree32 (hm : 0 < m) (hm8 : m ≤ 8) {b : UInt64} (h : b < nFree32 m) :
    b.toNat ≤ Store.bucket m (2 ^ 32 - 1) := by
  obtain ⟨htop, hsmall⟩ := bucket_top hm hm8
  have hn : (nFree32 m).toNat = Store.bucket m (2 ^ 32 - 1) + 1 := by
    rw [nFree32, UInt64.toNat_add, htop, UInt64.toNat_one]
    exact Nat.mod_eq_of_lt (by omega)
  have := UInt64.lt_iff_toNat_lt.mp h
  omega

/-- A bucket below `NFree` holds fewer than `2^33` slots, and `Alloc::sz` gives its size. -/
theorem sz_of_lt_nFree32 (hm : 0 < m) (hm8 : m ≤ 8) {b : UInt64} (h : b < nFree32 m) :
    bucketSz m b.toNat < 2 ^ 33 ∧ ∃ n : UInt64, sz m b = .ok n ∧ n.toNat = bucketSz m b.toNat := by
  have hle : bucketSz m b.toNat < 2 ^ 33 :=
    Nat.lt_of_le_of_lt (bucketSz_mono hm (toNat_le_of_lt_nFree32 hm hm8 h))
      (Nat.lt_of_lt_of_le (bucketSz_bucket_lt hm hm8 (by decide)) (by decide))
  exact ⟨hle, sz_eq hm hm8 (Nat.lt_trans hle (by decide))⟩

/-- A size of a 32-bit index has its bucket below `NFree`. -/
theorem bucket_lt_nFree32 (hm : 0 < m) (hm8 : m ≤ 8) {s : UInt64} (hs : 0 < s.toNat)
    (hs32 : s.toNat < 2 ^ 32) : bucket m s < nFree32 m := by
  obtain ⟨htop, hsmall⟩ := bucket_top hm hm8
  have hmono := bucket_mono hm hm8 hs (show s.toNat ≤ 2 ^ 32 - 1 by omega)
  rw [UInt64.lt_iff_toNat_lt, bucket_toNat hm hm8 hs, nFree32, UInt64.toNat_add, htop,
    UInt64.toNat_one, Nat.mod_eq_of_lt (by omega)]
  omega

/-- The last bucket of a 32-bit index with 8 bits of mantissa holds `2^32` slots. -/
example : sz 8 3327 = .ok (2 ^ 32) := rfl

end Alloc

open Alloc in
/-- **The laws of the header of `alloc.hh`, as the source computes them.**  With a mantissa of `1`
to `8` bits, on `size_t` with the exponent and the mantissa in `uint8_t`s, for the sizes of a
32-bit index and the buckets it has free lists for: the first bucket holds size `1`, the next size
goes in the same bucket or in the next one, `sz` passes its assertion and gives the largest size
of each bucket, and `sz(bucket(s))` is the smallest bucket size that holds `s`; without mantissa,
every size goes in bucket `0`, of size `1`. -/
theorem bucket_laws_idx32 :
    (∀ m, 0 < m → m ≤ 8 →
      Alloc.bucket m 1 = 0 ∧
      (∀ s : UInt64, 0 < s.toNat → s.toNat < 2 ^ 32 →
        Alloc.bucket m s ≤ Alloc.bucket m (s + 1) ∧ Alloc.bucket m (s + 1) ≤ Alloc.bucket m s + 1) ∧
      (∀ b : UInt64, b < nFree32 m → ∃ n, sz m b = .ok n ∧
        Alloc.bucket m n = b ∧ Alloc.bucket m (n + 1) = b + 1) ∧
      (∀ s : UInt64, 0 < s.toNat → s.toNat < 2 ^ 32 → ∃ n, sz m (Alloc.bucket m s) = .ok n ∧
        s ≤ n ∧ ∀ b, b < nFree32 m → ∀ n', sz m b = .ok n' → s ≤ n' → n ≤ n')) ∧
    (∀ s, Alloc.bucket 0 s = 0 ∧ sz 0 (Alloc.bucket 0 s) = .ok 1) := by
  refine ⟨fun m hm hm8 => ?_, fun s => ⟨rfl, rfl⟩⟩
  obtain ⟨h₁, h₂, h₃, h₄⟩ := bucket_laws.1 m hm hm8
  have hsucc : ∀ s : UInt64, s.toNat < 2 ^ 32 → (s + 1).toNat = s.toNat + 1 := fun s hs => by
    rw [UInt64.toNat_add, UInt64.toNat_one, Nat.mod_eq_of_lt (by omega)]
  refine ⟨?_, fun s hs hs32 => ?_, fun b hb => ?_, fun s hs hs32 => ?_⟩
  · -- the first bucket
    rw [← UInt64.toNat_inj, bucket_toNat hm hm8 (by decide)]
    exact h₁
  · -- consecutive sizes
    have hb := bucket_toNat hm hm8 hs
    have hb' := bucket_toNat hm hm8 (s := s + 1) (by rw [hsucc s hs32]; omega)
    have hlt := toNat_le_of_lt_nFree32 hm hm8 (bucket_lt_nFree32 hm hm8 hs hs32)
    have hsmall := (bucket_top hm hm8).2
    obtain ⟨hle, hle'⟩ := h₂ s.toNat hs
    rw [hsucc s hs32] at hb'
    have hb1 : (Alloc.bucket m s + 1).toNat = Store.bucket m s.toNat + 1 := by
      rw [UInt64.toNat_add, hb, UInt64.toNat_one, Nat.mod_eq_of_lt (by omega)]
    rw [UInt64.le_iff_toNat_le, UInt64.le_iff_toNat_le, hb, hb', hb1]
    exact ⟨hle, hle'⟩
  · -- a bucket below `NFree` and its size
    obtain ⟨hle, n, hsz, hn⟩ := sz_of_lt_nFree32 hm hm8 hb
    have hpos := bucketSz_pos hm b.toNat
    have hbn : b.toNat < bucketSz m b.toNat := lt_bucketSz hm _
    have hn1 : (n + 1).toNat = bucketSz m b.toNat + 1 := by
      rw [UInt64.toNat_add, hn, UInt64.toNat_one, Nat.mod_eq_of_lt (by omega)]
    have hb1 : (b + 1).toNat = b.toNat + 1 := by
      rw [UInt64.toNat_add, UInt64.toNat_one, Nat.mod_eq_of_lt (by omega)]
    refine ⟨n, hsz, ?_, ?_⟩
    · rw [← UInt64.toNat_inj, bucket_toNat hm hm8 (by omega), hn]
      exact (h₃ b.toNat).1
    · rw [← UInt64.toNat_inj, bucket_toNat hm hm8 (by omega), hn1, hb1]
      exact (h₃ b.toNat).2
  · -- the size of the bucket of `s` is below that of any bucket that holds `s`
    have hlt := bucket_lt_nFree32 hm hm8 hs hs32
    have hb := bucket_toNat hm hm8 hs
    obtain ⟨-, n, hsz, hn⟩ := sz_of_lt_nFree32 hm hm8 hlt
    obtain ⟨hfit, hleast⟩ := h₄ s.toNat hs
    rw [hb] at hn
    refine ⟨n, hsz, UInt64.le_iff_toNat_le.mpr (hn ▸ hfit), fun b hb' n' hsz' hsn' => ?_⟩
    obtain ⟨-, n'', hsz'', hn''⟩ := sz_of_lt_nFree32 hm hm8 hb'
    rw [hsz', Except.ok.injEq] at hsz''
    subst hsz''
    rw [UInt64.le_iff_toNat_le, hn''] at hsn'
    rw [UInt64.le_iff_toNat_le, hn, hn'']
    exact hleast b.toNat hsn'

/-- **`sz` wraps past the buckets of a 32-bit index.**  With 8 bits of mantissa, bucket `7423`
holds blocks of `2^64` slots, which `sz` gives in a `size_t` as `0`, and the bucket of `0` is
`0 - 1`, the last one: `bucket(sz(7423))` is not `7423`. -/
theorem sz_wraps :
    bucketSz 8 7423 = 2 ^ 64 ∧ Alloc.sz 8 7423 = .ok 0 ∧ (Alloc.bucket 8 0).toNat = 2 ^ 64 - 1 :=
  ⟨by rw [bucketSz_of_eq (e := 57) (q := 128) (by decide) (by decide) (by decide) (by decide)]; rfl,
    rfl, rfl⟩

/-! ## The file -/

/-- An `AllocFile` of elements `E`: its slots and its free lists, by bucket. -/
structure AllocFile (E : Type) where
  slots : List E
  free : List (List Nat)
  deriving DecidableEq, Repr

namespace AllocFile

variable {E : Type} [Inhabited E]

/-- A new file: only the slot standing for no item. -/
def new : AllocFile E := ⟨[default], []⟩

/-- `size()`: the number of slots. -/
def size (af : AllocFile E) : Nat := af.slots.length

@[simp] theorem size_new : (new : AllocFile E).size = 1 := rfl

/-- `at(idx)`. -/
def get (af : AllocFile E) (idx : Nat) : E := af.slots.getD idx default

/-- Write the element at `idx`. -/
def set (af : AllocFile E) (idx : Nat) (e : E) : AllocFile E := { af with slots := af.slots.set idx e }

/-- `_free(bucket)`: the free list of a bucket. -/
def freeList (af : AllocFile E) (b : Nat) : List Nat := af.free.getD b []

/-- Replace the free list of a bucket. -/
def setFree (af : AllocFile E) (b : Nat) (l : List Nat) : AllocFile E :=
  { af with free := (af.free ++ List.replicate (b + 1 - af.free.length) []).set b l }

/-- `emplace_back(n,e)`: `n` new slots at the end of the file, `e` at the first one. -/
def emplaceBack (af : AllocFile E) (n : Nat) (e : E) : Nat × AllocFile E :=
  (af.size, { af with slots := af.slots ++ e :: List.replicate (n - 1) default })

/-- `emplace(sz,e)`: the head of the free list of `sz`'s bucket, or a block at the end. -/
def emplace (mantissa : Nat) (af : AllocFile E) (sz : Nat) (e : E) : Nat × AllocFile E :=
  let b := bucket mantissa sz
  match af.freeList b with
  | [] => af.emplaceBack (bucketSz mantissa b) e
  | res :: rest => (res, (af.setFree b rest).set res e)

/-- `_dealloc(idx,bucket)`: push a block on a free list. -/
def dealloc (af : AllocFile E) (idx b : Nat) : AllocFile E := af.setFree b (idx :: af.freeList b)

/-- `pop(idx,sz)`: free the block of `sz` slots at `idx`. -/
def pop (mantissa : Nat) (af : AllocFile E) (idx sz : Nat) : AllocFile E :=
  if idx = 0 then af else af.dealloc idx (bucket mantissa sz)

/-- The loop of `_shorten`: free the end of a block, the largest piece that fits first. -/
def shortenLoop (mantissa idx newSz : Nat) : Nat → Nat → AllocFile E → Except String (AllocFile E)
  | 0, _, af => .ok af
  | fuel + 1, oldSz, af =>
    if newSz < oldSz then do
      let extraSz := oldSz - newSz
      let eb := bucket mantissa extraSz
      swear (bucketSz mantissa eb ≥ extraSz) "extra_bucket_sz>=extra_sz"
      -- the bucket that holds `extra_sz` may only hold larger blocks: take the one below
      let eb := if bucketSz mantissa eb > extraSz then eb - 1 else eb
      let ebSz := bucketSz mantissa eb
      swear (ebSz ≤ extraSz) "extra_bucket_sz<=extra_sz"
      let oldSz := oldSz - ebSz
      shortenLoop mantissa idx newSz fuel oldSz (af.dealloc (idx + oldSz) eb)
    else .ok af

/-- `shorten(idx,old_sz,new_sz)`: free the slots of a block beyond its new size. -/
def shorten (mantissa : Nat) (af : AllocFile E) (idx oldSz newSz : Nat) :
    Except String (AllocFile E) :=
  if newSz = 0 then .ok (af.pop mantissa idx oldSz)
  else if newSz = oldSz then .ok af
  else do
    swear (newSz ≤ oldSz) "new_sz<=old_sz"
    let newB := bucket mantissa newSz
    let oldB := bucket mantissa oldSz
    let oldSz' := bucketSz mantissa oldB
    let af ← shortenLoop mantissa idx (bucketSz mantissa newB) oldSz' oldSz' af
    swear (newB ≤ oldB) "new_bucket<=old_bucket"
    pure af

/-! ## Reading what was written -/

omit [Inhabited E] in
@[simp] theorem size_set (af : AllocFile E) (idx : Nat) (e : E) : (af.set idx e).size = af.size := by
  simp [set, size]

theorem get_set_self (af : AllocFile E) (idx : Nat) (e : E) (h : idx < af.size) :
    (af.set idx e).get idx = e := by
  simp only [get, set, size] at h ⊢
  simp [List.getD_eq_getElem?_getD, h]

theorem get_set_of_ne (af : AllocFile E) {idx j : Nat} (e : E) (h : j ≠ idx) :
    (af.set idx e).get j = af.get j := by
  simp [get, set, List.getD_eq_getElem?_getD, List.getElem?_set_ne (Ne.symm h)]

omit [Inhabited E] in
@[simp] theorem size_setFree (af : AllocFile E) (b : Nat) (l : List Nat) :
    (af.setFree b l).size = af.size := rfl

omit [Inhabited E] in
@[simp] theorem freeList_set (af : AllocFile E) (idx : Nat) (e : E) (b : Nat) :
    (af.set idx e).freeList b = af.freeList b := rfl

omit [Inhabited E] in
theorem freeList_setFree (af : AllocFile E) (b b' : Nat) (l : List Nat) :
    (af.setFree b l).freeList b' = if b' = b then l else af.freeList b' := by
  simp only [freeList, setFree]
  by_cases h : b' = b
  · subst h
    have hlen : b' < (af.free ++ List.replicate (b' + 1 - af.free.length) []).length := by
      simp; omega
    rw [List.getD_eq_getElem?_getD, List.getElem?_set_self hlen]
    simp
  · simp only [h, if_false, List.getD_eq_getElem?_getD, List.getElem?_set_ne (Ne.symm h)]
    rw [List.getElem?_append]
    split
    · rfl
    · -- past the old free lists, the padding holds empty lists, as a missing one reads
      simp only [List.getElem?_replicate]
      rw [List.getElem?_eq_none (by omega)]
      split <;> rfl

@[simp] theorem fst_emplaceBack (af : AllocFile E) (n : Nat) (e : E) :
    (af.emplaceBack n e).1 = af.size := rfl

@[simp] theorem size_emplaceBack (af : AllocFile E) (n : Nat) (e : E) :
    (af.emplaceBack n e).2.size = af.size + 1 + (n - 1) := by
  simp [emplaceBack, size]
  omega

@[simp] theorem freeList_emplaceBack (af : AllocFile E) (n : Nat) (e : E) (b : Nat) :
    (af.emplaceBack n e).2.freeList b = af.freeList b := rfl

theorem get_emplaceBack_self (af : AllocFile E) (n : Nat) (e : E) :
    (af.emplaceBack n e).2.get af.size = e := by
  simp [emplaceBack, get, size, List.getD_eq_getElem?_getD]

theorem get_emplaceBack_of_lt (af : AllocFile E) (n : Nat) (e : E) {j : Nat} (hj : j < af.size) :
    (af.emplaceBack n e).2.get j = af.get j := by
  simp only [size] at hj
  simp [emplaceBack, get, List.getD_eq_getElem?_getD, List.getElem?_append_left hj]

/-- With the free list of its bucket empty, `emplace` takes a block at the end of the file. -/
theorem emplace_of_freeList_nil {m : Nat} {af : AllocFile E} {sz : Nat} {e : E}
    (h : af.freeList (bucket m sz) = []) :
    af.emplace m sz e = af.emplaceBack (bucketSz m (bucket m sz)) e := by
  simp [emplace, h]

/-! ## The free lists hold blocks of the file -/

/-- The slot standing for no item exists, and the free lists hold blocks of the file other than
it. -/
structure Wf (af : AllocFile E) : Prop where
  size_pos : 0 < af.size
  free_mem : ∀ b, ∀ i ∈ af.freeList b, 0 < i ∧ i < af.size

theorem wf_new : (new : AllocFile E).Wf :=
  ⟨by simp [new, size], fun b i hi => by simp [new, freeList] at hi⟩

variable {af : AllocFile E} (m : Nat)

/-- `emplace` never hands out the slot standing for no item. -/
theorem pos_emplace (hw : af.Wf) (sz : Nat) (e : E) : 0 < (af.emplace m sz e).1 := by
  simp only [emplace]
  split
  · exact hw.size_pos
  · rename_i res rest hfree
    exact (hw.free_mem _ res (by rw [hfree]; exact List.mem_cons_self)).1

/-- The slot `emplace` hands out holds the element. -/
theorem get_emplace (hw : af.Wf) (sz : Nat) (e : E) :
    (af.emplace m sz e).2.get (af.emplace m sz e).1 = e := by
  simp only [emplace]
  split
  · exact get_emplaceBack_self _ _ _
  · rename_i res rest hfree
    have hres := hw.free_mem _ res (by rw [hfree]; exact List.mem_cons_self)
    exact get_set_self _ _ _ (by simpa using hres.2)

/-- `emplace` leaves the other slots of the file as they were. -/
theorem get_emplace_of_ne (sz : Nat) (e : E) {j : Nat} (hj : j < af.size)
    (hne : j ≠ (af.emplace m sz e).1) : (af.emplace m sz e).2.get j = af.get j := by
  simp only [emplace] at hne ⊢
  cases hf : af.freeList (bucket m sz) with
  | nil =>
    simp only [hf] at hne ⊢
    exact get_emplaceBack_of_lt _ _ _ hj
  | cons res rest =>
    simp only [hf] at hne ⊢
    rw [get_set_of_ne _ _ hne]
    rfl

/-! ## The checks of `_free` and `emplace_back`

`_free(bucket)` swears that the header has a free list for the bucket: it has `NFree`, one for
each bucket up to that of the largest index.  `emplace_back` checks that the file does not grow to
`2^NIdxBits` slots.  The functions above are those of the source once these checks pass
(`emplaceChk_eq`, `deallocChk_eq`), and the check of `_free` passes for every size an index can
have (`bucket_lt_nFree`). -/

/-- `Hdr::NFree` for an `Idx` of `idxBits` bits: `bucket(lsb_msk(8*sizeof(I)))+1`. -/
def nFree (mantissa idxBits : Nat) : Nat := bucket mantissa (2 ^ idxBits - 1) + 1

/-- `_free(bucket)`, with its `SWEAR`. -/
def freeListChk (nFree : Nat) (af : AllocFile E) (b : Nat) : Except String (List Nat) := do
  swear (b < nFree) "bucket<Base::Hdr::NFree"
  pure (af.freeList b)

/-- `StructFile::emplace_back(sz,e)`, with its check that the new size neither wraps in `Sz` nor
reaches `2^NIdxBits`: in a `Sz` of at least `NIdxBits` bits the sum only wraps past `2^NIdxBits`,
so one bound on the sum is both checks. -/
def emplaceBackChk (nIdxBits : Nat) (name : String) (af : AllocFile E) (n : Nat) (e : E) :
    Except String (Nat × AllocFile E) := do
  swear (af.size + n < 2 ^ nIdxBits) ("index overflow on " ++ name)
  pure (af.emplaceBack n e)

/-- `_emplace(sz,e)`, with the checks of `_free` and `emplace_back`. -/
def emplaceChk (mantissa nFree nIdxBits : Nat) (name : String) (af : AllocFile E) (sz : Nat)
    (e : E) : Except String (Nat × AllocFile E) := do
  let b := bucket mantissa sz
  match ← af.freeListChk nFree b with
  | [] => af.emplaceBackChk nIdxBits name (bucketSz mantissa b) e
  | res :: rest => pure (res, (af.setFree b rest).set res e)

/-- `_dealloc(idx,bucket)`, with the check of `_free`. -/
def deallocChk (nFree : Nat) (af : AllocFile E) (idx b : Nat) : Except String (AllocFile E) := do
  let l ← af.freeListChk nFree b
  pure (af.setFree b (idx :: l))

omit [Inhabited E] in
theorem freeListChk_eq {nF b : Nat} (hb : b < nF) : af.freeListChk nF b = .ok (af.freeList b) := by
  simp [freeListChk, swear, hb]

/-- With the bucket in the header and room in the file for a new block, `_emplace` is `emplace`. -/
theorem emplaceChk_eq {nF nIdxBits sz : Nat} (name : String) (e : E) (hb : bucket m sz < nF)
    (hcap : af.freeList (bucket m sz) = [] →
      af.size + bucketSz m (bucket m sz) < 2 ^ nIdxBits) :
    af.emplaceChk m nF nIdxBits name sz e = .ok (af.emplace m sz e) := by
  rw [emplaceChk, freeListChk_eq hb, ok_bind]
  cases hf : af.freeList (bucket m sz) with
  | nil =>
    -- an empty free list: a new block at the end, within the capacity
    simp only [emplaceBackChk, swear, hcap hf, decide_true, if_true, ok_bind]
    rw [emplace_of_freeList_nil hf]
    rfl
  | cons res rest => simp [emplace, hf, pure, Except.pure]

omit [Inhabited E] in
/-- With the bucket in the header, `_dealloc` is `dealloc`. -/
theorem deallocChk_eq {nF b : Nat} (idx : Nat) (hb : b < nF) :
    af.deallocChk nF idx b = .ok (af.dealloc idx b) := by
  rw [deallocChk, freeListChk_eq hb, ok_bind]
  rfl

/-- The bucket of every size an index of `idxBits` bits can have has its free list in the header. -/
theorem bucket_lt_nFree (hm : 0 < m) (hm8 : m ≤ 8) {sz idxBits : Nat} (hs : 0 < sz)
    (hsz : sz < 2 ^ idxBits) : bucket m sz < nFree m idxBits :=
  Nat.lt_succ_of_le (bucket_mono hm hm8 hs (by omega))

/-- **The checks of `_emplace` and `_dealloc`**: for every size an index of `idxBits` bits can have,
the `SWEAR` of `_free` holds, so that `_dealloc` of a block of that size is `dealloc`, and `_emplace`
is `emplace` when the file has room for a new block. -/
theorem emplaceChk_deallocChk_of_lt (hm : 0 < m) (hm8 : m ≤ 8) {sz idxBits nIdxBits : Nat}
    (hs : 0 < sz) (hsz : sz < 2 ^ idxBits) (name : String) (e : E)
    (hcap : af.freeList (bucket m sz) = [] →
      af.size + bucketSz m (bucket m sz) < 2 ^ nIdxBits) (idx : Nat) :
    af.emplaceChk m (nFree m idxBits) nIdxBits name sz e = .ok (af.emplace m sz e) ∧
      af.deallocChk (nFree m idxBits) idx (bucket m sz) = .ok (af.dealloc idx (bucket m sz)) :=
  have hb := bucket_lt_nFree m hm hm8 hs hsz
  ⟨emplaceChk_eq m name e hb hcap, deallocChk_eq idx hb⟩

theorem emplaceChk_deallocChk_of_lt_new :
    (new : AllocFile Nat).emplaceChk 4 (nFree 4 32) 32 "file" 3 1 = .ok (new.emplace 4 3 1) ∧
      (new : AllocFile Nat).deallocChk (nFree 4 32) 5 (bucket 4 3) = .ok (new.dealloc 5 (bucket 4 3)) :=
  emplaceChk_deallocChk_of_lt 4 (by decide) (by decide) (by decide) (by decide) "file" 1
    (fun _ => by decide) 5

/-! ## A large mantissa -/

/-- **A mantissa of 9 bits overflows `bucket`.**  The masked mantissa of a size is kept in a
`uint8_t`, which holds it only up to `Mantissa = 8`.  With `Mantissa = 9`, `1023` slots go in the
bucket of `512` slots: `emplace` hands out a block of `512` slots, and the next block is taken
at the end of the file, inside the `1023` slots of the first. -/
theorem emplace_mantissa_nine_overlaps :
    bucketSz 9 (bucket 9 1023) = 512 ∧
      ((new : AllocFile Nat).emplace 9 1023 1).1 = 1 ∧
      (((new : AllocFile Nat).emplace 9 1023 1).2.emplace 9 1 2).1 = 513 := by
  have hb : bucket 9 1023 = 511 := by decide
  have hsz : bucketSz 9 511 = 512 := by decide
  have hfree : ∀ b, (new : AllocFile Nat).freeList b = [] := fun b => by
    simp [new, freeList]
  have h₁ : (new : AllocFile Nat).emplace 9 1023 1 = new.emplaceBack 512 1 := by
    rw [emplace_of_freeList_nil (hfree _), hb, hsz]
  have h₂ : ((new : AllocFile Nat).emplace 9 1023 1).2.emplace 9 1 2 =
      ((new : AllocFile Nat).emplace 9 1023 1).2.emplaceBack (bucketSz 9 (bucket 9 1)) 2 :=
    emplace_of_freeList_nil (by rw [h₁, freeList_emplaceBack]; exact hfree _)
  refine ⟨by rw [hb, hsz], by rw [h₁]; rfl, ?_⟩
  rw [h₂, h₁, fst_emplaceBack, size_emplaceBack, size_new]

end AllocFile

end Store
