import Lmake.Hash.Crc

/-!
# Generalising a dep's crc for the cache, and matching it back

When a job is uploaded to the cache, each dep is stored with a crc that says not what the file was
but what the job could have *seen* of it.  The `CompileDigest` constructor folds the accesses of
the dep into its crc (`generalise`): a dep only tested for existence is stored as "any existing
file", a dep only read with `readlink` and that was not a link is stored as "anything but a link",
and so on.  It borrows two bits of the crc for that: `CrcOrNone` (bit 3) marks "or no file at
all", and `CrcErr` (bit 4) records the error status of a dep that is sensitive to it.  A download
stores the repo's actual crcs with the same `CrcErr` treatment, and `crcOk` decides whether a
stored crc accepts a repo crc.

The intent is that the cache accepts exactly the repo files that the job's accesses cannot tell
apart from the recorded one.  It holds, with two deliberate losses of precision that the code
accepts (its comment reads "we lose 1 bit of crc but we must manage errors and it does not
desserv an additional field"):

* a checksum that differs from the recorded one only in bit 4 is accepted (`crcOk_not_exact` is
  such a pair);
* a checksum whose value falls among the special codes once bits 3 and 4 are cleared is read as
  that special code, so the two bits are only free in checksums that are `Clean`.

`crcOk_depCrc_iff` proves the statement for clean crcs, comparing checksums up to bit 4, and
`crcOk_isSome` shows that the final `FAIL` of `crcOk` is unreachable.
-/

set_option autoImplicit false

namespace Cache

open Hash

/-! ## The crcs stored in a `CompileDigest` -/

/-- `CrcOrNone = 1<<NBits<CrcSpecial>`: the stored crc also accepts no file at all. -/
def CrcOrNone : UInt64 := (1 : UInt64) <<< 3

/-- `CrcErr = 1<<(NBits<CrcSpecial>+1)`: the dep was in error and the job was sensitive to it. -/
def CrcErr : UInt64 := (1 : UInt64) <<< 4

/-- `+crc & ~CrcErr`. -/
def clearErr (c : Crc) : Crc := ⟨c.val &&& ~~~CrcErr⟩

/-- `+crc & ~(CrcOrNone|CrcErr)`: the crc stripped of both flags, as `crc_ok` reads it. -/
def clearFlags (c : Crc) : Crc := ⟨c.val &&& ~~~(CrcOrNone ||| CrcErr)⟩

/-- The switch of the `CompileDigest` constructor that folds the accesses `a` into the crc of a
dep when uploading: `Crc::Unknown` means any existing file, `CrcOrNone` adds no file at all. -/
def generalise (crc : Crc) (a : Accesses) : Crc :=
  match a.lnk, a.reg, a.stat with
  | false, false, false => ⟨Crc.unknown.val ||| CrcOrNone⟩
  | true, false, false => if !crc.isLnk then ⟨Crc.reg.val ||| CrcOrNone⟩ else crc
  | false, true, false => if !crc.isReg then ⟨Crc.lnk.val ||| CrcOrNone⟩ else crc
  | false, false, true => if crc != Crc.none then Crc.unknown else crc
  | true, false, true => if crc.isReg then Crc.reg else crc
  | false, true, true => if crc.isLnk then Crc.lnk else crc
  | _, _, _ => crc

/-- The crc the `CompileDigest` constructor stores for a dep recorded with `crc`, accessed with
`a` and with error status `err`. -/
def depCrc (forDownload : Bool) (crc : Crc) (a : Accesses) (err : Bool) : Crc :=
  let crc := if forDownload then crc else generalise crc a
  if err && a.err then ⟨crc.val ||| CrcErr⟩ else clearErr crc

/-! ## Matching a stored crc against a repo crc -/

/-- `crc_ok`: whether the stored `cacheCrc` accepts `repoCrc`; `none` is its final `FAIL`. -/
def crcOk (cacheCrc repoCrc : Crc) : Option Bool :=
  let cc := clearFlags cacheCrc
  if cc.valid then some (repoCrc == cacheCrc)
  else if cacheCrc.val &&& CrcErr != repoCrc.val &&& CrcErr then some false
  else
    let rc := clearFlags repoCrc
    if rc.valid then
      if cacheCrc.val &&& CrcOrNone != 0 && repoCrc == Crc.none then some true
      else if cc == Crc.unknown then some (repoCrc != Crc.none)
      else if cc == Crc.lnk then some repoCrc.isLnk
      else if cc == Crc.reg then some repoCrc.isReg
      else Option.none
    else
      if cacheCrc.val &&& CrcOrNone != 0 && repoCrc.val &&& CrcOrNone != 0 then some true
      else if cc == Crc.unknown then some true
      else if cc == Crc.lnk then some (rc == Crc.lnk || rc == Crc.unknown)
      else if cc == Crc.reg then some (rc == Crc.reg || rc == Crc.unknown)
      else Option.none

/-! ## Clean crcs

A crc is `Clean` when bits 3 and 4 can be cleared without turning it into something else: it is
one of the special codes, or a checksum that stays a checksum.  The whole argument reduces the
64-bit values to their `Crc.kind` through `LowBits`: the high part of a clean crc is untouched by
the flags, and what the flags do to the low part is checked on its 32 values (`low_bits`). -/

/-- A crc whose bits 3 and 4 are free to be used as flags. -/
def Clean (c : Crc) : Prop := c.val.toNat < 5 ∨ 6 ≤ (c.val &&& ~~~(CrcOrNone ||| CrcErr)).toNat

instance : DecidablePred Clean := fun _ => inferInstanceAs (Decidable (_ ∨ _))

theorem clean_iff (c : Crc) : Clean c ↔ c.val.toNat < 5 ∨ 6 ≤ (clearFlags c).val.toNat :=
  Iff.rfl

theorem toNat_clearErr (c : Crc) :
    (clearErr c).val.toNat = c.val.toNat / 32 * 32 + (c.val.toNat % 32 &&& 15) :=
  LowBits.toNat_and_not _ _ (by decide)

theorem toNat_clearFlags (c : Crc) :
    (clearFlags c).val.toNat = c.val.toNat / 32 * 32 + (c.val.toNat % 32 &&& 7) :=
  LowBits.toNat_and_not _ _ (by decide)

theorem low_bits : ∀ l < 32,
    ((l &&& 15) % 2 = l % 2 ∧ (l &&& 7) % 2 = l % 2) ∧
    (l < 5 ∨ 6 ≤ (l &&& 7) →
      Crc.kindNat (l &&& 15) = Crc.kindNat l ∧ Crc.kindNat (l &&& 7) = Crc.kindNat l ∧ l ≠ 5 ∧
      (l &&& 15) ≠ 5 ∧ (l &&& 7) ≠ 5) := by
  decide

section
variable {c : Crc} (hc : Clean c)
include hc

/-- Masking the low part of a clean crc by `f` keeps its kind, when `f` does on the 32 low values
and keeps bit 0. -/
theorem kind_of_lowBits {f : Nat → Nat}
    (hf : ∀ l < 32, l < 5 ∨ 6 ≤ (l &&& 7) → Crc.kindNat (f l) = Crc.kindNat l)
    (hp : ∀ l < 32, f l % 2 = l % 2) :
    Crc.kindNat (c.val.toNat / 32 * 32 + f (c.val.toNat % 32)) = c.kind := by
  rw [Crc.kind_eq_kindNat]
  have hl : c.val.toNat % 32 < 32 := Nat.mod_lt _ (by decide)
  have hc' := hc
  rw [clean_iff, toNat_clearFlags] at hc'
  conv_rhs => rw [← Nat.div_add_mod' c.val.toNat 32]
  rcases Nat.eq_zero_or_pos (c.val.toNat / 32) with h0 | hpos
  · rw [h0, Nat.zero_mul, Nat.zero_add, Nat.zero_add]
    exact hf _ hl (by omega)
  · exact Crc.kindNat_high hpos (hp _ hl)

theorem kind_clearErr : (clearErr c).kind = c.kind := by
  rw [Crc.kind_eq_kindNat, toNat_clearErr]
  exact kind_of_lowBits hc (fun l hl h => ((low_bits l hl).2 h).1)
    (fun l hl => (low_bits l hl).1.1)

theorem kind_clearFlags : (clearFlags c).kind = c.kind := by
  rw [Crc.kind_eq_kindNat, toNat_clearFlags]
  exact kind_of_lowBits hc (fun l hl h => ((low_bits l hl).2 h).2.1)
    (fun l hl => (low_bits l hl).1.2)

/-- The value `5`, the code `Plain`, is neither clean nor reached by clearing bits. -/
theorem val_ne_five : c.val.toNat ≠ 5 ∧ (clearErr c).val.toNat ≠ 5 ∧
    (clearFlags c).val.toNat ≠ 5 := by
  have hc' := hc
  rw [clean_iff, toNat_clearFlags] at hc'
  have hl : c.val.toNat % 32 < 32 := Nat.mod_lt _ (by decide)
  rw [toNat_clearErr, toNat_clearFlags]
  rcases Nat.eq_zero_or_pos (c.val.toNat / 32) with h0 | hpos
  · obtain ⟨-, -, h1, h2, h3⟩ := (low_bits _ hl).2 (by omega)
    rw [h0]
    omega
  · omega

theorem valid_clearFlags : (clearFlags c).valid = c.kind.valid := by
  rw [Crc.valid_eq_kind (val_ne_five hc).2.2, kind_clearFlags hc]

theorem valid_clearErr : (clearErr c).valid = c.kind.valid := by
  rw [Crc.valid_eq_kind (val_ne_five hc).2.1, kind_clearErr hc]

theorem isLnk_clearErr : (clearErr c).isLnk = c.kind.isLnk := by
  rw [Crc.isLnk_eq_kind (val_ne_five hc).2.1, kind_clearErr hc]

theorem isReg_clearErr : (clearErr c).isReg = c.kind.isReg := by
  rw [Crc.isReg_eq_kind (val_ne_five hc).2.1, kind_clearErr hc]

theorem beq_none_clearErr : (clearErr c == Crc.none) = (c.kind == .none) := by
  rw [Bool.eq_iff_iff, beq_iff_eq, beq_iff_eq, Crc.eq_none_iff_kind, kind_clearErr hc]

end

/-- What equality of two cleared crcs says about their kinds: nothing more than the kinds when
they are checksums, everything when they are the codes `None` or `Empty`. -/
theorem clearErr_beq_kind {c r : Crc} (hc : Clean c) (hr : Clean r) :
    ((clearErr c == clearErr r) = true → c.kind = r.kind) ∧
      (c.kind = .none → r.kind = .none → (clearErr c == clearErr r) = true) ∧
      (c.kind = .empty → r.kind = .empty → (clearErr c == clearErr r) = true) := by
  refine ⟨fun h => ?_, fun h1 h2 => ?_, fun h1 h2 => ?_⟩
  · rw [← kind_clearErr hc, ← kind_clearErr hr, eq_of_beq h]
  · rw [← Crc.eq_none_iff_kind] at h1 h2
    simp [h1, h2]
  · rw [Crc.eq_empty_of_kind (val_ne_five hc).1 h1, Crc.eq_empty_of_kind (val_ne_five hr).1 h2]
    simp

/-! ## What `crc_ok` computes -/

theorem crcOk_of_valid {g r : Crc} (h : (clearFlags g).valid) : crcOk g r = some (r == g) := by
  simp only [crcOk]
  rw [if_pos h]

theorem not_valid_cases {c : Crc} (h : c.valid = false) :
    c = Crc.unknown ∨ c = Crc.lnk ∨ c = Crc.reg := by
  rw [Crc.valid_eq] at h
  have h' : c.val.toNat < 3 := by simpa using h
  rcases Crc.eq_special_of_lt (show c.val.toNat < 5 by omega) with rfl | rfl | rfl | rfl | rfl
  all_goals first | simp | exact absurd h' (by decide)

/-- The final `FAIL` of `crc_ok` is unreachable: a stored crc that is not a content is one of the
three codes it tests. -/
theorem crcOk_isSome (g r : Crc) : (crcOk g r).isSome := by
  by_cases h : (clearFlags g).valid
  · rw [crcOk_of_valid h]; rfl
  · rcases not_valid_cases (Bool.eq_false_iff.mpr h) with hg | hg | hg <;>
    · simp only [crcOk]
      rw [if_neg h]
      simp only [hg]
      split_ifs <;> simp_all

theorem clearFlags_clearErr (c : Crc) : clearFlags (clearErr c) = clearFlags c := by
  simp only [clearFlags, clearErr, UInt64.and_assoc]
  rfl

theorem errBit_clearErr (c : Crc) : (clearErr c).val &&& CrcErr = 0 := by
  simp only [clearErr, UInt64.and_assoc]
  exact UInt64.and_zero

theorem orNone_clearErr (c : Crc) : (clearErr c).val &&& CrcOrNone = c.val &&& CrcOrNone := by
  simp only [clearErr, UInt64.and_assoc]
  rfl

/-- `crc_ok` on a stored special code, both crcs with their `CrcErr` bit cleared. -/
theorem crcOk_clearErr_of_flags {r : Crc} (hr : (clearFlags r).valid = true) {g : Crc}
    (hg : (clearFlags g).valid = false) :
    crcOk (clearErr g) (clearErr r) =
      if g.val &&& CrcOrNone != 0 && clearErr r == Crc.none then some true
      else if clearFlags g == Crc.unknown then some (clearErr r != Crc.none)
      else if clearFlags g == Crc.lnk then some (clearErr r).isLnk
      else if clearFlags g == Crc.reg then some (clearErr r).isReg
      else Option.none := by
  have he : (clearErr g).val &&& CrcErr = (clearErr r).val &&& CrcErr := by
    rw [errBit_clearErr, errBit_clearErr]
  simp only [crcOk, clearFlags_clearErr, hg, hr, he, orNone_clearErr]
  simp

/-- `crc_ok` on a recorded crc kept as it is, read off the kinds. -/
theorem crcOk_clearErr_self {c r : Crc} (hc : Clean c) (hr : Clean r)
    (hrv : r.kind.valid = true) :
    crcOk (clearErr c) (clearErr r) = some (match c.kind with
      | .unknown => !(r.kind == .none)
      | .lnk => r.kind.isLnk
      | .reg => r.kind.isReg
      | _ => clearErr c == clearErr r) := by
  have hrF : (clearFlags r).valid = true := by rw [valid_clearFlags hr, hrv]
  by_cases hcv : c.kind.valid = true
  · have hcomm : (clearErr r == clearErr c) = (clearErr c == clearErr r) := by
      rw [Bool.eq_iff_iff, beq_iff_eq, beq_iff_eq, eq_comm]
    rw [crcOk_of_valid (by rw [clearFlags_clearErr, valid_clearFlags hc, hcv]), hcomm]
    split <;> simp_all [CrcKind.valid]
  · -- an unknown, a link or a regular file of unknown content: the special code itself
    rcases Crc.eq_of_kind_not_valid (Bool.eq_false_iff.mpr hcv) with
      ⟨hk, rfl⟩ | ⟨hk, rfl⟩ | ⟨hk, rfl⟩
    all_goals
      rw [crcOk_clearErr_of_flags hrF (by decide), hk]
      simp +decide [isLnk_clearErr hr, isReg_clearErr hr, bne, beq_none_clearErr hr]

/-! ## `Crc::match` -/

theorem isMatch_eq {c r : Crc} (a : Accesses) (h : (c.diffAccesses r).isSome) :
    c.isMatch r a = some ((c.valid && r.valid && c == r) || !(Crc.qualify c r &&& a).nonEmpty) := by
  simp only [Crc.isMatch, Crc.diffAccesses] at h ⊢
  by_cases hv : (c.valid && r.valid) = true
  · rw [if_pos hv] at h ⊢
    by_cases heq : c = r
    · subst heq
      have hv' : c.valid = true := by simpa using hv
      simp [hv', Accesses.nonEmpty, Accesses.empty]
    · have hx : (c.val ^^^ r.val == 0) = false := by
        simp only [beq_eq_false_iff_ne, ne_eq, UInt64.xor_eq_zero_iff]
        exact fun h' => heq (by cases c; cases r; simp_all)
      rw [if_neg (by simp [hx])] at h ⊢
      split_ifs at h ⊢ with hc
      · simp at h
      · simp [heq]
  · rw [if_neg hv]
    simp_all

/-! ## The generalisation is exact -/

theorem depCrc_of_err_false {a : Accesses} (ha : a.err = false) (fd : Bool) (crc : Crc)
    (e : Bool) : depCrc fd crc a e = clearErr (if fd then crc else generalise crc a) := by
  simp [depCrc, ha]

/-- **The cache's crc generalisation is exact.**  For a recorded crc `c` and a repo crc `r` that
are clean, any access set `a ⊆ {Lnk,Reg,Stat}` under which `c` can match, and any error status,
`crc_ok` on the uploaded and the downloaded crcs never reaches its `FAIL`, and accepts exactly
when `a` cannot tell `c` from `r` (both with bit 4 cleared, short of a near checksum clash) and
the two `CrcErr` bits agree. -/
theorem crcOk_depCrc_iff {c r : Crc} {a : Accesses} (errUp errDown : Bool) (hc : Clean c)
    (hr : Clean r) (hrv : r.valid) (ha : a.err = false) (hnm : c.neverMatch a = false)
    (hclash : ((clearErr c).diffAccesses (clearErr r)).isSome) :
    (crcOk (depCrc false c a errUp) (depCrc true r a errDown)).isSome ∧
      (crcOk (depCrc false c a errUp) (depCrc true r a errDown) = some true ↔
        (clearErr c).isMatch (clearErr r) a = some true ∧
          (depCrc false c a errUp).val &&& CrcErr = (depCrc true r a errDown).val &&& CrcErr) := by
  refine ⟨crcOk_isSome _ _, ?_⟩
  rw [depCrc_of_err_false ha, depCrc_of_err_false ha, if_pos rfl, isMatch_eq a hclash,
    errBit_clearErr, errBit_clearErr]
  simp only [Bool.false_eq_true, if_false, and_true, Option.some.injEq]
  obtain ⟨hE1, hE2, hE3⟩ := clearErr_beq_kind hc hr
  have hrv' : r.kind.valid = true := by rwa [Crc.valid_eq_kind (val_ne_five hr).1] at hrv
  have hrF : (clearFlags r).valid = true := by rw [valid_clearFlags hr, hrv']
  have hcN : (c != Crc.none) = !(c.kind == .none) := by
    rw [bne, Bool.not_inj_iff, Bool.eq_iff_iff, beq_iff_eq, beq_iff_eq, Crc.eq_none_iff_kind]
  obtain ⟨l, rg, st, e⟩ := a
  simp only at ha
  subst ha
  rw [Crc.neverMatch_eq_kind (val_ne_five hc).1] at hnm
  -- both sides in terms of the kinds of `c` and `r` and of whether they are equal
  simp only [Crc.qualify, valid_clearErr hc, valid_clearErr hr, isLnk_clearErr hc,
    isLnk_clearErr hr, isReg_clearErr hc, isReg_clearErr hr, beq_none_clearErr hc,
    beq_none_clearErr hr]
  cases l <;> cases rg <;> cases st <;>
    simp only [generalise, Crc.isLnk_eq_kind (val_ne_five hc).1,
      Crc.isReg_eq_kind (val_ne_five hc).1, hcN]
  -- the upload stores either the recorded crc or a special code
  all_goals try simp only [apply_ite clearErr, apply_ite (fun g => crcOk g (clearErr r)),
      crcOk_clearErr_self hc hr hrv']
  all_goals try simp (disch := decide) only [crcOk_clearErr_of_flags hrF, bne,
      beq_none_clearErr hr, isLnk_clearErr hr, isReg_clearErr hr]
  -- what is left is a table over the kinds, checked entry by entry
  all_goals
    revert hnm hrv' hE1 hE2 hE3
    generalize (clearErr c == clearErr r) = E
    generalize c.kind = ck
    generalize r.kind = rk
    cases ck <;> cases rk <;> cases E <;> decide

/-- A dep read with `open` whose regular content `64` is found again: the upload accepts it. -/
theorem crcOk_depCrc_iff_same :
    Clean ⟨64⟩ ∧ Crc.valid ⟨64⟩ ∧ Crc.neverMatch ⟨64⟩ ⟨false, true, false, false⟩ = false ∧
      ((clearErr ⟨64⟩).diffAccesses (clearErr ⟨64⟩)).isSome ∧
      (crcOk (depCrc false ⟨64⟩ ⟨false, true, false, false⟩ false)
          (depCrc true ⟨64⟩ ⟨false, true, false, false⟩ false)).isSome ∧
      (crcOk (depCrc false ⟨64⟩ ⟨false, true, false, false⟩ false)
          (depCrc true ⟨64⟩ ⟨false, true, false, false⟩ false) = some true ↔
        (clearErr ⟨64⟩).isMatch (clearErr ⟨64⟩) ⟨false, true, false, false⟩ = some true ∧
          (depCrc false ⟨64⟩ ⟨false, true, false, false⟩ false).val &&& CrcErr =
            (depCrc true ⟨64⟩ ⟨false, true, false, false⟩ false).val &&& CrcErr) :=
  ⟨by decide, by decide, by decide, by decide,
    crcOk_depCrc_iff false false (by decide) (by decide) (by decide) rfl (by decide) (by decide)⟩

/-- `crc_ok` is not `match` itself: two regular contents that differ in bit 4 only are stored
alike, so the upload of a dep read with `open` with content `64` accepts the content `80`, which
`open` does tell apart. -/
theorem crcOk_not_exact :
    ¬ (crcOk (depCrc false ⟨64⟩ ⟨false, true, false, false⟩ false)
          (depCrc true ⟨80⟩ ⟨false, true, false, false⟩ false) = some true ↔
        Crc.isMatch ⟨64⟩ ⟨80⟩ ⟨false, true, false, false⟩ = some true ∧
          (depCrc false ⟨64⟩ ⟨false, true, false, false⟩ false).val &&& CrcErr =
            (depCrc true ⟨80⟩ ⟨false, true, false, false⟩ false).val &&& CrcErr) := by
  decide

end Cache
