import Lmake.Lib.LowBits

/-!
# Checksums of files, and which accesses can tell two of them apart

A `Crc` is a 64-bit word.  The values `0` to `4` are special codes — a completely unknown file, a
link or a regular file of unknown content, no file, the empty regular file — and every value from
`N<CrcSpecial> = 6` on is the checksum of an actual content (`plain`), whose bit 0 says whether that
content is a symbolic link.  `Access` lists the four ways a job can look at a file: with
`readlink` (`Lnk`), with `open` (`Reg`), for existence only (`Stat`), or for its error status
(`Err`); an access set is a `BitMap` over them.

The one service that matters here is `Crc.diffAccesses c r`: the accesses that *could perceive*
the difference between a file recorded with `c` and one recorded with `r`.  Two identical valid
checksums can be told apart by nothing; otherwise the answer depends on whether each side is a
regular file, a link or nothing.  `Crc.isMatch c r a` (`Crc::match`) asks whether the accesses `a` are blind to
that difference.  Two valid checksums that differ only in their top 8 bits make the code stop
("near checksum clash"), which `diffAccesses` models by returning `none`.

`Crc.kind` classifies a crc into the seven kinds the program distinguishes, and the `kind` lemmas
say that `valid`, `plain`, `isLnk`, `isReg` and the comparisons with the special codes only depend
on it, for every value other than `5` (the code `Plain`, which no file is ever recorded with).
-/

set_option autoImplicit false

namespace Hash

/-! ## Accesses -/

/-- The ways a job may look at a file. -/
inductive Access where
  | Lnk
  | Reg
  | Stat
  | Err
  deriving DecidableEq, Repr

/-- A set of accesses, `BitMap<Access>`: one bit per `Access`. -/
structure Accesses where
  lnk : Bool
  reg : Bool
  stat : Bool
  err : Bool
  deriving DecidableEq, Repr

namespace Accesses

/-- The empty access set, `Accesses()`. -/
def empty : Accesses := ⟨false, false, false, false⟩

/-- `FullAccesses`: the accesses that read a file, i.e. all but `Err`. -/
def full : Accesses := ⟨true, true, true, false⟩

/-- The access set made of one access. -/
def single : Access → Accesses
  | .Lnk => ⟨true, false, false, false⟩
  | .Reg => ⟨false, true, false, false⟩
  | .Stat => ⟨false, false, true, false⟩
  | .Err => ⟨false, false, false, true⟩

/-- `a[x]`: whether `x` is in `a`. -/
def get (a : Accesses) : Access → Bool
  | .Lnk => a.lnk
  | .Reg => a.reg
  | .Stat => a.stat
  | .Err => a.err

instance : AndOp Accesses := ⟨fun a b => ⟨a.lnk && b.lnk, a.reg && b.reg, a.stat && b.stat, a.err && b.err⟩⟩
instance : OrOp Accesses := ⟨fun a b => ⟨a.lnk || b.lnk, a.reg || b.reg, a.stat || b.stat, a.err || b.err⟩⟩
/-- `~a` complements within the four bits of the map. -/
instance : Complement Accesses := ⟨fun a => ⟨!a.lnk, !a.reg, !a.stat, !a.err⟩⟩

/-- `+a`: the set is not empty. -/
def nonEmpty (a : Accesses) : Bool := a.lnk || a.reg || a.stat || a.err

@[simp] theorem and_lnk (a b : Accesses) : (a &&& b).lnk = (a.lnk && b.lnk) := rfl
@[simp] theorem and_reg (a b : Accesses) : (a &&& b).reg = (a.reg && b.reg) := rfl
@[simp] theorem and_stat (a b : Accesses) : (a &&& b).stat = (a.stat && b.stat) := rfl
@[simp] theorem and_err (a b : Accesses) : (a &&& b).err = (a.err && b.err) := rfl
@[simp] theorem compl_lnk (a : Accesses) : (~~~a).lnk = !a.lnk := rfl
@[simp] theorem compl_reg (a : Accesses) : (~~~a).reg = !a.reg := rfl
@[simp] theorem compl_stat (a : Accesses) : (~~~a).stat = !a.stat := rfl
@[simp] theorem compl_err (a : Accesses) : (~~~a).err = !a.err := rfl

end Accesses

/-! ## Checksums -/

/-- `CrcSpecial`: the special codes, and `Plain` for everything from `5` on. -/
inductive CrcSpecial where
  | Unknown
  | Lnk
  | Reg
  | None
  | Empty
  | Plain
  deriving DecidableEq, Repr

/-- `Hash::Crc`, the 64-bit checksum of a file. -/
structure Crc where
  val : UInt64
  deriving DecidableEq, Repr

namespace Crc

/-- The file is completely unknown. -/
def unknown : Crc := ⟨0⟩
/-- The file is a link pointing to an unknown location. -/
def lnk : Crc := ⟨1⟩
/-- The file is regular with unknown content. -/
def reg : Crc := ⟨2⟩
/-- The file does not exist or is a dir. -/
def none : Crc := ⟨3⟩
/-- The file is the regular empty file. -/
def empty : Crc := ⟨4⟩

/-- `_val>=+CrcSpecial::Valid`: the crc stands for a file content (`Valid = None`). -/
def valid (c : Crc) : Bool := 3 ≤ c.val

/-- `_plain()`: `_val>=N<CrcSpecial>`, a checksum rather than a special code. -/
def plain (c : Crc) : Bool := 6 ≤ c.val

def isLnk (c : Crc) : Bool := if c.plain then c.val &&& 1 != 0 else c == lnk

def isReg (c : Crc) : Bool := if c.plain then c.val &&& 1 == 0 else c == reg || c == empty

/-- `operator CrcSpecial()`. -/
def special (c : Crc) : CrcSpecial :=
  if 5 ≤ c.val then .Plain
  else if c.val = 0 then .Unknown
  else if c.val = 1 then .Lnk
  else if c.val = 2 then .Reg
  else if c.val = 3 then .None
  else .Empty

/-- `ChkMsk = Msk>>NChkBits`: the bits a checksum must differ in to be safely told apart. -/
def ChkMsk : UInt64 := (0xFFFFFFFFFFFFFFFF : UInt64) >>> 8

/-- The tail of `diff_accesses`: which accesses perceive the difference, from what kind of file
each side is. -/
def qualify (c r : Crc) : Accesses :=
  if c.isReg then
    if r.isReg then .single .Reg
    else if r.isLnk then ~~~(.single .Stat)
    else if r == none then ~~~(.single .Lnk)
    else .full
  else if c.isLnk then
    if r.isReg then ~~~(.single .Stat)
    else if r.isLnk then .single .Lnk
    else if r == none then ~~~(.single .Reg)
    else .full
  else if c == none then
    if r.isReg then ~~~(.single .Lnk)
    else if r.isLnk then ~~~(.single .Reg)
    else .full
  else .full

/-- `Crc::diff_accesses`; `none` is the `fail_prod` on a near checksum clash. -/
def diffAccesses (c r : Crc) : Option Accesses :=
  if c.valid && r.valid then
    let diff := c.val ^^^ r.val
    if diff == 0 then some .empty
    else if diff &&& ChkMsk == 0 && (c.plain || r.plain) then Option.none
    else some (qualify c r)
  else some (qualify c r)

/-- `Crc::match`: the accesses `a` cannot see the difference between `c` and `r`. -/
def isMatch (c r : Crc) (a : Accesses) : Option Bool :=
  (c.diffAccesses r).map fun d => !(d &&& a).nonEmpty

/-- `Crc::never_match`: no file recorded with `c` can match under the accesses `a`. -/
def neverMatch (c : Crc) (a : Accesses) : Bool :=
  match c.special with
  | .Unknown => a.nonEmpty
  | .Lnk => a.lnk
  | .Reg => a.reg
  | _ => false

end Crc

/-! ## The kind of a crc -/

/-- The seven kinds of crc the program distinguishes. -/
inductive CrcKind where
  | unknown
  | lnk
  | reg
  | none
  | empty
  | plainLnk
  | plainReg
  deriving DecidableEq, Repr

namespace CrcKind

def valid : CrcKind → Bool
  | unknown | lnk | reg => false
  | _ => true

def plain : CrcKind → Bool
  | plainLnk | plainReg => true
  | _ => false

def isLnk : CrcKind → Bool
  | lnk | plainLnk => true
  | _ => false

def isReg : CrcKind → Bool
  | reg | empty | plainReg => true
  | _ => false

end CrcKind

namespace Crc

/-- The kind of a crc: a checksum of a link or of a regular file, or one of the special codes. -/
def kind (c : Crc) : CrcKind :=
  if c.plain then (if c.val &&& 1 != 0 then .plainLnk else .plainReg)
  else match c.special with
    | .Unknown => .unknown
    | .Lnk => .lnk
    | .Reg => .reg
    | .None => .none
    | _ => .empty

theorem ext_iff' {c d : Crc} : c = d ↔ c.val.toNat = d.val.toNat := by
  cases c; cases d
  simp [UInt64.toNat_inj]

theorem valid_eq (c : Crc) : c.valid = decide (3 ≤ c.val.toNat) := by
  simp [valid, UInt64.le_iff_toNat_le]

theorem plain_eq (c : Crc) : c.plain = decide (6 ≤ c.val.toNat) := by
  simp [plain, UInt64.le_iff_toNat_le]

theorem bit0_eq (c : Crc) : (c.val &&& 1 != 0) = decide (c.val.toNat % 2 = 1) := by
  have h : (c.val &&& 1).toNat = c.val.toNat % 2 := by
    rw [LowBits.toNat_and _ _ (by decide)]; simp
  rw [Bool.eq_iff_iff, bne_iff_ne, ne_eq, ← UInt64.toNat_inj, h]
  simp

/-- A crc below the code `Plain` is one of the five special codes. -/
theorem eq_special_of_lt {c : Crc} (h : c.val.toNat < 5) :
    c = unknown ∨ c = lnk ∨ c = reg ∨ c = none ∨ c = empty := by
  simp only [ext_iff']
  have h0 : unknown.val.toNat = 0 := rfl
  have h1 : lnk.val.toNat = 1 := rfl
  have h2 : reg.val.toNat = 2 := rfl
  have h3 : none.val.toNat = 3 := rfl
  have h4 : empty.val.toNat = 4 := rfl
  omega

/-- A checksum is of kind `plainLnk` or `plainReg` according to its bit 0. -/
theorem kind_of_plain {c : Crc} (h : 6 ≤ c.val.toNat) :
    c.kind = if c.val.toNat % 2 = 1 then .plainLnk else .plainReg := by
  have hp : c.plain = true := by simpa [plain_eq] using h
  simp only [kind, hp, bit0_eq, if_true, decide_eq_true_eq]

/-- The kind of a crc read off its value. -/
def kindNat (n : Nat) : CrcKind :=
  if 6 ≤ n then (if n % 2 = 1 then .plainLnk else .plainReg)
  else if n = 0 then .unknown
  else if n = 1 then .lnk
  else if n = 2 then .reg
  else if n = 3 then .none
  else .empty

theorem kind_eq_kindNat (c : Crc) : c.kind = kindNat c.val.toNat := by
  by_cases hp : 6 ≤ c.val.toNat
  · rw [kind_of_plain hp, kindNat, if_pos hp]
  · have hp' : c.plain = false := by simpa [plain_eq] using hp
    have h5 : 5 ≤ c.val ↔ 5 ≤ c.val.toNat := UInt64.le_iff_toNat_le
    simp only [kind, hp', special, kindNat, if_neg hp, h5, ← UInt64.toNat_inj]
    by_cases h : 5 ≤ c.val.toNat
    · have hn : c.val.toNat = 5 := by omega
      simp [hn]
    · simp only [h, if_false]
      have h0 : (0 : UInt64).toNat = 0 := rfl
      have h1 : (1 : UInt64).toNat = 1 := rfl
      have h2 : (2 : UInt64).toNat = 2 := rfl
      have h3 : (3 : UInt64).toNat = 3 := rfl
      simp only [h0, h1, h2, h3]
      split_ifs <;> simp_all

/-- Above the special codes, only bit 0 matters to the kind. -/
theorem kindNat_high {h l l' : Nat} (hh : 0 < h) (hp : l % 2 = l' % 2) :
    kindNat (h * 32 + l) = kindNat (h * 32 + l') := by
  have e1 : (h * 32 + l) % 2 = l % 2 := by omega
  have e2 : (h * 32 + l') % 2 = l' % 2 := by omega
  have h6 : 6 ≤ h * 32 + l := by omega
  have h6' : 6 ≤ h * 32 + l' := by omega
  simp only [kindNat, if_pos h6, if_pos h6', e1, e2, hp]

theorem eq_none_iff_kind (c : Crc) : c = none ↔ c.kind = .none := by
  rw [ext_iff', kind_eq_kindNat, show none.val.toNat = 3 from rfl, kindNat]
  split_ifs <;> simp_all <;> omega

/-- A crc of one of the kinds `unknown`, `lnk` and `reg` is that special code. -/
theorem eq_of_kind_not_valid {c : Crc} (h : c.kind.valid = false) :
    (c.kind = .unknown ∧ c = unknown) ∨ (c.kind = .lnk ∧ c = lnk) ∨ (c.kind = .reg ∧ c = reg) := by
  rw [kind_eq_kindNat] at h ⊢
  simp only [ext_iff', show unknown.val.toNat = 0 from rfl, show lnk.val.toNat = 1 from rfl,
    show reg.val.toNat = 2 from rfl]
  unfold kindNat at h ⊢
  split_ifs at h ⊢ <;> simp_all [CrcKind.valid]

section
variable {c : Crc} (h5 : c.val.toNat ≠ 5)
include h5

theorem valid_eq_kind : c.valid = c.kind.valid := by
  by_cases hp : 6 ≤ c.val.toNat
  · rw [kind_of_plain hp, valid_eq]; split <;> simp [CrcKind.valid] <;> omega
  · rcases eq_special_of_lt (show c.val.toNat < 5 by omega) with rfl | rfl | rfl | rfl | rfl <;> rfl

theorem isLnk_eq_kind : c.isLnk = c.kind.isLnk := by
  by_cases hp : 6 ≤ c.val.toNat
  · have hp' : c.plain = true := by simpa [plain_eq] using hp
    simp only [kind_of_plain hp, isLnk, hp', if_true, bit0_eq]
    split <;> simp_all [CrcKind.isLnk]
  · rcases eq_special_of_lt (show c.val.toNat < 5 by omega) with rfl | rfl | rfl | rfl | rfl <;> rfl

theorem neverMatch_eq_kind (a : Accesses) :
    c.neverMatch a = match c.kind with
      | .unknown => a.nonEmpty
      | .lnk => a.lnk
      | .reg => a.reg
      | _ => false := by
  by_cases hp : 6 ≤ c.val.toNat
  · have hs : c.special = .Plain := by
      simp only [special, UInt64.le_iff_toNat_le]
      rw [if_pos (by simp; omega)]
    rw [neverMatch, hs, kind_of_plain hp]
    split_ifs <;> rfl
  · rcases eq_special_of_lt (show c.val.toNat < 5 by omega) with rfl | rfl | rfl | rfl | rfl <;> rfl

theorem eq_empty_of_kind (h : c.kind = .empty) : c = empty := by
  rw [kind_eq_kindNat] at h
  rw [ext_iff', show empty.val.toNat = 4 from rfl]
  unfold kindNat at h
  split_ifs at h
  omega

theorem isReg_eq_kind : c.isReg = c.kind.isReg := by
  by_cases hp : 6 ≤ c.val.toNat
  · have hp' : c.plain = true := by simpa [plain_eq] using hp
    have hb : (c.val &&& 1 == 0) = !(c.val &&& 1 != 0) := by rw [bne, Bool.not_not]
    simp only [kind_of_plain hp, isReg, hp', if_true, hb, bit0_eq]
    split <;> simp_all [CrcKind.isReg]
  · rcases eq_special_of_lt (show c.val.toNat < 5 by omega) with rfl | rfl | rfl | rfl | rfl <;> rfl

end

end Crc

end Hash
