import Mathlib.Data.Finset.Basic
import Mathlib.Data.List.Perm.Basic
import Lmake.BasicUtils
import Lmake.Hash.Crc

/-!
# Accumulating the accesses of a job to one file

While a job runs, its accesses are reported to the gatherer through several channels, a fast pipe
and a slow socket, whose relative order is lost.  Each report is dated, and
`AccessInfo.update` folds it into the `AccessInfo` of the file: the flags are or-ed, and every
date field keeps the earliest date at which its event happened.  `update` fails where
`DepInfo::seen` does, on a checksum that nearly clashes with `Crc::None`, and it only asks
`seen` of a report dated before the file was seen.  Apart from that, such a fold does not depend
on the order the reports arrive in (`foldUpdate_perm_observe`): any two arrival orders of the same
reports that both pass give `AccessInfo`s that agree on every field but `depInfo`, hence on
`accesses`, `firstRead`, `firstWrite`, `allow`, `seen` and `readDir`.

`depInfo` is meant to be "the state when first read": a report sets it when it is dated before
every read seen so far.  The test forgets to ask whether the report is a read at all, so a write
reported late, but dated before the first read, replaces the state of that read
(`update_depInfo_order`).
-/

set_option autoImplicit false

namespace Gather

open Lmake Hash

/-! ## Flags -/

/-- Flags for deps, recorded in server book-keeping. -/
inductive Dflag where
  | Critical
  | Essential
  | IgnoreError
  | Required
  | Static
  | Codec
  | Full
  deriving DecidableEq, Repr

/-- Flags for deps, not recorded in server book-keeping. -/
inductive ExtraDflag where
  | Top
  | Ignore
  | ReaddirOk
  | CreateEncode
  | NoHot
  | NoStar
  deriving DecidableEq, Repr

/-- Flags for targets, recorded in server book-keeping. -/
inductive Tflag where
  | Essential
  | Incremental
  | NoWarning
  | Phony
  | Static
  | Target
  deriving DecidableEq, Repr

/-- Flags for targets, not recorded in server book-keeping. -/
inductive ExtraTflag where
  | Top
  | Ignore
  | Optional
  | SourceOk
  | Allow
  | Late
  deriving DecidableEq, Repr

/-- `MatchFlags`: four `BitMap`s, modelled as finite sets. -/
structure MatchFlags where
  tflags : Finset Tflag
  dflags : Finset Dflag
  extraTflags : Finset ExtraTflag
  extraDflags : Finset ExtraDflag
  deriving DecidableEq

namespace MatchFlags

/-- No flag at all. -/
def empty : MatchFlags := ⟨∅, ∅, ∅, ∅⟩

instance : OrOp MatchFlags :=
  ⟨fun a b => ⟨a.tflags ∪ b.tflags, a.dflags ∪ b.dflags, a.extraTflags ∪ b.extraTflags,
    a.extraDflags ∪ b.extraDflags⟩⟩

theorem or_def (a b : MatchFlags) : a ||| b = ⟨a.tflags ∪ b.tflags, a.dflags ∪ b.dflags,
    a.extraTflags ∪ b.extraTflags, a.extraDflags ∪ b.extraDflags⟩ := rfl

theorem or_right_comm (a b c : MatchFlags) : a ||| b ||| c = a ||| c ||| b := by
  simp only [or_def, Finset.union_right_comm]

/-- `dep_and_target_ok`: reads of a target are still deps. -/
def depAndTargetOk (f : MatchFlags) : Bool :=
  decide (ExtraTflag.SourceOk ∈ f.extraTflags) && !decide (Tflag.Incremental ∈ f.tflags)

end MatchFlags

/-! ## Dates and dep infos -/

/-- `Pdate::Never`, the highest date, used as infinity.  Dates are counted in ticks. -/
def Never : Nat := 2 ^ 64 - 1

/-- `Pdate::Future`, the last date before `Never`. -/
def Future : Nat := 2 ^ 64 - 2

/-- The kind of a file on disk. -/
inductive FileTag where
  | None
  | Dir
  | Lnk
  | Reg
  | Empty
  | Exe
  deriving DecidableEq, Repr

/-- `FileTag::exists`: the tag of a file that can be a target, `>=FileTag::Target`. -/
def FileTag.exists : FileTag → Bool
  | .None | .Dir => false
  | _ => true

/-- `Crc(FileTag)`: the crc that a file of a given kind is known to have. -/
def Crc.ofTag : FileTag → Crc
  | .None | .Dir => Crc.none
  | .Lnk => Crc.lnk
  | .Reg | .Exe => Crc.reg
  | .Empty => Crc.empty

/-- `Disk::FileSig`: a tag and what else identifies the file (in the source, one word). -/
structure FileSig where
  tag : FileTag
  val : Nat
  deriving DecidableEq, Repr

/-- `Disk::FileInfo`: size and date of a file, the date carrying the tag.  `date` is
`Ddate::_date()`, the date without its tag bits. -/
structure FileInfo where
  sz : Nat
  date : Nat
  tag : FileTag
  deriving DecidableEq, Repr

/-- `Ddate::avail_at`: the date, plus the precision, is before `pd`, and the sum does not wrap. -/
def FileInfo.availAt (fi : FileInfo) (pd prec : Nat) : Bool :=
  let d2 := (fi.date + prec) % 2 ^ 64
  decide (fi.date ≤ d2) && decide (d2 < pd)

/-- `DepInfo`: what is known of a dep, a crc, a signature or a full info. -/
inductive DepInfo where
  | crc (c : Crc)
  | sig (s : FileSig)
  | info (fi : FileInfo)
  deriving DecidableEq, Repr

namespace DepInfo

/-- The default `DepInfo`, `Crc()`. -/
def default : DepInfo := .crc Crc.unknown

/-- `+di`: anything but the unknown crc. -/
def nonEmpty : DepInfo → Bool
  | .crc c => c.val != 0
  | _ => true

/-- `DepInfo::exists()`: `Maybe` for an unknown crc. -/
def «exists» : DepInfo → Bool3
  | .crc c => if c.val != 0 then (if c != Crc.none then .Yes else .No) else .Maybe
  | .sig s => if s.tag.exists then .Yes else .No
  | .info fi => if fi.tag.exists then .Yes else .No

/-- `Crc::None.match(crc,a)`: whether the accesses `a` see no difference between the crc and no
file.  `Crc::None` is a valid crc, so a checksum that differs from it only in its low bits is a
near clash, on which `diff_accesses` fails. -/
def noneMatch (c : Crc) (a : Accesses) : Except String Bool :=
  match Crc.none.isMatch c a with
  | some b => pure b
  | none => throw "near checksum clash, must increase CRC size"

/-- `DepInfo::seen`: whether accesses could perceive the existence of the file. -/
def seen (di : DepInfo) (a : Accesses) : Except String Bool :=
  if !a.nonEmpty then pure false
  else match di with
    | .crc c => return !(← noneMatch c a)
    | .sig s => return !(← noneMatch (Crc.ofTag s.tag) a)
    | .info fi => return !(← noneMatch (Crc.ofTag fi.tag) a)

end DepInfo

/-! ## Reports and the accumulated info -/

/-- `AccessDigest`, with `write` resolved to `Yes` or `No` as the caller of `update` ensures. -/
structure AccessDigest where
  write : Bool
  readDir : Bool
  forceIsDep : Bool
  accesses : Accesses
  flags : MatchFlags

/-- A dated report: the arguments of `AccessInfo::update`.  `DepInfo::seen` asserts that a report
with accesses comes with a `DepInfo`; a report carries that as a field. -/
structure Report where
  pd : Nat
  ad : AccessDigest
  di : DepInfo
  seen_ok : ad.accesses.nonEmpty = true → di.nonEmpty = true

/-- Whether the report sees the file, as far as `di.seen` answers. -/
def Report.sees (r : Report) : Bool := (r.di.seen r.ad.accesses).toOption.getD false

/-- All accesses, `iota(All<Access>)`. -/
def Access.all : List Access := [.Lnk, .Reg, .Stat, .Err]

/-- `Gather::AccessInfo`.  `read` is indexed by the access, as the source's array. -/
structure AccessInfo where
  flags : MatchFlags
  forceIsDep : Bool
  depInfo : DepInfo
  read : Access → Nat
  readDir : Nat
  write : Nat
  allow : Nat
  required : Nat
  seen : Nat
  readIgnore : Nat
  writeIgnore : Nat
  noHot : Nat

namespace AccessInfo

/-- The default `AccessInfo`: no flag, nothing happened, nothing ignored before `Future`. -/
def init : AccessInfo where
  flags := MatchFlags.empty
  forceIsDep := false
  depInfo := DepInfo.default
  read := fun _ => Never
  readDir := Never
  write := Never
  allow := Never
  required := Never
  seen := Never
  readIgnore := Future
  writeIgnore := Future
  noHot := Never

/-- `if ( pd<d && cond ) d = pd`: the date `d` of an event, updated by a report at `pd`. -/
def firstAt (d pd : Nat) (cond : Bool) : Nat := if decide (pd < d) && cond then pd else d

/-- The flags a report brings: ignoring a target implies ignoring the dep. -/
def reportFlags (ad : AccessDigest) : MatchFlags :=
  if ExtraTflag.Ignore ∈ ad.flags.extraTflags then
    { ad.flags with extraDflags := insert ExtraDflag.Ignore ad.flags.extraDflags }
  else ad.flags

/-- What a report does to the info, given whether it sees the file. -/
def step (ai : AccessInfo) (r : Report) (isSeen : Bool) : AccessInfo :=
  let f := reportFlags r.ad
  -- ignore applies to simultaneous accesses
  let pd' := if r.pd ≠ 0 then r.pd - 1 else r.pd
  { flags := ai.flags ||| f
    forceIsDep := ai.forceIsDep || r.ad.forceIsDep
    depInfo :=
      if r.di.nonEmpty && Access.all.all (fun a => decide (r.pd < ai.read a)) then r.di
      else ai.depInfo
    read := fun a => firstAt (ai.read a) r.pd (r.ad.accesses.get a)
    readDir := firstAt ai.readDir r.pd r.ad.readDir
    write := firstAt ai.write r.pd r.ad.write
    allow := firstAt ai.allow r.pd (decide (ExtraTflag.Allow ∈ f.extraTflags))
    required := firstAt ai.required r.pd (decide (Dflag.Required ∈ f.dflags))
    seen := firstAt ai.seen r.pd isSeen
    noHot := firstAt ai.noHot r.pd (decide (ExtraDflag.NoHot ∈ f.extraDflags))
    readIgnore := firstAt ai.readIgnore pd' (decide (ExtraDflag.Ignore ∈ f.extraDflags))
    writeIgnore := firstAt ai.writeIgnore pd' (decide (ExtraTflag.Ignore ∈ f.extraTflags)) }

/-- `AccessInfo::update`.  `di.seen` is only asked of a report dated before the file was seen. -/
def update (ai : AccessInfo) (r : Report) : Except String AccessInfo := do
  let isSeen ← if r.pd < ai.seen then r.di.seen r.ad.accesses else pure false
  pure (ai.step r isSeen)

/-- `_max_read`: the max date for a read to be taken into account. -/
def maxRead (ai : AccessInfo) (phys : Bool) : Nat :=
  let res := min ai.readIgnore ai.write
  -- logically, once the file is a target, reads are ignored, unless it is also a dep
  if !phys && !ai.flags.depAndTargetOk then min res ai.allow else res

/-- `_max_write`: the max date for a write to be taken into account. -/
def maxWrite (ai : AccessInfo) : Nat := ai.writeIgnore

/-- `accesses()`: the accesses done before reads are ignored. -/
def accesses (ai : AccessInfo) : Accesses :=
  let ma := ai.maxRead false
  ⟨decide (ai.read .Lnk ≤ ma), decide (ai.read .Reg ≤ ma), decide (ai.read .Stat ≤ ma),
    decide (ai.read .Err ≤ ma)⟩

/-- `allow()`: the file has been declared a target. -/
def isAllowed (ai : AccessInfo) : Bool :=
  decide (ai.allow < ai.maxWrite) &&
    (decide (Tflag.Static ∈ ai.flags.tflags) || decide (ai.write < ai.writeIgnore) ||
      decide ((Access.all.map ai.read).foldr min Never < ai.readIgnore))

/-- `first_read()`: the earliest read, or `Never` if reads are ignored by then. -/
def firstRead (ai : AccessInfo) (withReaddir : Bool) : Nat :=
  let res := Access.all.foldl (fun res a => if ai.read a < res then ai.read a else res) Never
  let res := if ai.readDir < res && withReaddir then ai.readDir else res
  let res := if ai.required < res then ai.required else res
  if res ≤ ai.maxRead false then res else Never

/-- `first_write()`. -/
def firstWrite (ai : AccessInfo) : Nat := if ai.write ≤ ai.maxWrite then ai.write else Never

/-- `seen()`: the file has been observed existing. -/
def isSeen (ai : AccessInfo) : Bool := decide (ai.seen < ai.maxRead true)

/-- `read_dir()`: the file has been read as a dir. -/
def isReadDir (ai : AccessInfo) : Bool :=
  decide (ai.readDir < Never) && decide (ai.readDir < ai.maxRead true)

/-- `is_hot(prec)`: the dep's date is too close to its first read to be trusted. -/
def isHot (ai : AccessInfo) (prec : Nat) : Bool :=
  match ai.depInfo with
  | .info fi =>
    let fr := ai.firstRead true
    if fr ≥ ai.noHot then false else !fi.availAt fr prec
  | _ => false

/-! ## The order of the reports does not matter, but for `depInfo`

A report that passes does what `step` does with the answer of `di.seen`, and when `di.seen` is
not asked the answer does not matter: the file was seen before the report anyway.  So a fold that
passes is the fold of `step`, whose steps commute but for `depInfo`. -/

/-- A report that passes does what `step` does with its answer. -/
theorem update_ok {ai ai' : AccessInfo} {r : Report} (h : ai.update r = .ok ai') :
    ai' = ai.step r r.sees := by
  unfold update at h
  split at h
  · cases hs : r.di.seen r.ad.accesses with
    | error e =>
      rw [hs] at h
      cases h
    | ok b =>
      rw [hs] at h
      cases h
      simp [Report.sees, hs, Except.toOption]
  · -- not asked: the file was seen no later than the report
    rename_i hpd
    cases h
    simp only [step, firstAt, hpd, decide_false, Bool.false_and, Bool.and_false]

theorem foldlM_update_ok {l : List Report} {ai ai' : AccessInfo} (h : l.foldlM update ai = .ok ai') :
    ai' = l.foldl (fun ai r => ai.step r r.sees) ai := by
  induction l generalizing ai with
  | nil => exact (Except.ok.inj h).symm
  | cons r l ih =>
    rw [List.foldlM_cons] at h
    obtain ⟨ai₁, h₁, h⟩ := bind_eq_ok h
    rw [List.foldl_cons, ← update_ok h₁]
    exact ih h

/-- The info with its `depInfo` forgotten. -/
def forget (ai : AccessInfo) : AccessInfo := { ai with depInfo := DepInfo.default }

/-- No field but `depInfo` reads `depInfo`. -/
theorem forget_step (ai : AccessInfo) (r : Report) (b : Bool) :
    (ai.step r b).forget = (ai.forget.step r b).forget := rfl

/-- `firstAt` keeps the earliest of the dates offered to it. -/
theorem firstAt_eq (d pd : Nat) (cond : Bool) : firstAt d pd cond = if cond then min d pd else d := by
  unfold firstAt
  cases cond with
  | false => simp
  | true =>
    simp only [Bool.and_true, decide_eq_true_eq, if_true]
    split_ifs <;> omega

theorem firstAt_right_comm (d p q : Nat) (b c : Bool) :
    firstAt (firstAt d p b) q c = firstAt (firstAt d q c) p b := by
  simp only [firstAt_eq]
  cases b <;> cases c <;> simp only [if_true, Bool.false_eq_true, if_false, min_right_comm]

/-- Two reports commute, up to `depInfo`. -/
theorem forget_step_right_comm (ai : AccessInfo) (r s : Report) (b c : Bool) :
    ((ai.step r b).step s c).forget = ((ai.step s c).step r b).forget := by
  simp only [forget, step, mk.injEq]
  refine ⟨MatchFlags.or_right_comm _ _ _, Bool.or_right_comm _ _ _, trivial,
    funext fun a => firstAt_right_comm _ _ _ _ _, ?_⟩
  exact ⟨firstAt_right_comm _ _ _ _ _, firstAt_right_comm _ _ _ _ _, firstAt_right_comm _ _ _ _ _,
    firstAt_right_comm _ _ _ _ _, firstAt_right_comm _ _ _ _ _, firstAt_right_comm _ _ _ _ _,
    firstAt_right_comm _ _ _ _ _, firstAt_right_comm _ _ _ _ _⟩

/-- One step of the fold, seen up to `depInfo`. -/
def stepForget (ai : AccessInfo) (r : Report) : AccessInfo := (ai.step r r.sees).forget

theorem forget_foldl (l : List Report) (ai : AccessInfo) :
    (l.foldl (fun ai r => ai.step r r.sees) ai).forget = l.foldl stepForget ai.forget := by
  induction l generalizing ai with
  | nil => rfl
  | cons r l ih =>
    rw [List.foldl_cons, List.foldl_cons, ih, forget_step]
    rfl

theorem stepForget_right_comm (ai : AccessInfo) (r s : Report) :
    stepForget (stepForget ai r) s = stepForget (stepForget ai s) r := by
  simp only [stepForget]
  rw [← forget_step, ← forget_step, forget_step_right_comm]

/-- Folding the same reports in two orders, when both pass, gives infos that agree on every field
but `depInfo`. -/
theorem foldUpdate_perm {l₁ l₂ : List Report} (h : l₁.Perm l₂) {ai ai₁ ai₂ : AccessInfo}
    (h₁ : l₁.foldlM update ai = .ok ai₁) (h₂ : l₂.foldlM update ai = .ok ai₂) :
    ai₁.forget = ai₂.forget := by
  rw [foldlM_update_ok h₁, foldlM_update_ok h₂, forget_foldl, forget_foldl]
  exact h.foldl_eq' (fun _ _ _ _ x => stepForget_right_comm x _ _) _

/-- **Arrival order does not matter, but for `depInfo`.**  When the same reports, folded by
`update` in two orders, both pass, what the gatherer reads of the two infos, `is_hot` apart, is
the same. -/
theorem foldUpdate_perm_observe {l₁ l₂ : List Report} (h : l₁.Perm l₂) {ai ai₁ ai₂ : AccessInfo}
    (h₁ : l₁.foldlM update ai = .ok ai₁) (h₂ : l₂.foldlM update ai = .ok ai₂) (withReaddir : Bool) :
    ai₁.flags = ai₂.flags ∧ ai₁.forceIsDep = ai₂.forceIsDep ∧ ai₁.accesses = ai₂.accesses ∧
      ai₁.firstRead withReaddir = ai₂.firstRead withReaddir ∧ ai₁.firstWrite = ai₂.firstWrite ∧
      ai₁.isAllowed = ai₂.isAllowed ∧ ai₁.isSeen = ai₂.isSeen ∧ ai₁.isReadDir = ai₂.isReadDir := by
  -- every observer but `is_hot` reads the info through `forget`
  have hobs := congrArg (fun x => (x.flags, x.forceIsDep, x.accesses, x.firstRead withReaddir,
    x.firstWrite, x.isAllowed, x.isSeen, x.isReadDir)) (foldUpdate_perm h h₁ h₂)
  simp only [Prod.mk.injEq] at hobs
  exact hobs

/-- A write of the file at date `1`, reported with the empty `FileInfo()`. -/
def writeAt1 : Report :=
  ⟨1, ⟨true, false, false, Accesses.empty, MatchFlags.empty⟩, .info ⟨0, 0, .None⟩, by decide⟩

/-- A read of the file at date `2`, as a regular file. -/
def readAt2 : Report :=
  ⟨2, ⟨false, false, false, ⟨false, true, false, false⟩, MatchFlags.empty⟩,
    .info ⟨12, 1000, .Reg⟩, by decide⟩

/-- The info after the write and the read, in date order. -/
def writeRead : AccessInfo := [writeAt1, readAt2].foldl (fun ai r => ai.step r r.sees) init

/-- The info after the read and the write, the write arriving last. -/
def readWrite : AccessInfo := [readAt2, writeAt1].foldl (fun ai r => ai.step r r.sees) init

theorem foldUpdate_perm_observe_write_read :
    [writeAt1, readAt2].foldlM update init = .ok writeRead ∧
      [readAt2, writeAt1].foldlM update init = .ok readWrite ∧
      (writeRead.flags = readWrite.flags ∧ writeRead.forceIsDep = readWrite.forceIsDep ∧
        writeRead.accesses = readWrite.accesses ∧
        writeRead.firstRead true = readWrite.firstRead true ∧
        writeRead.firstWrite = readWrite.firstWrite ∧ writeRead.isAllowed = readWrite.isAllowed ∧
        writeRead.isSeen = readWrite.isSeen ∧ writeRead.isReadDir = readWrite.isReadDir) :=
  have h₁ : [writeAt1, readAt2].foldlM update init = .ok writeRead := rfl
  have h₂ : [readAt2, writeAt1].foldlM update init = .ok readWrite := rfl
  ⟨h₁, h₂, foldUpdate_perm_observe (List.Perm.swap readAt2 writeAt1 []) h₁ h₂ true⟩

/-- `depInfo` depends on the arrival order.  The job writes the file at date `1`, and reads it at
date `2` as a regular file; a write is reported with the empty `FileInfo()`.  In date order,
`depInfo` is the state of the read; when the write arrives last, it replaces that state, being
dated before the read. -/
theorem update_depInfo_order :
    ([writeAt1, readAt2].foldlM update init).toOption.map depInfo = some (.info ⟨12, 1000, .Reg⟩) ∧
      ([readAt2, writeAt1].foldlM update init).toOption.map depInfo = some (.info ⟨0, 0, .None⟩) := by
  decide

end AccessInfo

end Gather
