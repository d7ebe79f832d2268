import Lmake.Lib.Serdes
import Lmake.Codec

/-!
# Job names

A job is named after its rule and its stems.  `RuleMatch::full_name` (rule.cc) runs
`subst_target` (global.cc) over the rule's `job_name`, a pattern in which a stem is `StemMrkr`
followed by its index, and gets the name with the stems put in; the stem callback records where
each static stem starts in the name.  The suffix `RuleData::job_sfx()` (rule.x.hh) then receives,
after its `JobMrkr`, the position and the length of each static stem as `FileNameIdx`s, and it
ends with the crc of the rule.  `RuleMatch(Job)` reads the stems back from the name and the
suffix: it validates the crc, then takes `name_.substr(pos,sz)` for each pair.

`subst_target` is modelled as the source writes it, one byte at a time with the fixed part it is
gathering (`substTargetLoop`).  Its meaning is a walk over the tokens of the pattern
(`tokens`, `substTokens`), and `substTargetLoop_eq` says that the loop is that walk.

A rule that `_acquire_py` builds names each of its static stems in its job name: the static stems
are those found outside a star in `job_name` (and the special rules have at most the one their
job name holds).  `Rule` carries that fact.

## Main results

* `substTargetLoop_eq`: `subst_target` substitutes the tokens of its pattern in order.
* `run_substTokens_fullNameStem`: after the walk of `full_name`, each static stem the pattern
  names is at the position its callback recorded.
* `ofJob_fullName`: `RuleMatch(Job)` reads back the stems of every match whose name fits in
  `PATH_MAX`, and `validate` accepts its suffix.
* `fullName_identifies_match`: so two matches of one rule with other stems have other names.
-/

set_option autoImplicit false

namespace Engine

open Serdes

/-- `Rule::StemMrkr`: a stem in a pattern is this byte, then the stem's index. -/
def StemMrkr : UInt8 := 0

/-- `RuleData::JobMrkr`, the first byte of the suffix of a job name. -/
def JobMrkr : UInt8 := 0

/-- `Rule::NoVar`, `VarIdx(-1)`. -/
def NoVar : UInt8 := 255

/-- `PATH_MAX`. -/
def PathMax : Nat := 4096

/-- `sizeof(FileNameIdx)`: `Uint<n_bits(PATH_MAX+1)>` is a `uint16_t`. -/
def FileNameIdxSz : Nat := 2

/-- `sizeof(Crc::Val)`. -/
def CrcValSz : Nat := 8

/-! ## subst_target -/

section SubstTarget

variable {m : Type → Type} [Monad m] (cbStem : UInt16 → UInt8 → m (List UInt8))
  (cbFixed : List UInt8 → m (List UInt8)) (stopAbove : UInt8)

/-- `if (+fixed) res += cb_fixed(fixed)`. -/
def flushFixed (res fixed : List UInt8) : m (List UInt8) :=
  if fixed = [] then pure res
  else do
    let x ← cbFixed fixed
    pure (res ++ x)

/-- The loop of `subst_target(str,cb_stem,cb_fixed,stop_above)`, from what it has built (`res`)
and the fixed part it is gathering (`fixed`).  The stem callback is given `res.size()` as a
`FileNameIdx`. -/
def substTargetLoop : List UInt8 → List UInt8 → List UInt8 → m (List UInt8)
  | res, fixed, [] => flushFixed cbFixed res fixed
  | res, fixed, [c] =>
    if c ≠ StemMrkr then substTargetLoop res (fixed ++ [c]) []
    else do
      let res ← flushFixed cbFixed res fixed
      -- a marker that ends the string reads its terminating NUL as the stem index
      if (0 : UInt8) ≥ stopAbove then pure res
      else do
        let x ← cbStem res.length.toUInt16 0
        substTargetLoop (res ++ x) [] []
  | res, fixed, c :: s :: rest =>
    if c ≠ StemMrkr then substTargetLoop res (fixed ++ [c]) (s :: rest)
    else do
      let res ← flushFixed cbFixed res fixed
      if s ≥ stopAbove then pure res
      else do
        let x ← cbStem res.length.toUInt16 s
        substTargetLoop (res ++ x) [] rest

/-- `subst_target(str,cb_stem,cb_fixed,stop_above)`. -/
def substTarget (str : List UInt8) : m (List UInt8) :=
  substTargetLoop cbStem cbFixed stopAbove [] [] str

/-! ## The tokens of a pattern -/

/-- A piece of a pattern, as `subst_target` hands it to its callbacks. -/
inductive Tok where
  | fixed (s : List UInt8)
  | stem (s : UInt8)
  deriving DecidableEq, Repr

/-- The token of a gathered fixed part, none when it is empty. -/
def flushTok (fixed : List UInt8) : List Tok := if fixed = [] then [] else [.fixed fixed]

/-- The tokens the loop of `subst_target` meets, from the fixed part it is gathering. -/
def tokensLoop : List UInt8 → List UInt8 → List Tok
  | fixed, [] => flushTok fixed
  | fixed, [c] =>
    if c ≠ StemMrkr then tokensLoop (fixed ++ [c]) []
    else flushTok fixed ++ if (0 : UInt8) ≥ stopAbove then [] else .stem 0 :: tokensLoop [] []
  | fixed, c :: s :: rest =>
    if c ≠ StemMrkr then tokensLoop (fixed ++ [c]) (s :: rest)
    else flushTok fixed ++ if s ≥ stopAbove then [] else .stem s :: tokensLoop [] rest

/-- The tokens of a pattern, up to the first stem at or above `stopAbove`. -/
def tokens (str : List UInt8) : List Tok := tokensLoop stopAbove [] str

/-- The tokens substituted in order, each appended to what is built. -/
def substTokens : List UInt8 → List Tok → m (List UInt8)
  | res, [] => pure res
  | res, .fixed f :: t => do
    let x ← cbFixed f
    substTokens (res ++ x) t
  | res, .stem s :: t => do
    let x ← cbStem res.length.toUInt16 s
    substTokens (res ++ x) t

variable [LawfulMonad m]

theorem flushFixed_bind (res fixed : List UInt8) (t : List Tok) :
    (flushFixed cbFixed res fixed >>= fun r => substTokens cbStem cbFixed r t) =
      substTokens cbStem cbFixed res (flushTok fixed ++ t) := by
  unfold flushFixed flushTok
  split_ifs <;> simp [substTokens]

/-- The step at a marker: flush the fixed part, then stop or substitute the stem and go on. -/
theorem marker_step_eq (res fixed : List UInt8) (s : UInt8) (rest : List UInt8)
    (ih : ∀ r, substTargetLoop cbStem cbFixed stopAbove r [] rest =
      substTokens cbStem cbFixed r (tokensLoop stopAbove [] rest)) :
    (do
      let r ← flushFixed cbFixed res fixed
      if s ≥ stopAbove then pure r
      else do
        let x ← cbStem r.length.toUInt16 s
        substTargetLoop cbStem cbFixed stopAbove (r ++ x) [] rest) =
      substTokens cbStem cbFixed res
        (flushTok fixed ++ if s ≥ stopAbove then [] else .stem s :: tokensLoop stopAbove [] rest) := by
  rw [← flushFixed_bind]
  congr 1
  funext r
  split_ifs
  · simp [substTokens]
  · simp [substTokens, ih]

/-- `subst_target` is the substitution of the tokens of its pattern. -/
theorem substTargetLoop_eq : ∀ res fixed str,
    substTargetLoop cbStem cbFixed stopAbove res fixed str =
      substTokens cbStem cbFixed res (tokensLoop stopAbove fixed str)
  | res, fixed, [] => by
    rw [substTargetLoop, tokensLoop, ← List.append_nil (flushTok fixed), ← flushFixed_bind]
    simp [substTokens]
  | res, fixed, [c] => by
    by_cases hc : c = StemMrkr
    · rw [substTargetLoop, tokensLoop, if_neg (not_not.mpr hc), if_neg (not_not.mpr hc)]
      exact marker_step_eq cbStem cbFixed stopAbove res fixed 0 [] (substTargetLoop_eq · [] [])
    · rw [substTargetLoop, tokensLoop, if_pos hc, if_pos hc]
      exact substTargetLoop_eq res (fixed ++ [c]) []
  | res, fixed, c :: s :: rest => by
    by_cases hc : c = StemMrkr
    · rw [substTargetLoop, tokensLoop, if_neg (not_not.mpr hc), if_neg (not_not.mpr hc)]
      exact marker_step_eq cbStem cbFixed stopAbove res fixed s rest (substTargetLoop_eq · [] rest)
    · rw [substTargetLoop, tokensLoop, if_pos hc, if_pos hc]
      exact substTargetLoop_eq res (fixed ++ [c]) (s :: rest)

theorem substTarget_eq (str : List UInt8) :
    substTarget cbStem cbFixed stopAbove str = substTokens cbStem cbFixed [] (tokens stopAbove str) :=
  substTargetLoop_eq cbStem cbFixed stopAbove [] [] str

end SubstTarget

/-! ## Rules and matches -/

/-- What the job name reads of a rule. -/
structure RuleData where
  /-- `job_name`, with `StemMrkr` and an index for each stem -/
  jobName : List UInt8
  /-- the keys of `stems` (their regular expressions are not read here) -/
  stemKeys : List (List UInt8)
  nStaticStems : UInt8
  /-- `crc->match` -/
  crcMatch : UInt64

/-- `RuleData::job_sfx_len()`: the marker, a position and a length per static stem, the crc. -/
def RuleData.jobSfxLen (r : RuleData) : Nat :=
  1 + r.nStaticStems.toNat * FileNameIdxSz * 2 + CrcValSz

/-- `RuleData::job_sfx()`: markers, with the crc at the end. -/
def RuleData.jobSfx (r : RuleData) : List UInt8 :=
  encodeAt CrcValSz (List.replicate r.jobSfxLen JobMrkr) (r.jobSfxLen - CrcValSz) r.crcMatch.toNat

/-- `RuleData::validate(job_sfx)`: the crc at the end of a job name must be the rule's. -/
def RuleData.validate (r : RuleData) (jobSfx : List UInt8) : Except String Unit := do
  if jobSfx.length < CrcValSz then throw "FAIL"
  if decodeAt CrcValSz jobSfx (jobSfx.length - CrcValSz) ≠ r.crcMatch.toNat then throw "FAIL"

/-- `s.substr(pos,sz)`, which throws past the end of `s`. -/
def substr (s : List UInt8) (pos sz : Nat) : Except String (List UInt8) :=
  if pos ≤ s.length then .ok ((s.drop pos).take sz) else .error "basic_string::substr"

/-- A rule as `_acquire_py` or a special rule builds it: its job name names each static stem. -/
structure Rule extends RuleData where
  static_named : ∀ s < nStaticStems.toNat, Tok.stem s.toUInt8 ∈ tokens NoVar jobName

/-- `Rule::RuleMatch`: a rule and the values of its static stems. -/
structure RuleMatch where
  rule : Rule
  stems : List (List UInt8)

/-- What `RuleData(Special::Codec)` sets for the job name: `s_pfx_s()`, then `File`, its one
static stem; `Ctx`, `Code` and `Val` are star stems. -/
def codecRule (crc : UInt64) : Rule where
  jobName := Codec.CodecFile.sPfxS false ++ [StemMrkr, 0]
  stemKeys := [Escape.ascii "File", Escape.ascii "Ctx", Escape.ascii "Code", Escape.ascii "Val"]
  nStaticStems := 1
  crcMatch := crc
  static_named := by decide

/-! ## full_name -/

/-- The stem callback of `full_name`: a static stem records where it starts and is put in, a star
stem is written as a star. -/
def RuleMatch.fullNameStem (m : RuleMatch) (p : UInt16) (s : UInt8) :
    StateM (List UInt16) (List UInt8) :=
  if s < m.rule.nStaticStems then do
    modify fun poss => poss.set s.toNat p
    pure (m.stems.getD s.toNat [])
  else
    let key := m.rule.stemKeys.getD s.toNat []
    -- 0x7b, 0x2a and 0x7d are the open brace, the star and the close brace
    if key.head? = some '<'.toUInt8 ∧ key.getLast? = some '>'.toUInt8 then pure [0x7b, 0x2a, 0x7d]
    else pure ([0x7b] ++ key ++ [0x2a, 0x7d])

/-- One round of the loop of `full_name` over the static stems: the position, then the length. -/
def fillStem (poss : List UInt16) (stems : List (List UInt8)) (acc : Nat × List UInt8) (s : Nat) :
    Nat × List UInt8 :=
  let sfx := encodeAt FileNameIdxSz acc.2 acc.1 (poss.getD s 0).toNat
  (acc.1 + 2 * FileNameIdxSz,
    encodeAt FileNameIdxSz sfx (acc.1 + FileNameIdxSz) (stems.getD s []).length)

/-- `RuleMatch::full_name()`: the name of the job, and its suffix. -/
def RuleMatch.fullName (m : RuleMatch) : List UInt8 × List UInt8 :=
  let r := Id.run ((substTarget m.fullNameStem pure NoVar m.rule.jobName).run
    (List.replicate m.rule.nStaticStems.toNat 0))
  (r.1, ((List.range m.rule.nStaticStems.toNat).foldl (fillStem r.2 m.stems) (1, m.rule.jobSfx)).2)

/-! ## RuleMatch(Job) -/

/-- One round of the loop of `RuleMatch(Job)`: a position, a length, and the stem they give. -/
def readStem (name_ : List UInt8) (acc : Nat × List (List UInt8)) (_ : Nat) :
    Except String (Nat × List (List UInt8)) := do
  let pos := decodeAt FileNameIdxSz name_ acc.1
  let sz := decodeAt FileNameIdxSz name_ (acc.1 + FileNameIdxSz)
  let stem ← substr name_ pos sz
  pure (acc.1 + 2 * FileNameIdxSz, acc.2 ++ [stem])

/-- `RuleMatch(Job)`, from the rule of the job and its full name. -/
def RuleMatch.ofJob (r : Rule) (name_ : List UInt8) : Except String RuleMatch := do
  r.validate name_
  -- the suffix starts after its JobMrkr
  let acc ← (List.range r.nStaticStems.toNat).foldlM (readStem name_)
    (name_.length - r.jobSfxLen + 1, [])
  pure { rule := r, stems := acc.2 }

/-! ## Where full_name puts the stems -/

section Positions

variable (m : RuleMatch)

theorem run_fullNameStem_static {s : UInt8} (hs : s < m.rule.nStaticStems) (p : UInt16)
    (poss : List UInt16) :
    (m.fullNameStem p s).run poss = (m.stems.getD s.toNat [], poss.set s.toNat p) := by
  simp [RuleMatch.fullNameStem, hs]
  rfl

theorem run_fullNameStem_star {s : UInt8} (hs : ¬ s < m.rule.nStaticStems) (p : UInt16)
    (poss : List UInt16) : ∃ x, (m.fullNameStem p s).run poss = (x, poss) := by
  simp only [RuleMatch.fullNameStem, if_neg hs]
  split_ifs
  · exact ⟨_, rfl⟩
  · exact ⟨_, rfl⟩

/-- Stem `s` of `stems` starts in `name` where `poss` says. -/
def StemAt (stems : List (List UInt8)) (name : List UInt8) (poss : List UInt16) (s : Nat) : Prop :=
  ∃ p, poss.getD s 0 = p.toUInt16 ∧ p ≤ name.length ∧ stems.getD s [] <+: name.drop p

variable {m}

/-- A stem put in right after `res`, with the size of `res` as its position, is there. -/
theorem StemAt.of_recorded {stems : List (List UInt8)} {res x : List UInt8} {poss : List UInt16}
    {s : Nat} (hp : poss.getD s 0 = res.length.toUInt16) :
    StemAt stems (res ++ stems.getD s [] ++ x) poss s :=
  ⟨res.length, hp, by simp, by simp⟩

variable (m)

/-- The walk of `full_name` over tokens: it only appends, keeps the size of the positions, and
leaves each static stem it meets at the position it records, the others' positions alone.  The
induction is on the tokens; the last time a stem is met is the one its position keeps. -/
theorem run_substTokens_fullNameStem : ∀ (toks : List Tok) (res : List UInt8) (poss : List UInt16),
    poss.length = m.rule.nStaticStems.toNat →
    ∃ name poss', (substTokens m.fullNameStem pure res toks).run poss = (name, poss') ∧
      res <+: name ∧ poss'.length = poss.length ∧
      (∀ s : UInt8, s < m.rule.nStaticStems → Tok.stem s ∈ toks → StemAt m.stems name poss' s.toNat) ∧
      (∀ i, (∀ s : UInt8, Tok.stem s ∈ toks → s.toNat ≠ i) → poss'.getD i 0 = poss.getD i 0)
  | [], res, poss, _ => ⟨res, poss, rfl, List.prefix_refl _, rfl, by simp, fun _ _ => rfl⟩
  | .fixed f :: t, res, poss, hl => by
    obtain ⟨name, poss', hrun, hpre, hlen, hat, hkeep⟩ :=
      run_substTokens_fullNameStem t (res ++ f) poss hl
    refine ⟨name, poss', ?_, (List.prefix_append res f).trans hpre, hlen, ?_, ?_⟩
    · simp only [substTokens, StateT.run_bind]
      exact hrun
    · intro s hs hmem
      exact hat s hs (by simpa using hmem)
    · intro i hi
      exact hkeep i fun s hs => hi s (List.mem_cons_of_mem _ hs)
  | .stem s :: t, res, poss, hl => by
    by_cases hs : s < m.rule.nStaticStems
    · -- a static stem is recorded at the size of what is built so far
      have hl' : (poss.set s.toNat res.length.toUInt16).length = m.rule.nStaticStems.toNat := by
        simp [hl]
      obtain ⟨name, poss', hrun, hpre, hlen, hat, hkeep⟩ :=
        run_substTokens_fullNameStem t (res ++ m.stems.getD s.toNat []) _ hl'
      refine ⟨name, poss', ?_, (List.prefix_append _ _).trans hpre, by simp [hlen], ?_, ?_⟩
      · simp only [substTokens, StateT.run_bind, run_fullNameStem_static m hs]
        exact hrun
      · intro s' hs' hmem
        by_cases ht : Tok.stem s' ∈ t
        · exact hat s' hs' ht
        have hss : s' = s := by simpa [ht] using hmem
        subst hss
        have hnot : ∀ s'' : UInt8, Tok.stem s'' ∈ t → s''.toNat ≠ s'.toNat := by
          rintro s'' h'' heq
          rw [UInt8.toNat_inj.mp heq] at h''
          exact ht h''
        have hlt : s'.toNat < poss.length := by
          rw [hl]
          exact UInt8.lt_iff_toNat_lt.mp hs
        obtain ⟨x, rfl⟩ := hpre
        apply StemAt.of_recorded
        rw [hkeep _ hnot]
        simp [List.getD_eq_getElem?_getD, hlt]
      · intro i hi
        rw [hkeep i fun s' hs' => hi s' (List.mem_cons_of_mem _ hs')]
        have hne : s.toNat ≠ i := hi s List.mem_cons_self
        simp [List.getD_eq_getElem?_getD, List.getElem?_set_ne hne]
    · -- a star stem leaves the positions alone
      obtain ⟨x, hx⟩ := run_fullNameStem_star m hs res.length.toUInt16 poss
      obtain ⟨name, poss', hrun, hpre, hlen, hat, hkeep⟩ :=
        run_substTokens_fullNameStem t (res ++ x) poss hl
      refine ⟨name, poss', ?_, (List.prefix_append _ _).trans hpre, hlen, ?_, ?_⟩
      · simp only [substTokens, StateT.run_bind, hx]
        exact hrun
      · intro s' hs' hmem
        have hne : s' ≠ s := by
          rintro rfl
          exact hs hs'
        exact hat s' hs' (by simpa [hne] using hmem)
      · intro i hi
        exact hkeep i fun s' hs' => hi s' (List.mem_cons_of_mem _ hs')

end Positions

/-! ## The suffix -/

section Suffix

variable (poss : List UInt16) (stems : List (List UInt8))

/-- The position and the length of stem `s`, as `full_name` writes them in the suffix. -/
def stemPair (s : Nat) : List UInt8 :=
  leBytes FileNameIdxSz (poss.getD s 0).toNat ++ leBytes FileNameIdxSz (stems.getD s []).length

@[simp]
theorem length_stemPair (s : Nat) : (stemPair poss stems s).length = 4 := by
  simp [stemPair, FileNameIdxSz]

theorem length_flatMap_stemPair (k : Nat) :
    ((List.range k).flatMap (stemPair poss stems)).length = 4 * k := by
  induction k with
  | zero => rfl
  | succ k ih =>
    rw [List.range_succ, List.flatMap_append, List.length_append, ih]
    simp
    omega

theorem jobSfx_eq (r : RuleData) :
    r.jobSfx = [JobMrkr] ++ List.replicate (4 * r.nStaticStems.toNat) JobMrkr ++
      leBytes CrcValSz r.crcMatch.toNat := by
  have hlen : r.jobSfxLen = (1 + 4 * r.nStaticStems.toNat) + CrcValSz := by
    simp only [RuleData.jobSfxLen, FileNameIdxSz]
    omega
  have h := encodeAt_append CrcValSz (List.replicate (1 + 4 * r.nStaticStems.toNat) JobMrkr)
    (List.replicate CrcValSz JobMrkr) r.crcMatch.toNat
  rw [List.length_replicate, ← List.replicate_add] at h
  rw [RuleData.jobSfx, hlen, Nat.add_sub_cancel, h, List.replicate_add]
  simp

/-- One round of the loop of `full_name` writes a stem's pair over four markers. -/
theorem fillStem_append (A R : List UInt8) (s : Nat) :
    fillStem poss stems (A.length, A ++ (List.replicate 4 JobMrkr ++ R)) s =
      (A.length + 4, A ++ stemPair poss stems s ++ R) := by
  set lbPos := leBytes FileNameIdxSz (poss.getD s 0).toNat
  set lbSz := leBytes FileNameIdxSz (stems.getD s []).length
  have h1 : encodeAt FileNameIdxSz (A ++ (List.replicate 4 JobMrkr ++ R)) A.length
      (poss.getD s 0).toNat = (A ++ lbPos) ++ (List.replicate 2 JobMrkr ++ R) := by
    rw [encodeAt_append]
    simp [FileNameIdxSz, lbPos]
  have h2 : encodeAt FileNameIdxSz ((A ++ lbPos) ++ (List.replicate 2 JobMrkr ++ R))
      (A ++ lbPos).length (stems.getD s []).length = (A ++ lbPos) ++ lbSz ++ R := by
    rw [encodeAt_append]
    simp [FileNameIdxSz, lbSz]
  have hpos : A.length + FileNameIdxSz = (A ++ lbPos).length := by
    simp [lbPos]
  simp only [fillStem]
  rw [h1, hpos, h2]
  simp [stemPair, lbPos, lbSz, FileNameIdxSz]

/-- The loop of `full_name` over the first `k` static stems writes their pairs in order. -/
theorem foldl_fillStem (n : Nat) (tail : List UInt8) : ∀ k ≤ n,
    (List.range k).foldl (fillStem poss stems)
        (1, [JobMrkr] ++ List.replicate (4 * n) JobMrkr ++ tail) =
      (1 + 4 * k, [JobMrkr] ++ (List.range k).flatMap (stemPair poss stems) ++
        List.replicate (4 * (n - k)) JobMrkr ++ tail)
  | 0, _ => by simp
  | k + 1, hk => by
    -- the pairs written so far, and four of the markers left for the next one
    obtain ⟨A, hAdef⟩ : ∃ A, A = [JobMrkr] ++ (List.range k).flatMap (stemPair poss stems) :=
      ⟨_, rfl⟩
    have hA : 1 + 4 * k = A.length := by
      rw [hAdef, List.length_append, length_flatMap_stemPair]
      simp
    have hstate : [JobMrkr] ++ (List.range k).flatMap (stemPair poss stems) ++
        List.replicate (4 * (n - k)) JobMrkr ++ tail =
          A ++ (List.replicate 4 JobMrkr ++ (List.replicate (4 * (n - (k + 1))) JobMrkr ++ tail)) := by
      have hrep : List.replicate (4 * (n - k)) JobMrkr =
          List.replicate 4 JobMrkr ++ List.replicate (4 * (n - (k + 1))) JobMrkr := by
        rw [← List.replicate_add]
        congr 1
        omega
      rw [hAdef, hrep]
      simp only [List.append_assoc]
    rw [List.range_succ, List.foldl_append, foldl_fillStem n tail k (by omega), List.foldl_cons,
      List.foldl_nil, hstate, hA, fillStem_append, hAdef]
    simp [List.flatMap_append]
    omega

end Suffix

/-! ## Reading the stems back -/

section Read

/-- `validate` accepts any text that ends with the rule's crc. -/
theorem validate_append (r : RuleData) (A : List UInt8) :
    r.validate (A ++ leBytes CrcValSz r.crcMatch.toNat) = .ok () := by
  have hlen : (A ++ leBytes CrcValSz r.crcMatch.toNat).length - CrcValSz = A.length := by
    simp
  have hdec : decodeAt CrcValSz (A ++ leBytes CrcValSz r.crcMatch.toNat) A.length =
      r.crcMatch.toNat := by
    have h := decodeAt_append CrcValSz A [] r.crcMatch.toNat
    rw [List.append_nil, Nat.mod_eq_of_lt (by simpa [CrcValSz] using r.crcMatch.toNat_lt)] at h
    exact h
  have hge : ¬ (A ++ leBytes CrcValSz r.crcMatch.toNat).length < CrcValSz := by
    simp
  simp only [RuleData.validate, if_neg hge, hlen, hdec, ne_eq, not_true_eq_false, if_false]
  rfl

variable {name : List UInt8} {poss : List UInt16} {stems : List (List UInt8)}

/-- One round of `RuleMatch(Job)` reads a stem's pair and takes the stem out of the name. -/
theorem readStem_stemPair {k : Nat} (hname : name.length ≤ PathMax)
    (hat : StemAt stems name poss k) (C R : List UInt8) (acc : List (List UInt8)) :
    readStem (name ++ C ++ stemPair poss stems k ++ R) ((name ++ C).length, acc) k =
      .ok ((name ++ C).length + 2 * FileNameIdxSz, acc ++ [stems.getD k []]) := by
  obtain ⟨p, hp, hle, hpre⟩ := hat
  have hstem : (stems.getD k []).length ≤ name.length :=
    hpre.length_le.trans (by simp)
  have hlist : name ++ C ++ stemPair poss stems k ++ R =
      name ++ C ++ leBytes FileNameIdxSz (poss.getD k 0).toNat ++
        (leBytes FileNameIdxSz (stems.getD k []).length ++ R) := by
    simp [stemPair]
  have hpos : decodeAt FileNameIdxSz (name ++ C ++ stemPair poss stems k ++ R) (name ++ C).length = p := by
    rw [hlist, decodeAt_append, Nat.mod_eq_of_lt (by simpa [FileNameIdxSz] using UInt16.toNat_lt _),
      hp]
    simp only [Nat.toUInt16, UInt16.toNat_ofNat']
    exact Nat.mod_eq_of_lt (by simp only [PathMax] at hname; omega)
  have hsz : decodeAt FileNameIdxSz (name ++ C ++ stemPair poss stems k ++ R)
      ((name ++ C).length + FileNameIdxSz) = (stems.getD k []).length := by
    have h := decodeAt_append FileNameIdxSz (name ++ C ++ leBytes FileNameIdxSz (poss.getD k 0).toNat)
      R (stems.getD k []).length
    rw [List.length_append, length_leBytes] at h
    rw [hlist, ← List.append_assoc, h]
    exact Nat.mod_eq_of_lt (by simp only [PathMax, FileNameIdxSz] at hname ⊢; omega)
  have hsub : substr (name ++ C ++ stemPair poss stems k ++ R) p (stems.getD k []).length =
      .ok (stems.getD k []) := by
    rw [substr, if_pos (by simp; omega), List.append_assoc, List.append_assoc,
      List.drop_append_of_le_length hle]
    congr 1
    exact (List.prefix_iff_eq_take.mp (hpre.trans (List.prefix_append _ _))).symm
  simp only [readStem, hpos, hsz, hsub, bind, Except.bind, pure, Except.pure]

/-- `RuleMatch(Job)` reads the stems in order, each from its pair.  The induction is on the number
of pairs read; the pairs not read yet are part of what follows them. -/
theorem foldlM_readStem (hname : name.length ≤ PathMax) : ∀ (k : Nat) (R : List UInt8),
    (∀ s < k, StemAt stems name poss s) →
    (List.range k).foldlM
        (readStem (name ++ [JobMrkr] ++ (List.range k).flatMap (stemPair poss stems) ++ R))
        (name.length + 1, []) =
      .ok (name.length + 1 + 4 * k, (List.range k).map (stems.getD · []))
  | 0, R, _ => rfl
  | k + 1, R, hat => by
    set C := [JobMrkr] ++ (List.range k).flatMap (stemPair poss stems)
    have hsplit : name ++ [JobMrkr] ++ (List.range (k + 1)).flatMap (stemPair poss stems) ++ R =
        name ++ [JobMrkr] ++ (List.range k).flatMap (stemPair poss stems) ++
          (stemPair poss stems k ++ R) := by
      simp [List.range_succ, List.flatMap_append]
    have hform : name ++ [JobMrkr] ++ (List.range k).flatMap (stemPair poss stems) ++
        (stemPair poss stems k ++ R) = name ++ C ++ stemPair poss stems k ++ R := by
      simp [C]
    have hC : name.length + 1 + 4 * k = (name ++ C).length := by
      simp [C]
      omega
    rw [hsplit, List.range_succ, List.foldlM_append,
      foldlM_readStem hname k _ fun s hs => hat s (by omega), hform, hC]
    simp only [bind, Except.bind, List.foldlM_cons, List.foldlM_nil]
    rw [readStem_stemPair hname (hat k (by omega))]
    simp only [pure, Except.pure, List.map_append, List.map_cons, List.map_nil]
    congr 2
    simp only [FileNameIdxSz, ← hC]
    omega

end Read

/-! ## Job names identify matches -/

section FullName

variable (m : RuleMatch)

/-- The static stems, read at every index below their number. -/
theorem map_getD_range (hn : m.stems.length = m.rule.nStaticStems.toNat) :
    (List.range m.rule.nStaticStems.toNat).map (m.stems.getD · []) = m.stems := by
  apply List.ext_getElem
  · simp [hn]
  · intro i h₁ h₂
    simp [List.getD_eq_getElem?_getD, h₂]

/-- Every match reads back from its job name: `validate` accepts its suffix, and `RuleMatch(Job)`
gives the match again from the name followed by the suffix.  The name's positions are those of
the walk of `full_name` over the tokens of the job name, where the rule names every static stem. -/
theorem ofJob_fullName (hn : m.stems.length = m.rule.nStaticStems.toNat)
    (hlen : m.fullName.1.length ≤ PathMax) :
    m.rule.validate m.fullName.2 = .ok () ∧
      RuleMatch.ofJob m.rule (m.fullName.1 ++ m.fullName.2) = .ok m := by
  obtain ⟨name, poss, hrun, -, -, hat, -⟩ := run_substTokens_fullNameStem m
    (tokens NoVar m.rule.jobName) [] (List.replicate m.rule.nStaticStems.toNat 0) (by simp)
  have hfull : m.fullName = (name, [JobMrkr] ++
      (List.range m.rule.nStaticStems.toNat).flatMap (stemPair poss m.stems) ++
        leBytes CrcValSz m.rule.crcMatch.toNat) := by
    have h := foldl_fillStem poss m.stems m.rule.nStaticStems.toNat
      (leBytes CrcValSz m.rule.crcMatch.toNat) m.rule.nStaticStems.toNat le_rfl
    rw [Nat.sub_self, Nat.mul_zero, List.replicate_zero, List.append_nil] at h
    simp only [RuleMatch.fullName, substTarget_eq, hrun, jobSfx_eq, Id.run]
    rw [h]
  -- the rule names each static stem, so each is where its position says
  have hat' : ∀ s < m.rule.nStaticStems.toNat, StemAt m.stems name poss s := by
    intro s hs
    have hs8 : s < 256 := by
      have h8 := m.rule.nStaticStems.toNat_lt
      simp at h8
      omega
    have h := hat s.toUInt8 (by simpa [UInt8.lt_iff_toNat_lt, Nat.mod_eq_of_lt hs8] using hs)
      (m.rule.static_named s hs)
    simpa [Nat.mod_eq_of_lt hs8] using h
  rw [hfull] at hlen ⊢
  refine ⟨validate_append _ _, ?_⟩
  have hstart : (name ++ ([JobMrkr] ++
      (List.range m.rule.nStaticStems.toNat).flatMap (stemPair poss m.stems) ++
        leBytes CrcValSz m.rule.crcMatch.toNat)).length - m.rule.jobSfxLen + 1 = name.length + 1 := by
    simp [RuleData.jobSfxLen, FileNameIdxSz]
    omega
  simp only [RuleMatch.ofJob]
  rw [hstart, ← List.append_assoc, ← List.append_assoc, validate_append,
    foldlM_readStem hlen _ _ hat']
  simp only [bind, Except.bind, pure, Except.pure, map_getD_range m hn]

/-- Job names identify rule matches: the suffix of the name of a match passes `validate`, the
name and its suffix read back as the match, and two matches of one rule with other stems have
other names. -/
theorem fullName_identifies_match (hn : m.stems.length = m.rule.nStaticStems.toNat)
    (hlen : m.fullName.1.length ≤ PathMax) :
    m.rule.validate m.fullName.2 = .ok () ∧
    RuleMatch.ofJob m.rule (m.fullName.1 ++ m.fullName.2) = .ok m ∧
    ∀ m' : RuleMatch, m'.rule = m.rule → m'.stems.length = m.rule.nStaticStems.toNat →
      m'.fullName.1.length ≤ PathMax → m'.stems ≠ m.stems →
      m'.fullName.1 ++ m'.fullName.2 ≠ m.fullName.1 ++ m.fullName.2 := by
  obtain ⟨hval, hof⟩ := ofJob_fullName m hn hlen
  refine ⟨hval, hof, ?_⟩
  intro m' hrule hn' hlen' hne heq
  have hof' := (ofJob_fullName m' (by rw [hrule]; exact hn') hlen').2
  rw [hrule, heq, hof] at hof'
  exact hne (congrArg RuleMatch.stems (Except.ok.inj hof')).symm

/-- The job of the codec rule for the file `tab`. -/
theorem fullName_identifies_match_codec :
    let m : RuleMatch := { rule := codecRule 7, stems := [Escape.ascii "tab"] }
    m.stems.length = m.rule.nStaticStems.toNat ∧ m.fullName.1.length ≤ PathMax ∧
      m.rule.validate m.fullName.2 = .ok () ∧
      RuleMatch.ofJob m.rule (m.fullName.1 ++ m.fullName.2) = .ok m ∧
      ∀ m' : RuleMatch, m'.rule = m.rule → m'.stems.length = m.rule.nStaticStems.toNat →
        m'.fullName.1.length ≤ PathMax → m'.stems ≠ m.stems →
        m'.fullName.1 ++ m'.fullName.2 ≠ m.fullName.1 ++ m.fullName.2 :=
  ⟨by decide, by decide +kernel, fullName_identifies_match _ (by decide) (by decide +kernel)⟩

end FullName

end Engine
