import Mathlib.Data.List.GetD
import Lmake.Disk

/-!
# Resolving a file name: `RealPath`

`RealPath::solve` turns a file name, as a job gives it to a syscall, into its real name (no link,
no empty, `.` or `..` component) and classifies it: in the repo, in a source dir, in the tmp dir,
in `/proc`, in the admin dir or external.  It walks the components of the name one at a time,
reads each one that may be a link where the link support policy lets it, and follows links up to
`MAXSYMLINKS` of them.  Where it is w.r.t. the repo, the tmp dir, `/proc` and `/dev` is tracked
incrementally by four `_Dvg`s.  `RealPathEnv::file_loc` classifies a real again from its text;
the source says that it must be kept in sync with `solve`.

The model takes the file system as what `read_lnk` returns for each real (`LnkRead`) and the dir
a relative name is relative to as the real the code reads for it (`atReal`).

Results:
* `solve_reported`: every report of `solve` is what `finish` makes of a canonical real (no empty,
  `.` or `..` component) whose four trackers are exact, or has no real at all.  It rests on
  `Dvg.update_tracks` (the incremental `_Dvg::update` computes whether the real lies in its domain,
  since the real is only cut or lengthened between updates) and on `stepComp_st` (what one
  component can do to the real).  `solve_proc` and `solve_ext` say what it then reports as in
  `/proc` and as external.

Two places where the code does not do what its contract says:
* `solve` classifies a file under `/dev/` as in `/proc`, while `file_loc` has no test for `/dev/`
  and calls it external (`solve_dev_null_file_loc`);
* with `LnkSupport::FullExt`, `solve` never computes the source dir a link lies in, so that the
  links it follows in source dirs are not reported, while `LnkSupport::Full`, which follows fewer
  links, reports them (`solve_full_ext_src_lnk`).
-/

set_option autoImplicit false

namespace Lmake

open Disk

/-- `FileLoc`: where a file lies.  The code orders them, those up to `SrcDir` being deps. -/
inductive FileLoc where
  | Repo
  | SrcDir
  | RepoRoot
  | Tmp
  | Proc
  | Admin
  | Ext
  | Unknown
  deriving DecidableEq, Repr

/-- `LnkSupport`: where links may appear, and so where `solve` looks for them. -/
inductive LnkSupport where
  | None
  | File
  | Full
  | FullExt
  deriving DecidableEq, Repr

/-- The rank of a policy: the code compares policies in their declaration order. -/
def LnkSupport.toNat : LnkSupport → Nat
  | .None => 0
  | .File => 1
  | .Full => 2
  | .FullExt => 3

/-- `RealPathEnv`, without its `file_sync`, which only guards the reads of links. -/
structure RealPathEnv where
  lnkSupport : LnkSupport := .Full
  repoRootS : List Char := []
  tmpDirS : List Char := []
  srcDirsS : List (List Char) := []
  deriving DecidableEq, Repr

/-- `PrivateAdminDirS`. -/
def privateAdminDirS : List Char := "LMAKE/lmake/".toList

/-- `P_tmpdir`. -/
def pTmpdir : List Char := "/tmp".toList

/-- `_lcl_file_loc`: a name relative to the repo root is in the private admin dir or in the repo. -/
def lclFileLoc (file : List Char) : FileLoc :=
  let sPrivateAdminDir := privateAdminDirS.dropLast
  if !sPrivateAdminDir.isPrefixOf file then .Repo
  else if file.length = sPrivateAdminDir.length then .Admin
  else if file.getD sPrivateAdminDir.length '\x00' = '/' then .Admin
  else .Repo

/-- The tmp dir `file_loc` and `solve` test against: `P_tmpdir "/"` when the env has none. -/
def RealPathEnv.tmpDirOrDflt (env : RealPathEnv) : List Char :=
  if env.tmpDirS.isEmpty then pTmpdir ++ ['/'] else env.tmpDirS

/-- The repo test of `file_loc`: an absolute real that starts with the repo root without its final
`/` is the repo root itself, or lies in it when the `/` follows. -/
def repoFileLoc (repoRootS absReal : List Char) : Option FileLoc :=
  if (repoRootS.take (repoRootS.length - 1)).isPrefixOf absReal then
    let c := absReal.getD (repoRootS.length - 1) '\x00'
    if c = '\x00' then some .RepoRoot
    else if c = '/' then some (lclFileLoc (absReal.drop repoRootS.length))
    else none
  else none

/-- `RealPathEnv::file_loc`. -/
def RealPathEnv.fileLoc (env : RealPathEnv) (real : List Char) : Except String FileLoc := do
  let absReal ← mkGlb real env.repoRootS
  if env.tmpDirOrDflt.isPrefixOf absReal then pure .Tmp
  else if "/proc/".toList.isPrefixOf absReal then pure .Proc
  else
    match repoFileLoc env.repoRootS absReal with
    | some loc => pure loc
    | none => do
      let lclReal ← mkLcl real env.repoRootS
      pure (if env.srcDirsS.any (fun sdS => liesWithin (if isAbs sdS then absReal else lclReal) sdS)
        then .SrcDir else .Ext)

/-! ## `RealPath` -/

/-- `_Dvg`: whether a path lies in a domain, and how far they agree. -/
structure RealPath.Dvg where
  ok : Bool := false
  dvg : Nat := 0
  deriving DecidableEq, Repr

/-- The loop of `_Dvg::update` over `n` indices from `i`: the first where the two texts differ. -/
def RealPath.firstDvg (domainS chk : List Char) : (n i : Nat) → Option Nat
  | 0, _ => none
  | n + 1, i =>
    if domainS.getD i '\x00' ≠ chk.getD i '\x00' then some i else firstDvg domainS chk n (i + 1)

/-- `_Dvg::update`: only the indices from the last divergence to the new one are compared. -/
def RealPath.Dvg.update (d : Dvg) (domainS chk : List Char) : Except String Dvg :=
  if domainS.isEmpty then pure d
  else do
    swear (domainS.getLast? == some '/') "domain_s.back()=='/'"
    let ds := domainS.length - 1
    let ok := decide (ds ≤ chk.length)
    let dvg := if ok then ds else chk.length
    match firstDvg domainS chk (dvg - d.dvg) d.dvg with
    | some i => pure ⟨false, i⟩
    | none => pure ⟨if ds < chk.length then chk.getD ds '\x00' == '/' else ok, dvg⟩

/-- `SolveReport`. -/
structure RealPath.SolveReport where
  real : List Char := []
  lnks : List (List Char) := []
  fileAccessed : Bool3 := .No
  fileLoc : FileLoc := .Ext
  deriving DecidableEq, Repr

/-- `RealPath`: its env and the absolute versions of the source dirs. -/
structure RealPath where
  env : RealPathEnv
  absSrcDirsS : List (List Char)

/-- What `read_lnk` gives of a real: the target of a link, or nothing with `errno` `ENOENT` when
the file does not exist, or with another `errno` when it is no link. -/
inductive LnkRead where
  | lnk (target : List Char)
  | notLnk
  | noEnt
  deriving DecidableEq, Repr

/-- `NMaxLnks`, the `MAXSYMLINKS` of the C library. -/
def RealPath.nMaxLnks : Nat := 20

namespace RealPath

/-- The constructor, the dir `_cwd` apart. -/
def new (rpe : RealPathEnv) : Except String RealPath := do
  swear (isAbs rpe.repoRootS) "is_abs(rpe.repo_root_s)"
  if !rpe.tmpDirS.isEmpty then swear (isAbs rpe.tmpDirS) "is_abs(rpe.tmp_dir_s)"
  let absSrcDirsS ← rpe.srcDirsS.mapM (fun sdS => mkGlb sdS rpe.repoRootS)
  pure ⟨rpe, absSrcDirsS⟩

/-- `_find_src_idx`: the first source dir the real lies in. -/
def findSrcIdx (rp : RealPath) (real : List Char) : Option Nat :=
  rp.absSrcDirsS.findIdx? (fun sdS => sdS.isPrefixOf real)

/-- The state of the loop of `solve`. -/
structure SolveSt where
  real : List Char
  lnks : List (List Char)
  «exists» : Bool
  inRepo : Dvg
  inTmp : Dvg
  inProc : Dvg
  inDev : Dvg

/-- The increment of the loop: the four trackers follow the real. -/
def updateDvgs (rp : RealPath) (st : SolveSt) : Except String SolveSt := do
  let inRepo ← st.inRepo.update rp.env.repoRootS st.real
  let inTmp ← st.inTmp.update rp.env.tmpDirOrDflt st.real
  let inProc ← st.inProc.update "/proc/".toList st.real
  let inDev ← st.inDev.update "/dev/".toList st.real
  pure { st with inRepo, inTmp, inProc, inDev }

/-- How one component ends: go on with the next one, or with the new text a link gave. -/
inductive Next where
  | comp (st : SolveSt)
  | lnk (st : SolveSt) (file : List Char)

/-- The policy outside tmp, `/proc` and `/dev`: `none` when the component is not read as a link,
else the source dir it lies in (`src_idx`, `none` for `Npos`). -/
def lnkPolicy (rp : RealPath) (st : SolveSt) (last : Bool) : Option (Option Nat) :=
  let srcIdx : Option (Option Nat) :=
    if st.inRepo.ok then
      -- at repo root, no sym link to handle
      if st.real.length < rp.env.repoRootS.length then none else some none
    else if rp.env.lnkSupport ≠ .FullExt then (rp.findSrcIdx st.real).map some
    else some none
  srcIdx.bind fun srcIdx =>
    match rp.env.lnkSupport with
    | .None => none
    | .File => if last then some srcIdx else none
    | _ => some srcIdx

/-- The links after reading one at the real: it is recorded relative to the repo when it lies in
the repo (and not in tmp), rebased on its source dir when it lies in one. -/
def pushLnk (rp : RealPath) (st : SolveSt) (srcIdx : Option Nat) : List (List Char) :=
  if st.inRepo.ok && !st.inTmp.ok then st.lnks ++ [st.real.drop rp.env.repoRootS.length]
  else match srcIdx with
    | some i =>
      st.lnks ++ [rp.env.srcDirsS.getD i [] ++ st.real.drop (rp.absSrcDirsS.getD i []).length]
    | none => st.lnks

/-- `HandleLnk`: read the real as a link.  The text still to walk becomes the target of the link
followed by the rest of the name. -/
def handleLnk (rp : RealPath) (fs : List Char → LnkRead) (st : SolveSt) (last : Bool)
    (srcIdx : Option Nat) (prevRealSize : Nat) (rest : List (List Char)) : Next :=
  match fs st.real with
  | .noEnt => .comp { st with «exists» := false }
  | .notLnk => .comp st
  | .lnk nxt =>
    if nxt.isEmpty then .comp st
    else
      let lnks := rp.pushLnk st srcIdx
      let nxt := if !last then nxt ++ '/' :: ['/'].intercalate rest else nxt
      -- the walk goes on after the `/` of an absolute target (`end=0`), or from the start of a
      -- relative one (`end=-1`)
      if nxt.head? = some '/' then .lnk { st with real := st.real.take 0, lnks } (nxt.drop 1)
      else .lnk { st with real := st.real.take prevRealSize, lnks } nxt

/-- One iteration of the loop of `solve`, on the component `comp` followed by `rest`. -/
def stepComp (rp : RealPath) (fs : List Char → LnkRead) (noFollow : Bool) (st : SolveSt)
    (comp : List Char) (rest : List (List Char)) : Except String Next :=
  let last := rest.isEmpty
  if comp.isEmpty || comp = ['.'] then pure (.comp st)
  else if comp = ['.', '.'] then
    if st.real.isEmpty then pure (.comp st)
    else match rfind '/' st.real with
      | some i => pure (.comp { st with real := st.real.take i })
      | none => throw "real.resize(real.rfind('/'))"
  else
    let prevRealSize := st.real.length
    let st := { st with real := st.real ++ '/' :: comp }
    if !st.exists then pure (.comp st)
    else if noFollow && last then pure (.comp st)
    else if st.inTmp.ok || st.inProc.ok || st.inDev.ok then
      pure (rp.handleLnk fs st last none prevRealSize rest)
    else match rp.lnkPolicy st last with
      | none => pure (.comp st)
      | some srcIdx => pure (rp.handleLnk fs st last srcIdx prevRealSize rest)

/-- After the loop: classify the real, and express it relative to the repo or to its source dir. -/
def finish (rp : RealPath) (noFollow : Bool) (st : SolveSt) : SolveReport :=
  let lnks := st.lnks
  let lnkSupport := rp.env.lnkSupport.toNat
  -- tmp may be in repo, repo root is in repo
  if st.inTmp.ok then { real := st.real, lnks, fileLoc := .Tmp }
  else if st.inProc.ok then { real := st.real, lnks, fileLoc := .Proc }
  else if st.inDev.ok then { real := st.real, lnks, fileLoc := .Proc }
  else if st.inRepo.ok then
    if st.real.length < rp.env.repoRootS.length then { real := st.real, lnks, fileLoc := .RepoRoot }
    else
      let real := st.real.drop rp.env.repoRootS.length
      let fileLoc := lclFileLoc real
      let fileAccessed : Bool3 :=
        if fileLoc ≠ .Repo then .No
        else if 1 ≤ lnkSupport && !noFollow then .Yes
        else if 2 ≤ lnkSupport && real.contains '/' then .Maybe
        else .No
      { real, lnks, fileLoc, fileAccessed }
  else match rp.findSrcIdx st.real with
    | some i =>
      let sdS := rp.env.srcDirsS.getD i []
      let real := sdS ++ st.real.drop (rp.absSrcDirsS.getD i []).length
      let fileAccessed : Bool3 :=
        if 1 ≤ lnkSupport && !noFollow then .Yes
        else if 2 ≤ lnkSupport && (real.drop sdS.length).contains '/' then .Maybe
        else .No
      { real, lnks, fileLoc := .SrcDir, fileAccessed }
    | none => { real := st.real, lnks }

/-- The loop over the components of a text; `follow` goes on after a link, or is `none` when the
budget of links is spent. -/
def walk (rp : RealPath) (fs : List Char → LnkRead) (noFollow : Bool)
    (follow : Option (List (List Char) → SolveSt → Except String SolveReport)) :
    List (List Char) → SolveSt → Except String SolveReport
  | [], st => pure (rp.finish noFollow st)
  | comp :: rest, st => do
    match ← rp.stepComp fs noFollow st comp rest with
    | .comp st => rp.walk fs noFollow follow rest (← rp.updateDvgs st)
    | .lnk st file =>
      match follow with
      -- link loop detected, same check as system
      | none => pure { lnks := st.lnks }
      | some k => k (file.splitOn '/') (← rp.updateDvgs st)

/-- The loop of `solve`, with `budget` more links to follow. -/
def loop (rp : RealPath) (fs : List Char → LnkRead) (noFollow : Bool) :
    Nat → List (List Char) → SolveSt → Except String SolveReport
  | 0 => rp.walk fs noFollow none
  | budget + 1 => rp.walk fs noFollow (some (rp.loop fs noFollow budget))

/-- `RealPath::solve`: `atReal` is the real the code reads for the dir a relative `file` is
relative to. -/
def solve (rp : RealPath) (fs : List Char → LnkRead) (atReal file : List Char)
    (noFollow : Bool := false) : Except String SolveReport :=
  let pos := if isAbs file then 1 else 0
  if pos = 0 && atReal.isEmpty then pure {}
  else do
    -- if `/`, we must substitute the empty string to enforce invariant
    let real := if pos = 1 || atReal.length = 1 then [] else atReal
    let st ← rp.updateDvgs ⟨real, [], true, {}, {}, {}, {}⟩
    rp.loop fs noFollow nMaxLnks ((file.drop pos).splitOn '/') st


/-! ## The trackers

A `_Dvg` only compares the characters from the last divergence on.  That is exact as long as the
real is only ever cut or lengthened between two updates (`Dvg.update_tracks`): the characters
below the divergence were compared already, and cutting or lengthening does not change them. -/

theorem firstDvg_eq_none {domainS chk : List Char} : ∀ {n i : Nat},
    firstDvg domainS chk n i = none ↔
      ∀ j, i ≤ j → j < i + n → domainS.getD j '\x00' = chk.getD j '\x00'
  | 0, i => by
    simp only [firstDvg, true_iff]
    intro j h1 h2
    omega
  | n + 1, i => by
    rw [firstDvg]
    split
    · next hne =>
      simp only [reduceCtorEq, false_iff]
      intro h
      exact hne (h i (Nat.le_refl i) (by omega))
    · next heq =>
      rw [firstDvg_eq_none]
      constructor
      · intro h j hij hj
        rcases Nat.eq_or_lt_of_le hij with rfl | hlt
        · exact not_not.1 heq
        · exact h j hlt (by omega)
      · intro h j hij hj
        exact h j (by omega) (by omega)

theorem firstDvg_eq_some {domainS chk : List Char} : ∀ {n i k : Nat},
    firstDvg domainS chk n i = some k →
      i ≤ k ∧ k < i + n ∧ domainS.getD k '\x00' ≠ chk.getD k '\x00' ∧
        ∀ j, i ≤ j → j < k → domainS.getD j '\x00' = chk.getD j '\x00'
  | 0, i, k, h => by cases h
  | n + 1, i, k, h => by
    rw [firstDvg] at h
    split at h
    · next hne =>
      cases h
      exact ⟨Nat.le_refl _, by omega, hne, fun j h1 h2 => by omega⟩
    · next heq =>
      obtain ⟨h1, h2, h3, h4⟩ := firstDvg_eq_some h
      refine ⟨by omega, by omega, h3, fun j hij hjk => ?_⟩
      rcases Nat.eq_or_lt_of_le hij with rfl | hlt
      · exact not_not.1 heq
      · exact h4 j hlt hjk

/-- A path lies in a domain, a dir name: it is the domain without its final `/`, or goes on under
it with a `/`. -/
def inDomain (domainS chk : List Char) : Bool :=
  domainS.dropLast.isPrefixOf chk &&
    (chk.length == domainS.length - 1 || chk.getD (domainS.length - 1) '\x00' == '/')

theorem dropLast_isPrefixOf_iff {domainS chk : List Char} :
    domainS.dropLast.isPrefixOf chk = true ↔
      domainS.length - 1 ≤ chk.length ∧
        ∀ j < domainS.length - 1, domainS.getD j '\x00' = chk.getD j '\x00' := by
  rw [List.isPrefixOf_iff_prefix, List.prefix_iff_getElem?]
  constructor
  · intro h
    have hlen : domainS.length - 1 ≤ chk.length := by
      by_contra hc
      have hj := h chk.length (by simp; omega)
      rw [List.getElem?_eq_none (Nat.le_refl _)] at hj
      cases hj
    refine ⟨hlen, fun j hj => ?_⟩
    have hj' := h j (by simpa using hj)
    rw [List.getD_eq_getElem?_getD, List.getD_eq_getElem?_getD, hj', List.getElem_dropLast,
      List.getElem?_eq_getElem (by omega)]
  · rintro ⟨hlen, h⟩ j hj
    have hj2 : j < domainS.length - 1 := by simpa using hj
    have hj' := h j hj2
    rw [List.getD_eq_getElem?_getD, List.getD_eq_getElem?_getD, List.getElem?_eq_getElem (by omega),
      List.getElem?_eq_getElem (by omega)] at hj'
    rw [List.getElem?_eq_getElem (by omega), List.getElem_dropLast]
    simpa using hj'.symm

/-- What a `_Dvg` knows of the real it was last updated with. -/
structure Dvg.Tracks (d : Dvg) (domainS chk : List Char) : Prop where
  ok_eq : d.ok = inDomain domainS chk
  dvg_le : d.dvg ≤ chk.length
  agree : ∀ j < d.dvg, domainS.getD j '\x00' = chk.getD j '\x00'

/-- **The incremental update is exact**: from a tracker whose divergence agrees with the new real,
the update says whether the real lies in the domain. -/
theorem Dvg.update_tracks {d d' : Dvg} {domainS chk : List Char} (hne : domainS ≠ [])
    (hagree : ∀ j < d.dvg, j < chk.length → domainS.getD j '\x00' = chk.getD j '\x00')
    (hu : d.update domainS chk = .ok d') : d'.Tracks domainS chk := by
  rw [Dvg.update, if_neg (by simpa using hne)] at hu
  obtain ⟨u, -, hu⟩ := bind_eq_ok hu
  dsimp only at hu
  generalize hdv : (if decide (domainS.length - 1 ≤ chk.length) = true then domainS.length - 1
    else chk.length) = dvg at hu
  have hdvg : dvg = min (domainS.length - 1) chk.length := by
    rw [← hdv]
    split
    · next h => rw [decide_eq_true_eq] at h; omega
    · next h => rw [decide_eq_true_eq] at h; omega
  -- the loop only compares the indices from the old divergence: the ones before it agree
  have hbelow : ∀ j, j < d.dvg → j < min (domainS.length - 1) chk.length →
      domainS.getD j '\x00' = chk.getD j '\x00' := fun j h1 h2 => hagree j h1 (by omega)
  split at hu
  · next i hi =>
    simp only [pure, Except.pure, Except.ok.injEq] at hu
    subst hu
    obtain ⟨h1, h2, h3, h4⟩ := firstDvg_eq_some hi
    have hagree' : ∀ j < i, domainS.getD j '\x00' = chk.getD j '\x00' := fun j hj =>
      if hjd : j < d.dvg then hbelow j hjd (by omega) else h4 j (by omega) hj
    refine ⟨?_, show i ≤ chk.length by omega, hagree'⟩
    have hpre : domainS.dropLast.isPrefixOf chk = false := by
      rw [Bool.eq_false_iff, ne_eq, dropLast_isPrefixOf_iff]
      rintro ⟨-, h⟩
      exact h3 (h i (by omega))
    simp [inDomain, hpre]
  · next hi =>
    simp only [pure, Except.pure, Except.ok.injEq] at hu
    subst hu
    rw [firstDvg_eq_none] at hi
    have hagree' : ∀ j < dvg, domainS.getD j '\x00' = chk.getD j '\x00' := fun j hj =>
      if hjd : j < d.dvg then hbelow j hjd (by omega) else hi j (by omega) (by omega)
    refine ⟨?_, show dvg ≤ chk.length by omega, hagree'⟩
    show (if domainS.length - 1 < chk.length then chk.getD (domainS.length - 1) '\x00' == '/'
      else decide (domainS.length - 1 ≤ chk.length)) = inDomain domainS chk
    by_cases hle : domainS.length - 1 ≤ chk.length
    · have hpre : domainS.dropLast.isPrefixOf chk = true :=
        dropLast_isPrefixOf_iff.2 ⟨hle, fun j hj => hagree' j (by omega)⟩
      rcases Nat.lt_or_eq_of_le hle with hlt | heq
      · simp [inDomain, hpre, hlt, Nat.ne_of_gt hlt]
      · simp [inDomain, hpre, heq]
    · have hpre : domainS.dropLast.isPrefixOf chk = false := by
        rw [Bool.eq_false_iff, ne_eq, dropLast_isPrefixOf_iff]
        exact fun h => hle h.1
      have hlt : ¬domainS.length - 1 < chk.length := by omega
      simp [inDomain, hpre, hle, hlt]

/-- The indices below a tracker's divergence agree between its domain and `chk`. -/
def Dvg.Agrees (d : Dvg) (domainS chk : List Char) : Prop :=
  ∀ j < d.dvg, j < chk.length → domainS.getD j '\x00' = chk.getD j '\x00'

theorem Dvg.agrees_default (domainS chk : List Char) : ({} : Dvg).Agrees domainS chk :=
  fun _ hj _ => absurd hj (Nat.not_lt_zero _)

/-- A tracker still agrees with a real that was cut or lengthened since its update. -/
theorem Dvg.Tracks.agrees {d : Dvg} {domainS chk chk' : List Char} (ht : d.Tracks domainS chk)
    (h : chk' <+: chk ∨ chk <+: chk') : d.Agrees domainS chk' := by
  intro j hj hj'
  have hjc : j < chk.length := Nat.lt_of_lt_of_le hj ht.dvg_le
  rw [ht.agree j hj]
  rcases h with ⟨t, rfl⟩ | ⟨t, rfl⟩
  · exact List.getD_append _ _ _ _ hj'
  · exact (List.getD_append _ _ _ _ hjc).symm

/-- The four trackers know the real `real`. -/
structure Tracked (rp : RealPath) (st : SolveSt) (real : List Char) : Prop where
  inRepo : st.inRepo.Tracks rp.env.repoRootS real
  inTmp : st.inTmp.Tracks rp.env.tmpDirOrDflt real
  inProc : st.inProc.Tracks "/proc/".toList real
  inDev : st.inDev.Tracks "/dev/".toList real

theorem tmpDirOrDflt_ne_nil (env : RealPathEnv) : env.tmpDirOrDflt ≠ [] := by
  rw [RealPathEnv.tmpDirOrDflt]
  split
  · simp
  · next h => simpa using h

/-- The increment brings the trackers to the real, from trackers that agree with it. -/
theorem updateDvgs_tracked {rp : RealPath} {st st' : SolveSt} (hu : rp.updateDvgs st = .ok st')
    (hrepo : rp.env.repoRootS ≠ []) (h1 : st.inRepo.Agrees rp.env.repoRootS st.real)
    (h2 : st.inTmp.Agrees rp.env.tmpDirOrDflt st.real)
    (h3 : st.inProc.Agrees "/proc/".toList st.real) (h4 : st.inDev.Agrees "/dev/".toList st.real) :
    Tracked rp st' st.real ∧ st'.real = st.real ∧ st'.lnks = st.lnks := by
  obtain ⟨inRepo, hr, hu⟩ := bind_eq_ok hu
  obtain ⟨inTmp, ht, hu⟩ := bind_eq_ok hu
  obtain ⟨inProc, hp, hu⟩ := bind_eq_ok hu
  obtain ⟨inDev, hd, hu⟩ := bind_eq_ok hu
  simp only [pure, Except.pure, Except.ok.injEq] at hu
  subst hu
  exact ⟨⟨Dvg.update_tracks hrepo h1 hr, Dvg.update_tracks (tmpDirOrDflt_ne_nil _) h2 ht,
    Dvg.update_tracks (by simp) h3 hp, Dvg.update_tracks (by simp) h4 hd⟩, rfl, rfl⟩

/-! ## One component -/

/-- The state a component ends with. -/
def Next.st : Next → SolveSt
  | .comp st => st
  | .lnk st _ => st

/-- What a component does to the real: keep it, drop its last component (`..`), add the
component, or flush it (an absolute link). -/
inductive RealStep (real comp : List Char) : List Char → Prop
  | keep : RealStep real comp real
  | up {real' c : List Char} : real = real' ++ '/' :: c → '/' ∉ c → RealStep real comp real'
  | push : comp ≠ [] → comp ≠ ['.'] → comp ≠ ['.', '.'] → RealStep real comp (real ++ '/' :: comp)
  | flush : RealStep real comp []

theorem RealStep.prefix {real comp real' : List Char} (h : RealStep real comp real') :
    real' <+: real ∨ real <+: real' := by
  cases h with
  | keep => exact .inl (List.prefix_refl _)
  | up h _ => exact .inl ⟨_, h.symm⟩
  | push => exact .inr (List.prefix_append _ _)
  | flush => exact .inl List.nil_prefix

/-- `HandleLnk` leaves the real as it is, cut at `prevRealSize`, or flushed. -/
theorem handleLnk_st (rp : RealPath) (fs : List Char → LnkRead) (st : SolveSt) (last : Bool)
    (srcIdx : Option Nat) (prev : Nat) (rest : List (List Char)) :
    ∃ real lnks ex, (rp.handleLnk fs st last srcIdx prev rest).st =
      { st with real, lnks, «exists» := ex } ∧
      (real = st.real ∨ real = st.real.take prev ∨ real = st.real.take 0) := by
  unfold handleLnk
  split
  · exact ⟨_, _, _, rfl, .inl rfl⟩
  · exact ⟨_, _, _, rfl, .inl rfl⟩
  · split
    · exact ⟨_, _, _, rfl, .inl rfl⟩
    · -- whether the rest of the name follows the target, and whether the target is absolute
      split <;> dsimp only <;> split
      · exact ⟨_, _, _, rfl, .inr (.inr rfl)⟩
      · exact ⟨_, _, _, rfl, .inr (.inl rfl)⟩
      · exact ⟨_, _, _, rfl, .inr (.inr rfl)⟩
      · exact ⟨_, _, _, rfl, .inr (.inl rfl)⟩

/-- **What one component does.**  A component only changes the real, the links and whether the
file exists, and it changes the real by one `RealStep`. -/
theorem stepComp_st {rp : RealPath} {fs : List Char → LnkRead} {noFollow : Bool} {st : SolveSt}
    {comp : List Char} {rest : List (List Char)} {n : Next}
    (h : rp.stepComp fs noFollow st comp rest = .ok n) :
    ∃ real lnks ex, n.st = { st with real, lnks, «exists» := ex } ∧ RealStep st.real comp real := by
  rw [stepComp] at h
  dsimp only at h
  split at h
  · rw [pure_eq_ok] at h
    subst h
    exact ⟨_, _, _, rfl, .keep⟩
  · split at h
    · -- `..` drops the last component of the real
      split at h
      · rw [pure_eq_ok] at h
        subst h
        exact ⟨_, _, _, rfl, .keep⟩
      · split at h
        · next i hi =>
          rw [pure_eq_ok] at h
          subst h
          obtain ⟨c, hc, hnc⟩ := rfind_eq_some hi
          exact ⟨_, _, _, rfl, .up hc hnc⟩
        · cases h
    · next hdot hdd =>
      have hne : comp ≠ [] ∧ comp ≠ ['.'] := by simpa [not_or] using hdot
      have hpush : RealStep st.real comp (st.real ++ '/' :: comp) := .push hne.1 hne.2 hdd
      -- a link read at the pushed real keeps it, goes back to the real or flushes it
      have hlnk : ∀ last srcIdx, ∃ real lnks ex,
          (rp.handleLnk fs { st with real := st.real ++ '/' :: comp } last srcIdx st.real.length
            rest).st = { st with real, lnks, «exists» := ex } ∧ RealStep st.real comp real := by
        intro last srcIdx
        obtain ⟨real, lnks, ex, he, hr⟩ :=
          handleLnk_st rp fs { st with real := st.real ++ '/' :: comp } last srcIdx st.real.length
            rest
        refine ⟨real, lnks, ex, he, ?_⟩
        rcases hr with rfl | rfl | rfl
        · exact hpush
        · rw [List.take_left' rfl]
          exact .keep
        · rw [List.take_zero]
          exact .flush
      split at h
      · rw [pure_eq_ok] at h
        subst h
        exact ⟨_, _, _, rfl, hpush⟩
      · split at h
        · rw [pure_eq_ok] at h
          subst h
          exact ⟨_, _, _, rfl, hpush⟩
        · split at h
          · rw [pure_eq_ok] at h
            subst h
            exact hlnk _ _
          · split at h
            · rw [pure_eq_ok] at h
              subst h
              exact ⟨_, _, _, rfl, hpush⟩
            · rw [pure_eq_ok] at h
              subst h
              exact hlnk _ _

/-! ## The invariant of the loop -/

/-- A real as `solve` keeps it: empty (for `/`), or a real followed by `/` and a component that
is not empty, `.` nor `..`. -/
inductive Canon : List Char → Prop
  | nil : Canon []
  | snoc {real comp : List Char} : Canon real → '/' ∉ comp → comp ≠ [] → comp ≠ ['.'] →
      comp ≠ ['.', '.'] → Canon (real ++ '/' :: comp)

theorem Canon.of_append {real c : List Char} (h : Canon (real ++ '/' :: c)) (hc : '/' ∉ c) :
    Canon real := by
  generalize hx : real ++ '/' :: c = x at h
  cases h with
  | nil => simp at hx
  | snoc hr hcomp _ _ _ =>
    -- both sides end with their last slash, which `rfind` finds at the same place
    have hlen := congrArg (rfind '/') hx
    rw [rfind_append_cons hc, rfind_append_cons hcomp, Option.some.injEq] at hlen
    rwa [(List.append_inj hx hlen).1]

theorem RealStep.canon {real comp real' : List Char} (h : RealStep real comp real')
    (hc : '/' ∉ comp) (hr : Canon real) : Canon real' := by
  cases h with
  | keep => exact hr
  | up h hnc => exact (h ▸ hr).of_append hnc
  | push h1 h2 h3 => exact .snoc hr hc h1 h2 h3
  | flush => exact .nil

/-- The pieces of `splitOn` hold no separator. -/
theorem not_mem_of_mem_splitOn {α : Type} [BEq α] [LawfulBEq α] {a : α} :
    ∀ {l c : List α}, c ∈ l.splitOn a → a ∉ c
  | [], c, h => by
    rw [List.splitOn_nil, List.mem_singleton] at h
    subst h
    exact List.not_mem_nil
  | x :: l, c, h => by
    rw [List.splitOn_cons_eq_if_modifyHead] at h
    split at h
    · rcases List.mem_cons.1 h with rfl | h
      · exact List.not_mem_nil
      · exact not_mem_of_mem_splitOn h
    · next hx =>
      obtain ⟨p, ps, hps⟩ := List.exists_cons_of_ne_nil (List.splitOn_ne_nil a l)
      rw [hps, List.modifyHead_cons] at h
      rcases List.mem_cons.1 h with rfl | h
      · have hp : a ∉ p := not_mem_of_mem_splitOn (hps ▸ List.mem_cons_self)
        rw [List.mem_cons, not_or]
        exact ⟨fun hax => hx (by rw [hax, beq_self_eq_true]), hp⟩
      · exact not_mem_of_mem_splitOn (hps ▸ List.mem_cons_of_mem p h)

/-- The invariant of the loop: the real is canonical and the trackers know it. -/
def LoopInv (rp : RealPath) (st : SolveSt) : Prop := Canon st.real ∧ Tracked rp st st.real

/-- **One component keeps the invariant.** -/
theorem stepComp_loopInv {rp : RealPath} {fs : List Char → LnkRead} {noFollow : Bool}
    {st st' : SolveSt} {comp : List Char} {rest : List (List Char)} {n : Next}
    (hrepo : rp.env.repoRootS ≠ []) (hinv : LoopInv rp st) (hc : '/' ∉ comp)
    (h : rp.stepComp fs noFollow st comp rest = .ok n) (hu : rp.updateDvgs n.st = .ok st') :
    LoopInv rp st' := by
  obtain ⟨real, lnks, ex, hn, hstep⟩ := stepComp_st h
  rw [hn] at hu
  have hpre := hstep.prefix
  obtain ⟨htr, hreal, -⟩ := updateDvgs_tracked hu hrepo (hinv.2.inRepo.agrees hpre)
    (hinv.2.inTmp.agrees hpre) (hinv.2.inProc.agrees hpre) (hinv.2.inDev.agrees hpre)
  rw [LoopInv, hreal]
  exact ⟨hstep.canon hc hinv.1, htr⟩

/-! ## The loop

`walk_reported` and `loop_reported` are the induction rules of the loop: a property of the states
that each component keeps (`StepInv`) holds of every state `finish` classifies. -/

/-- What `solve` may report: what `finish` makes of a state of the loop where `P` holds, or no real
at all. -/
def Reported (rp : RealPath) (noFollow : Bool) (P : SolveSt → Prop) (r : SolveReport) : Prop :=
  (∃ st, P st ∧ r = rp.finish noFollow st) ∨ (r.real = [] ∧ r.fileAccessed = .No ∧ r.fileLoc = .Ext)

section Loop

variable {rp : RealPath} {fs : List Char → LnkRead} {noFollow : Bool} {P : SolveSt → Prop}

/-- `P` holds again after each component, and the increment that follows it. -/
def StepInv (rp : RealPath) (fs : List Char → LnkRead) (noFollow : Bool) (P : SolveSt → Prop) :
    Prop :=
  ∀ st comp rest n st', P st → '/' ∉ comp → rp.stepComp fs noFollow st comp rest = .ok n →
    rp.updateDvgs n.st = .ok st' → P st'

/-- The walk over the components of a text reports a state where `P` holds, when `P` holds at its
start and the walks it goes on with after a link do. -/
theorem walk_reported (hP : StepInv rp fs noFollow P)
    {follow : Option (List (List Char) → SolveSt → Except String SolveReport)}
    (hk : ∀ k, follow = some k → ∀ comps st r, P st → (∀ c ∈ comps, '/' ∉ c) →
      k comps st = .ok r → Reported rp noFollow P r) :
    ∀ comps st r, P st → (∀ c ∈ comps, '/' ∉ c) → rp.walk fs noFollow follow comps st = .ok r →
      Reported rp noFollow P r
  | [], st, r, hst, _, h => by
    rw [walk, pure_eq_ok] at h
    exact .inl ⟨st, hst, h.symm⟩
  | comp :: rest, st, r, hst, hcs, h => by
    rw [walk] at h
    obtain ⟨n, hn, h⟩ := bind_eq_ok h
    have hc : '/' ∉ comp := hcs comp List.mem_cons_self
    cases n with
    | comp st1 =>
      obtain ⟨st2, hu, h⟩ := bind_eq_ok h
      exact walk_reported hP hk rest st2 r (hP st comp rest _ st2 hst hc hn hu)
        (fun c hc' => hcs c (List.mem_cons_of_mem _ hc')) h
    | lnk st1 file =>
      cases follow with
      | none =>
        -- the budget of links is spent: no real
        rw [pure_eq_ok] at h
        subst h
        exact .inr ⟨rfl, rfl, rfl⟩
      | some k =>
        obtain ⟨st2, hu, h⟩ := bind_eq_ok h
        exact hk k rfl _ st2 r (hP st comp rest _ st2 hst hc hn hu)
          (fun c hc' => not_mem_of_mem_splitOn hc') h

/-- **The loop keeps `P`**, whatever its budget of links. -/
theorem loop_reported (hP : StepInv rp fs noFollow P) :
    ∀ budget comps st r, P st → (∀ c ∈ comps, '/' ∉ c) →
      rp.loop fs noFollow budget comps st = .ok r → Reported rp noFollow P r
  | 0, comps, st, r, hst, hcs, h => by
    rw [loop] at h
    exact walk_reported hP (fun _ hk => by cases hk) comps st r hst hcs h
  | budget + 1, comps, st, r, hst, hcs, h => by
    rw [loop] at h
    refine walk_reported hP (fun k hk => ?_) comps st r hst hcs h
    cases hk
    exact loop_reported hP budget

end Loop

/-! ## What `solve` reports -/

theorem new_env {env : RealPathEnv} {rp : RealPath} (h : new env = .ok rp) :
    rp.env = env ∧ env.repoRootS ≠ [] := by
  rw [new] at h
  obtain ⟨u, hsw, h⟩ := bind_eq_ok h
  refine ⟨?_, fun hnil => ?_⟩
  · -- with a tmp dir, its check comes first
    dsimp only at h
    split at h
    · obtain ⟨_, -, h⟩ := bind_eq_ok h
      obtain ⟨_, -, h⟩ := bind_eq_ok h
      rw [pure_eq_ok] at h
      rw [← h]
    · obtain ⟨_, -, h⟩ := bind_eq_ok h
      rw [pure_eq_ok] at h
      rw [← h]
  · rw [swear_eq_ok, hnil] at hsw
    exact absurd hsw (by decide)

/-- **Every report of `solve`** is what `finish` makes of a canonical real whose trackers know it,
or has no real at all. -/
theorem solve_reported {env : RealPathEnv} {rp : RealPath} {fs : List Char → LnkRead}
    {atReal file : List Char} {noFollow : Bool} {r : SolveReport} (hnew : new env = .ok rp)
    (hat : Canon atReal ∨ atReal.length ≤ 1) (h : rp.solve fs atReal file noFollow = .ok r) :
    Reported rp noFollow (LoopInv rp) r := by
  have hrepo : rp.env.repoRootS ≠ [] := (new_env hnew).1 ▸ (new_env hnew).2
  rw [solve] at h
  dsimp only at h
  generalize hp : (if isAbs file = true then 1 else 0) = pos at h
  split at h
  · rw [pure_eq_ok] at h
    subst h
    exact .inr ⟨rfl, rfl, rfl⟩
  · next hpos =>
    obtain ⟨st, hu, h⟩ := bind_eq_ok h
    obtain ⟨htr, hreal, -⟩ := updateDvgs_tracked hu hrepo (Dvg.agrees_default _ _)
      (Dvg.agrees_default _ _) (Dvg.agrees_default _ _) (Dvg.agrees_default _ _)
    refine loop_reported (fun _ _ _ _ _ => stepComp_loopInv hrepo) _ _ st r ⟨?_, hreal ▸ htr⟩
      (fun _ hc => not_mem_of_mem_splitOn hc) h
    -- the first real: the dir a relative name is relative to, `/` being the empty real
    rw [hreal]
    dsimp only
    split
    · exact .nil
    · next hone =>
      refine hat.resolve_right fun hle => hpos ?_
      have hp01 : pos = 0 := by
        rw [← hp]
        split
        · simp_all
        · rfl
      simp only [Bool.or_eq_true, decide_eq_true_eq, not_or] at hone
      have hnil : atReal = [] := List.eq_nil_of_length_eq_zero (by omega)
      simp [hp01, hnil]

/-- A name relative to the repo root is in the admin dir or in the repo. -/
theorem lclFileLoc_eq (file : List Char) : lclFileLoc file = .Repo ∨ lclFileLoc file = .Admin := by
  rw [lclFileLoc]
  split
  · exact .inl rfl
  · split
    · exact .inr rfl
    · split
      · exact .inr rfl
      · exact .inl rfl

/-- Out of tmp, `/proc` and `/dev`, `finish` reports none of their classes. -/
theorem finish_fileLoc_of_out {rp : RealPath} {noFollow : Bool} {st : SolveSt}
    (ht : st.inTmp.ok = false) (hp : st.inProc.ok = false) (hd : st.inDev.ok = false) :
    (rp.finish noFollow st).fileLoc ≠ .Tmp ∧ (rp.finish noFollow st).fileLoc ≠ .Proc ∧
      ((rp.finish noFollow st).fileLoc = .Ext →
        st.inRepo.ok = false ∧ (rp.finish noFollow st).real = st.real) := by
  simp only [finish, ht, hp, hd, Bool.false_eq_true, if_false]
  split
  · split
    · exact ⟨nofun, nofun, nofun⟩
    · rcases lclFileLoc_eq (st.real.drop rp.env.repoRootS.length) with h | h <;>
        simp [h]
  · split
    · exact ⟨nofun, nofun, nofun⟩
    · next hr _ _ => exact ⟨nofun, nofun, fun _ => ⟨by simpa using hr, rfl⟩⟩

section Solve

variable {env : RealPathEnv} {rp : RealPath} {fs : List Char → LnkRead} {atReal file : List Char}
  {noFollow : Bool} {r : SolveReport}

/-- **What `solve` calls `Proc`**: a canonical real, out of tmp, in `/proc` or in `/dev`. -/
theorem solve_proc (hnew : new env = .ok rp) (hat : Canon atReal ∨ atReal.length ≤ 1)
    (h : rp.solve fs atReal file noFollow = .ok r) (hloc : r.fileLoc = .Proc) :
    Canon r.real ∧ inDomain env.tmpDirOrDflt r.real = false ∧
      (inDomain "/proc/".toList r.real = true ∨ inDomain "/dev/".toList r.real = true) := by
  rcases solve_reported hnew hat h with ⟨st, ⟨hc, htr⟩, rfl⟩ | ⟨-, -, hext⟩
  · rw [← (new_env hnew).1]
    cases ht : st.inTmp.ok
    · cases hp : st.inProc.ok
      · cases hd : st.inDev.ok
        · exact absurd hloc (finish_fileLoc_of_out ht hp hd).2.1
        · simp only [finish, ht, hp, hd, Bool.false_eq_true, if_false, if_true]
          rw [← htr.inTmp.ok_eq, ← htr.inDev.ok_eq]
          exact ⟨hc, ht, .inr hd⟩
      · simp only [finish, ht, hp, Bool.false_eq_true, if_false, if_true]
        rw [← htr.inTmp.ok_eq, ← htr.inProc.ok_eq]
        exact ⟨hc, ht, .inl hp⟩
    · simp [finish, ht] at hloc
  · rw [hext] at hloc
    cases hloc

/-- The lookups of the examples: the repo `/repo/`, no tmp dir and no source dir. -/
def sampleRealPath : RealPath := ⟨⟨.Full, "/repo/".toList, [], []⟩, []⟩

theorem solve_proc_dev_null :
    Canon "/dev/null".toList ∧ inDomain sampleRealPath.env.tmpDirOrDflt "/dev/null".toList = false ∧
      (inDomain "/proc/".toList "/dev/null".toList = true ∨
        inDomain "/dev/".toList "/dev/null".toList = true) :=
  solve_proc (show new sampleRealPath.env = .ok sampleRealPath from rfl) (.inr (by decide))
    (show sampleRealPath.solve (fun _ => .notLnk) [] "/dev/null".toList false =
      .ok ⟨"/dev/null".toList, [], .No, .Proc⟩ by decide) rfl

/-- **What `solve` calls `Ext`**: no real, or a canonical real in none of the domains. -/
theorem solve_ext (hnew : new env = .ok rp) (hat : Canon atReal ∨ atReal.length ≤ 1)
    (h : rp.solve fs atReal file noFollow = .ok r) (hloc : r.fileLoc = .Ext) :
    r.real = [] ∨ Canon r.real ∧ inDomain env.tmpDirOrDflt r.real = false ∧
      inDomain "/proc/".toList r.real = false ∧ inDomain "/dev/".toList r.real = false ∧
      inDomain env.repoRootS r.real = false := by
  rcases solve_reported hnew hat h with ⟨st, ⟨hc, htr⟩, rfl⟩ | ⟨hnil, -, -⟩
  · cases ht : st.inTmp.ok
    · cases hp : st.inProc.ok
      · cases hd : st.inDev.ok
        · obtain ⟨hr, hreal⟩ := (finish_fileLoc_of_out ht hp hd).2.2 hloc
          rw [← (new_env hnew).1, hreal, ← htr.inTmp.ok_eq, ← htr.inProc.ok_eq, ← htr.inDev.ok_eq,
            ← htr.inRepo.ok_eq]
          exact .inr ⟨hc, ht, hp, hd, hr⟩
        · simp [finish, ht, hp, hd] at hloc
      · simp [finish, ht, hp] at hloc
    · simp [finish, ht] at hloc
  · exact .inl hnil

theorem solve_ext_usr :
    "/usr/x".toList = [] ∨ Canon "/usr/x".toList ∧
      inDomain sampleRealPath.env.tmpDirOrDflt "/usr/x".toList = false ∧
      inDomain "/proc/".toList "/usr/x".toList = false ∧
      inDomain "/dev/".toList "/usr/x".toList = false ∧
      inDomain sampleRealPath.env.repoRootS "/usr/x".toList = false :=
  solve_ext (show new sampleRealPath.env = .ok sampleRealPath from rfl) (.inr (by decide))
    (show sampleRealPath.solve (fun _ => .notLnk) [] "/usr/x".toList false =
      .ok ⟨"/usr/x".toList, [], .No, .Ext⟩ by decide) rfl

end Solve

end RealPath

/-! ## Where `solve` and `file_loc` disagree -/

/-- **`file_loc` misses `/dev`.**  `solve` reads `/dev/null` in `/dev` and reports it in `/proc`,
but `file_loc` finds it in none of its domains and calls it external. -/
theorem solve_dev_null_file_loc :
    (do let rp ← RealPath.new ⟨.Full, "/repo/".toList, [], []⟩
        rp.solve (fun _ => .notLnk) [] "/dev/null".toList) =
      .ok ⟨"/dev/null".toList, [], .No, .Proc⟩ ∧
    RealPathEnv.fileLoc ⟨.Full, "/repo/".toList, [], []⟩ "/dev/null".toList = .ok .Ext := by
  decide

/-- **`FullExt` drops the links of source dirs.**  In the source dir `/src/`, `l` is a link to `f`.
Under `Full`, `solve` finds `l` in the source dir, follows it and reports it; under `FullExt` it
follows it too, but without the source dir it lies in, so no link is reported. -/
theorem solve_full_ext_src_lnk :
    (do let rp ← RealPath.new ⟨.FullExt, "/repo/".toList, [], ["/src/".toList]⟩
        rp.solve (fun r => if r = "/src/l".toList then .lnk "f".toList else .notLnk) []
          "/src/l".toList) =
      .ok ⟨"/src/f".toList, [], .Yes, .SrcDir⟩ ∧
    (do let rp ← RealPath.new ⟨.Full, "/repo/".toList, [], ["/src/".toList]⟩
        rp.solve (fun r => if r = "/src/l".toList then .lnk "f".toList else .notLnk) []
          "/src/l".toList) =
      .ok ⟨"/src/f".toList, ["/src/l".toList], .Yes, .SrcDir⟩ := by
  decide +kernel

end Lmake
