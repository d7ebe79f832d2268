import Mathlib.Data.List.Sort
import Lmake.Cache.CrcOk
import Lmake.BasicUtils

/-!
# Compiling the deps of a job, and matching a cached run against them

A job is looked up in the cache through a `CompileDigest`: its deps, reduced to what matters for
matching.  The constructor keeps the static deps, and the others that were accessed, with the crc
`depCrc` stores for them, and sorts them into three groups: static deps first, then the deps whose
crc is not `Crc::None` (the *existing* ones), then the others, each group by node index.  Only the
first two groups keep a crc (`depCrcs`): in the third it is `Crc::None` anyway.  So when the cache
knows every node, the static deps all keep their crc, and the digest passes the first assertion of
`match` (`compileDigest_layout`).

A cached run (`CrunData`) keeps the digest its job was uploaded with, and `CrunData.matchDigest`
(`CrunData::match`) compares it with the digest of a download.  After checking the static deps
position by position, it merges the existing deps of the run against the two groups of the
download with two cursors `j1` and `j2`, and then the non-existing deps of the run.  When the
download has as many crcs as the run, it takes a fast path for the last part, under the assertion
that every existing dep of the run was found among the existing deps of the download.

That assertion does not hold: a dep that the run recorded without reading it (only its error
status was sensed, so its crc is `Crc::Unknown|CrcOrNone`, "any file or none") is accepted when the
download does not have the file, and is then found in the third group.
`matchDigest_fast_path_swear` builds both digests with the constructor and reaches the failed
assertion.
-/

set_option autoImplicit false

namespace Cache

open Hash Lmake

/-! ## Cache hit information -/

/-- `CacheHitInfo`, in the order of the source: the comparisons `<=Hit` and `<Miss` use it. -/
inductive CacheHitInfo where
  | HitExhaustive
  | HitHidden
  | Match
  | BadDeps
  | NoJob
  | NoRule
  | BadDownload
  | NoDownload
  | BadCache
  | NoCache
  deriving DecidableEq, Repr

namespace CacheHitInfo

/-- The rank of a value in the enum. -/
def toNat : CacheHitInfo → Nat
  | HitExhaustive => 0
  | HitHidden => 1
  | Match => 2
  | BadDeps => 3
  | NoJob => 4
  | NoRule => 5
  | BadDownload => 6
  | NoDownload => 7
  | BadCache => 8
  | NoCache => 9

instance : LE CacheHitInfo := ⟨fun a b => a.toNat ≤ b.toNat⟩

instance : DecidableRel (α := CacheHitInfo) (· ≤ ·) :=
  fun a b => inferInstanceAs (Decidable (a.toNat ≤ b.toNat))

/-- `<=Hit` means cache hit. -/
def Hit : CacheHitInfo := HitHidden

/-- `>=Miss` means cache miss. -/
def Miss : CacheHitInfo := BadDeps

end CacheHitInfo

/-! ## `CompileDigest` -/

/-- What the compilation reads of a dep's `DepDigest`: its accesses, the flags `Dflag::Full` and
`Dflag::Static`, its error status and its crc. -/
structure DepDigest where
  accesses : Accesses
  full : Bool
  static : Bool
  err : Bool
  crc : Crc
  deriving DecidableEq, Repr

/-- `DepDigest::never_match`. -/
def DepDigest.neverMatch (dd : DepDigest) : Bool := dd.crc.neverMatch dd.accesses

/-- The deps of a job as matching sees them.  Nodes are given by their index. -/
structure CompileDigest where
  nStatics : Nat
  hasHidden : Bool
  deps : List Nat
  depCrcs : List Crc
  deriving DecidableEq, Repr

/-- A dep kept by the compilation, with the group it is sorted into. -/
structure Dep where
  bucket : Nat
  node : Nat
  crc : Crc
  deriving DecidableEq, Repr

/-- `Dep::operator<` on `(bucket,node)`, as the non-strict order the sort uses. -/
def Dep.le (d e : Dep) : Prop := d.bucket < e.bucket ∨ (d.bucket = e.bucket ∧ d.node ≤ e.node)

instance : DecidableRel Dep.le := fun _ _ => inferInstanceAs (Decidable (_ ∨ _))

/-- `Max<VarIdx>`, the bound on the number of static deps. -/
def maxVarIdx : Nat := 255

/-- What the constructor has gathered so far. -/
structure Compiled where
  nStatics : Nat
  hasHidden : Bool
  deps : List Dep
  deriving DecidableEq, Repr

/-- One iteration of the constructor's loop.  `node` is the node the cache has for the dep's name,
`none` when it has none: only a download can meet that, an upload creates the node. -/
def compileStep (forDownload : Bool) (acc : Compiled) : Option Nat × DepDigest → Except String Compiled
  | (node, dd) =>
    -- a dep that is not `Full` is used for resources only, with no real access
    let a := if dd.full then dd.accesses else Accesses.empty
    if dd.full && !forDownload && dd.neverMatch then .error "!dd.never_match()"
    else if dd.static && !decide (acc.nStatics < maxVarIdx) then .error "n_statics<Max<VarIdx>"
    else if !dd.static && !a.nonEmpty then .ok { acc with hasHidden := true }
    else
      let nStatics := if dd.static then acc.nStatics + 1 else acc.nStatics
      match node with
      | none => .ok { acc with nStatics }
      | some n =>
        let crc := depCrc forDownload dd.crc a dd.err
        let bucket := if dd.static then 0 else if crc != Crc.none then 1 else 2
        .ok { acc with nStatics, deps := acc.deps ++ [⟨bucket, n, crc⟩] }

/-- `CompileDigest::CompileDigest`: gather, sort by `(bucket,node)`, and keep the crcs up to the
first dep of the third group. -/
def compileDigest (repoDeps : List (Option Nat × DepDigest)) (forDownload : Bool) :
    Except String CompileDigest := do
  let c ← repoDeps.foldlM (compileStep forDownload) ⟨0, false, []⟩
  let sorted := c.deps.insertionSort Dep.le
  pure
    { nStatics := c.nStatics
      hasHidden := c.hasHidden
      deps := sorted.map Dep.node
      depCrcs := (sorted.takeWhile fun d => d.bucket != 2).map Dep.crc }

/-! ## The layout of a compiled digest -/

instance : Std.Total Dep.le := ⟨fun d e => by unfold Dep.le; omega⟩

instance : IsTrans Dep Dep.le := ⟨fun d e f => by unfold Dep.le; omega⟩

/-- What the loop of the constructor keeps: the static deps are those of the first group, and
there are three groups. -/
def Compiled.Wf (c : Compiled) : Prop :=
  c.deps.countP (·.bucket == 0) = c.nStatics ∧ ∀ d ∈ c.deps, d.bucket ≤ 2

/-- Pushing a dep keeps the invariant when it goes in the first group exactly when it is static. -/
theorem wf_push {acc : Compiled} (hw : acc.Wf) (static : Bool) {b : Nat} (hb : b = 0 ↔ static)
    (hb2 : b ≤ 2) (n : Nat) (crc : Crc) :
    ({ acc with
        nStatics := if static then acc.nStatics + 1 else acc.nStatics
        deps := acc.deps ++ [⟨b, n, crc⟩] } : Compiled).Wf := by
  obtain ⟨hc, hbs⟩ := hw
  refine ⟨?_, ?_⟩
  · cases static <;> simp_all [List.countP_append]
  · intro d hd
    rcases List.mem_append.mp hd with hd | hd
    · exact hbs d hd
    · rw [List.mem_singleton.mp hd]; exact hb2

theorem wf_compileStep {fd : Bool} {acc acc' : Compiled} {n : Nat} {dd : DepDigest}
    (h : compileStep fd acc (some n, dd) = .ok acc') (hw : acc.Wf) : acc'.Wf := by
  simp only [compileStep] at h
  -- the accesses the dep is matched on do not matter here
  generalize (if dd.full = true then dd.accesses else Accesses.empty) = a at h
  split at h
  · cases h
  split at h
  · cases h
  split at h
  · cases h; exact hw
  cases h
  refine wf_push hw dd.static ?_ ?_ n _
  · cases dd.static <;> simp; split <;> simp
  · split
    · simp
    · split <;> simp

/-- The loop of the constructor keeps the invariant, when the cache knows every node. -/
theorem wf_foldlM_compileStep {fd : Bool} (l : List (Option Nat × DepDigest))
    (hl : ∀ p ∈ l, p.1.isSome) {acc c : Compiled} (hw : acc.Wf)
    (h : l.foldlM (compileStep fd) acc = .ok c) : c.Wf := by
  induction l generalizing acc with
  | nil => cases h; exact hw
  | cons p l ih =>
    obtain ⟨node, dd⟩ := p
    obtain ⟨n, rfl⟩ := Option.isSome_iff_exists.mp (hl _ List.mem_cons_self)
    rw [List.foldlM_cons] at h
    obtain ⟨a, ha, h⟩ := bind_eq_ok h
    exact ih (fun q hq => hl q (List.mem_cons_of_mem _ hq)) (wf_compileStep ha hw) h

/-- In deps sorted by group, no static dep comes after a dep of the third group: the static deps
are all in the part that keeps a crc. -/
theorem countP_static_le_takeWhile {l : List Dep} (hs : l.Pairwise Dep.le) :
    l.countP (·.bucket == 0) ≤ (l.takeWhile fun d => d.bucket != 2).length := by
  have hdrop : (l.dropWhile fun d => d.bucket != 2).countP (·.bucket == 0) = 0 := by
    match hd : l.dropWhile fun d => d.bucket != 2 with
    | [] => rw [hd]; rfl
    | d :: rest =>
      -- the first dep of the rest is of the third group, and the sort puts none below it
      have hd2 : d.bucket = 2 := by
        have := List.head_dropWhile_not (fun d : Dep => d.bucket != 2) (l := l) (by simp [hd])
        simpa [hd] using this
      have hsr : (d :: rest).Pairwise Dep.le := hd ▸ hs.sublist (List.dropWhile_sublist _)
      rw [hd, List.countP_eq_zero]
      intro e he
      rcases List.mem_cons.mp he with rfl | he
      · simp [hd2]
      · have := List.rel_of_pairwise_cons hsr he
        unfold Dep.le at this
        simp only [beq_iff_eq]
        omega
  calc l.countP (·.bucket == 0)
      = (l.takeWhile (fun d => d.bucket != 2) ++ l.dropWhile fun d => d.bucket != 2).countP
          (·.bucket == 0) := by rw [List.takeWhile_append_dropWhile]
    _ = (l.takeWhile fun d => d.bucket != 2).countP (·.bucket == 0) := by
        rw [List.countP_append, hdrop, Nat.add_zero]
    _ ≤ (l.takeWhile fun d => d.bucket != 2).length := List.countP_le_length

/-- A digest of deps whose nodes the cache knows (as for an upload, which creates them) passes the
first assertion of `match`: `n_statics<=dep_crcs_.size() && dep_crcs_.size()<=deps_.size()`. -/
theorem compileDigest_layout {repoDeps : List (Option Nat × DepDigest)} {fd : Bool}
    {cd : CompileDigest} (hn : ∀ p ∈ repoDeps, p.1.isSome) (h : compileDigest repoDeps fd = .ok cd) :
    cd.nStatics ≤ cd.depCrcs.length ∧ cd.depCrcs.length ≤ cd.deps.length := by
  obtain ⟨c, hc, h⟩ := bind_eq_ok h
  cases h
  have hw0 : Compiled.Wf ⟨0, false, []⟩ := ⟨rfl, by simp⟩
  obtain ⟨hcount, -⟩ := wf_foldlM_compileStep repoDeps hn hw0 hc
  have hperm := List.perm_insertionSort Dep.le c.deps
  simp only [List.length_map]
  constructor
  · calc c.nStatics
        = (c.deps.insertionSort Dep.le).countP (·.bucket == 0) := by
          rw [hperm.countP_eq, hcount]
      _ ≤ _ := countP_static_le_takeWhile (List.pairwise_insertionSort Dep.le c.deps)
  · exact (List.takeWhile_sublist _).length_le

/-- A static dep, node `1`, and an existing one, node `2`, both read: the static dep comes first,
and both keep their crc. -/
theorem compileDigest_layout_static :
    compileDigest [(some 2, ⟨⟨false, true, false, false⟩, true, false, false, ⟨64⟩⟩),
        (some 1, ⟨⟨false, true, false, false⟩, true, true, false, ⟨64⟩⟩)] false =
        .ok ⟨1, false, [1, 2], [⟨64⟩, ⟨64⟩]⟩ ∧ 1 ≤ [(⟨64⟩ : Crc), ⟨64⟩].length ∧
      [(⟨64⟩ : Crc), ⟨64⟩].length ≤ [1, 2].length :=
  have h : compileDigest [(some 2, ⟨⟨false, true, false, false⟩, true, false, false, ⟨64⟩⟩),
      (some 1, ⟨⟨false, true, false, false⟩, true, true, false, ⟨64⟩⟩)] false =
      .ok ⟨1, false, [1, 2], [⟨64⟩, ⟨64⟩]⟩ := by decide
  ⟨h, compileDigest_layout (by decide) h⟩

/-! ## `CrunData::match` -/

/-- What matching reads of a cached run: the deps and crcs of the digest it was uploaded with. -/
structure CrunData where
  deps : List Nat
  depCrcs : List Crc
  hasHidden : Bool
  deriving DecidableEq, Repr

/-- Why the matching loops stop early: a failed assertion, or a dep with a different crc (the
`not_found` output is carried along, as the caller may read it). -/
inductive Stop where
  | fail (msg : String)
  | badDeps (notFound : Option Nat)
  deriving DecidableEq, Repr

/-- The mutable state of `CrunData::match`: the two cursors into the download's deps, the result
so far and the `not_found` output (`none` while it is untouched). -/
structure Cursor where
  j1 : Nat
  j2 : Nat
  res : CacheHitInfo
  notFound : Option Nat
  deriving DecidableEq, Repr

/-- `crc_ok`, whose `FAIL` stops the matching. -/
def crcOkM (cacheCrc repoCrc : Crc) : Except Stop Bool :=
  match crcOk cacheCrc repoCrc with
  | some b => .ok b
  | none => .error (.fail "crc_ok")

/-- `while ( j<lim && +deps_[j]< +n ) j++`, run for at most `fuel` iterations. -/
def advance (deps_ : List Nat) (lim n : Nat) : Nat → Nat → Nat
  | 0, j => j
  | fuel + 1, j => if j < lim ∧ deps_.getD j 0 < n then advance deps_ lim n fuel (j + 1) else j

/-- The static deps must be the same in both digests, with accepted crcs. -/
def matchStatics (view deps_ : List Nat) (viewCrcs crcs_ : List Crc) (nStatics : Nat) :
    Except Stop Unit :=
  (List.range nStatics).forM fun i => do
    if view.getD i 0 != deps_.getD i 0 then throw (.fail "deps_view[i]==deps_[i]")
    if !(← crcOkM (viewCrcs.getD i Crc.unknown) (crcs_.getD i Crc.unknown)) then
      throw (.badDeps none)

/-- Look the run's dep `n` up in the download: first among the existing deps from `j1`, with
`ok1` deciding on the crc found there, then among the non-existing ones from `j2`, with `ok2`.
A dep found nowhere makes the result `Match`, the first time. -/
def mergeStep (deps_ : List Nat) (crcs_ : List Crc) (ok1 : Crc → Except Stop Bool)
    (ok2 : Except Stop Bool) (st : Cursor) (n : Nat) : Except Stop Cursor := do
  let j1 := advance deps_ crcs_.length n crcs_.length st.j1
  if j1 < crcs_.length ∧ deps_.getD j1 0 = n then
    if !(← ok1 (crcs_.getD j1 Crc.unknown)) then throw (.badDeps st.notFound)
    pure { st with j1 := j1 + 1 }
  else
    let j2 := advance deps_ deps_.length n deps_.length st.j2
    if j2 < deps_.length ∧ deps_.getD j2 0 = n then
      if !(← ok2) then throw (.badDeps st.notFound)
      pure { st with j1, j2 := j2 + 1 }
    else if st.res ≤ .Hit then pure { st with j1, j2, res := .Match, notFound := some n }
    else pure { st with j1, j2 }

/-- The fast path for a non-existing dep `n` of the run: only the download's non-existing deps are
searched. -/
def fastStep (deps_ : List Nat) (st : Cursor) (n : Nat) : Cursor :=
  let j2 := advance deps_ deps_.length n deps_.length st.j2
  if j2 < deps_.length ∧ deps_.getD j2 0 = n then { st with j2 := j2 + 1 }
  else if st.res ≤ .Hit then { st with j2, res := .Match, notFound := some n }
  else { st with j2 }

/-- The body of `CrunData::match`, with its early exits. -/
def matchLoops (nStatics : Nat) (run : CrunData) (cd : CompileDigest) : Except Stop Cursor := do
  let view := run.deps
  let viewCrcs := run.depCrcs
  let deps_ := cd.deps
  let crcs_ := cd.depCrcs
  if !decide (nStatics ≤ crcs_.length ∧ crcs_.length ≤ deps_.length) then
    throw (.fail "n_statics<=dep_crcs_.size() && dep_crcs_.size()<=deps_.size()")
  if !decide (nStatics ≤ viewCrcs.length ∧ viewCrcs.length ≤ view.length) then
    throw (.fail "n_statics<=dep_crcs_view.size() && dep_crcs_view.size()<=deps_view.size()")
  matchStatics view deps_ viewCrcs crcs_ nStatics
  let st0 : Cursor :=
    ⟨nStatics, crcs_.length, if run.hasHidden then .HitHidden else .HitExhaustive, none⟩
  -- the run's existing deps
  let st ← (List.range' nStatics (viewCrcs.length - nStatics)).foldlM
    (fun st i => mergeStep deps_ crcs_ (crcOkM (viewCrcs.getD i Crc.unknown))
      (crcOkM (viewCrcs.getD i Crc.unknown) Crc.none) st (view.getD i 0)) st0
  -- the run's non-existing deps
  let others := List.range' viewCrcs.length (view.length - viewCrcs.length)
  if st.res ≤ .Hit ∧ crcs_.length = viewCrcs.length then
    if st.j2 != crcs_.length then throw (.fail "j2==dep_crcs_.size()")
    pure (others.foldl (fun st i => fastStep deps_ st (view.getD i 0)) st)
  else
    others.foldlM (fun st i => mergeStep deps_ crcs_ (crcOkM Crc.none) (pure true) st (view.getD i 0))
      { st with j1 := nStatics, j2 := crcs_.length }

/-- `CrunData::match`: the hit information and the `not_found` output, or the failed assertion. -/
def CrunData.matchDigest (nStatics : Nat) (run : CrunData) (cd : CompileDigest) :
    Except String (CacheHitInfo × Option Nat) :=
  match matchLoops nStatics run cd with
  | .ok st => .ok (st.res, st.notFound)
  | .error (.badDeps nf) => .ok (.BadDeps, nf)
  | .error (.fail msg) => .error msg

/-- The run a digest is uploaded as, as `CrunData::CrunData` fills it. -/
def CrunData.ofDigest (cd : CompileDigest) : CrunData := ⟨cd.deps, cd.depCrcs, cd.hasHidden⟩

/-- The fast path's assertion fails on digests the constructor builds.  The run read no file: its
only dep, node `1`, was sensed for its error status alone, so it is stored as `Unknown|CrcOrNone`
(`8`).  The download does not have that file, and read another one, node `2`.  Both digests have
one crc; node `1` is accepted (`crc_ok(8,None)`) but found among the non-existing deps, which moves
`j2` past the end of the existing ones. -/
theorem matchDigest_fast_path_swear :
    compileDigest [(some 1, ⟨⟨false, false, false, true⟩, true, false, false, ⟨64⟩⟩)] false =
        .ok ⟨0, false, [1], [⟨8⟩]⟩ ∧
      compileDigest [(some 1, ⟨⟨false, false, false, true⟩, true, false, false, Crc.none⟩),
          (some 2, ⟨⟨false, true, false, false⟩, true, false, false, ⟨64⟩⟩)] true =
        .ok ⟨0, false, [2, 1], [⟨64⟩]⟩ ∧
      crcOk ⟨8⟩ Crc.none = some true ∧
      CrunData.matchDigest 0 (CrunData.ofDigest ⟨0, false, [1], [⟨8⟩]⟩) ⟨0, false, [2, 1], [⟨64⟩]⟩ =
        .error "j2==dep_crcs_.size()" := by
  decide

end Cache
