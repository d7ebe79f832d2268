import Lmake.BasicUtils
import Lmake.Cache.Engine

/-!
# The cache store: runs, their LRU lists, and insertion

The cache keeps, for each job, up to `max_runs_per_job` runs.  Each run is on two doubly linked
LRU lists whose links are stored in the run itself: the list of its job (`job_lru`, headed in the
job) and the global list of its rate (`glb_lru`, headed in the store's header), the rates that
have runs being kept in `RateCmp::s_tab` and enclosed by `s_iota`.  Each job keeps at most one run
per key and per `key_is_last`: `CjobData::insert` scans the runs of the job, newest first,
collecting the ones with the new run's key, and victimizes the one the new run replaces.

The scan follows `job_lru.older` from each run, also from a run it has just victimized.
Victimizing a run unlinks it, which clears its links, so the scan stops there and never sees the
older runs (`jobLru_victimize`, `scan_stops_after_victimize`).  `insert_second_last` builds a job with two runs for one key, both marked last, and a
further insertion with that key fails the assertion that there is only one.

The run file is an allocator whose freed items keep their content (the free list link overwrites
`last_access` only), so reading a freed run, as the scan does, reads what `victimize` left there.
The order of `s_tab`, a score of floating point values that changes with the clock, is left to a
parameter `pickRate` of `mkRoom`; only its content is modelled.
-/

set_option autoImplicit false

namespace Cache

open Hash Lmake

/-! ## Data -/

/-- `LruEntry`: the links of a run in a list; for a header, `newer` is the oldest run and `older`
the newest.  Runs are given by their index, `0` standing for none. -/
structure LruEntry where
  newer : Nat
  older : Nat
  deriving DecidableEq, Repr

/-- `+e`: the entry has a neighbour (the header: the list is not empty). -/
def LruEntry.nonEmpty (e : LruEntry) : Bool := e.newer != 0 || e.older != 0

/-- `CrunData`: a cached run. -/
structure RunData where
  lastAccess : Nat
  targetsCrc : Crc
  sz : Nat
  glbLru : LruEntry
  jobLru : LruEntry
  job : Nat
  deps : List Nat
  depCrcs : List Crc
  key : Nat
  rate : Nat
  keyIsLast : Bool
  hasHidden : Bool
  deriving DecidableEq, Repr

/-- The run as matching sees it. -/
def RunData.crun (rd : RunData) : CrunData := ⟨rd.deps, rd.depCrcs, rd.hasHidden⟩

/-- `CjobData`: the head of the job's LRU, its number of runs and of static deps. -/
structure JobData where
  lru : LruEntry
  nRuns : Nat
  nStatics : Nat
  deriving DecidableEq, Repr

/-- Which list of a run, `LruEntry CrunData::*`. -/
inductive Lru where
  | glb
  | job
  deriving DecidableEq, Repr

/-- Where the header of a list lives: in a job, or in the store header for a rate. -/
inductive Hdr where
  | job (j : Nat)
  | rate (r : Nat)
  deriving DecidableEq, Repr

/-- `KeyIsLast`: which of the first and last runs of a key the new run is. -/
inductive KeyIsLast where
  | No
  | OverrideFirst
  | Plain
  | Yes
  deriving DecidableEq, Repr

/-- The cache config the store reads. -/
structure CacheConfig where
  maxSz : Nat
  maxRunsPerJob : Nat

/-- The store: the run file (`free` is its free list), jobs, the rate headers, `RateCmp::s_tab`
and `s_iota`, the total size, the reference counts of keys and nodes, and the job trash. -/
structure Store where
  runs : Map Nat RunData
  free : List Nat
  jobs : Map Nat JobData
  lrus : Map Nat LruEntry
  tab : List Nat
  iota : Nat × Nat
  totalSz : Nat
  keyRefs : Map Nat Nat
  nodeRefs : Map Nat Nat
  trash : List Nat

namespace Store

/-- The empty store. -/
def empty : Store := ⟨∅, [], ∅, ∅, [], (0, 0), 0, ∅, ∅, []⟩

/-! ## Accessing the lists -/

def run (st : Store) (r : Nat) : RunData :=
  (st.runs.lookup r).getD ⟨0, Crc.unknown, 0, ⟨0, 0⟩, ⟨0, 0⟩, 0, [], [], 0, 0, false, false⟩

def setRun (st : Store) (r : Nat) (rd : RunData) : Store := { st with runs := st.runs.insert r rd }

def job (st : Store) (j : Nat) : JobData := (st.jobs.lookup j).getD ⟨⟨0, 0⟩, 0, 0⟩

def setJob (st : Store) (j : Nat) (jd : JobData) : Store := { st with jobs := st.jobs.insert j jd }

def link (st : Store) (r : Nat) : Lru → LruEntry
  | .glb => (st.run r).glbLru
  | .job => (st.run r).jobLru

def setLink (st : Store) (r : Nat) (l : Lru) (e : LruEntry) : Store :=
  match l with
  | .glb => st.setRun r { st.run r with glbLru := e }
  | .job => st.setRun r { st.run r with jobLru := e }

def hdr (st : Store) : Hdr → LruEntry
  | .job j => (st.job j).lru
  | .rate r => (st.lrus.lookup r).getD ⟨0, 0⟩

def setHdr (st : Store) (h : Hdr) (e : LruEntry) : Store :=
  match h with
  | .job j => st.setJob j { st.job j with lru := e }
  | .rate r => { st with lrus := st.lrus.insert r e }

/-- `LruEntry::insert_top`: make run `r` the newest of the list; whether the list was empty. -/
def insertTop (st : Store) (h : Hdr) (r : Nat) (l : Lru) : Store × Bool :=
  let hd := st.hdr h
  let first := hd.older == 0
  let st := st.setLink r l ⟨0, hd.older⟩
  let st := if first then st.setHdr h { hd with newer := r }
    else st.setLink hd.older l { st.link hd.older l with newer := r }
  (st.setHdr h { st.hdr h with older := r }, first)

/-- `LruEntry::erase`: unlink run `r` and clear its links; whether the list is now empty. -/
def erase (st : Store) (h : Hdr) (r : Nat) (l : Lru) : Store × Bool :=
  let e := st.link r l
  let st := if e.older != 0 then st.setLink e.older l { st.link e.older l with newer := e.newer }
    else st.setHdr h { st.hdr h with newer := e.newer }
  let st := if e.newer != 0 then st.setLink e.newer l { st.link e.newer l with older := e.older }
    else st.setHdr h { st.hdr h with older := e.older }
  (st.setLink r l ⟨0, 0⟩, e.older == 0 && e.newer == 0)

/-- `LruEntry::mv_to_top`. -/
def mvToTop (st : Store) (h : Hdr) (r : Nat) (l : Lru) : Store :=
  if (st.link r l).newer == 0 then st
  else ((st.erase h r l).1.insertTop h r l).1

/-- `RateCmp::s_insert`, on the content of `s_tab`. -/
def tabInsert (st : Store) (rate : Nat) : Store :=
  if rate ∈ st.tab then st else { st with tab := st.tab ++ [rate] }

/-- `inc` or `dec` of the reference count of `k`. -/
def bump (m : Map Nat Nat) (k : Nat) (up : Bool) : Map Nat Nat :=
  let n := (m.lookup k).getD 0
  m.insert k (if up then n + 1 else n - 1)

/-! ### What each write leaves -/

@[simp] theorem run_setRun_self (st : Store) (r : Nat) (rd : RunData) :
    (st.setRun r rd).run r = rd := by
  simp [run, setRun]

theorem run_setRun_of_ne (st : Store) {r x : Nat} (rd : RunData) (h : x ≠ r) :
    (st.setRun r rd).run x = st.run x := by
  simp [run, setRun, AList.lookup_insert_ne h]

@[simp] theorem run_setHdr (st : Store) (h : Hdr) (e : LruEntry) (x : Nat) :
    (st.setHdr h e).run x = st.run x := by
  cases h <;> rfl

/-- Writing a run's link in one list leaves its link in the other. -/
@[simp] theorem jobLru_setLink_glb (st : Store) (r : Nat) (e : LruEntry) (x : Nat) :
    ((st.setLink r .glb e).run x).jobLru = (st.run x).jobLru := by
  by_cases hx : x = r
  · subst hx; simp [setLink]
  · simp [setLink, run_setRun_of_ne _ _ hx]

/-- `erase` clears the links of the run it unlinks. -/
@[simp] theorem link_erase_self (st : Store) (h : Hdr) (r : Nat) (l : Lru) :
    (st.erase h r l).1.link r l = ⟨0, 0⟩ := by
  cases l <;> simp [erase, link, setLink]

theorem jobLru_erase_glb (st : Store) (h : Hdr) (r x : Nat) :
    ((st.erase h r .glb).1.run x).jobLru = (st.run x).jobLru := by
  simp only [erase]
  split <;> split <;> simp

@[simp] theorem runs_setJob (st : Store) (j : Nat) (jd : JobData) :
    (st.setJob j jd).runs = st.runs :=
  rfl

@[simp] theorem runs_tabInsert (st : Store) (q : Nat) : (st.tabInsert q).runs = st.runs := by
  unfold tabInsert; split <;> rfl

/-! ## Runs -/

/-- The `s_iota` lower bound moves up past the rates with no run, and the upper one down. -/
def shrinkLo (st : Store) : Nat → Nat → Nat
  | 0, lo => lo
  | fuel + 1, lo =>
    if lo < st.iota.2 ∧ !(st.hdr (.rate lo)).nonEmpty then shrinkLo st fuel (lo + 1) else lo

def shrinkHi (st : Store) (lo : Nat) : Nat → Nat → Nat
  | 0, hi => hi
  | fuel + 1, hi =>
    if lo < hi ∧ !(st.hdr (.rate (hi - 1))).nonEmpty then shrinkHi st lo fuel (hi - 1) else hi

/-- `CrunData::victimize`: unlink the run from both lists, release what it references, and free
it. -/
def victimize (st : Store) (r : Nat) (victimizeJob : Bool) : Except String Store := do
  let rd := st.run r
  let st := { st with tab := st.tab.erase rd.rate }
  let (st, last) := st.erase (.job rd.job) r .job
  let (st, _) := st.erase (.rate rd.rate) r .glb
  let st := if (st.hdr (.rate rd.rate)).newer == 0 then
      let lo := shrinkLo st (st.iota.2 - st.iota.1) st.iota.1
      { st with iota := (lo, shrinkHi st lo (st.iota.2 - lo) st.iota.2) }
    else st.tabInsert rd.rate
  let st := { st with keyRefs := bump st.keyRefs rd.key false }
  let jd := st.job rd.job
  swear (jd.nRuns > 0) "job->n_runs>0"
  let st := st.setJob rd.job { jd with nRuns := jd.nRuns - 1 }
  let st := { st with nodeRefs := rd.deps.foldl (fun m d => bump m d false) st.nodeRefs }
  let st := if victimizeJob && last then { st with trash := st.trash ++ [rd.job] } else st
  swear (st.totalSz ≥ rd.sz) "hdr.total_sz >= sz"
  pure { st with totalSz := st.totalSz - rd.sz, free := r :: st.free }

/-- A victimized run is left with its job link cleared: `victimize` writes no run after its two
`erase`s. -/
theorem jobLru_victimize {st st' : Store} {r : Nat} {b : Bool} (h : st.victimize r b = .ok st') :
    (st'.run r).jobLru = ⟨0, 0⟩ := by
  rw [victimize] at h
  split at h
  rename_i st₁ last hp₁
  split at h
  rename_i st₂ x hp₂
  obtain ⟨-, -, h⟩ := bind_eq_ok h
  obtain ⟨-, -, h⟩ := bind_eq_ok h
  cases h
  -- nothing after the two `erase`s writes a run
  have hruns : ∀ st'' : Store, st''.runs = st₂.runs → st''.run r = st₂.run r :=
    fun st'' h => by simp only [run, h]
  refine (congrArg RunData.jobLru (hruns _ ?_)).trans ?_
  · split_ifs <;> simp
  · -- the `glb` erase keeps the job link, which the `job` erase cleared
    have h₂ := jobLru_erase_glb st₁ (.rate (st.run r).rate) r r
    rw [hp₂] at h₂
    have h₁ := link_erase_self ({ st with tab := st.tab.erase (st.run r).rate } : Store)
      (.job (st.run r).job) r .job
    rw [hp₁] at h₁
    exact h₂.trans h₁

/-- `CrunData::CrunData`: allocate a run and put it on top of both lists. -/
def newRun (st : Store) (cfg : CacheConfig) (key : Nat) (last : Bool) (j : Nat) (targetsCrc : Crc)
    (la sz rate : Nat) (cd : CompileDigest) : Except String (Nat × Store) := do
  let (r, free) := match st.free with
    | r :: free => (r, free)
    | [] => (st.runs.entries.length + 1, [])
  let st := { st with free }
  let st := st.setRun r ⟨la, targetsCrc, sz, ⟨0, 0⟩, ⟨0, 0⟩, j, cd.deps, cd.depCrcs, key, rate, last,
    cd.hasHidden⟩
  let first := !(st.hdr (.rate rate)).nonEmpty
  let st := { st with totalSz := st.totalSz + sz }
  let (st, _) := st.insertTop (.job j) r .job
  let (st, _) := st.insertTop (.rate rate) r .glb
  let st := if first then
      let lo := if rate < st.iota.1 then rate else st.iota.1
      let hi := if rate ≥ st.iota.2 then rate + 1 else st.iota.2
      { st with iota := (lo, hi) }.tabInsert rate
    else st
  let st := { st with keyRefs := bump st.keyRefs key true }
  let jd := st.job j
  swear (decide (jd.nRuns < cfg.maxRunsPerJob)) "job->n_runs<g_cache_config.max_runs_per_job"
  let st := st.setJob j { jd with nRuns := jd.nRuns + 1 }
  pure (r, { st with nodeRefs := cd.deps.foldl (fun m d => bump m d true) st.nodeRefs })

/-- `CrunData::access`: move the run on top of both lists. -/
def access (st : Store) (r : Nat) (now : Nat) : Store :=
  let rd := st.run r
  let st := { st with tab := st.tab.erase rd.rate }
  let st := st.mvToTop (.job rd.job) r .job
  let st := st.mvToTop (.rate rd.rate) r .glb
  (st.setRun r { st.run r with lastAccess := now }).tabInsert rd.rate

/-- The loop of `mk_room`: victimize the oldest run of the best rate (`pickRate`, the order of
`s_tab`) until the new size fits; at most one victim per run. -/
def mkRoomLoop (cfg : CacheConfig) (pickRate : Store → Nat) (reserved sz keepJob : Nat) :
    Nat → Store → Except String Store
  | 0, st => pure st
  | fuel + 1, st => do
    if st.totalSz ≠ 0 ∧ st.totalSz + reserved + sz > cfg.maxSz then
      swear (!st.tab.isEmpty) "+RateCmp::s_tab"
      let best := (st.hdr (.rate (pickRate st))).newer
      mkRoomLoop cfg pickRate reserved sz keepJob fuel (← st.victimize best ((st.run best).job != keepJob))
    else pure st

/-- `mk_room`. -/
def mkRoom (st : Store) (cfg : CacheConfig) (pickRate : Store → Nat) (reserved sz keepJob : Nat) :
    Except String Store := do
  if reserved + sz > cfg.maxSz then throw "cache too small"
  mkRoomLoop cfg pickRate reserved sz keepJob st.runs.entries.length st

/-- What the scan of `insert` keeps: the runs found with the new key, first and last. -/
structure Found where
  first : Nat
  last : Nat

/-- The scan of `CjobData::insert`, from run `r` towards older runs: `none` when a run already
holds what is uploaded.  The next run is read from `r` after `r` may have been victimized. -/
def scan (cfg : CacheConfig) (cd : CompileDigest) (key : Nat) (force : Bool) (targetsCrc : Crc) :
    Nat → Nat → Found → Store → Except String (Option (Found × Store))
  | 0, _, found, st => pure (some (found, st))
  | fuel + 1, r, found, st => do
    if r = 0 then return some (found, st)
    let rd := st.run r
    let (hitInfo, _) ← rd.crun.matchDigest (st.job rd.job).nStatics cd
    if hitInfo.toNat < CacheHitInfo.Miss.toNat then
      -- a run already holds it, unless it is forced with other contents
      if !(force && targetsCrc != rd.targetsCrc) then return none
      let st ← st.victimize r false
      scan cfg cd key force targetsCrc fuel (st.run r).jobLru.older found st
    else if rd.key = key then
      swear ((if rd.keyIsLast then found.last else found.first) == 0) "!found_runs[rd.key_is_last]"
      let found := if rd.keyIsLast then { found with last := r } else { found with first := r }
      scan cfg cd key force targetsCrc fuel (st.run r).jobLru.older found st
    else scan cfg cd key force targetsCrc fuel (st.run r).jobLru.older found st

/-- Victimize the oldest runs of job `j` while it has too many; several victims, in case
`max_runs_per_job` has been reduced. -/
def shrinkRuns (cfg : CacheConfig) (j : Nat) : Nat → Store → Except String Store
  | 0, st => pure st
  | fuel + 1, st => do
    if (st.job j).nRuns ≥ cfg.maxRunsPerJob then
      shrinkRuns cfg j fuel (← st.victimize (st.job j).lru.newer false)
    else pure st

/-- `CjobData::insert`: whether a new run was made, and the store. -/
def insert (st : Store) (cfg : CacheConfig) (pickRate : Store → Nat) (reserved : Nat) (j : Nat)
    (cd : CompileDigest) (key : Nat) (keyIsLast : KeyIsLast) (la sz rate : Nat) (force : Bool)
    (targetsCrc : Crc) : Except String (Bool × Store) := do
  let some (found, st) ← scan cfg cd key force targetsCrc (st.runs.entries.length + 1)
      (st.job j).lru.older ⟨0, 0⟩ st | pure (false, st)
  let (last, mkFirst) := match keyIsLast with
    | .No => (false, false)
    | .OverrideFirst => (found.last != 0, true)
    | .Plain => (found.last != 0 || found.first != 0, true)
    | .Yes => (true, false)
  let hit := if last then found.last else found.first
  let st ← if hit != 0 then
      if mkFirst && last && found.first == 0 then pure (st.setRun hit { st.run hit with keyIsLast := false })
      else st.victimize hit false
    else pure st
  let st ← shrinkRuns cfg j st.runs.entries.length st
  let st ← st.mkRoom cfg pickRate reserved sz j
  let (_, st) ← st.newRun cfg key last j targetsCrc la sz rate cd
  pure (true, st)

/-- The keys of the runs along a job's LRU from `r`, newest first. -/
def keysFrom (st : Store) : Nat → Nat → List (Nat × Bool)
  | 0, _ => []
  | fuel + 1, r =>
    if r = 0 then [] else ((st.run r).key, (st.run r).keyIsLast) :: keysFrom st fuel (st.run r).jobLru.older

/-- The keys of the live runs of a job, newest first. -/
def jobKeys (st : Store) (j : Nat) : List (Nat × Bool) :=
  st.keysFrom st.runs.entries.length (st.job j).lru.older

/-- Once the scan of `insert` victimizes a run that holds the upload with other targets, it reads
the run's cleared link and stops: the older runs of the job are never examined. -/
theorem scan_stops_after_victimize (cfg : CacheConfig) (cd : CompileDigest) (key : Nat)
    (targetsCrc : Crc) (fuel : Nat) {r : Nat} (found : Found) {st : Store} (hr : r ≠ 0)
    {hitInfo : CacheHitInfo} {nf : Option Nat}
    (hmatch : (st.run r).crun.matchDigest (st.job (st.run r).job).nStatics cd = .ok (hitInfo, nf))
    (hhit : hitInfo.toNat < CacheHitInfo.Miss.toNat) (hcrc : targetsCrc ≠ (st.run r).targetsCrc) :
    scan cfg cd key true targetsCrc (fuel + 2) r found st =
      (st.victimize r false).map fun st' => some (found, st') := by
  cases hv : st.victimize r false with
  | error e => simp [scan, hr, hmatch, hhit, hcrc, hv, bind, Except.bind, Except.map]
  | ok st' =>
    have h0 := jobLru_victimize hv
    simp [scan, hr, hmatch, hhit, hcrc, hv, h0, bind, Except.bind, Except.map, pure, Except.pure]

/-- Two uploads of job `7`: run `1` with key `5`, then run `2`, the newest, with key `6`. -/
def twoUploads : Store :=
  match (do
      let (_, st) ← (Store.empty.setJob 7 ⟨⟨0, 0⟩, 0, 0⟩).insert ⟨1000, 10⟩ (fun st => st.tab.headD 0) 0 7
        ⟨0, false, [1], [⟨64⟩]⟩ 5 .Yes 1 10 0 false ⟨1000⟩
      let (_, st) ← st.insert ⟨1000, 10⟩ (fun st => st.tab.headD 0) 0 7 ⟨0, false, [1], [⟨128⟩]⟩ 6
        .Yes 2 10 0 false ⟨2000⟩
      pure st : Except String Store) with
  | .ok st => st
  | .error _ => Store.empty

/-- A forced upload with the content of run `2` and other targets: the scan victimizes run `2`
and stops, without reading run `1`. -/
theorem scan_stops_after_victimize_second :
    scan ⟨1000, 10⟩ ⟨0, false, [1], [⟨128⟩]⟩ 5 true ⟨3000⟩ (0 + 2) 2 ⟨0, 0⟩ twoUploads =
      (twoUploads.victimize 2 false).map fun st' => some (⟨0, 0⟩, st') :=
  scan_stops_after_victimize ⟨1000, 10⟩ ⟨0, false, [1], [⟨128⟩]⟩ 5 ⟨3000⟩ 0 ⟨0, 0⟩ (by decide)
    (show (twoUploads.run 2).crun.matchDigest (twoUploads.job (twoUploads.run 2).job).nStatics
      ⟨0, false, [1], [⟨128⟩]⟩ = .ok (.HitExhaustive, none) by decide) (by decide) (by decide)

/-- Three uploads of job `7`.  The first run has key `5`; the second has key `6` and another
content; the third has key `5` again, the content of the second run and other targets, forced.
Scanning for the third, `insert` victimizes the second run, reads its cleared link and stops: the
first run is never seen, and the job ends with two runs of key `5`, both marked last.  A fourth
upload with key `5` meets both, and fails the assertion that there is only one. -/
theorem insert_second_last :
    let cfg : CacheConfig := ⟨1000, 10⟩
    let pickRate : Store → Nat := fun st => st.tab.headD 0
    let three : Except String Store := do
      let (_, st) ← (Store.empty.setJob 7 ⟨⟨0, 0⟩, 0, 0⟩).insert cfg pickRate 0 7
        ⟨0, false, [1], [⟨64⟩]⟩ 5 .Yes 1 10 0 false ⟨1000⟩
      let (_, st) ← st.insert cfg pickRate 0 7 ⟨0, false, [1], [⟨128⟩]⟩ 6 .Yes 2 10 0 false ⟨2000⟩
      let (_, st) ← st.insert cfg pickRate 0 7 ⟨0, false, [1], [⟨128⟩]⟩ 5 .Yes 3 10 0 true ⟨3000⟩
      pure st
    three.map (fun st => st.jobKeys 7) = .ok [(5, true), (5, true)] ∧
      (do
        let st ← three
        let (_, st) ← st.insert cfg pickRate 0 7 ⟨0, false, [1], [⟨192⟩]⟩ 5 .Yes 4 10 0 false ⟨4000⟩
        pure (st.jobKeys 7)) = .error "!found_runs[rd.key_is_last]" :=
  ⟨rfl, rfl⟩

end Store

end Cache
