import Mathlib.Data.List.Sort
import Lmake.BasicUtils
import Lmake.Lib.AList

/-!
# The generic backend: waiting queues and spawned jobs

A backend receives jobs from the server (`submit`), keeps them waiting until resources allow to
launch them, and follows them until they end.  `GenericBackend` is the part every backend
shares; what resources are and how they are counted is a `RsrcsPolicy`, the virtual functions a
concrete backend overrides (`Lmake.Backends.Local` gives the local one).

Each open req has its own waiting queues, one per *queue key*, the job's resources rounded by the
policy (`RsrcsData::round`), each queue ordered by decreasing pressure.  A job waited for by
several reqs has an entry in a queue of each, and `launchReq` (the locked section of `_launch`)
removes it from the other reqs' queues by looking up its own queue key there.  The key is
recomputed from the current capacity each time it is needed (`submit`, `addPressure`,
`setPressure`), so the entries of one job only share a key as long as the capacity does not
change.

Unordered maps are `Lmake.Map`s, and a `::set<PressureEntry>` is a sorted list without
duplicates.  Every operation returns `.error` where the source fails an assertion, calls `at` on a
missing key, or dereferences an iterator at the end.
-/

set_option autoImplicit false

namespace Backends

open Lmake

/-! ## Data -/

/-- An entry of a waiting queue. -/
structure PressureEntry where
  pressure : Nat
  job : Nat
  deriving DecidableEq, Repr

/-- `PressureEntry::operator<=>`: higher pressure first, then by job. -/
def PressureEntry.le (a b : PressureEntry) : Prop :=
  b.pressure < a.pressure ∨ (a.pressure = b.pressure ∧ a.job ≤ b.job)

instance : DecidableRel PressureEntry.le := fun _ _ => inferInstanceAs (Decidable (_ ∨ _))

/-- `::set<PressureEntry>::insert`. -/
def insertEntry (e : PressureEntry) (q : List PressureEntry) : List PressureEntry :=
  if e ∈ q then q else q.orderedInsert PressureEntry.le e

theorem mem_insertEntry {e x : PressureEntry} {q : List PressureEntry} :
    x ∈ insertEntry e q ↔ x = e ∨ x ∈ q := by
  unfold insertEntry
  split
  · constructor
    · exact .inr
    · rintro (rfl | h) <;> assumption
  · rw [(List.perm_orderedInsert _ e q).mem_iff, List.mem_cons]

/-- `ReqEntry`: the waiting queues of a req, by queue key, and the pressure of each job it waits
for; `nJobs` limits the number of jobs it may have running (`0` for no limit). -/
structure ReqEntry (R : Type) where
  waitingQueues : Map R (List PressureEntry)
  waitingJobs : Map Nat Nat
  nJobs : Nat
  verbose : Bool

/-- `ReqEntry::clear`. -/
def ReqEntry.clear {R : Type} (re : ReqEntry R) : ReqEntry R :=
  { re with waitingQueues := ∅, waitingJobs := ∅ }

/-- `WaitEntry`: a job waiting for some reqs. -/
structure WaitEntry (R : Type) where
  rsrcs : R
  nReqs : Nat
  verbose : Bool

/-- `NoId`, `StartingId`, `FailedId`: the ids that are no process id. -/
def NoId : Int := -1
def StartingId : Int := -2
def FailedId : Int := -3

/-- `SpawnedEntry`: a job launched by the backend, with the resources it asked for and the
rounded ones it holds. -/
structure SpawnedEntry (R : Type) where
  rsrcs : R
  roundedRsrcs : R
  id : Int
  started : Bool
  verbose : Bool
  zombie : Bool
  hold : Bool

/-- `SpawnedTab`: the spawned entries, where an ended entry still held by `_launch` stays as a
zombie until the next `flush`. -/
structure SpawnedTab (R : Type) where
  tab : Map Nat (SpawnedEntry R)
  zombies : List Nat

/-- The virtual functions through which the generic backend handles resources, over the
resources `R` of a job and the state `S` of the concrete backend. -/
structure RsrcsPolicy (R S : Type) where
  round : S → R → Except String R
  lackingRsrc : S → R → Bool
  fitNow : S → R → Bool
  acquireRsrcs : S → R → Except String S
  startRsrcs : S → R → S
  endRsrcs : S → R → Except String S

/-- The state of a `GenericBackend`, with the state `sub` of the concrete backend; `msgs` holds
the message of each job whose launch failed until a heartbeat reports it. -/
structure GenericBackend (R S : Type) where
  sub : S
  reqs : Map Nat (ReqEntry R)
  nNJobs : Nat
  waitingJobs : Map Nat (WaitEntry R)
  spawnedJobs : SpawnedTab R
  msgs : Map Nat String

/-- `HeartbeatState`: what a heartbeat says of a job. -/
inductive HeartbeatState where
  | Alive
  | Lost
  | Err
  deriving DecidableEq, Repr

section

variable {R S : Type} [DecidableEq R] (P : RsrcsPolicy R S)

/-! ## The spawned jobs -/

namespace SpawnedTab

/-- `find`: the entry of a job, unless it is a zombie. -/
def find (t : SpawnedTab R) (j : Nat) : Option (SpawnedEntry R) :=
  match t.tab.lookup j with
  | some se => if se.zombie then none else some se
  | none => none

/-- `size`: the entries that are not zombies. -/
def size (t : SpawnedTab R) : Nat := t.tab.entries.length - t.zombies.length

/-- `create`: acquire the rounded resources, and add an entry if the job has none. -/
def create (t : SpawnedTab R) (s : S) (j : Nat) (rsrcs rounded : R) :
    Except String (S × SpawnedTab R) := do
  let s ← P.acquireRsrcs s rounded
  if j ∈ t.tab then pure (s, t)
  else pure (s, { t with tab := t.tab.insert j ⟨rsrcs, rounded, NoId, false, false, false, false⟩ })

/-- `start`. -/
def start (t : SpawnedTab R) (s : S) (j : Nat) (se : SpawnedEntry R) :
    Except String (S × SpawnedTab R) := do
  swear (!se.zombie) "!it->second.zombie"
  swear (!se.started) "!it->second.started"
  pure (P.startRsrcs s se.roundedRsrcs, { t with tab := t.tab.insert j { se with started := true } })

/-- `end`: release the resources; the entry stays as a zombie while it is held. -/
def «end» (t : SpawnedTab R) (s : S) (j : Nat) (se : SpawnedEntry R) :
    Except String (S × SpawnedTab R) := do
  swear (!se.zombie) "!se.zombie"
  let s := if !se.started then P.startRsrcs s se.roundedRsrcs else s
  let s ← P.endRsrcs s se.roundedRsrcs
  if !se.hold then pure (s, { t with tab := t.tab.erase j })
  else pure (s, ⟨t.tab.insert j { se with zombie := true }, t.zombies ++ [j]⟩)

/-- `flush`: erase the zombies. -/
def flush (t : SpawnedTab R) : SpawnedTab R :=
  ⟨t.zombies.foldl (fun tab j => tab.erase j) t.tab, []⟩

omit [DecidableEq R] in
theorem find_of_tab_insert {t t' : SpawnedTab R} {j : Nat} {se : SpawnedEntry R}
    (h : t'.tab = t.tab.insert j se) (j' : Nat) :
    t'.find j' = if j' = j then (if se.zombie then none else some se) else t.find j' := by
  by_cases hj : j' = j
  · subst hj
    simp only [find, h, AList.lookup_insert, if_true]
  · simp only [find, h, AList.lookup_insert_ne hj, if_neg hj]

omit [DecidableEq R] in
theorem find_of_tab_erase {t t' : SpawnedTab R} {j : Nat} (h : t'.tab = t.tab.erase j)
    (j' : Nat) : t'.find j' = if j' = j then none else t.find j' := by
  by_cases hj : j' = j
  · subst hj
    simp only [find, h, AList.lookup_erase, if_true]
  · simp only [find, h, AList.lookup_erase_ne hj, if_neg hj]

omit [DecidableEq R] in
/-- An entry that ends is found no more, and the others are as they were. -/
theorem find_end {t t' : SpawnedTab R} {s s' : S} {j : Nat} {se : SpawnedEntry R}
    (h : t.end P s j se = .ok (s', t')) (j' : Nat) :
    t'.find j' = if j' = j then none else t.find j' := by
  unfold SpawnedTab.end at h
  obtain ⟨u, -, h⟩ := bind_eq_ok h
  obtain ⟨s₁, -, h⟩ := bind_eq_ok h
  split at h
  · cases h
    exact find_of_tab_erase rfl j'
  · -- a held entry stays as a zombie, which `find` does not see
    cases h
    rw [find_of_tab_insert rfl j']
    split <;> simp

omit [DecidableEq R] in
/-- Ending an entry that is no zombie fails only where the policy fails to release its resources. -/
theorem end_error {t : SpawnedTab R} {s : S} {j : Nat} {se : SpawnedEntry R} {m : String}
    (h : t.end P s j se = .error m) (hz : se.zombie = false) :
    ∃ s rs, P.endRsrcs s rs = .error m := by
  unfold SpawnedTab.end at h
  rcases bind_eq_error h with hs | ⟨u, -, h⟩
  · rw [swear_eq_error, hz] at hs
    cases hs.1
  rcases bind_eq_error h with he | ⟨s₁, -, h⟩
  · exact ⟨_, _, he⟩
  · split at h <;> cases h

omit [DecidableEq R] in
/-- `flush` forgets the zombies only. -/
theorem find_flush (t : SpawnedTab R) (j : Nat) :
    t.flush.find j = if j ∈ t.zombies then none else t.find j := by
  simp only [find, flush, AList.lookup_foldl_erase]
  by_cases hz : j ∈ t.zombies
  · simp only [hz, if_true]
  · simp only [hz, if_false]

end SpawnedTab

/-! ## Reqs and waiting jobs -/

namespace GenericBackend

/-- `open_req`. -/
def openReq (be : GenericBackend R S) (req nJobs : Nat) (verbose : Bool) :
    Except String (GenericBackend R S) := do
  swear (req ∉ be.reqs) "inserted"
  pure { be with
    reqs := be.reqs.insert req ⟨∅, ∅, nJobs, verbose⟩
    nNJobs := if nJobs ≠ 0 then be.nNJobs + 1 else be.nNJobs }

/-- `close_req`. -/
def closeReq (be : GenericBackend R S) (req : Nat) : Except String (GenericBackend R S) := do
  match be.reqs.lookup req with
  | none => pure be
  | some re =>
    swear re.waitingJobs.entries.isEmpty "!re.waiting_jobs"
    let nNJobs ← if re.nJobs ≠ 0 then do
        swear (be.nNJobs ≠ 0) "n_n_jobs"
        pure (be.nNJobs - 1)
      else pure be.nNJobs
    let reqs := be.reqs.erase req
    if reqs.entries.isEmpty then
      swear be.waitingJobs.entries.isEmpty "!waiting_jobs"
      swear be.spawnedJobs.tab.entries.isEmpty "!spawned_jobs"
    pure { be with reqs, nNJobs }

/-- `submit`: the job waits for `req`, in the queue of its rounded resources. -/
def submit (be : GenericBackend R S) (job req pressure : Nat) (rd : R) :
    Except String (GenericBackend R S) := do
  swear (job ∉ be.waitingJobs) "!waiting_jobs.contains(job)"
  let re ← at? be.reqs req
  swear (job ∉ re.waitingJobs) "!re.waiting_jobs.contains(job)"
  if P.lackingRsrc be.sub rd then throw "not enough resource"
  let key ← P.round be.sub rd
  let q := (re.waitingQueues.lookup key).getD []
  let re := { re with
    waitingJobs := re.waitingJobs.insert job pressure
    waitingQueues := re.waitingQueues.insert key (insertEntry ⟨pressure, job⟩ q) }
  pure { be with
    reqs := be.reqs.insert req re
    waitingJobs := be.waitingJobs.insert job ⟨rd, 1, re.verbose⟩ }

/-- `add_pressure`: one more req waits for a waiting job. -/
def addPressure (be : GenericBackend R S) (job req pressure : Nat) :
    Except String (GenericBackend R S) := do
  let re ← at? be.reqs req
  match be.waitingJobs.lookup job with
  | none =>
    -- not waiting anymore: if spawned, only mark it verbose
    match be.spawnedJobs.find job with
    | some se =>
      if re.verbose then
        pure { be with spawnedJobs :=
          { be.spawnedJobs with tab := be.spawnedJobs.tab.insert job { se with verbose := true } } }
      else pure be
    | none => pure be
  | some we =>
    swear (job ∉ re.waitingJobs) "!re.waiting_jobs.contains(job)"
    let key ← P.round be.sub we.rsrcs
    let q := (re.waitingQueues.lookup key).getD []
    let re' := { re with
      waitingJobs := re.waitingJobs.insert job pressure
      waitingQueues := re.waitingQueues.insert key (insertEntry ⟨pressure, job⟩ q) }
    pure { be with
      reqs := be.reqs.insert req re'
      waitingJobs := be.waitingJobs.insert job
        { we with verbose := we.verbose || re.verbose, nReqs := we.nReqs + 1 } }

/-- `set_pressure`: move the job within the queue of `req`. -/
def setPressure (be : GenericBackend R S) (job req pressure : Nat) :
    Except String (GenericBackend R S) := do
  let re ← at? be.reqs req
  match be.waitingJobs.lookup job with
  | none => pure be
  | some we =>
    let oldPressure ← at? re.waitingJobs job
    let key ← P.round be.sub we.rsrcs
    let q ← at? re.waitingQueues key
    let q := insertEntry ⟨pressure, job⟩ (q.erase ⟨oldPressure, job⟩)
    let re := { re with
      waitingQueues := re.waitingQueues.insert key q
      waitingJobs := re.waitingJobs.insert job pressure }
    pure { be with reqs := be.reqs.insert req re }

/-- `re.clear()` for the entry of `r`, in the loop of `kill_waiting_jobs` over all reqs. -/
def clearReq (reqs : Map Nat (ReqEntry R)) (r : Nat) : Map Nat (ReqEntry R) :=
  match reqs.lookup r with
  | some re => reqs.replace r re.clear
  | none => reqs

/-- A job of the killed req, in the loop of `kill_waiting_jobs` over its waiting jobs: the backend
forgets it when the req was its last one. -/
def forgetJob (wj : Map Nat (WaitEntry R)) (j : Nat) : Except String (Map Nat (WaitEntry R)) := do
  let some we := wj.lookup j | throw "it->second"
  swear (we.nReqs ≠ 0) "it->second.n_reqs"
  if we.nReqs = 1 then pure (wj.erase j) else pure (wj.insert j { we with nReqs := we.nReqs - 1 })

/-- `kill_waiting_jobs`: forget the jobs waiting for `req`, or for every req (`none`). -/
def killWaitingJobs (be : GenericBackend R S) (req : Option Nat) :
    Except String (List Nat × GenericBackend R S) := do
  if req.isNone || be.reqs.entries.length ≤ 1 then
    if let some r := req then
      swear (be.reqs.keys == [r]) "reqs.size()==1 && req==reqs.begin()->first"
    let reqs := be.reqs.keys.foldl clearReq be.reqs
    pure (be.waitingJobs.keys, { be with waitingJobs := ∅, reqs })
  else
    let r := req.getD 0
    let some re := be.reqs.lookup r | throw "rit!=reqs.end()"
    let wj ← re.waitingJobs.keys.foldlM forgetJob be.waitingJobs
    pure (re.waitingJobs.keys, { be with waitingJobs := wj, reqs := be.reqs.insert r re.clear })

/-- `kill_job`: a spawned job that did not start is ended. -/
def killJob (be : GenericBackend R S) (j : Nat) : Except String (GenericBackend R S) := do
  match be.spawnedJobs.find j with
  | none => pure be
  | some se =>
    swear (!se.started) "!se.started"
    let (s, t) ← be.spawnedJobs.end P be.sub j se
    pure { be with sub := s, spawnedJobs := t }

/-- `start`. -/
def start (be : GenericBackend R S) (j : Nat) : Except String (GenericBackend R S) := do
  match be.spawnedJobs.find j with
  | none => pure be
  | some se =>
    let (s, t) ← be.spawnedJobs.start P be.sub j se
    pure { be with sub := s, spawnedJobs := t }

/-- `end`. -/
def «end» (be : GenericBackend R S) (j : Nat) : Except String (GenericBackend R S) := do
  match be.spawnedJobs.find j with
  | none => pure be
  | some se =>
    swear se.started "se.started"
    let (s, t) ← be.spawnedJobs.end P be.sub j se
    pure { be with sub := s, spawnedJobs := t }

/-- `heartbeat(j)`, for a job that did not start; `digest` is what the concrete backend says of a
queued job (`heartbeat_queued_job`).  A job whose launch failed ends, and its message is reported
and forgotten. -/
def heartbeat (be : GenericBackend R S) (j : Nat) (digest : String × HeartbeatState) :
    Except String ((String × HeartbeatState) × GenericBackend R S) := do
  let some se := be.spawnedJobs.find j | throw "it!=spawned_jobs.end()"
  swear (!se.started) "!se.started"
  if se.id = NoId ∨ se.id = StartingId then pure (("", .Alive), be)
  else if se.id = FailedId then
    let (s, t) ← be.spawnedJobs.end P be.sub j se
    let some msg := be.msgs.lookup j | throw "mit!=msgs.end()"
    pure ((msg, .Err), { be with sub := s, spawnedJobs := t, msgs := be.msgs.erase j })
  else if digest.2 = .Alive then pure (digest, be)
  else
    let (s, t) ← be.spawnedJobs.end P be.sub j se
    pure (digest, { be with sub := s, spawnedJobs := t })

omit [DecidableEq R] in
/-- What a heartbeat that succeeds does: nothing, or it ends the entry of the job, forgetting its
message when its launch failed. -/
theorem heartbeat_cases {be be' : GenericBackend R S} {j : Nat}
    {digest r : String × HeartbeatState} (h : be.heartbeat P j digest = .ok (r, be')) :
    be' = be ∨ ∃ se s t, be.spawnedJobs.find j = some se ∧
      be.spawnedJobs.end P be.sub j se = .ok (s, t) ∧
      be' = { be with
        sub := s
        spawnedJobs := t
        msgs := if se.id = FailedId then be.msgs.erase j else be.msgs } := by
  unfold heartbeat at h
  split at h
  · rename_i se hse
    obtain ⟨u, -, h⟩ := bind_eq_ok h
    split at h
    · cases h
      exact .inl rfl
    · split at h
      · rename_i hf
        obtain ⟨⟨s, t⟩, hst, h⟩ := bind_eq_ok h
        dsimp only at h
        -- the message of the failed launch is looked up after the entry ends
        cases hm : be.msgs.lookup j with
        | none =>
          rw [hm] at h
          cases h
        | some msg =>
          rw [hm] at h
          cases h
          exact .inr ⟨se, s, t, hse, hst, by rw [if_pos hf]⟩
      · rename_i hf
        split at h
        · cases h
          exact .inl rfl
        · obtain ⟨⟨s, t⟩, hst, h⟩ := bind_eq_ok h
          cases h
          exact .inr ⟨se, s, t, hse, hst, by rw [if_neg hf]⟩
  · cases h

omit [DecidableEq R] in
/-- Where a heartbeat fails: the job has no entry or has started, or ending its entry fails, or its
launch failed and its message is missing. -/
theorem heartbeat_error {be : GenericBackend R S} {j : Nat} {digest : String × HeartbeatState}
    {m : String} (h : be.heartbeat P j digest = .error m) :
    m = "it!=spawned_jobs.end()" ∨ m = "!se.started" ∨
      ∃ se, be.spawnedJobs.find j = some se ∧ (be.spawnedJobs.end P be.sub j se = .error m ∨
        se.id = FailedId ∧ j ∉ be.msgs ∧ m = "mit!=msgs.end()") := by
  unfold heartbeat at h
  split at h
  · rename_i se hse
    rcases bind_eq_error h with hs | ⟨u, -, h⟩
    · exact .inr (.inl (swear_eq_error.mp hs).2)
    split at h
    · cases h
    split at h
    · rename_i hf
      rcases bind_eq_error h with hend | ⟨⟨s, t⟩, -, h⟩
      · exact .inr (.inr ⟨se, hse, .inl hend⟩)
      dsimp only at h
      -- the message is looked up once the entry has ended
      cases hm : be.msgs.lookup j with
      | none =>
        rw [hm] at h
        cases h
        exact .inr (.inr ⟨se, hse, .inr ⟨hf, AList.lookup_eq_none.mp hm, rfl⟩⟩)
      | some msg =>
        rw [hm] at h
        cases h
    split at h
    · cases h
    rcases bind_eq_error h with hend | ⟨⟨s, t⟩, -, h⟩
    · exact .inr (.inr ⟨se, hse, .inl hend⟩)
    · cases h
  · cases h
    exact .inl rfl

/-! ## Launching -/

/-- The candidate queue of `_launch`: the one of highest pressure among those that fit now, the
first one met on ties. -/
def pickCandidate (s : S) :
    List (Σ _ : R, List PressureEntry) → Option (R × List PressureEntry) →
      Except String (Option (R × List PressureEntry))
  | [], cand => pure cand
  | ⟨k, q⟩ :: rest, cand => do
    match cand with
    | some (_, cq) =>
      let some e := q.head? | throw "it->second.begin()"
      let some ce := cq.head? | throw "candidate->second.begin()"
      if e.pressure ≤ ce.pressure then pickCandidate s rest cand
      else pickCandidate s rest (if P.fitNow s k then some (k, q) else cand)
    | none => pickCandidate s rest (if P.fitNow s k then some (k, q) else cand)

/-- Remove a launched job `j` from the queue `key` of another req `r` that waits for it. -/
def unqueue (be : GenericBackend R S) (req j : Nat) (key : R) (r : Nat) :
    Except String (GenericBackend R S) := do
  let re ← at? be.reqs r
  let some p := re.waitingJobs.lookup j | throw "wit1"
  let re ← if r ≠ req then do
      let some pes := re.waitingQueues.lookup key | throw "wit2->second"
      swear (decide (⟨p, j⟩ ∈ pes)) "pes.contains(pe)"
      if pes.length = 1 then pure { re with waitingQueues := re.waitingQueues.erase key }
      else pure { re with waitingQueues := re.waitingQueues.insert key (pes.erase ⟨p, j⟩) }
    else pure re
  pure { be with reqs := be.reqs.insert r { re with waitingJobs := re.waitingJobs.erase j } }

/-- One iteration of the loop of `_launch` for `req`: launch the best job that fits now, if any. -/
def launchOne (be : GenericBackend R S) (req : Nat) :
    Except String (Option (Nat × GenericBackend R S)) := do
  let re ← at? be.reqs req
  let some (key, ps) ← pickCandidate P be.sub re.waitingQueues.entries none | pure none
  let some p1 := ps.head? | throw "pressure1!=pressure_set.end()"
  let j := p1.job
  let some we := be.waitingJobs.lookup j | throw "wit->second"
  let (s, t) ← be.spawnedJobs.create P be.sub j we.rsrcs key
  let t := match t.tab.lookup j with
    | some se => { t with tab := t.tab.insert j { se with verbose := we.verbose } }
    | none => t
  -- the other reqs waiting for the job
  for e in be.reqs.entries do
    if j ∉ e.2.waitingJobs then swear (e.1 ≠ req) "r!=req"
  let rs := req :: (be.reqs.entries.filter fun e => e.1 ≠ req ∧ j ∈ e.2.waitingJobs).map (·.1)
  let be ← rs.foldlM (fun be r => unqueue be req j key r) { be with sub := s, spawnedJobs := t }
  let re ← at? be.reqs req
  let re := if ps.length = 1 then { re with waitingQueues := re.waitingQueues.erase key }
    else { re with waitingQueues := re.waitingQueues.insert key ps.tail }
  pure (some (j, { be with reqs := be.reqs.insert req re, waitingJobs := be.waitingJobs.erase j }))

/-- The loop of `_launch` for `req`, at most `fuel` iterations: while the req may have more
running jobs, launch one. -/
def launchLoop (be : GenericBackend R S) (req : Nat) :
    Nat → List Nat → Except String (List Nat × GenericBackend R S)
  | 0, launched => pure (launched, be)
  | fuel + 1, launched => do
    let re ← at? be.reqs req
    if re.nJobs ≠ 0 ∧ be.spawnedJobs.size ≥ re.nJobs then return (launched, be)
    match ← launchOne P be req with
    | none => pure (launched, be)
    | some (j, be') => launchLoop be' req fuel (launched ++ [j])

/-- A launched entry is marked starting and held, until `launch_job` returns. -/
def markStarting (tab : Map Nat (SpawnedEntry R)) (j : Nat) : Map Nat (SpawnedEntry R) :=
  match tab.lookup j with
  | some se => tab.insert j { se with id := StartingId, hold := true }
  | none => tab

/-- The locked section of `_launch` for one req: flush the zombies, launch what fits, and mark the
launched entries as starting and held.  Each iteration launches a waiting job, so as many
iterations as there are waiting jobs is enough. -/
def launchReq (be : GenericBackend R S) (req : Nat) :
    Except String (List Nat × GenericBackend R S) := do
  let be := { be with spawnedJobs := be.spawnedJobs.flush }
  if req ∉ be.reqs then return ([], be)
  let (launched, be) ← launchLoop P be req (be.waitingJobs.entries.length) []
  let tab := launched.foldl markStarting be.spawnedJobs.tab
  pure (launched, { be with spawnedJobs := { be.spawnedJobs with tab } })

/-- After the lock, a launched job is released with the id `launch_job` gives it, or `FailedId`
and the message `launch_job` throws, which `msgs` keeps; a job killed meanwhile is not launched. -/
def launchDone (be : GenericBackend R S) (j : Nat) (launch : Except String Nat) :
    GenericBackend R S :=
  match be.spawnedJobs.tab.lookup j with
  | some se =>
    let release (id : Int) : SpawnedTab R :=
      { be.spawnedJobs with tab := be.spawnedJobs.tab.insert j { se with id, hold := false } }
    if se.zombie then { be with spawnedJobs := release NoId }
    else match launch with
      | .ok pid => { be with spawnedJobs := release pid }
      | .error e => { be with spawnedJobs := release FailedId, msgs := be.msgs.insert j e }
  | none => be

/-! ## The queues and their keys

A req that waits for a job has it in its queue of the job's key, the job's resources as the
policy rounds them for the backend as it is now (`Queued`).  `open_req`, `submit`,
`add_pressure` and `set_pressure` keep that, so that two reqs waiting for one job queue it under
one key, where the step of `_launch` that takes a launched job out of the other reqs' queues finds
it.  A new config changes the rounding, and with it the key of each job: `Lmake.Backends.Local` has a run where the invariant is lost that way. -/

/-- Each job a req waits for is in that req's queue of the job's key, its resources as the policy
rounds them for the backend as it is now, with the pressure the req gives it. -/
def Queued (be : GenericBackend R S) : Prop :=
  ∀ r re, be.reqs.lookup r = some re → ∀ j p, re.waitingJobs.lookup j = some p →
    ∃ we key q, be.waitingJobs.lookup j = some we ∧ P.round be.sub we.rsrcs = .ok key ∧
      re.waitingQueues.lookup key = some q ∧ (⟨p, j⟩ : PressureEntry) ∈ q

variable {P}

/-- Giving `job` the pressure `pressure` for `req`, in a queue of its key that keeps the entries of
the other jobs, keeps the invariant when no job's resources change. -/
theorem Queued.enqueue {be : GenericBackend R S} (hq : be.Queued P) {req job pressure : Nat}
    {re : ReqEntry R} {key : R} (hre : be.reqs.lookup req = some re) (q' : List PressureEntry)
    (hnew : ⟨pressure, job⟩ ∈ q')
    (hkeep : ∀ x ∈ (re.waitingQueues.lookup key).getD [], x.job ≠ job → x ∈ q')
    (wj : Map Nat (WaitEntry R))
    (hwj : ∀ j we, be.waitingJobs.lookup j = some we →
      ∃ we', wj.lookup j = some we' ∧ we'.rsrcs = we.rsrcs)
    (hjob : ∃ we, wj.lookup job = some we ∧ P.round be.sub we.rsrcs = .ok key) :
    Queued P { be with
      reqs := be.reqs.insert req { re with
        waitingJobs := re.waitingJobs.insert job pressure
        waitingQueues := re.waitingQueues.insert key q' }
      waitingJobs := wj } := by
  intro r re' hr j p hp
  by_cases hrq : r = req
  · subst hrq
    rw [AList.lookup_insert, Option.some.injEq] at hr
    subst hr
    by_cases hj : j = job
    · subst hj
      rw [AList.lookup_insert, Option.some.injEq] at hp
      subst hp
      obtain ⟨we, hwe, hkey⟩ := hjob
      exact ⟨we, key, q', hwe, hkey, AList.lookup_insert _, hnew⟩
    · rw [AList.lookup_insert_ne hj] at hp
      obtain ⟨we, key', q, hwe, hkey', hq', hmem⟩ := hq r re hre j p hp
      obtain ⟨we', hwe', hrs⟩ := hwj j we hwe
      by_cases hk : key' = key
      · subst hk
        have hkept : (⟨p, j⟩ : PressureEntry) ∈ q' := hkeep _ (by rw [hq']; exact hmem) hj
        exact ⟨we', key', q', hwe', hrs ▸ hkey', AList.lookup_insert _, hkept⟩
      · have hq'' : (re.waitingQueues.insert key q').lookup key' = some q := by
          rw [AList.lookup_insert_ne hk]
          exact hq'
        exact ⟨we', key', q, hwe', hrs ▸ hkey', hq'', hmem⟩
  · rw [AList.lookup_insert_ne hrq] at hr
    obtain ⟨we, key', q, hwe, hkey', hq', hmem⟩ := hq r re' hr j p hp
    obtain ⟨we', hwe', hrs⟩ := hwj j we hwe
    exact ⟨we', key', q, hwe', hrs ▸ hkey', hq', hmem⟩

/-- `insertEntry` is such a queue. -/
theorem enqueue_insertEntry (e : PressureEntry) (q : List PressureEntry) :
    e ∈ insertEntry e q ∧ ∀ x ∈ q, x.job ≠ e.job → x ∈ insertEntry e q :=
  ⟨mem_insertEntry.mpr (.inl rfl), fun _ hx _ => mem_insertEntry.mpr (.inr hx)⟩

theorem Queued.of_eq {be be' : GenericBackend R S} (hq : be.Queued P) (hr : be'.reqs = be.reqs)
    (hw : be'.waitingJobs = be.waitingJobs) (hs : be'.sub = be.sub) : be'.Queued P := by
  unfold Queued
  rw [hr, hw, hs]
  exact hq

omit [DecidableEq R] in
/-- What `open_req` did when it succeeds. -/
theorem openReq_ok {be be' : GenericBackend R S} {req nJobs : Nat} {verbose : Bool}
    (h : openReq be req nJobs verbose = .ok be') :
    req ∉ be.reqs ∧ be' = { be with
      reqs := be.reqs.insert req ⟨∅, ∅, nJobs, verbose⟩
      nNJobs := if nJobs ≠ 0 then be.nNJobs + 1 else be.nNJobs } := by
  obtain ⟨u, hs, h⟩ := bind_eq_ok h
  cases h
  exact ⟨by simpa using hs, rfl⟩

theorem Queued.openReq {be be' : GenericBackend R S} (hq : be.Queued P) {req nJobs : Nat}
    {verbose : Bool} (h : GenericBackend.openReq be req nJobs verbose = .ok be') :
    be'.Queued P := by
  obtain ⟨-, rfl⟩ := openReq_ok h
  intro r re hr j p hp
  by_cases hrq : r = req
  · subst hrq
    rw [AList.lookup_insert, Option.some.injEq] at hr
    subst hr
    simp at hp
  · rw [AList.lookup_insert_ne hrq] at hr
    exact hq r re hr j p hp

/-- What `submit` did when it succeeds. -/
theorem submit_ok {be be' : GenericBackend R S} {job req pressure : Nat} {rd : R}
    (h : submit P be job req pressure rd = .ok be') :
    job ∉ be.waitingJobs ∧ ∃ re key, be.reqs.lookup req = some re ∧
      P.round be.sub rd = .ok key ∧
      be' = { be with
        reqs := be.reqs.insert req { re with
          waitingJobs := re.waitingJobs.insert job pressure
          waitingQueues := re.waitingQueues.insert key
            (insertEntry ⟨pressure, job⟩ ((re.waitingQueues.lookup key).getD [])) }
        waitingJobs := be.waitingJobs.insert job ⟨rd, 1, re.verbose⟩ } := by
  obtain ⟨u, hs, h⟩ := bind_eq_ok h
  obtain ⟨re, hre, h⟩ := bind_eq_ok h
  obtain ⟨-, -, h⟩ := bind_eq_ok h
  split at h
  · obtain ⟨v, hthrow, -⟩ := bind_eq_ok h
    cases hthrow
  obtain ⟨key, hkey, h⟩ := bind_eq_ok h
  cases h
  exact ⟨by simpa using hs, re, key, at?_eq_ok.mp hre, hkey, rfl⟩

theorem Queued.submit {be be' : GenericBackend R S} (hq : be.Queued P) {job req pressure : Nat}
    {rd : R} (h : GenericBackend.submit P be job req pressure rd = .ok be') : be'.Queued P := by
  obtain ⟨hjob, re, key, hre, hkey, rfl⟩ := submit_ok h
  obtain ⟨hnew, hkeep⟩ :=
    enqueue_insertEntry ⟨pressure, job⟩ ((re.waitingQueues.lookup key).getD [])
  refine hq.enqueue hre _ hnew hkeep _ (fun j we hwe => ⟨we, ?_, rfl⟩)
    ⟨_, AList.lookup_insert _, hkey⟩
  have hne : j ≠ job := by
    rintro rfl
    exact hjob (AList.lookup_isSome.mp (by simp [hwe]))
  rw [AList.lookup_insert_ne hne, hwe]

/-- What `add_pressure` did when it succeeds: nothing to the queues when the job is not waiting. -/
theorem addPressure_ok {be be' : GenericBackend R S} {job req pressure : Nat}
    (h : addPressure P be job req pressure = .ok be') :
    (be'.reqs = be.reqs ∧ be'.waitingJobs = be.waitingJobs ∧ be'.sub = be.sub ∧
      be'.msgs = be.msgs ∧ (be'.spawnedJobs = be.spawnedJobs ∨ ∃ se,
        be.spawnedJobs.find job = some se ∧ be'.spawnedJobs =
          { be.spawnedJobs with tab := be.spawnedJobs.tab.insert job { se with verbose := true } })) ∨
    ∃ re we key, be.reqs.lookup req = some re ∧ be.waitingJobs.lookup job = some we ∧
      job ∉ re.waitingJobs ∧ P.round be.sub we.rsrcs = .ok key ∧
      be' = { be with
        reqs := be.reqs.insert req { re with
          waitingJobs := re.waitingJobs.insert job pressure
          waitingQueues := re.waitingQueues.insert key
            (insertEntry ⟨pressure, job⟩ ((re.waitingQueues.lookup key).getD [])) }
        waitingJobs := be.waitingJobs.insert job
          { we with verbose := we.verbose || re.verbose, nReqs := we.nReqs + 1 } } := by
  obtain ⟨re, hre, h⟩ := bind_eq_ok h
  split at h
  · left
    split at h
    · rename_i se hse
      split at h <;> cases h
      · exact ⟨rfl, rfl, rfl, rfl, .inr ⟨se, hse, rfl⟩⟩
      · exact ⟨rfl, rfl, rfl, rfl, .inl rfl⟩
    · cases h
      exact ⟨rfl, rfl, rfl, rfl, .inl rfl⟩
  · rename_i we hwe
    obtain ⟨u, hs, h⟩ := bind_eq_ok h
    obtain ⟨key, hkey, h⟩ := bind_eq_ok h
    cases h
    exact .inr ⟨re, we, key, at?_eq_ok.mp hre, hwe, by simpa using hs, hkey, rfl⟩

theorem Queued.addPressure {be be' : GenericBackend R S} (hq : be.Queued P)
    {job req pressure : Nat} (h : GenericBackend.addPressure P be job req pressure = .ok be') :
    be'.Queued P := by
  rcases addPressure_ok h with ⟨hr, hw, hs, -⟩ | ⟨re, we, key, hre, hwe, -, hkey, rfl⟩
  · exact hq.of_eq hr hw hs
  · obtain ⟨hnew, hkeep⟩ :=
      enqueue_insertEntry ⟨pressure, job⟩ ((re.waitingQueues.lookup key).getD [])
    refine hq.enqueue hre _ hnew hkeep _ (fun j we' hwe' => ?_) ⟨_, AList.lookup_insert _, hkey⟩
    by_cases hj : j = job
    · subst hj
      rw [hwe, Option.some.injEq] at hwe'
      subst hwe'
      exact ⟨_, AList.lookup_insert _, rfl⟩
    · exact ⟨we', by rw [AList.lookup_insert_ne hj, hwe'], rfl⟩

/-- What `set_pressure` did when it succeeds. -/
theorem setPressure_ok {be be' : GenericBackend R S} {job req pressure : Nat}
    (h : setPressure P be job req pressure = .ok be') :
    be' = be ∨ ∃ re we old key q, be.reqs.lookup req = some re ∧
      be.waitingJobs.lookup job = some we ∧ re.waitingJobs.lookup job = some old ∧
      P.round be.sub we.rsrcs = .ok key ∧ re.waitingQueues.lookup key = some q ∧
      be' = { be with reqs := be.reqs.insert req { re with
        waitingQueues :=
          re.waitingQueues.insert key (insertEntry ⟨pressure, job⟩ (q.erase ⟨old, job⟩))
        waitingJobs := re.waitingJobs.insert job pressure } } := by
  obtain ⟨re, hre, h⟩ := bind_eq_ok h
  split at h
  · cases h
    exact .inl rfl
  · rename_i we hwe
    obtain ⟨old, hold, h⟩ := bind_eq_ok h
    obtain ⟨key, hkey, h⟩ := bind_eq_ok h
    obtain ⟨q, hq, h⟩ := bind_eq_ok h
    cases h
    exact .inr ⟨re, we, old, key, q, at?_eq_ok.mp hre, hwe, at?_eq_ok.mp hold, hkey,
      at?_eq_ok.mp hq, rfl⟩

theorem Queued.setPressure {be be' : GenericBackend R S} (hq : be.Queued P)
    {job req pressure : Nat} (h : GenericBackend.setPressure P be job req pressure = .ok be') :
    be'.Queued P := by
  rcases setPressure_ok h with rfl | ⟨re, we, old, key, q, hre, hwe, -, hkey, hq', rfl⟩
  · exact hq
  · refine hq.enqueue hre _ (mem_insertEntry.mpr (.inl rfl)) (fun x hx hxj => ?_) _
      (fun j we hwe => ⟨we, hwe, rfl⟩) ⟨we, hwe, hkey⟩
    rw [hq', Option.getD_some] at hx
    have hne : x ≠ ⟨old, job⟩ := fun hx' => hxj (by rw [hx'])
    exact mem_insertEntry.mpr (.inr ((List.mem_erase_of_ne hne).mpr hx))

end GenericBackend

end

end Backends
