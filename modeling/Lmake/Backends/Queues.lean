import Lmake.Backends.Local
import Lmake.Lib.AList

/-!
# The waiting queues over whole runs

A req's waiting queues are an index of the jobs it waits for, by the key of their resources as
the policy rounds them.  `launchReq` relies on that index: it takes a job from the queue of the
best key of one req, then looks it up under that same key in the queues of the other reqs that
wait for it, and forgets it.  `kill_waiting_jobs` relies on the count of reqs each waiting job
keeps: it forgets a job when the req it kills was the last one.

`Indexed` is that index, exact both ways: each job a req waits for is in the queue of its key
with the req's pressure, each entry of a queue is a job the req waits for with that pressure and
that key, no queue is empty or holds an entry twice, and each waiting job counts the reqs that
wait for it.  Every operation of the backend (`Step`) keeps it, as long as the policy's rounding
does not move while jobs acquire, start and end resources (`RoundStable`), that is between two
configs; the launch is described once by `launchOne_cases`, and the state it leaves by
`ReqEntry.dropJob`.  So in every state a run reaches (`Indexed.run`), the queues say exactly what
each req waits for (`waiting_queues_exact`), `n_reqs` counts the reqs of each job
(`nReqs_eq_nWaiting`), `kill_waiting_jobs` and `set_pressure` never fail their checks
(`killWaitingJobs_succeeds`, `setPressure_succeeds`), and `launchReq` fails only where the policy
fails to acquire the resources of the job it launches (`launchReq_fails_only_in_acquire`).  A new
config breaks the index: `Lmake.Backends.Local` has a run where the launch then fails looking a
job up.

A job whose launch failed keeps its message until the heartbeat that reports it (`MsgsKept`): only
`launchDone` records a failed launch, with its message, and the other operations keep or replace
the ids of the entries (`FailedKept`).  So a heartbeat fails only where the job has no entry or
has started, or the policy fails to release its resources (`heartbeat_fails_only_in_end`).
-/

set_option autoImplicit false

namespace Backends

open Lmake

section

variable {R S : Type} (P : RsrcsPolicy R S)

/-- A policy whose rounding does not move while jobs acquire, start and end resources: what it
rounds against only changes with a new config. -/
structure RsrcsPolicy.RoundStable : Prop where
  acquire : ∀ s rs s', P.acquireRsrcs s rs = .ok s' → P.round s' = P.round s
  start : ∀ s rs, P.round (P.startRsrcs s rs) = P.round s
  release : ∀ s rs s', P.endRsrcs s rs = .ok s' → P.round s' = P.round s

/-- A waiting job that loses one of its reqs: forgotten when it was the last one. -/
def WaitEntry.dropReq (we : WaitEntry R) : Option (WaitEntry R) :=
  if we.nReqs = 1 then none else some { we with nReqs := we.nReqs - 1 }

/-- What launching job `j` from the queue `key` of its resources leaves of a req: when the req
waited for `j`, the job is gone from its waiting jobs and from its queue `key`, and the queue is
gone with it when `j` was its last entry. -/
def ReqEntry.dropJob [DecidableEq R] (j : Nat) (key : R) (re : ReqEntry R) : ReqEntry R :=
  match re.waitingJobs.lookup j with
  | none => re
  | some p =>
    let q := (re.waitingQueues.lookup key).getD []
    { re with
      waitingJobs := re.waitingJobs.erase j
      waitingQueues := if q.length = 1 then re.waitingQueues.erase key
        else re.waitingQueues.insert key (q.erase ⟨p, j⟩) }

namespace GenericBackend

/-- The number of reqs that wait for job `j`. -/
def nWaiting (reqs : Map Nat (ReqEntry R)) (j : Nat) : Nat :=
  reqs.entries.countP fun e => decide (j ∈ e.2.waitingJobs)

/-! ## Counting the reqs of a job -/

section Count

variable {reqs : Map Nat (ReqEntry R)}

/-- No req waits for a job that is in no req's waiting jobs. -/
theorem nWaiting_eq_zero {j : Nat}
    (h : ∀ r re, reqs.lookup r = some re → j ∉ re.waitingJobs) : nWaiting reqs j = 0 := by
  rw [nWaiting, List.countP_eq_zero]
  intro e he
  have hl : reqs.lookup e.1 = some e.2 := (AList.mem_lookup_iff).mpr he
  simpa using h e.1 e.2 hl

/-- Replacing a req by one that waits for `j` as it did keeps the count of `j`. -/
theorem nWaiting_insert_of_iff {r j : Nat} {re re' : ReqEntry R} (h : reqs.lookup r = some re)
    (hj : j ∈ re'.waitingJobs ↔ j ∈ re.waitingJobs) :
    nWaiting (reqs.insert r re') j = nWaiting reqs j := by
  have hc := AList.countP_insert h re' fun e => decide (j ∈ e.2.waitingJobs)
  simp only [hj] at hc
  unfold nWaiting
  omega

/-- A req that newly waits for `j` counts one more. -/
theorem nWaiting_insert_add {r j : Nat} {re re' : ReqEntry R} (h : reqs.lookup r = some re)
    (hre : j ∉ re.waitingJobs) (hre' : j ∈ re'.waitingJobs) :
    nWaiting (reqs.insert r re') j = nWaiting reqs j + 1 := by
  have hc := AList.countP_insert h re' fun e => decide (j ∈ e.2.waitingJobs)
  simp only [hre, hre', decide_false, decide_true, if_true, Bool.false_eq_true, if_false] at hc
  unfold nWaiting
  omega

/-- A req that no longer waits for `j` counts one less. -/
theorem nWaiting_insert_sub {r j : Nat} {re re' : ReqEntry R} (h : reqs.lookup r = some re)
    (hre : j ∈ re.waitingJobs) (hre' : j ∉ re'.waitingJobs) :
    nWaiting (reqs.insert r re') j + 1 = nWaiting reqs j := by
  have hc := AList.countP_insert h re' fun e => decide (j ∈ e.2.waitingJobs)
  simp only [hre, hre', decide_false, decide_true, if_true, Bool.false_eq_true, if_false] at hc
  unfold nWaiting
  omega

end Count

variable [DecidableEq R]

/-- **The index of the waiting jobs**: the queues of each req hold exactly the jobs it waits for,
with its pressure, under the key of the job's resources as the policy rounds them now; no queue
is empty or holds an entry twice; and each waiting job counts the reqs that wait for it. -/
structure Indexed (be : GenericBackend R S) : Prop where
  queued : be.Queued P
  entry : ∀ r re, be.reqs.lookup r = some re → ∀ key q, re.waitingQueues.lookup key = some q →
    ∀ e ∈ q, re.waitingJobs.lookup e.job = some e.pressure ∧
      ∃ we, be.waitingJobs.lookup e.job = some we ∧ P.round be.sub we.rsrcs = .ok key
  nodup : ∀ r re, be.reqs.lookup r = some re → ∀ key q, re.waitingQueues.lookup key = some q →
    q.Nodup ∧ q ≠ []
  nReqs : ∀ j we, be.waitingJobs.lookup j = some we → we.nReqs = nWaiting be.reqs j


/-! ## The operations that leave the reqs as they are -/

section

variable {P}

/-- The index only reads the reqs, the waiting jobs and the rounding of the policy. -/
theorem Indexed.of_round {be be' : GenericBackend R S} (hi : be.Indexed P)
    (hr : be'.reqs = be.reqs) (hw : be'.waitingJobs = be.waitingJobs)
    (hs : P.round be'.sub = P.round be.sub) : be'.Indexed P := by
  obtain ⟨hq, he, hn, hc⟩ := hi
  refine ⟨?_, ?_, ?_, ?_⟩
  · unfold Queued
    rw [hr, hw, hs]
    exact hq
  · rw [hr, hw, hs]
    exact he
  · rw [hr]
    exact hn
  · rw [hr, hw]
    exact hc

/-! ## The operations on the queues of one req -/

/-- A req opens with no queue. -/
theorem Indexed.openReq {be be' : GenericBackend R S} (hi : be.Indexed P) {req nJobs : Nat}
    {verbose : Bool} (h : be.openReq req nJobs verbose = .ok be') : be'.Indexed P := by
  have hq := hi.queued.openReq h
  obtain ⟨hnot, rfl⟩ := openReq_ok h
  refine ⟨hq, fun r re hr key q hq' e he => ?_, fun r re hr key q hq' => ?_, fun j we hwe => ?_⟩
  · by_cases hrq : r = req
    · subst hrq
      rw [AList.lookup_insert, Option.some.injEq] at hr
      subst hr
      simp at hq'
    · rw [AList.lookup_insert_ne hrq] at hr
      exact hi.entry r re hr key q hq' e he
  · by_cases hrq : r = req
    · subst hrq
      rw [AList.lookup_insert, Option.some.injEq] at hr
      subst hr
      simp at hq'
    · rw [AList.lookup_insert_ne hrq] at hr
      exact hi.nodup r re hr key q hq'
  · -- the new req waits for nothing
    rw [hi.nReqs j we hwe]
    unfold nWaiting
    rw [AList.countP_insert_of_notMem hnot]
    simp

omit [DecidableEq R] in
/-- What `close_req` did when it succeeds: nothing, or the req waited for nothing and is gone. -/
theorem closeReq_ok {be be' : GenericBackend R S} {req : Nat} (h : be.closeReq req = .ok be') :
    be' = be ∨ ∃ re, be.reqs.lookup req = some re ∧ re.waitingJobs.entries = [] ∧
      be'.reqs = be.reqs.erase req ∧ be'.waitingJobs = be.waitingJobs ∧ be'.sub = be.sub ∧
      be'.spawnedJobs = be.spawnedJobs ∧ be'.msgs = be.msgs := by
  unfold GenericBackend.closeReq at h
  split at h
  · cases h
    exact .inl rfl
  · rename_i re hre
    obtain ⟨u, hs, h⟩ := bind_eq_ok h
    have hempty : re.waitingJobs.entries = [] := by simpa using hs
    refine .inr ⟨re, hre, hempty, ?_⟩
    -- whether the req limited its jobs, and whether it was the last one, only changes the count
    -- of limited reqs and adds checks
    simp only [swear, bind, Except.bind, pure, Except.pure] at h
    split_ifs at h <;> cases h <;> exact ⟨rfl, rfl, rfl, rfl, rfl⟩

/-- A req closes only when it waits for nothing, so no job loses a req. -/
theorem Indexed.closeReq {be be' : GenericBackend R S} (hi : be.Indexed P) {req : Nat}
    (h : be.closeReq req = .ok be') : be'.Indexed P := by
  rcases closeReq_ok h with rfl | ⟨re, hre, hempty, hr, hw, hs, -⟩
  · exact hi
  have hlook : ∀ r re', be'.reqs.lookup r = some re' → be.reqs.lookup r = some re' := by
    intro r re' h'
    rw [hr] at h'
    by_cases hrq : r = req
    · subst hrq
      simp at h'
    · rwa [AList.lookup_erase_ne hrq] at h'
  refine ⟨fun r re' h' j p hp => ?_, fun r re' h' key q hq e he => ?_,
    fun r re' h' => hi.nodup r re' (hlook r re' h'), fun j we hwe => ?_⟩
  · rw [hw, hs]
    exact hi.queued r re' (hlook r re' h') j p hp
  · rw [hw, hs]
    exact hi.entry r re' (hlook r re' h') key q hq e he
  · -- the req waited for no job
    rw [hw] at hwe
    have hc := AList.countP_erase hre fun e => decide (j ∈ e.2.waitingJobs)
    have hj : j ∉ re.waitingJobs := by
      rw [AList.mem_keys, AList.keys, hempty]
      simp
    simp only [hj, decide_false, Bool.false_eq_true, if_false, Nat.add_zero] at hc
    rw [hi.nReqs j we hwe, hr]
    unfold nWaiting
    exact hc.symm

omit [DecidableEq R] in
theorem nodup_insertEntry {e : PressureEntry} {q : List PressureEntry} (h : q.Nodup) :
    (insertEntry e q).Nodup := by
  unfold insertEntry
  split
  · exact h
  · rename_i he
    exact (List.perm_orderedInsert _ e q).nodup_iff.mpr (List.nodup_cons.mpr ⟨he, h⟩)

/-- Giving `job` the pressure `pressure` for `req`, in a queue of its key made of the new entry and
of entries of other jobs from the old queue, keeps the queues exact, when no job's resources change
and `job` has no entry in the other queues of `req`; it is then an index as soon as the waiting
jobs are queued and counted. -/
theorem Indexed.enqueue {be be' : GenericBackend R S} (hi : be.Indexed P) {req job pressure : Nat}
    {re : ReqEntry R} {key : R} (hre : be.reqs.lookup req = some re) {q' : List PressureEntry}
    (hq' : ∀ e ∈ q', e = ⟨pressure, job⟩ ∨
      (e ∈ (re.waitingQueues.lookup key).getD [] ∧ e.job ≠ job))
    (hnd : q'.Nodup) (hne : q' ≠ [])
    (hother : ∀ key' q e, key' ≠ key → re.waitingQueues.lookup key' = some q → e ∈ q → e.job ≠ job)
    (hr : be'.reqs = be.reqs.insert req { re with
      waitingJobs := re.waitingJobs.insert job pressure
      waitingQueues := re.waitingQueues.insert key q' })
    (hs : be'.sub = be.sub)
    (hwj : ∀ j we, be.waitingJobs.lookup j = some we →
      ∃ we', be'.waitingJobs.lookup j = some we' ∧ we'.rsrcs = we.rsrcs)
    (hjob : ∃ we, be'.waitingJobs.lookup job = some we ∧ P.round be.sub we.rsrcs = .ok key)
    (hq : be'.Queued P)
    (hc : ∀ j we, be'.waitingJobs.lookup j = some we → we.nReqs = nWaiting be'.reqs j) :
    be'.Indexed P := by
  -- an entry of a queue as it was, of another job than `job`
  have hkept : ∀ (re₀ : ReqEntry R) key₀ (e : PressureEntry),
      (re₀.waitingJobs.lookup e.job = some e.pressure ∧
        ∃ we, be.waitingJobs.lookup e.job = some we ∧ P.round be.sub we.rsrcs = .ok key₀) →
      e.job ≠ job → (re₀.waitingJobs.insert job pressure).lookup e.job = some e.pressure ∧
        ∃ we, be'.waitingJobs.lookup e.job = some we ∧ P.round be'.sub we.rsrcs = .ok key₀ := by
    rintro re₀ key₀ e ⟨hp, we, hwe, hkey⟩ hej
    obtain ⟨we', hwe', hrs⟩ := hwj _ we hwe
    exact ⟨by rw [AList.lookup_insert_ne hej, hp], we', hwe', by rw [hs, hrs, hkey]⟩
  refine ⟨hq, fun r re' hr' key₁ q hq₁ e he => ?_, fun r re' hr' key₁ q hq₁ => ?_, hc⟩
  · rw [hr] at hr'
    by_cases hrq : r = req
    · subst hrq
      rw [AList.lookup_insert, Option.some.injEq] at hr'
      subst hr'
      by_cases hk : key₁ = key
      · subst hk
        rw [AList.lookup_insert, Option.some.injEq] at hq₁
        subst hq₁
        rcases hq' e he with rfl | ⟨hold, hej⟩
        · obtain ⟨we, hwe, hkey⟩ := hjob
          exact ⟨AList.lookup_insert _, we, hwe, by rw [hs, hkey]⟩
        · cases hql : re.waitingQueues.lookup key₁ with
          | none => simp [hql] at hold
          | some q₀ =>
            rw [hql, Option.getD_some] at hold
            exact hkept re key₁ e (hi.entry r re hre key₁ q₀ hql e hold) hej
      · rw [AList.lookup_insert_ne hk] at hq₁
        exact hkept re key₁ e (hi.entry r re hre key₁ q hq₁ e he) (hother key₁ q e hk hq₁ he)
    · rw [AList.lookup_insert_ne hrq] at hr'
      obtain ⟨hp, we, hwe, hkey⟩ := hi.entry r re' hr' key₁ q hq₁ e he
      obtain ⟨we', hwe', hrs⟩ := hwj _ we hwe
      exact ⟨hp, we', hwe', by rw [hs, hrs, hkey]⟩
  · rw [hr] at hr'
    by_cases hrq : r = req
    · subst hrq
      rw [AList.lookup_insert, Option.some.injEq] at hr'
      subst hr'
      by_cases hk : key₁ = key
      · subst hk
        rw [AList.lookup_insert, Option.some.injEq] at hq₁
        subst hq₁
        exact ⟨hnd, hne⟩
      · rw [AList.lookup_insert_ne hk] at hq₁
        exact hi.nodup r re hre key₁ q hq₁
    · rw [AList.lookup_insert_ne hrq] at hr'
      exact hi.nodup r re' hr' key₁ q hq₁

/-- A job in no req's queues, when it is not waiting. -/
theorem Indexed.not_mem_of_not_waiting {be : GenericBackend R S} (hi : be.Indexed P) {job : Nat}
    (hjob : job ∉ be.waitingJobs) {r : Nat} {re : ReqEntry R} (hre : be.reqs.lookup r = some re) :
    job ∉ re.waitingJobs ∧ ∀ key q e, re.waitingQueues.lookup key = some q → e ∈ q → e.job ≠ job := by
  have hnone : be.waitingJobs.lookup job = none := AList.lookup_eq_none.mpr hjob
  refine ⟨fun hj => ?_, fun key q e hq he hej => ?_⟩
  · obtain ⟨p, hp⟩ := Option.isSome_iff_exists.mp (AList.lookup_isSome.mpr hj)
    obtain ⟨we, -, -, hwe, -⟩ := hi.queued r re hre job p hp
    rw [hnone] at hwe
    cases hwe
  · obtain ⟨-, we, hwe, -⟩ := hi.entry r re hre key q hq e he
    rw [hej, hnone] at hwe
    cases hwe

/-- The jobs of a req's queues are jobs it waits for. -/
theorem Indexed.not_mem_queue {be : GenericBackend R S} (hi : be.Indexed P) {job r : Nat}
    {re : ReqEntry R} (hre : be.reqs.lookup r = some re) (hjob : job ∉ re.waitingJobs) :
    ∀ key q e, re.waitingQueues.lookup key = some q → e ∈ q → e.job ≠ job := by
  intro key q e hq he hej
  obtain ⟨hp, -⟩ := hi.entry r re hre key q hq e he
  exact hjob (AList.lookup_isSome.mp (by rw [← hej, hp]; rfl))

/-- A new job, waited for by `req` only. -/
theorem Indexed.submit {be be' : GenericBackend R S} (hi : be.Indexed P) {job req pressure : Nat}
    {rd : R} (h : be.submit P job req pressure rd = .ok be') : be'.Indexed P := by
  have hq := hi.queued.submit h
  obtain ⟨hjob, re, key, hre, hkey, rfl⟩ := submit_ok h
  obtain ⟨hnre, hnq⟩ := hi.not_mem_of_not_waiting hjob hre
  refine hi.enqueue hre (fun e he => ?_) (nodup_insertEntry ?_) ?_
    (fun key' q e _ hq' he => hnq key' q e hq' he) rfl rfl (fun j we hwe => ⟨we, ?_, rfl⟩)
    ⟨_, AList.lookup_insert _, hkey⟩ hq (fun j we hwe => ?_)
  · rcases mem_insertEntry.mp he with rfl | hold
    · exact .inl rfl
    · refine .inr ⟨hold, ?_⟩
      cases hql : re.waitingQueues.lookup key with
      | none => simp [hql] at hold
      | some q₀ =>
        rw [hql, Option.getD_some] at hold
        exact hnq key q₀ e hql hold
  · cases hql : re.waitingQueues.lookup key with
    | none => exact List.nodup_nil
    | some q₀ => exact (hi.nodup req re hre key q₀ hql).1
  · exact List.ne_nil_of_mem (mem_insertEntry.mpr (.inl rfl))
  · have hne : j ≠ job := fun hj => hjob (AList.lookup_isSome.mp (by rw [← hj, hwe]; rfl))
    rw [AList.lookup_insert_ne hne, hwe]
  · -- the new job counts its one req, the others keep their counts
    by_cases hj : j = job
    · subst hj
      rw [AList.lookup_insert, Option.some.injEq] at hwe
      subst hwe
      rw [nWaiting_insert_add hre hnre (by simp), nWaiting_eq_zero fun r re' hr' =>
        (hi.not_mem_of_not_waiting hjob hr').1]
    · rw [AList.lookup_insert_ne hj] at hwe
      rw [nWaiting_insert_of_iff hre (by simp [hj]), hi.nReqs j we hwe]

/-- One more req waits for a waiting job. -/
theorem Indexed.addPressure {be be' : GenericBackend R S} (hi : be.Indexed P)
    {job req pressure : Nat} (h : be.addPressure P job req pressure = .ok be') : be'.Indexed P := by
  have hq := hi.queued.addPressure h
  rcases addPressure_ok h with ⟨hr, hw, hs, -⟩ | ⟨re, we, key, hre, hwe, hnre, hkey, rfl⟩
  · exact hi.of_round hr hw (by rw [hs])
  have hnq := hi.not_mem_queue hre hnre
  refine hi.enqueue hre (fun e he => ?_) (nodup_insertEntry ?_) ?_
    (fun key' q e _ hq' he => hnq key' q e hq' he) rfl rfl (fun j we' hwe' => ?_)
    ⟨_, AList.lookup_insert _, hkey⟩ hq (fun j we' hwe' => ?_)
  · rcases mem_insertEntry.mp he with rfl | hold
    · exact .inl rfl
    · refine .inr ⟨hold, ?_⟩
      cases hql : re.waitingQueues.lookup key with
      | none => simp [hql] at hold
      | some q₀ =>
        rw [hql, Option.getD_some] at hold
        exact hnq key q₀ e hql hold
  · cases hql : re.waitingQueues.lookup key with
    | none => exact List.nodup_nil
    | some q₀ => exact (hi.nodup req re hre key q₀ hql).1
  · exact List.ne_nil_of_mem (mem_insertEntry.mpr (.inl rfl))
  · by_cases hj : j = job
    · subst hj
      rw [hwe, Option.some.injEq] at hwe'
      subst hwe'
      exact ⟨_, AList.lookup_insert _, rfl⟩
    · exact ⟨we', by rw [AList.lookup_insert_ne hj, hwe'], rfl⟩
  · -- the job counts one more req, the others keep their counts
    by_cases hj : j = job
    · subst hj
      rw [AList.lookup_insert, Option.some.injEq] at hwe'
      subst hwe'
      rw [nWaiting_insert_add hre hnre (by simp), hi.nReqs j we hwe]
    · rw [AList.lookup_insert_ne hj] at hwe'
      rw [nWaiting_insert_of_iff hre (by simp [hj]), hi.nReqs j we' hwe']

/-- A waiting job moves within the queue of its key. -/
theorem Indexed.setPressure {be be' : GenericBackend R S} (hi : be.Indexed P)
    {job req pressure : Nat} (h : be.setPressure P job req pressure = .ok be') : be'.Indexed P := by
  have hq := hi.queued.setPressure h
  rcases setPressure_ok h with rfl | ⟨re, we, old, key, q, hre, hwe, hold, hkey, hq', rfl⟩
  · exact hi
  have hjre : job ∈ re.waitingJobs := AList.lookup_isSome.mp (by rw [hold]; rfl)
  -- the entries of `job` in the queues of `req` are the one of its key, with its old pressure
  have hjob : ∀ key' q₁ e, re.waitingQueues.lookup key' = some q₁ → e ∈ q₁ → e.job = job →
      key' = key ∧ e = ⟨old, job⟩ := by
    intro key' q₁ e hq₁ he hej
    obtain ⟨hp, we', hwe', hkey'⟩ := hi.entry req re hre key' q₁ hq₁ e he
    rw [hej, hwe, Option.some.injEq] at hwe'
    subst hwe'
    rw [hej, hold, Option.some.injEq] at hp
    refine ⟨Except.ok.inj (hkey'.symm.trans hkey), ?_⟩
    cases e
    simp_all
  have hnd := (hi.nodup req re hre key q hq').1
  refine hi.enqueue hre (fun e he => ?_) (nodup_insertEntry (hnd.erase _)) ?_
    (fun key' q₁ e hk hq₁ he hej => hk (hjob key' q₁ e hq₁ he hej).1) rfl rfl
    (fun j we' hwe' => ⟨we', hwe', rfl⟩) ⟨we, hwe, hkey⟩ hq (fun j we' hwe' => ?_)
  · rcases mem_insertEntry.mp he with rfl | hmem
    · exact .inl rfl
    · rw [hq', Option.getD_some]
      refine .inr ⟨List.mem_of_mem_erase hmem, fun hej => ?_⟩
      rw [(hjob key q e hq' (List.mem_of_mem_erase hmem) hej).2] at hmem
      exact (hnd.mem_erase_iff.mp hmem).1 rfl
  · exact List.ne_nil_of_mem (mem_insertEntry.mpr (.inl rfl))
  · have hiff : j ∈ re.waitingJobs.insert job pressure ↔ j ∈ re.waitingJobs := by
      rw [AList.mem_insert]
      exact ⟨fun h' => h'.elim (fun hj => hj ▸ hjre) id, .inr⟩
    rw [nWaiting_insert_of_iff hre hiff, hi.nReqs j we' hwe']

/-- With the index, moving a job within the queues of a req that waits for it succeeds: the job
waits, its resources round, and the req has a queue of that key. -/
theorem Indexed.exists_setPressure_ok {be : GenericBackend R S} (hi : be.Indexed P)
    {job req pressure : Nat} {re : ReqEntry R} (hre : be.reqs.lookup req = some re)
    (hj : job ∈ re.waitingJobs) : ∃ be', be.setPressure P job req pressure = .ok be' := by
  obtain ⟨p, hp⟩ := Option.isSome_iff_exists.mp (AList.lookup_isSome.mpr hj)
  obtain ⟨we, key, q, hwe, hkey, hq, -⟩ := hi.queued req re hre job p hp
  have hat₁ : at? be.reqs req = .ok re := at?_eq_ok.mpr hre
  have hat₂ : at? re.waitingJobs job = .ok p := at?_eq_ok.mpr hp
  have hat₃ : at? re.waitingQueues key = .ok q := at?_eq_ok.mpr hq
  unfold GenericBackend.setPressure
  rw [hat₁, ok_bind]
  simp only [hwe, hat₂, hkey, hat₃, ok_bind]
  exact ⟨_, rfl⟩

/-- Launching is over: the job gets its id, the reqs and the queues are as they were. -/
theorem Indexed.launchDone {be : GenericBackend R S} (hi : be.Indexed P) (j : Nat)
    (launch : Except String Nat) : (be.launchDone j launch).Indexed P := by
  unfold GenericBackend.launchDone
  split
  · dsimp only
    split
    · exact hi.of_round rfl rfl rfl
    · split <;> exact hi.of_round rfl rfl rfl
  · exact hi

/-! ## Killing the waiting jobs of a req -/

omit [DecidableEq R] in
/-- A req waiting for `j` counts. -/
theorem one_le_nWaiting {reqs : Map Nat (ReqEntry R)} {r j : Nat} {re : ReqEntry R}
    (h : reqs.lookup r = some re) (hj : j ∈ re.waitingJobs) : 1 ≤ nWaiting reqs j :=
  List.countP_pos_iff.mpr ⟨⟨r, re⟩, AList.mem_lookup_iff.mp h, by simpa using hj⟩

omit [DecidableEq R] in
/-- Two reqs waiting for `j` count twice. -/
theorem two_le_nWaiting {reqs : Map Nat (ReqEntry R)} {r₁ r₂ j : Nat} {re₁ re₂ : ReqEntry R}
    (h₁ : reqs.lookup r₁ = some re₁) (h₂ : reqs.lookup r₂ = some re₂) (hr : r₂ ≠ r₁)
    (hj₁ : j ∈ re₁.waitingJobs) (hj₂ : j ∈ re₂.waitingJobs) : 2 ≤ nWaiting reqs j := by
  have hsub : nWaiting (reqs.insert r₁ re₁.clear) j + 1 = nWaiting reqs j :=
    nWaiting_insert_sub h₁ hj₁ (AList.notMem_empty j)
  have h₂' : (reqs.insert r₁ re₁.clear).lookup r₂ = some re₂ := by
    rw [AList.lookup_insert_ne hr]
    exact h₂
  have hone := one_le_nWaiting h₂' hj₂
  omega

omit [DecidableEq R] in
/-- The loop over all reqs clears each of them. -/
theorem lookup_foldl_clearReq (l : List Nat) (reqs : Map Nat (ReqEntry R)) (r : Nat) :
    (l.foldl clearReq reqs).lookup r =
      if r ∈ l then (reqs.lookup r).map ReqEntry.clear else reqs.lookup r := by
  induction l generalizing reqs with
  | nil => rfl
  | cons a l ih =>
    -- one step clears `a`, and clearing twice is clearing once
    have hstep : (clearReq reqs a).lookup r =
        if r = a then (reqs.lookup a).map ReqEntry.clear else reqs.lookup r := by
      unfold clearReq
      split
      · rename_i re hre
        rw [AList.lookup_replace, hre]
        rfl
      · rename_i hre
        split
        · rename_i hra
          rw [hra, hre]
          rfl
        · rfl
    rw [List.foldl_cons, ih, hstep]
    by_cases hra : r = a
    · subst hra
      simp only [List.mem_cons, true_or, if_true]
      split <;> cases reqs.lookup r <;> rfl
    · simp only [List.mem_cons, hra, false_or, if_false]

omit [DecidableEq R] in
/-- One job of the killed req loses it. -/
theorem forgetJob_ok {wj wj' : Map Nat (WaitEntry R)} {j : Nat} (h : forgetJob wj j = .ok wj')
    (i : Nat) : wj'.lookup i = if i = j then (wj.lookup j).bind WaitEntry.dropReq else wj.lookup i := by
  unfold forgetJob at h
  split at h
  · rename_i we hwe
    obtain ⟨u, -, h⟩ := bind_eq_ok h
    split at h <;> cases h
    · -- its last req: forgotten
      rename_i h1
      by_cases hij : i = j
      · subst hij
        simp [hwe, WaitEntry.dropReq, h1]
      · simp [AList.lookup_erase_ne hij, hij]
    · rename_i h1
      by_cases hij : i = j
      · subst hij
        simp [hwe, WaitEntry.dropReq, h1]
      · simp [AList.lookup_insert_ne hij, hij]
  · cases h

omit [DecidableEq R] in
/-- The loop over the jobs of the killed req: each of them loses it, once. -/
theorem foldlM_forgetJob_ok : ∀ (l : List Nat) {wj wj' : Map Nat (WaitEntry R)}, l.Nodup →
    l.foldlM forgetJob wj = .ok wj' →
      ∀ i, wj'.lookup i = if i ∈ l then (wj.lookup i).bind WaitEntry.dropReq else wj.lookup i
  | [], _, _, _, h, i => by cases h; rfl
  | j :: l, wj, wj', hnd, h, i => by
    rw [List.foldlM_cons] at h
    obtain ⟨wj₁, h₁, h⟩ := bind_eq_ok h
    obtain ⟨hj, hnd⟩ := List.nodup_cons.mp hnd
    rw [foldlM_forgetJob_ok l hnd h i, forgetJob_ok h₁]
    by_cases hij : i = j
    · subst hij
      simp [hj]
    · simp [hij]

omit [DecidableEq R] in
/-- What `kill_waiting_jobs` did when it succeeds: every req cleared and no job waiting, or one
req cleared and each of its jobs losing it. -/
theorem killWaitingJobs_ok {be be' : GenericBackend R S} {req : Option Nat} {jobs : List Nat}
    (h : be.killWaitingJobs req = .ok (jobs, be')) :
    (be'.waitingJobs = ∅ ∧ be'.sub = be.sub ∧ be'.spawnedJobs = be.spawnedJobs ∧
      be'.msgs = be.msgs ∧ ∀ r, be'.reqs.lookup r = (be.reqs.lookup r).map ReqEntry.clear) ∨
    ∃ r re, be.reqs.lookup r = some re ∧ be'.reqs = be.reqs.insert r re.clear ∧ be'.sub = be.sub ∧
      be'.spawnedJobs = be.spawnedJobs ∧ be'.msgs = be.msgs ∧ ∀ j, be'.waitingJobs.lookup j =
        if j ∈ re.waitingJobs then (be.waitingJobs.lookup j).bind WaitEntry.dropReq
        else be.waitingJobs.lookup j := by
  unfold killWaitingJobs at h
  split at h
  · -- the checked req, if any, is the only one; then every req is cleared
    have h' : (be.waitingJobs.keys,
        { be with waitingJobs := ∅, reqs := be.reqs.keys.foldl clearReq be.reqs }) = (jobs, be') := by
      split at h
      · obtain ⟨u, -, h⟩ := bind_eq_ok h
        exact Except.ok.inj h
      · exact Except.ok.inj h
    cases h'
    refine .inl ⟨rfl, rfl, rfl, rfl, fun r => ?_⟩
    rw [lookup_foldl_clearReq]
    split
    · rfl
    · rename_i hr
      rw [AList.lookup_eq_none.mpr fun h' => hr (AList.mem_keys.mpr h')]
      rfl
  · dsimp only at h
    split at h
    · rename_i re hre
      obtain ⟨wj, hwj, h⟩ := bind_eq_ok h
      cases h
      refine .inr ⟨_, re, hre, rfl, rfl, rfl, rfl, fun j => ?_⟩
      rw [foldlM_forgetJob_ok _ (AList.keys_nodup _) hwj j]
      simp only [AList.mem_keys]
    · cases h

omit [DecidableEq R] in
/-- The loop of `kill_waiting_jobs` over jobs that wait, each for some req, succeeds. -/
theorem foldlM_forgetJob_succeeds : ∀ (l : List Nat) (wj : Map Nat (WaitEntry R)), l.Nodup →
    (∀ j ∈ l, ∃ we, wj.lookup j = some we ∧ we.nReqs ≠ 0) →
      ∃ wj', l.foldlM forgetJob wj = .ok wj'
  | [], wj, _, _ => ⟨wj, rfl⟩
  | j :: l, wj, hnd, hl => by
    obtain ⟨hj, hnd⟩ := List.nodup_cons.mp hnd
    obtain ⟨we, hwe, hn⟩ := hl j List.mem_cons_self
    have hstep : ∃ wj₁, forgetJob wj j = .ok wj₁ := by
      unfold forgetJob
      simp only [hwe, swear, hn, ne_eq, not_false_eq_true, decide_true, if_true, ok_bind]
      split <;> exact ⟨_, rfl⟩
    obtain ⟨wj₁, h₁⟩ := hstep
    -- the jobs after this one are other jobs, which this step leaves alone
    have hl' : ∀ i ∈ l, ∃ we, wj₁.lookup i = some we ∧ we.nReqs ≠ 0 := by
      intro i hi
      rw [forgetJob_ok h₁ i, if_neg fun (h : i = j) => hj (h ▸ hi)]
      exact hl i (List.mem_cons_of_mem _ hi)
    obtain ⟨wj', h'⟩ := foldlM_forgetJob_succeeds l wj₁ hnd hl'
    exact ⟨wj', by rw [List.foldlM_cons, h₁, ok_bind]; exact h'⟩

/-- With the index, killing the waiting jobs of an open req succeeds: each job it waits for is
waiting, and counts it. -/
theorem Indexed.exists_killWaitingJobs_ok {be : GenericBackend R S} (hi : be.Indexed P) {r : Nat}
    (hr : r ∈ be.reqs) : ∃ jobs be', be.killWaitingJobs (some r) = .ok (jobs, be') := by
  obtain ⟨re, hre⟩ := Option.isSome_iff_exists.mp (AList.lookup_isSome.mpr hr)
  unfold killWaitingJobs
  split
  · -- the req is the only one
    rename_i hsmall
    have hlen : be.reqs.keys.length ≤ 1 := by simpa [AList.keys, List.keys] using hsmall
    have hkeys : be.reqs.keys = [r] := by
      have hmem : r ∈ be.reqs.keys := AList.mem_keys.mpr hr
      match hk : be.reqs.keys, hlen, hmem with
      | [a], _, hm => rw [List.mem_singleton.mp hm]
      | [], _, hm => cases hm
      | _ :: _ :: _, hl, _ => simp at hl
    simp only [hkeys, swear, beq_self_eq_true, if_true, ok_bind]
    exact ⟨_, _, rfl⟩
  · dsimp only
    rw [Option.getD_some, hre]
    -- each job of the req waits, and counts the req
    have hjobs : ∀ j ∈ re.waitingJobs.keys, ∃ we, be.waitingJobs.lookup j = some we ∧ we.nReqs ≠ 0 := by
      intro j hj
      have hjr : j ∈ re.waitingJobs := AList.mem_keys.mp hj
      obtain ⟨p, hp⟩ := Option.isSome_iff_exists.mp (AList.lookup_isSome.mpr hjr)
      obtain ⟨we, -, -, hwe, -⟩ := hi.queued r re hre j p hp
      refine ⟨we, hwe, ?_⟩
      rw [hi.nReqs j we hwe]
      have := one_le_nWaiting hre hjr
      omega
    obtain ⟨wj, hwj⟩ := foldlM_forgetJob_succeeds _ _ (AList.keys_nodup _) hjobs
    dsimp only
    rw [hwj, ok_bind]
    exact ⟨_, _, rfl⟩

/-- Killing the waiting jobs of a req, or of all of them, keeps the index. -/
theorem Indexed.killWaitingJobs {be be' : GenericBackend R S} (hi : be.Indexed P)
    {req : Option Nat} {jobs : List Nat} (h : be.killWaitingJobs req = .ok (jobs, be')) :
    be'.Indexed P := by
  rcases killWaitingJobs_ok h with ⟨hw, -, -, -, hr⟩ | ⟨r, re, hre, hr, hs, -, -, hwj⟩
  · -- nothing waits anymore
    have hclear : ∀ r re', be'.reqs.lookup r = some re' → re'.waitingJobs = ∅ ∧ re'.waitingQueues = ∅ := by
      intro r re' h'
      rw [hr] at h'
      obtain ⟨re, -, rfl⟩ := Option.map_eq_some_iff.mp h'
      exact ⟨rfl, rfl⟩
    refine ⟨fun r re' h' j p hp => ?_, fun r re' h' key q hq => ?_, fun r re' h' key q hq => ?_,
      fun j we hwe => ?_⟩
    · rw [(hclear r re' h').1] at hp
      cases hp
    · rw [(hclear r re' h').2] at hq
      cases hq
    · rw [(hclear r re' h').2] at hq
      cases hq
    · rw [hw] at hwe
      cases hwe
  -- the killed req is cleared, the others are as they were
  have hlook : ∀ r' re', be'.reqs.lookup r' = some re' →
      re' = re.clear ∨ (r' ≠ r ∧ be.reqs.lookup r' = some re') := by
    intro r' re' h'
    rw [hr] at h'
    by_cases hr' : r' = r
    · subst hr'
      rw [AList.lookup_insert, Option.some.injEq] at h'
      exact .inl h'.symm
    · rw [AList.lookup_insert_ne hr'] at h'
      exact .inr ⟨hr', h'⟩
  -- a job another req waits for still waits, with its resources: the killed req was not its last
  have hkeep : ∀ r' re' j we, r' ≠ r → be.reqs.lookup r' = some re' → j ∈ re'.waitingJobs →
      be.waitingJobs.lookup j = some we →
      ∃ we', be'.waitingJobs.lookup j = some we' ∧ we'.rsrcs = we.rsrcs := by
    intro r' re' j we hr' hre' hj hwe
    rw [hwj j]
    split
    · rename_i hjr
      have h2 := two_le_nWaiting hre hre' hr' hjr hj
      have hn : we.nReqs ≠ 1 := by
        rw [hi.nReqs j we hwe]
        omega
      exact ⟨{ we with nReqs := we.nReqs - 1 },
        by rw [hwe, Option.bind_some, WaitEntry.dropReq, if_neg hn], rfl⟩
    · exact ⟨we, hwe, rfl⟩
  refine ⟨fun r' re' h' j p hp => ?_, fun r' re' h' key q hq e he => ?_,
    fun r' re' h' key q hq => ?_, fun j we' hwe' => ?_⟩
  · rcases hlook r' re' h' with rfl | ⟨hr', h'⟩
    · simp [ReqEntry.clear] at hp
    obtain ⟨we, key, q, hwe, hkey, hq, hmem⟩ := hi.queued r' re' h' j p hp
    obtain ⟨we', hwe', hrs⟩ :=
      hkeep r' re' j we hr' h' (AList.lookup_isSome.mp (by rw [hp]; rfl)) hwe
    exact ⟨we', key, q, hwe', by rw [hs, hrs, hkey], hq, hmem⟩
  · rcases hlook r' re' h' with rfl | ⟨hr', h'⟩
    · simp [ReqEntry.clear] at hq
    obtain ⟨hp, we, hwe, hkey⟩ := hi.entry r' re' h' key q hq e he
    obtain ⟨we', hwe', hrs⟩ :=
      hkeep r' re' e.job we hr' h' (AList.lookup_isSome.mp (by rw [hp]; rfl)) hwe
    exact ⟨hp, we', hwe', by rw [hs, hrs, hkey]⟩
  · rcases hlook r' re' h' with rfl | ⟨-, h'⟩
    · simp [ReqEntry.clear] at hq
    exact hi.nodup r' re' h' key q hq
  · -- a job of the killed req counts one req less, the others as many
    rw [hwj j] at hwe'
    have hnot : j ∉ re.clear.waitingJobs := AList.notMem_empty j
    rw [hr]
    split at hwe'
    · rename_i hj
      obtain ⟨we, hwe, hdrop⟩ := Option.bind_eq_some_iff.mp hwe'
      unfold WaitEntry.dropReq at hdrop
      split at hdrop
      · cases hdrop
      · cases hdrop
        have hsub := nWaiting_insert_sub hre hj hnot
        have hc := hi.nReqs j we hwe
        show we.nReqs - 1 = _
        omega
    · rename_i hj
      rw [nWaiting_insert_of_iff hre (iff_of_false hnot hj), hi.nReqs j we' hwe']

/-! ## Launching a job -/

omit [DecidableEq R] in
/-- The choice of a candidate queue never fails when no queue is empty, and what it chooses is
one of the queues it is given, or the candidate it started from. -/
theorem pickCandidate_ok (s : S) (Q : R × List PressureEntry → Prop)
    (l : List (Σ _ : R, List PressureEntry)) (hl : ∀ e ∈ l, e.2 ≠ [] ∧ Q (e.1, e.2)) :
    ∀ cand : Option (R × List PressureEntry), (∀ c, cand = some c → c.2 ≠ [] ∧ Q c) →
      ∃ res, pickCandidate P s l cand = .ok res ∧ ∀ c, res = some c → c.2 ≠ [] ∧ Q c := by
  induction l with
  | nil => exact fun cand hc => ⟨cand, rfl, hc⟩
  | cons e rest ih =>
    obtain ⟨k, q⟩ := e
    have ih' := ih fun e he => hl e (List.mem_cons_of_mem _ he)
    obtain ⟨hq, hQ⟩ := hl ⟨k, q⟩ List.mem_cons_self
    obtain ⟨x, q', rfl⟩ := List.exists_cons_of_ne_nil hq
    intro cand hc
    -- the queue met now becomes the candidate when it fits
    have hnext : ∀ c, (if P.fitNow s k then some (k, x :: q') else cand) = some c →
        c.2 ≠ [] ∧ Q c := by
      intro c h
      split at h
      · cases h
        exact ⟨hq, hQ⟩
      · exact hc c h
    cases cand with
    | none => exact ih' _ hnext
    | some c =>
      obtain ⟨k', cq⟩ := c
      obtain ⟨hcq, -⟩ := hc _ rfl
      obtain ⟨y, cq', rfl⟩ := List.exists_cons_of_ne_nil hcq
      simp only [pickCandidate, List.head?_cons]
      split
      · exact ih' _ hc
      · exact ih' _ hnext

omit [DecidableEq R] in
/-- `create` acquires the rounded resources, and fails only when that fails. -/
theorem create_cases {t : SpawnedTab R} {s : S} {j : Nat} {rsrcs rounded : R} :
    (∀ m, t.create P s j rsrcs rounded = .error m → P.acquireRsrcs s rounded = .error m) ∧
    ∀ s' t', t.create P s j rsrcs rounded = .ok (s', t') → P.acquireRsrcs s rounded = .ok s' := by
  unfold SpawnedTab.create
  cases P.acquireRsrcs s rounded with
  | error m =>
    refine ⟨fun m' h => ?_, fun s' t' h => by cases h⟩
    rw [error_bind] at h
    cases h
    rfl
  | ok s₁ =>
    refine ⟨fun m h => ?_, fun s' t' h => ?_⟩ <;> rw [ok_bind] at h <;> split at h <;> cases h
    all_goals rfl

/-! ## The failed launches among the spawned jobs -/

/-- The entries of `t'` that record a failed launch recorded it in `t` already. -/
def FailedKept (t t' : SpawnedTab R) : Prop :=
  ∀ j se', t'.find j = some se' → se'.id = FailedId → ∃ se, t.find j = some se ∧ se.id = FailedId

omit [DecidableEq R] in
theorem FailedKept.refl (t : SpawnedTab R) : FailedKept t t := fun _ se h hf => ⟨se, h, hf⟩

omit [DecidableEq R] in
theorem FailedKept.trans {t₁ t₂ t₃ : SpawnedTab R} (h₁ : FailedKept t₁ t₂)
    (h₂ : FailedKept t₂ t₃) : FailedKept t₁ t₃ := by
  intro j se h hf
  obtain ⟨se₂, h₂', hf₂⟩ := h₂ j se h hf
  exact h₁ j se₂ h₂' hf₂

omit [DecidableEq R] in
theorem lookup_of_find {t : SpawnedTab R} {j : Nat} {se : SpawnedEntry R}
    (h : t.find j = some se) : t.tab.lookup j = some se ∧ se.zombie = false := by
  unfold SpawnedTab.find at h
  split at h
  · split at h
    · cases h
    · cases h
      exact ⟨‹_›, Bool.eq_false_iff.mpr ‹_›⟩
  · cases h

omit [DecidableEq R] in
/-- Writing an entry keeps the failed launches, unless it writes one that was not there. -/
theorem FailedKept.of_insert {t t' : SpawnedTab R} {j : Nat} {se' : SpawnedEntry R}
    (h : t'.tab = t.tab.insert j se')
    (hse : se'.zombie = false → se'.id = FailedId → ∃ se, t.find j = some se ∧ se.id = FailedId) :
    FailedKept t t' := by
  intro j' se'' h' hf
  rw [SpawnedTab.find_of_tab_insert h] at h'
  split at h'
  · subst j'
    cases hz : se'.zombie
    · rw [hz] at h'
      cases h'
      exact hse hz hf
    · rw [hz] at h'
      cases h'
  · exact ⟨se'', h', hf⟩

omit [DecidableEq R] in
/-- Updating an entry in place keeps its id. -/
theorem FailedKept.of_update {t t' : SpawnedTab R} {j : Nat} {se se' : SpawnedEntry R}
    (hl : t.tab.lookup j = some se) (h : t'.tab = t.tab.insert j se')
    (hz : se'.zombie = se.zombie) (hid : se'.id = se.id) : FailedKept t t' :=
  FailedKept.of_insert h fun hz' hf =>
    ⟨se, by simp only [SpawnedTab.find, hl, ← hz, hz', Bool.false_eq_true, if_false], hid ▸ hf⟩

omit [DecidableEq R] in
theorem FailedKept.end {t t' : SpawnedTab R} {s s' : S} {j : Nat} {se : SpawnedEntry R}
    (h : t.end P s j se = .ok (s', t')) : FailedKept t t' := by
  intro j' se' h' hf
  rw [SpawnedTab.find_end P h] at h'
  split at h'
  · cases h'
  · exact ⟨se', h', hf⟩

omit [DecidableEq R] in
theorem FailedKept.flush (t : SpawnedTab R) : FailedKept t t.flush := by
  intro j se h hf
  rw [SpawnedTab.find_flush] at h
  split at h
  · cases h
  · exact ⟨se, h, hf⟩

omit [DecidableEq R] in
/-- `create` adds an entry with no id, if any. -/
theorem FailedKept.create {t t' : SpawnedTab R} {s s' : S} {j : Nat} {rsrcs rounded : R}
    (h : t.create P s j rsrcs rounded = .ok (s', t')) : FailedKept t t' := by
  unfold SpawnedTab.create at h
  obtain ⟨s₁, -, h⟩ := bind_eq_ok h
  split at h
  · cases h
    exact .refl t
  · cases h
    exact FailedKept.of_insert rfl fun _ hf => absurd hf (by simp [NoId, FailedId])

omit [DecidableEq R] in
/-- The launched entries are marked starting. -/
theorem FailedKept.mark (l : List Nat) (t : SpawnedTab R) :
    FailedKept t { t with tab := l.foldl markStarting t.tab } := by
  induction l generalizing t with
  | nil => exact .refl t
  | cons j l ih =>
    refine FailedKept.trans ?_ (ih { t with tab := markStarting t.tab j })
    unfold markStarting
    split
    · exact FailedKept.of_insert rfl fun _ hf => absurd hf (by simp [StartingId, FailedId])
    · exact .refl t

/-- `unqueue` for the req being launched drops the job from its waiting jobs only. -/
theorem unqueue_self {reqs : Map Nat (ReqEntry R)} {req j p : Nat} {key : R} {re : ReqEntry R}
    (hre : reqs.lookup req = some re) (hp : re.waitingJobs.lookup j = some p)
    (be : GenericBackend R S) (hbe : be.reqs = reqs) :
    unqueue be req j key req =
      .ok { be with reqs := reqs.insert req { re with waitingJobs := re.waitingJobs.erase j } } := by
  subst hbe
  have hat : at? be.reqs req = .ok re := at?_eq_ok.mpr hre
  simp [unqueue, hat, hp, bind, Except.bind, pure, Except.pure]

/-- `unqueue` for another req that waits for the job, in its queue of the job's key. -/
theorem unqueue_other {reqs : Map Nat (ReqEntry R)} {req j r p : Nat} {key : R} {re : ReqEntry R}
    {q : List PressureEntry} (hr : r ≠ req) (hre : reqs.lookup r = some re)
    (hp : re.waitingJobs.lookup j = some p) (hq : re.waitingQueues.lookup key = some q)
    (hm : (⟨p, j⟩ : PressureEntry) ∈ q) (be : GenericBackend R S) (hbe : be.reqs = reqs) :
    unqueue be req j key r = .ok { be with reqs := reqs.insert r (re.dropJob j key) } := by
  subst hbe
  have hat : at? be.reqs r = .ok re := at?_eq_ok.mpr hre
  simp only [unqueue, hat, hp, hr, hq, hm, swear, bind, Except.bind, pure, Except.pure,
    ne_eq, not_false_eq_true, if_true, decide_true, ReqEntry.dropJob, Option.getD_some]
  split <;> rfl

/-- The loop of `_launch` over the other reqs that wait for the job drops it from each. -/
theorem foldlM_unqueue {req j : Nat} {key : R} :
    ∀ (rs : List Nat) (reqs : Map Nat (ReqEntry R)), rs.Nodup → req ∉ rs →
      (∀ r ∈ rs, ∃ re p q, reqs.lookup r = some re ∧ re.waitingJobs.lookup j = some p ∧
        re.waitingQueues.lookup key = some q ∧ (⟨p, j⟩ : PressureEntry) ∈ q) →
      ∃ reqs', (∀ be : GenericBackend R S, be.reqs = reqs →
          rs.foldlM (fun be r => unqueue be req j key r) be = .ok { be with reqs := reqs' }) ∧
        ∀ r, reqs'.lookup r =
          if r ∈ rs then (reqs.lookup r).map (ReqEntry.dropJob j key) else reqs.lookup r
  | [], reqs, _, _, _ => ⟨reqs, fun be hbe => by rw [← hbe]; rfl, fun r => rfl⟩
  | r :: rs, reqs, hnd, hreq, hrs => by
    obtain ⟨hr, hnd⟩ := List.nodup_cons.mp hnd
    obtain ⟨re, p, q, hre, hp, hq, hm⟩ := hrs r List.mem_cons_self
    have hne : r ≠ req := fun h => hreq (h ▸ List.mem_cons_self)
    -- the reqs after this one are other reqs, whose entries this step leaves alone
    have hrs' : ∀ r' ∈ rs, ∃ re' p' q', (reqs.insert r (re.dropJob j key)).lookup r' = some re' ∧
        re'.waitingJobs.lookup j = some p' ∧ re'.waitingQueues.lookup key = some q' ∧
        (⟨p', j⟩ : PressureEntry) ∈ q' := by
      intro r' hr'
      have h' : r' ≠ r := fun h => hr (h ▸ hr')
      rw [AList.lookup_insert_ne h']
      exact hrs r' (List.mem_cons_of_mem _ hr')
    obtain ⟨reqs', hfold, hlook⟩ :=
      foldlM_unqueue rs _ hnd (fun h => hreq (List.mem_cons_of_mem _ h)) hrs'
    refine ⟨reqs', fun be hbe => ?_, fun r' => ?_⟩
    · rw [List.foldlM_cons, unqueue_other hne hre hp hq hm be hbe, ok_bind]
      exact hfold _ rfl
    · rw [hlook r']
      by_cases h' : r' = r
      · subst h'
        simp [hr, hre]
      · simp [h', AList.lookup_insert_ne h']

/-- A req that does not wait for the launched job keeps its entry. -/
theorem dropJob_of_not_mem {re : ReqEntry R} {j : Nat} {key : R} (h : j ∉ re.waitingJobs) :
    re.dropJob j key = re := by
  rw [ReqEntry.dropJob, AList.lookup_eq_none.mpr h]

/-- Dropping the first job of its queue from the req being launched. -/
theorem dropJob_head {re : ReqEntry R} {key : R} {p1 : PressureEntry} {ps : List PressureEntry}
    (hq : re.waitingQueues.lookup key = some (p1 :: ps))
    (hp : re.waitingJobs.lookup p1.job = some p1.pressure) :
    re.dropJob p1.job key =
      let re := { re with waitingJobs := re.waitingJobs.erase p1.job }
      if (p1 :: ps).length = 1 then { re with waitingQueues := re.waitingQueues.erase key }
      else { re with waitingQueues := re.waitingQueues.insert key (p1 :: ps).tail } := by
  simp only [ReqEntry.dropJob, hp, hq, Option.getD_some, List.erase_cons_head, List.tail_cons]
  split <;> rfl

/-- A req forgets the launched job, whether it waited for it or not. -/
theorem dropJob_waitingJobs (re : ReqEntry R) (j : Nat) (key : R) :
    (re.dropJob j key).waitingJobs = re.waitingJobs.erase j := by
  unfold ReqEntry.dropJob
  split
  · rename_i hj
    exact (AList.erase_of_notMem (AList.lookup_eq_none.mp hj)).symm
  · rfl

section DropJob

/-! What a req's queues look like once the launched job `j` is dropped, for a req whose queues
index its waiting jobs, `j` under `key` only. -/

variable {re : ReqEntry R} {j : Nat} {key : R}
  (hent : ∀ k q, re.waitingQueues.lookup k = some q → ∀ e ∈ q,
    re.waitingJobs.lookup e.job = some e.pressure ∧ (e.job = j → k = key))
  (hj : ∀ p, re.waitingJobs.lookup j = some p →
    ∃ q, re.waitingQueues.lookup key = some q ∧ (⟨p, j⟩ : PressureEntry) ∈ q)
include hent hj

/-- A queue left is a queue that was there, without `j`, and it is not empty. -/
theorem dropJob_queue_sub
    (hnd : ∀ k q, re.waitingQueues.lookup k = some q → q.Nodup ∧ q ≠ [])
    {k : R} {q' : List PressureEntry} (hq' : (re.dropJob j key).waitingQueues.lookup k = some q') :
    ∃ q, re.waitingQueues.lookup k = some q ∧ (∀ e ∈ q', e ∈ q ∧ e.job ≠ j) ∧ q'.Nodup ∧ q' ≠ [] := by
  -- an entry of `j` is in the queue `key` only
  have hother : ∀ q, re.waitingQueues.lookup k = some q → k ≠ key → ∀ e ∈ q, e.job ≠ j :=
    fun q hq hk e he hej => hk ((hent k q hq e he).2 hej)
  unfold ReqEntry.dropJob at hq'
  split at hq'
  · -- the req did not wait for `j`
    rename_i hnone
    refine ⟨q', hq', fun e he => ⟨he, fun hej => ?_⟩, hnd k q' hq'⟩
    have := (hent k q' hq' e he).1
    rw [hej, hnone] at this
    cases this
  · rename_i p hp
    obtain ⟨q, hq, hm⟩ := hj p hp
    simp only [hq, Option.getD_some] at hq'
    by_cases hk : k = key
    · subst hk
      obtain ⟨hnq, hne⟩ := hnd k q hq
      split at hq'
      · simp at hq'
      · rename_i hlen
        rw [AList.lookup_insert, Option.some.injEq] at hq'
        subst hq'
        refine ⟨q, hq, fun e he => ⟨List.mem_of_mem_erase he, fun hej => ?_⟩, hnq.erase _, ?_⟩
        · -- the entry of `j` in its queue is the one with its pressure, and it is erased
          have hpe := (hent k q hq e (List.mem_of_mem_erase he)).1
          rw [hej, hp, Option.some.injEq] at hpe
          have : e = ⟨p, j⟩ := by cases e; simp_all
          exact (hnq.mem_erase_iff.mp (this ▸ he)).1 rfl
        · have hl := List.length_erase_of_mem hm
          have hpos := List.length_pos_of_ne_nil hne
          intro h
          rw [h, List.length_nil] at hl
          omega
    · have hq'' : re.waitingQueues.lookup k = some q' := by
        split at hq'
        · rwa [AList.lookup_erase_ne hk] at hq'
        · rwa [AList.lookup_insert_ne hk] at hq'
      exact ⟨q', hq'', fun e he => ⟨he, hother q' hq'' hk e he⟩, hnd k q' hq''⟩

/-- An entry of another job stays in its queue. -/
theorem dropJob_queue_keep {k : R} {q : List PressureEntry} {e : PressureEntry}
    (hq : re.waitingQueues.lookup k = some q) (he : e ∈ q) (hej : e.job ≠ j) :
    ∃ q', (re.dropJob j key).waitingQueues.lookup k = some q' ∧ e ∈ q' := by
  unfold ReqEntry.dropJob
  split
  · exact ⟨q, hq, he⟩
  · rename_i p hp
    obtain ⟨q₀, hq₀, hm⟩ := hj p hp
    have hne : e ≠ ⟨p, j⟩ := fun h => hej (by rw [h])
    by_cases hk : k = key
    · subst hk
      rw [hq₀, Option.some.injEq] at hq
      subst hq
      simp only [hq₀, Option.getD_some]
      split
      · -- a queue of one entry holds `j` only
        rename_i hlen
        obtain ⟨x, hx⟩ := List.length_eq_one_iff.mp hlen
        rw [hx, List.mem_singleton] at he hm
        exact absurd (he.trans hm.symm) hne
      · exact ⟨_, AList.lookup_insert _, (List.mem_erase_of_ne hne).mpr he⟩
    · refine ⟨q, ?_, he⟩
      dsimp only
      split
      · rwa [AList.lookup_erase_ne hk]
      · rwa [AList.lookup_insert_ne hk]

end DropJob

/-- Dropping a waiting job from every req, the job's key being its resources rounded, and
forgetting it as a waiting job, keeps the index, as long as the rounding stays. -/
theorem Indexed.dropJob {be be' : GenericBackend R S} (hi : be.Indexed P) {j : Nat} {key : R}
    {we : WaitEntry R} (hwe : be.waitingJobs.lookup j = some we)
    (hkey : P.round be.sub we.rsrcs = .ok key)
    (hr : ∀ r, be'.reqs.lookup r = (be.reqs.lookup r).map (ReqEntry.dropJob j key))
    (hw : be'.waitingJobs = be.waitingJobs.erase j) (hs : P.round be'.sub = P.round be.sub) :
    be'.Indexed P := by
  -- each req of `be'` is one of `be` with the job dropped, and its queues index it as required
  have hlook : ∀ r re', be'.reqs.lookup r = some re' →
      ∃ re, be.reqs.lookup r = some re ∧ re' = re.dropJob j key := by
    intro r re' h
    rw [hr] at h
    obtain ⟨re, hre, rfl⟩ := Option.map_eq_some_iff.mp h
    exact ⟨re, hre, rfl⟩
  have hent : ∀ r re, be.reqs.lookup r = some re → ∀ k q, re.waitingQueues.lookup k = some q →
      ∀ e ∈ q, re.waitingJobs.lookup e.job = some e.pressure ∧ (e.job = j → k = key) := by
    intro r re hre k q hq e he
    obtain ⟨hp, we', hwe', hk⟩ := hi.entry r re hre k q hq e he
    refine ⟨hp, fun hej => ?_⟩
    rw [hej, hwe, Option.some.injEq] at hwe'
    subst hwe'
    exact Except.ok.inj (hk.symm.trans hkey)
  have hj : ∀ r re, be.reqs.lookup r = some re → ∀ p, re.waitingJobs.lookup j = some p →
      ∃ q, re.waitingQueues.lookup key = some q ∧ (⟨p, j⟩ : PressureEntry) ∈ q := by
    intro r re hre p hp
    obtain ⟨we', key', q, hwe', hkey', hq, hm⟩ := hi.queued r re hre j p hp
    rw [hwe, Option.some.injEq] at hwe'
    subst hwe'
    rw [hkey, Except.ok.injEq] at hkey'
    subst hkey'
    exact ⟨q, hq, hm⟩
  -- a job other than `j` waits as it did
  have hwait : ∀ j', j' ≠ j → be'.waitingJobs.lookup j' = be.waitingJobs.lookup j' := by
    intro j' hj'
    rw [hw, AList.lookup_erase_ne hj']
  refine ⟨fun r re' h' j' p hp => ?_, fun r re' h' k q' hq' e he => ?_,
    fun r re' h' k q' hq' => ?_, fun j' we' hwe' => ?_⟩
  · obtain ⟨re, hre, rfl⟩ := hlook r re' h'
    rw [dropJob_waitingJobs] at hp
    have hj' : j' ≠ j := by
      rintro rfl
      simp at hp
    rw [AList.lookup_erase_ne hj'] at hp
    obtain ⟨we', key', q, hwe', hkey', hq, hm⟩ := hi.queued r re hre j' p hp
    obtain ⟨q', hq', hm'⟩ := dropJob_queue_keep (hent r re hre) (hj r re hre) hq hm hj'
    exact ⟨we', key', q', by rw [hwait j' hj', hwe'], by rw [hs, hkey'], hq', hm'⟩
  · obtain ⟨re, hre, rfl⟩ := hlook r re' h'
    obtain ⟨q, hq, hsub, -⟩ :=
      dropJob_queue_sub (hent r re hre) (hj r re hre) (hi.nodup r re hre) hq'
    obtain ⟨he₀, hej⟩ := hsub e he
    obtain ⟨hp, we', hwe', hk⟩ := hi.entry r re hre k q hq e he₀
    rw [dropJob_waitingJobs, AList.lookup_erase_ne hej]
    exact ⟨hp, we', by rw [hwait _ hej, hwe'], by rw [hs, hk]⟩
  · obtain ⟨re, hre, rfl⟩ := hlook r re' h'
    obtain ⟨q, -, -, hnd⟩ :=
      dropJob_queue_sub (hent r re hre) (hj r re hre) (hi.nodup r re hre) hq'
    exact hnd
  · -- the other jobs keep their reqs
    have hj' : j' ≠ j := by
      rintro rfl
      rw [hw] at hwe'
      simp at hwe'
    rw [hwait j' hj'] at hwe'
    rw [hi.nReqs j' we' hwe', nWaiting, nWaiting]
    refine AList.countP_entries_congr _ fun r => ?_
    rw [hr, Option.map_map]
    congr 1
    funext re
    simp [dropJob_waitingJobs, AList.mem_erase, hj']

/-- **One launch**, from a state with the index, for a req that is open: it finds nothing to
launch, or it launches the first job `j` of one of the req's queues, whose key is the job's
resources rounded.  It then fails exactly when acquiring those resources fails; otherwise the
backend holds them, and `j` is forgotten as a waiting job and dropped from every req. -/
theorem launchOne_cases {be : GenericBackend R S} (hi : be.Indexed P) {req : Nat}
    {re : ReqEntry R} (hre : be.reqs.lookup req = some re) :
    launchOne P be req = .ok none ∨
    ∃ j key we, be.waitingJobs.lookup j = some we ∧ P.round be.sub we.rsrcs = .ok key ∧
      ((∃ m, P.acquireRsrcs be.sub key = .error m ∧ launchOne P be req = .error m) ∨
       ∃ s be', P.acquireRsrcs be.sub key = .ok s ∧ launchOne P be req = .ok (some (j, be')) ∧
         be'.sub = s ∧ be'.waitingJobs = be.waitingJobs.erase j ∧
         (∀ r, be'.reqs.lookup r = (be.reqs.lookup r).map (ReqEntry.dropJob j key)) ∧
         be'.msgs = be.msgs ∧ FailedKept be.spawnedJobs be'.spawnedJobs) := by
  have hat : at? be.reqs req = .ok re := at?_eq_ok.mpr hre
  -- the candidate is one of the queues of `req`, none of which is empty
  obtain ⟨res, hres, hcand⟩ := pickCandidate_ok be.sub
    (fun c => re.waitingQueues.lookup c.1 = some c.2) re.waitingQueues.entries
    (fun e he => ⟨(hi.nodup req re hre e.1 e.2 (AList.mem_lookup_iff.mpr he)).2,
      AList.mem_lookup_iff.mpr he⟩) none (fun c h => by cases h)
  generalize hL : launchOne P be req = L
  unfold launchOne at hL
  rw [hat, ok_bind, hres, ok_bind] at hL
  cases res with
  | none => exact .inl hL.symm
  | some c =>
  obtain ⟨key, ps⟩ := c
  obtain ⟨hps, hkey⟩ := hcand _ rfl
  obtain ⟨p1, ps', rfl⟩ := List.exists_cons_of_ne_nil hps
  obtain ⟨hp1, we, hwe, hround⟩ := hi.entry req re hre key _ hkey p1 List.mem_cons_self
  refine .inr ⟨p1.job, key, we, hwe, hround, ?_⟩
  simp only [List.head?_cons, hwe] at hL
  have hj : p1.job ∈ re.waitingJobs := AList.lookup_isSome.mp (by rw [hp1]; rfl)
  cases hc : be.spawnedJobs.create P be.sub p1.job we.rsrcs key with
  | error m =>
    rw [hc, error_bind] at hL
    exact .inl ⟨m, create_cases.1 m hc, hL.symm⟩
  | ok st =>
  rw [hc, ok_bind] at hL
  -- the loop's check: a req that does not wait for the job is not the one launched
  rw [forIn_eq_ok fun e he => ?loop, ok_bind] at hL
  case loop =>
    split
    · rename_i hje
      have hne : e.1 ≠ req := by
        intro h
        have he' : be.reqs.lookup req = some e.2 := h ▸ AList.mem_lookup_iff.mpr he
        rw [hre, Option.some.injEq] at he'
        exact hje (he' ▸ hj)
      simp [swear, hne, bind, Except.bind, pure, Except.pure]
    · rfl
  -- the req launched, then the other reqs waiting for the job, drop it
  rw [List.foldlM_cons, unqueue_self hre hp1, ok_bind] at hL
  case hbe => rfl
  -- the other reqs waiting for the job: each has it in its queue of the job's key
  have hnd : ((be.reqs.entries.filter fun e => decide (e.1 ≠ req ∧ p1.job ∈ e.2.waitingJobs)).map
      fun x => x.1).Nodup :=
    ((List.filter_sublist).map _).nodup (AList.keys_nodup be.reqs)
  have hreq : req ∉ (be.reqs.entries.filter fun e => decide (e.1 ≠ req ∧ p1.job ∈ e.2.waitingJobs)).map
      fun x => x.1 := by
    simp
  have hrs : ∀ r ∈ (be.reqs.entries.filter fun e => decide (e.1 ≠ req ∧ p1.job ∈ e.2.waitingJobs)).map
      (fun x => x.1), ∃ re' p' q',
        (be.reqs.insert req { re with waitingJobs := re.waitingJobs.erase p1.job }).lookup r = some re' ∧
        re'.waitingJobs.lookup p1.job = some p' ∧ re'.waitingQueues.lookup key = some q' ∧
        (⟨p', p1.job⟩ : PressureEntry) ∈ q' := by
    intro r hr
    obtain ⟨⟨r', re'⟩, he, rfl⟩ := List.mem_map.mp hr
    obtain ⟨he, hcond⟩ := List.mem_filter.mp he
    obtain ⟨hne, hjr⟩ := of_decide_eq_true hcond
    have hre' : be.reqs.lookup r' = some re' := AList.mem_lookup_iff.mpr he
    obtain ⟨p', hp'⟩ := Option.isSome_iff_exists.mp (AList.lookup_isSome.mpr hjr)
    obtain ⟨we', key', q', hwe', hkey', hq', hm'⟩ := hi.queued r' re' hre' p1.job p' hp'
    rw [hwe, Option.some.injEq] at hwe'
    subst hwe'
    rw [hround, Except.ok.injEq] at hkey'
    subst hkey'
    exact ⟨re', p', q', by rw [AList.lookup_insert_ne hne]; exact hre', hp', hq', hm'⟩
  obtain ⟨reqs', hfold, hlook⟩ := foldlM_unqueue (S := S) _ _ hnd hreq hrs
  rw [hfold, ok_bind] at hL
  case a => rfl
  have hat' : at? reqs' req = .ok { re with waitingJobs := re.waitingJobs.erase p1.job } := by
    rw [at?_eq_ok, hlook, if_neg hreq, AList.lookup_insert]
  dsimp only at hL
  rw [hat', ok_bind] at hL
  subst hL
  refine .inr ⟨st.1, _, create_cases.2 st.1 st.2 hc, rfl, rfl, rfl, fun r => ?_, rfl, ?kept⟩
  case kept =>
    -- the entry `create` makes or finds only gets the job's verbosity
    refine (FailedKept.create hc).trans ?_
    dsimp only
    split
    · rename_i se hse
      exact FailedKept.of_update hse rfl rfl rfl
    · exact .refl _
  dsimp only
  by_cases hr : r = req
  · subst hr
    rw [AList.lookup_insert, hre, Option.map_some, dropJob_head hkey hp1]
  · rw [AList.lookup_insert_ne hr, hlook, AList.lookup_insert_ne hr]
    split
    · rfl
    · -- a req that is not among the others does not wait for the job
      rename_i hnot
      cases hr' : be.reqs.lookup r with
      | none => rfl
      | some re' =>
        have hjr : p1.job ∉ re'.waitingJobs := fun hjr => hnot (List.mem_map.mpr
          ⟨⟨r, re'⟩, List.mem_filter.mpr ⟨AList.mem_lookup_iff.mp hr', by simp [hr, hjr]⟩, rfl⟩)
        rw [Option.map_some, dropJob_of_not_mem hjr]

variable (hP : P.RoundStable)
include hP

omit [DecidableEq R] in
/-- Starting a spawned job moves the resources it holds, not the rounding. -/
theorem round_start {t t' : SpawnedTab R} {s s' : S} {j : Nat} {se : SpawnedEntry R}
    (h : t.start P s j se = .ok (s', t')) : P.round s' = P.round s := by
  unfold SpawnedTab.start at h
  obtain ⟨u, -, h⟩ := bind_eq_ok h
  obtain ⟨u, -, h⟩ := bind_eq_ok h
  cases h
  exact hP.start s se.roundedRsrcs

omit [DecidableEq R] in
/-- Ending a spawned job gives its resources back, which does not move the rounding. -/
theorem round_end {t t' : SpawnedTab R} {s s' : S} {j : Nat} {se : SpawnedEntry R}
    (h : t.end P s j se = .ok (s', t')) : P.round s' = P.round s := by
  unfold SpawnedTab.end at h
  obtain ⟨u, -, h⟩ := bind_eq_ok h
  obtain ⟨s₁, hs₁, h⟩ := bind_eq_ok h
  have hr₁ := hP.release _ _ _ hs₁
  -- a job ended before it started is started first
  have hr₀ : P.round (if !se.started then P.startRsrcs s se.roundedRsrcs else s) = P.round s := by
    split
    · exact hP.start s se.roundedRsrcs
    · rfl
  split at h <;> cases h <;> rw [hr₁, hr₀]

theorem Indexed.start {be be' : GenericBackend R S} (hi : be.Indexed P) {j : Nat}
    (h : be.start P j = .ok be') : be'.Indexed P := by
  unfold GenericBackend.start at h
  split at h
  · cases h
    exact hi
  · obtain ⟨⟨s, t⟩, hst, h⟩ := bind_eq_ok h
    cases h
    exact hi.of_round rfl rfl (round_start hP hst)

theorem Indexed.end {be be' : GenericBackend R S} (hi : be.Indexed P) {j : Nat}
    (h : be.end P j = .ok be') : be'.Indexed P := by
  unfold GenericBackend.end at h
  split at h
  · cases h
    exact hi
  · obtain ⟨u, -, h⟩ := bind_eq_ok h
    obtain ⟨⟨s, t⟩, hst, h⟩ := bind_eq_ok h
    cases h
    exact hi.of_round rfl rfl (round_end hP hst)

theorem Indexed.killJob {be be' : GenericBackend R S} (hi : be.Indexed P) {j : Nat}
    (h : be.killJob P j = .ok be') : be'.Indexed P := by
  unfold GenericBackend.killJob at h
  split at h
  · cases h
    exact hi
  · obtain ⟨u, -, h⟩ := bind_eq_ok h
    obtain ⟨⟨s, t⟩, hst, h⟩ := bind_eq_ok h
    cases h
    exact hi.of_round rfl rfl (round_end hP hst)

theorem Indexed.heartbeat {be be' : GenericBackend R S} (hi : be.Indexed P) {j : Nat}
    {digest r : String × HeartbeatState} (h : be.heartbeat P j digest = .ok (r, be')) :
    be'.Indexed P := by
  rcases heartbeat_cases P h with rfl | ⟨se, s, t, -, hst, rfl⟩
  · exact hi
  · exact hi.of_round rfl rfl (round_end hP hst)

omit hP in
/-- A launch that gets past its first line is for an open req. -/
theorem launchOne_open {be : GenericBackend R S} {req : Nat} {r : Option (Nat × GenericBackend R S)}
    (h : launchOne P be req = .ok r) : ∃ re, be.reqs.lookup req = some re := by
  obtain ⟨re, hre, -⟩ := bind_eq_ok h
  exact ⟨re, at?_eq_ok.mp hre⟩

omit hP in
/-- From a state with the index, a launch for an open req fails only where acquiring the
resources of the job it launches fails. -/
theorem launchOne_error {be : GenericBackend R S} (hi : be.Indexed P) {req : Nat}
    (hreq : req ∈ be.reqs) {m : String} (h : launchOne P be req = .error m) :
    ∃ s rs, P.acquireRsrcs s rs = .error m := by
  obtain ⟨re, hre⟩ := Option.isSome_iff_exists.mp (AList.lookup_isSome.mpr hreq)
  rcases launchOne_cases hi hre with h' | ⟨j, key, we, -, -, ⟨m', hacq, h'⟩ | ⟨s, be', -, h', -⟩⟩
  · rw [h] at h'
    cases h'
  · rw [h, Except.error.injEq] at h'
    exact ⟨be.sub, key, h' ▸ hacq⟩
  · rw [h] at h'
    cases h'

/-- A launch keeps the index, and the req it launches for open. -/
theorem Indexed.launchOne {be be' : GenericBackend R S} (hi : be.Indexed P) {req j : Nat}
    (h : launchOne P be req = .ok (some (j, be'))) : be'.Indexed P ∧ req ∈ be'.reqs := by
  obtain ⟨re, hre⟩ := launchOne_open h
  rcases launchOne_cases hi hre with h' | ⟨j', key, we, hwe, hkey, ⟨m, -, h'⟩ | ⟨s, be'', hacq, h', hs, hw, hr, -⟩⟩
  · rw [h] at h'
    cases h'
  · rw [h] at h'
    cases h'
  · rw [h, Except.ok.injEq, Option.some.injEq, Prod.mk.injEq] at h'
    obtain ⟨rfl, rfl⟩ := h'
    have hround : P.round be'.sub = P.round be.sub := by
      rw [hs]
      exact hP.acquire _ _ _ hacq
    refine ⟨hi.dropJob hwe hkey hr hw hround, AList.lookup_isSome.mp ?_⟩
    rw [hr, hre]
    rfl

omit hP in
/-- A launch keeps the messages, and records no failed launch. -/
theorem launchOne_spawned {be be' : GenericBackend R S} (hi : be.Indexed P) {req j : Nat}
    (h : launchOne P be req = .ok (some (j, be'))) :
    be'.msgs = be.msgs ∧ FailedKept be.spawnedJobs be'.spawnedJobs := by
  obtain ⟨re, hre⟩ := launchOne_open h
  rcases launchOne_cases hi hre with
    h' | ⟨j', key, we, -, -, ⟨m, -, h'⟩ | ⟨s, be'', -, h', -, -, -, hm, hk⟩⟩
  · rw [h] at h'
    cases h'
  · rw [h] at h'
    cases h'
  · rw [h, Except.ok.injEq, Option.some.injEq, Prod.mk.injEq] at h'
    obtain ⟨rfl, rfl⟩ := h'
    exact ⟨hm, hk⟩

/-- The loop of `_launch` keeps the index, and fails only where acquiring resources fails. -/
theorem launchLoop_ok {req : Nat} : ∀ (fuel : Nat) (be : GenericBackend R S) (launched : List Nat),
    be.Indexed P → req ∈ be.reqs →
      (∀ m, launchLoop P be req fuel launched = .error m → ∃ s rs, P.acquireRsrcs s rs = .error m) ∧
      ∀ l be', launchLoop P be req fuel launched = .ok (l, be') →
        be'.Indexed P ∧ be'.msgs = be.msgs ∧ FailedKept be.spawnedJobs be'.spawnedJobs := by
  intro fuel
  induction fuel with
  | zero =>
    intro be launched hi _
    refine ⟨fun m h => (by cases h), fun l be' h => ?_⟩
    cases h
    exact ⟨hi, rfl, .refl _⟩
  | succ fuel ih =>
    intro be launched hi hreq
    obtain ⟨re, hre⟩ := Option.isSome_iff_exists.mp (AList.lookup_isSome.mpr hreq)
    have hat : at? be.reqs req = .ok re := at?_eq_ok.mpr hre
    -- the limit of running jobs stops the loop; otherwise one launch
    have hstep : ∀ r, launchLoop P be req (fuel + 1) launched = r →
        (∃ l, r = .ok (l, be)) ∨ (∃ m, launchOne P be req = .error m ∧ r = .error m) ∨
        ∃ j be', launchOne P be req = .ok (some (j, be')) ∧
          r = launchLoop P be' req fuel (launched ++ [j]) := by
      intro r h
      rw [launchLoop, hat, ok_bind] at h
      split at h
      · exact .inl ⟨launched, h.symm⟩
      · cases hL : launchOne P be req with
        | error m =>
          rw [hL, error_bind] at h
          exact .inr (.inl ⟨m, rfl, h.symm⟩)
        | ok o =>
          rw [hL, ok_bind] at h
          cases o with
          | none => exact .inl ⟨launched, h.symm⟩
          | some jb => exact .inr (.inr ⟨jb.1, jb.2, rfl, h.symm⟩)
    refine ⟨fun m h => ?_, fun l be' h => ?_⟩
    · rcases hstep _ h with ⟨l, hl⟩ | ⟨m', hL, hm⟩ | ⟨j, be₁, hL, h₁⟩
      · cases hl
      · cases hm
        exact launchOne_error hi hreq hL
      · obtain ⟨hi₁, hreq₁⟩ := hi.launchOne hP hL
        exact (ih be₁ _ hi₁ hreq₁).1 m h₁.symm
    · rcases hstep _ h with ⟨l', hl⟩ | ⟨m', -, hm⟩ | ⟨j, be₁, hL, h₁⟩
      · cases hl
        exact ⟨hi, rfl, .refl _⟩
      · cases hm
      · obtain ⟨hi₁, hreq₁⟩ := hi.launchOne hP hL
        obtain ⟨hm₁, hk₁⟩ := launchOne_spawned hi hL
        obtain ⟨hi', hm', hk'⟩ := (ih be₁ _ hi₁ hreq₁).2 l be' h₁.symm
        exact ⟨hi', hm'.trans hm₁, hk₁.trans hk'⟩

/-- The locked section of `_launch` for one req keeps the index, and fails only where acquiring
resources fails. -/
theorem launchReq_ok {be : GenericBackend R S} (hi : be.Indexed P) (req : Nat) :
    (∀ m, launchReq P be req = .error m → ∃ s rs, P.acquireRsrcs s rs = .error m) ∧
    ∀ l be', launchReq P be req = .ok (l, be') →
      be'.Indexed P ∧ be'.msgs = be.msgs ∧ FailedKept be.spawnedJobs be'.spawnedJobs := by
  -- flushing the zombies only touches the spawned jobs
  have hflush : (GenericBackend.mk be.sub be.reqs be.nNJobs be.waitingJobs
      be.spawnedJobs.flush be.msgs).Indexed P := hi.of_round rfl rfl rfl
  unfold launchReq
  dsimp only
  split
  · refine ⟨fun m h => (by cases h), fun l be' h => ?_⟩
    cases h
    exact ⟨hflush, rfl, .flush _⟩
  · rename_i hreq
    have hloop := launchLoop_ok hP be.waitingJobs.entries.length _ [] hflush (not_not.mp hreq)
    refine ⟨fun m h => ?_, fun l be' h => ?_⟩
    · rcases bind_eq_error h with hL | ⟨⟨l', be₁⟩, -, h⟩
      · exact hloop.1 m hL
      · cases h
    · obtain ⟨⟨l', be₁⟩, hL, h⟩ := bind_eq_ok h
      cases h
      -- the launched entries are then marked starting
      obtain ⟨hi₁, hm₁, hk₁⟩ := hloop.2 l' be₁ hL
      exact ⟨hi₁.of_round rfl rfl rfl, hm₁, (FailedKept.flush _).trans (hk₁.trans (.mark l' _))⟩

end

/-! ## Runs -/

/-- The operations of the generic backend, between two configs: what the server calls, and the
locked section of `_launch` with what follows it for each launched job. -/
inductive Step (P : RsrcsPolicy R S) : GenericBackend R S → GenericBackend R S → Prop
  | openReq {be be'} (req nJobs : Nat) (verbose : Bool) :
      be.openReq req nJobs verbose = .ok be' → Step P be be'
  | closeReq {be be'} (req : Nat) : be.closeReq req = .ok be' → Step P be be'
  | submit {be be'} (job req pressure : Nat) (rd : R) :
      be.submit P job req pressure rd = .ok be' → Step P be be'
  | addPressure {be be'} (job req pressure : Nat) :
      be.addPressure P job req pressure = .ok be' → Step P be be'
  | setPressure {be be'} (job req pressure : Nat) :
      be.setPressure P job req pressure = .ok be' → Step P be be'
  | killWaitingJobs {be be'} (req : Option Nat) (jobs : List Nat) :
      be.killWaitingJobs req = .ok (jobs, be') → Step P be be'
  | killJob {be be'} (j : Nat) : be.killJob P j = .ok be' → Step P be be'
  | start {be be'} (j : Nat) : be.start P j = .ok be' → Step P be be'
  | «end» {be be'} (j : Nat) : be.end P j = .ok be' → Step P be be'
  | heartbeat {be be'} (j : Nat) (digest r : String × HeartbeatState) :
      be.heartbeat P j digest = .ok (r, be') → Step P be be'
  | launchReq {be be'} (req : Nat) (launched : List Nat) :
      launchReq P be req = .ok (launched, be') → Step P be be'
  | launchDone {be} (j : Nat) (launch : Except String Nat) : Step P be (be.launchDone j launch)

section Run

variable {P} (hP : P.RoundStable)
include hP

/-- Every operation keeps the index. -/
theorem Indexed.step {be be' : GenericBackend R S} (hi : be.Indexed P) (h : Step P be be') :
    be'.Indexed P := by
  cases h with
  | openReq _ _ _ h => exact hi.openReq h
  | closeReq _ h => exact hi.closeReq h
  | submit _ _ _ _ h => exact hi.submit h
  | addPressure _ _ _ h => exact hi.addPressure h
  | setPressure _ _ _ h => exact hi.setPressure h
  | killWaitingJobs _ _ h => exact hi.killWaitingJobs h
  | killJob _ h => exact hi.killJob hP h
  | start _ h => exact hi.start hP h
  | «end» _ h => exact hi.end hP h
  | heartbeat _ _ _ h => exact hi.heartbeat hP h
  | launchReq req _ h => exact ((launchReq_ok hP hi req).2 _ _ h).1
  | launchDone j launch => exact hi.launchDone j launch

omit hP in
/-- A backend with no req and no waiting job is indexed. -/
theorem Indexed.empty {be : GenericBackend R S} (hr : be.reqs = ∅) (hw : be.waitingJobs = ∅) :
    be.Indexed P := by
  refine ⟨fun r re h => ?_, fun r re h => ?_, fun r re h => ?_, fun j we h => ?_⟩ <;>
    simp [hr, hw] at h

/-- Every state a run reaches from a backend with no req and no waiting job is indexed. -/
theorem Indexed.run {be₀ be : GenericBackend R S} (hr : be₀.reqs = ∅) (hw : be₀.waitingJobs = ∅)
    (h : Relation.ReflTransGen (Step P) be₀ be) : be.Indexed P := by
  induction h with
  | refl => exact Indexed.empty hr hw
  | tail _ hs ih => exact ih.step hP hs

/-- **The queues of a req, over runs**: in every state reached from a backend with no req and no
waiting job, a req waits for job `j` with pressure `p` exactly when `(p, j)` is in one of its
queues, and that queue's key is the job's resources as the policy rounds them now. -/
theorem waiting_queues_exact {be₀ be : GenericBackend R S} (hr : be₀.reqs = ∅)
    (hw : be₀.waitingJobs = ∅) (h : Relation.ReflTransGen (Step P) be₀ be) {r : Nat}
    {re : ReqEntry R} (hre : be.reqs.lookup r = some re) (j p : Nat) :
    (re.waitingJobs.lookup j = some p ↔
      ∃ key q, re.waitingQueues.lookup key = some q ∧ (⟨p, j⟩ : PressureEntry) ∈ q) ∧
    ∀ key q, re.waitingQueues.lookup key = some q → (⟨p, j⟩ : PressureEntry) ∈ q →
      ∃ we, be.waitingJobs.lookup j = some we ∧ P.round be.sub we.rsrcs = .ok key := by
  have hi := Indexed.run hP hr hw h
  refine ⟨⟨fun hp => ?_, fun ⟨key, q, hq, hm⟩ => (hi.entry r re hre key q hq _ hm).1⟩,
    fun key q hq hm => (hi.entry r re hre key q hq _ hm).2⟩
  obtain ⟨we, key, q, -, -, hq, hm⟩ := hi.queued r re hre j p hp
  exact ⟨key, q, hq, hm⟩

/-- **The count of reqs, over runs**: in every state reached from a backend with no req and no
waiting job, each waiting job's `n_reqs` is the number of open reqs that wait for it. -/
theorem nReqs_eq_nWaiting {be₀ be : GenericBackend R S} (hr : be₀.reqs = ∅)
    (hw : be₀.waitingJobs = ∅) (h : Relation.ReflTransGen (Step P) be₀ be) {j : Nat}
    {we : WaitEntry R} (hwe : be.waitingJobs.lookup j = some we) :
    we.nReqs = (be.reqs.entries.filter fun e => j ∈ e.2.waitingJobs).length := by
  rw [(Indexed.run hP hr hw h).nReqs j we hwe, nWaiting, List.countP_eq_length_filter]

/-- **Launching over runs**: in every state reached from a backend with no req and no waiting
job, the locked section of `_launch` fails only where the policy fails to acquire resources; none
of its own checks, lookups and dereferences fails. -/
theorem launchReq_fails_only_in_acquire {be₀ be : GenericBackend R S} (hr : be₀.reqs = ∅)
    (hw : be₀.waitingJobs = ∅) (h : Relation.ReflTransGen (Step P) be₀ be) {req : Nat}
    {m : String} (hm : launchReq P be req = .error m) : ∃ s rs, P.acquireRsrcs s rs = .error m :=
  (launchReq_ok hP (Indexed.run hP hr hw h) req).1 m hm

/-- **Killing a req, over runs**: in every state reached from a backend with no req and no
waiting job, `kill_waiting_jobs` for an open req succeeds: none of its checks fails. -/
theorem killWaitingJobs_succeeds {be₀ be : GenericBackend R S} (hr : be₀.reqs = ∅)
    (hw : be₀.waitingJobs = ∅) (h : Relation.ReflTransGen (Step P) be₀ be) {r : Nat}
    (hreq : r ∈ be.reqs) : ∃ jobs be', be.killWaitingJobs (some r) = .ok (jobs, be') :=
  (Indexed.run hP hr hw h).exists_killWaitingJobs_ok hreq

/-- **Moving a job, over runs**: in every state reached from a backend with no req and no waiting
job, `set_pressure` for a req that waits for the job succeeds. -/
theorem setPressure_succeeds {be₀ be : GenericBackend R S} (hr : be₀.reqs = ∅)
    (hw : be₀.waitingJobs = ∅) (h : Relation.ReflTransGen (Step P) be₀ be) {job req : Nat}
    {re : ReqEntry R} (hre : be.reqs.lookup req = some re) (hj : job ∈ re.waitingJobs)
    (pressure : Nat) : ∃ be', be.setPressure P job req pressure = .ok be' :=
  (Indexed.run hP hr hw h).exists_setPressure_ok hre hj

/-! ## The messages of failed launches

`heartbeat` swears that a job whose launch failed has its message in `msgs`.  Only `launchDone`
makes an entry record a failed launch, and it records the message with it; every other operation
keeps the id of an entry or gives it another one (`FailedKept`), and only the heartbeat that ends
the entry forgets the message. -/

omit hP in
/-- Each job whose launch failed, found and not yet reported, has its message. -/
def MsgsKept (be : GenericBackend R S) : Prop :=
  ∀ j se, be.spawnedJobs.find j = some se → se.id = FailedId → j ∈ be.msgs

omit hP [DecidableEq R] in
theorem MsgsKept.of_failedKept {be be' : GenericBackend R S} (hm : be.MsgsKept)
    (ht : FailedKept be.spawnedJobs be'.spawnedJobs) (hmsgs : be'.msgs = be.msgs) :
    be'.MsgsKept := by
  intro j se h hf
  obtain ⟨se₀, h₀, hf₀⟩ := ht j se h hf
  rw [hmsgs]
  exact hm j se₀ h₀ hf₀

omit hP [DecidableEq R] in
theorem MsgsKept.of_same {be be' : GenericBackend R S} (hm : be.MsgsKept)
    (hs : be'.spawnedJobs = be.spawnedJobs) (hmsgs : be'.msgs = be.msgs) : be'.MsgsKept :=
  hm.of_failedKept (hs ▸ .refl _) hmsgs

omit hP [DecidableEq R] in
/-- Ending an entry (`kill_job`, `end`) keeps the messages of the others. -/
theorem MsgsKept.endEntry {be : GenericBackend R S} (hm : be.MsgsKept) {j : Nat}
    {se : SpawnedEntry R} {s : S} {t : SpawnedTab R} (h : be.spawnedJobs.end P be.sub j se = .ok (s, t)) :
    MsgsKept { be with sub := s, spawnedJobs := t } :=
  hm.of_failedKept (FailedKept.end h) rfl

omit hP [DecidableEq R] in
theorem MsgsKept.killJob {be be' : GenericBackend R S} (hm : be.MsgsKept) {j : Nat}
    (h : be.killJob P j = .ok be') : be'.MsgsKept := by
  unfold GenericBackend.killJob at h
  split at h
  · cases h
    exact hm
  · obtain ⟨u, -, h⟩ := bind_eq_ok h
    obtain ⟨⟨s, t⟩, hst, h⟩ := bind_eq_ok h
    cases h
    exact hm.endEntry hst

omit hP [DecidableEq R] in
theorem MsgsKept.end {be be' : GenericBackend R S} (hm : be.MsgsKept) {j : Nat}
    (h : be.end P j = .ok be') : be'.MsgsKept := by
  unfold GenericBackend.end at h
  split at h
  · cases h
    exact hm
  · obtain ⟨u, -, h⟩ := bind_eq_ok h
    obtain ⟨⟨s, t⟩, hst, h⟩ := bind_eq_ok h
    cases h
    exact hm.endEntry hst

omit hP [DecidableEq R] in
/-- Starting a job keeps the id of its entry. -/
theorem MsgsKept.start {be be' : GenericBackend R S} (hm : be.MsgsKept) {j : Nat}
    (h : be.start P j = .ok be') : be'.MsgsKept := by
  unfold GenericBackend.start at h
  split at h
  · cases h
    exact hm
  · rename_i se hse
    obtain ⟨⟨s, t⟩, hst, h⟩ := bind_eq_ok h
    cases h
    unfold SpawnedTab.start at hst
    obtain ⟨u, -, hst⟩ := bind_eq_ok hst
    obtain ⟨u, -, hst⟩ := bind_eq_ok hst
    cases hst
    exact hm.of_failedKept (FailedKept.of_update (lookup_of_find hse).1 rfl rfl rfl) rfl

omit hP [DecidableEq R] in
/-- The heartbeat that reports a failed launch ends its entry with its message. -/
theorem MsgsKept.heartbeat {be be' : GenericBackend R S} (hm : be.MsgsKept) {j : Nat}
    {digest r : String × HeartbeatState} (h : be.heartbeat P j digest = .ok (r, be')) :
    be'.MsgsKept := by
  rcases heartbeat_cases P h with rfl | ⟨se, s, t, -, hst, rfl⟩
  · exact hm
  intro j' se' h' hf
  change t.find j' = some se' at h'
  rw [SpawnedTab.find_end P hst] at h'
  split at h'
  · cases h'
  · rename_i hne
    have hmem := hm j' se' h' hf
    dsimp only
    split
    · exact AList.mem_erase.mpr ⟨hne, hmem⟩
    · exact hmem

omit hP [DecidableEq R] in
/-- A launch that fails records its message with it. -/
theorem MsgsKept.launchDone {be : GenericBackend R S} (hm : be.MsgsKept) (j : Nat)
    (launch : Except String Nat) : (be.launchDone j launch).MsgsKept := by
  unfold GenericBackend.launchDone
  split
  · rename_i se hse
    -- the entry is released with its id, and the messages grow by that of a failed launch
    have hrel : ∀ (id : Int) (msgs : Map Nat String), (id = FailedId → j ∈ msgs) →
        (∀ j', j' ∈ be.msgs → j' ∈ msgs) → MsgsKept { be with
          spawnedJobs := { be.spawnedJobs with
            tab := be.spawnedJobs.tab.insert j { se with id, hold := false } }
          msgs } := by
      intro id msgs hj hsub j' se' h' hf
      rw [SpawnedTab.find_of_tab_insert rfl j'] at h'
      split at h'
      · rename_i hj'
        subst hj'
        split at h'
        · cases h'
        · cases h'
          exact hj hf
      · exact hsub j' (hm j' se' h' hf)
    dsimp only
    split
    · exact hrel NoId be.msgs (fun h => absurd h (by simp [NoId, FailedId])) fun _ h => h
    · split
      · exact hrel _ be.msgs (fun h => absurd h (by simp [FailedId])) fun _ h => h
      · exact hrel FailedId _ (fun _ => (AList.mem_insert _).mpr (.inl rfl))
          fun _ h => (AList.mem_insert _).mpr (.inr h)
  · exact hm

/-- Every operation keeps the messages of the failed launches. -/
theorem MsgsKept.step {be be' : GenericBackend R S} (hi : be.Indexed P) (hm : be.MsgsKept)
    (h : Step P be be') : be'.MsgsKept := by
  cases h with
  | openReq _ _ _ h =>
    obtain ⟨-, rfl⟩ := openReq_ok h
    exact hm
  | closeReq _ h =>
    rcases closeReq_ok h with rfl | ⟨-, -, -, -, -, -, hs, hmsgs⟩
    · exact hm
    · exact hm.of_same hs hmsgs
  | submit _ _ _ _ h =>
    obtain ⟨-, -, -, -, -, rfl⟩ := submit_ok h
    exact hm
  | addPressure _ _ _ h =>
    rcases addPressure_ok h with ⟨-, -, -, hmsgs, hs | ⟨se, hse, hs⟩⟩ | ⟨-, -, -, -, -, -, -, rfl⟩
    · exact hm.of_same hs hmsgs
    · -- the job's entry is only made verbose
      exact hm.of_failedKept
        (FailedKept.of_update (lookup_of_find hse).1 (congrArg SpawnedTab.tab hs) rfl rfl) hmsgs
    · exact hm
  | setPressure _ _ _ h =>
    rcases setPressure_ok h with rfl | ⟨-, -, -, -, -, -, -, -, -, -, rfl⟩ <;> exact hm
  | killWaitingJobs _ _ h =>
    rcases killWaitingJobs_ok h with ⟨-, -, hs, hmsgs, -⟩ | ⟨-, -, -, -, -, hs, hmsgs, -⟩ <;>
      exact hm.of_same hs hmsgs
  | killJob _ h => exact hm.killJob h
  | start _ h => exact hm.start h
  | «end» _ h => exact hm.end h
  | heartbeat _ _ _ h => exact hm.heartbeat h
  | launchReq req _ h =>
    obtain ⟨-, hmsgs, hk⟩ := (launchReq_ok hP hi req).2 _ _ h
    exact hm.of_failedKept hk hmsgs
  | launchDone j launch => exact hm.launchDone j launch

/-- In every state a run reaches from a backend with no req and no waiting job, whose failed
launches have their messages, they still do. -/
theorem MsgsKept.run {be₀ be : GenericBackend R S} (hr : be₀.reqs = ∅) (hw : be₀.waitingJobs = ∅)
    (hm : be₀.MsgsKept) (h : Relation.ReflTransGen (Step P) be₀ be) : be.MsgsKept := by
  induction h with
  | refl => exact hm
  | tail hrun hs ih => exact ih.step hP (Indexed.run hP hr hw hrun) hs

/-- **Heartbeats over runs**: in every state reached from a backend with no req and no waiting
job, whose failed launches have their messages, a heartbeat fails only where the job has no
entry or has started, or where the policy fails to release the job's resources: the message of a
failed launch is always there. -/
theorem heartbeat_fails_only_in_end {be₀ be : GenericBackend R S} (hr : be₀.reqs = ∅)
    (hw : be₀.waitingJobs = ∅) (hm : be₀.MsgsKept) (h : Relation.ReflTransGen (Step P) be₀ be)
    {j : Nat} {digest : String × HeartbeatState} {m : String}
    (he : be.heartbeat P j digest = .error m) :
    m = "it!=spawned_jobs.end()" ∨ m = "!se.started" ∨ ∃ s rs, P.endRsrcs s rs = .error m := by
  have hkept := MsgsKept.run hP hr hw hm h
  rcases heartbeat_error P he with hm' | hm' | ⟨se, hse, hend | ⟨hf, hnot, -⟩⟩
  · exact .inl hm'
  · exact .inr (.inl hm')
  · -- the entry found is no zombie, so ending it fails only in the policy
    exact .inr (.inr (SpawnedTab.end_error P hend (lookup_of_find hse).2))
  · exact absurd (hkept j se hse hf) hnot

end Run

end GenericBackend

end

namespace Local

open GenericBackend

/-- The local backend rounds against its capacity only, which acquiring, starting and ending jobs
leave alone. -/
theorem policy_roundStable : policy.RoundStable where
  acquire s rs s' h := by
    obtain ⟨-, rfl⟩ := LocalBackend.acquireRsrcs_ok h
    rfl
  start _ _ := rfl
  release s rs s' h := by
    obtain ⟨-, rfl⟩ := LocalBackend.endRsrcs_ok h
    rfl

/-- Req `1` open on a machine with one cpu. -/
def sampleOpen : GenericBackend (List Nat) LocalBackend :=
  { fresh [1] with reqs := (∅ : Map Nat (ReqEntry (List Nat))).insert 1 ⟨∅, ∅, 0, false⟩ }

/-- Then job `1` waiting for req `1` with pressure `0`, its resources listing no resource. -/
def sampleWaiting : GenericBackend (List Nat) LocalBackend :=
  { sampleOpen with
    reqs := (∅ : Map Nat (ReqEntry (List Nat))).insert 1
      ⟨(∅ : Map (List Nat) (List PressureEntry)).insert [] [⟨0, 1⟩],
        (∅ : Map Nat Nat).insert 1 0, 0, false⟩
    waitingJobs := (∅ : Map Nat (WaitEntry (List Nat))).insert 1 ⟨[], 1, false⟩ }

theorem sampleRun : Relation.ReflTransGen (Step policy) (fresh [1]) sampleWaiting :=
  .tail (.single (.openReq 1 0 false rfl)) (.submit 1 1 0 [] rfl)

theorem waiting_queues_exact_sampleWaiting : ∃ re, sampleWaiting.reqs.lookup 1 = some re ∧
    (re.waitingJobs.lookup 1 = some 0 ↔
      ∃ key q, re.waitingQueues.lookup key = some q ∧ (⟨0, 1⟩ : PressureEntry) ∈ q) ∧
    ∀ key q, re.waitingQueues.lookup key = some q → (⟨0, 1⟩ : PressureEntry) ∈ q →
      ∃ we, sampleWaiting.waitingJobs.lookup 1 = some we ∧
        policy.round sampleWaiting.sub we.rsrcs = .ok key :=
  ⟨_, rfl, waiting_queues_exact policy_roundStable rfl rfl sampleRun (r := 1) rfl 1 0⟩

theorem nReqs_eq_nWaiting_sampleWaiting : ∃ we, sampleWaiting.waitingJobs.lookup 1 = some we ∧
    we.nReqs = (sampleWaiting.reqs.entries.filter fun e => 1 ∈ e.2.waitingJobs).length :=
  ⟨_, rfl, nReqs_eq_nWaiting policy_roundStable rfl rfl sampleRun rfl⟩

/-- The job's resources are not a vector of the machine's size, which `acquire_rsrcs` checks. -/
theorem launchReq_fails_only_in_acquire_sampleWaiting :
    launchReq policy sampleWaiting 1 = .error "size()==rsrcs.size()" ∧
      ∃ s rs, policy.acquireRsrcs s rs = .error "size()==rsrcs.size()" :=
  ⟨rfl, launchReq_fails_only_in_acquire policy_roundStable rfl rfl sampleRun
    (show launchReq policy sampleWaiting 1 = .error "size()==rsrcs.size()" from rfl)⟩

theorem killWaitingJobs_succeeds_sampleWaiting : 1 ∈ sampleWaiting.reqs ∧
    ∃ jobs be', sampleWaiting.killWaitingJobs (some 1) = .ok (jobs, be') :=
  ⟨by decide, killWaitingJobs_succeeds policy_roundStable rfl rfl sampleRun (by decide)⟩

theorem setPressure_succeeds_sampleWaiting : ∃ re, sampleWaiting.reqs.lookup 1 = some re ∧
    1 ∈ re.waitingJobs ∧ ∃ be', sampleWaiting.setPressure policy 1 1 5 = .ok be' :=
  ⟨_, rfl, by decide, setPressure_succeeds policy_roundStable rfl rfl sampleRun rfl (by decide) 5⟩

/-- From `sampleOpen`: job `1` submitted for req `1`, asking for the one cpu. -/
def sampleSubmitted : GenericBackend (List Nat) LocalBackend :=
  match sampleOpen.submit policy 1 1 0 [1] with
  | .ok be => be
  | .error _ => sampleOpen

/-- Then launched. -/
def sampleLaunched : GenericBackend (List Nat) LocalBackend :=
  match launchReq policy sampleSubmitted 1 with
  | .ok (_, be) => be
  | .error _ => sampleSubmitted

/-- Then its launch failed. -/
def sampleFailed : GenericBackend (List Nat) LocalBackend :=
  sampleLaunched.launchDone 1 (.error "launch failed")

theorem sampleFailedRun : Relation.ReflTransGen (Step policy) (fresh [1]) sampleFailed :=
  .tail (.tail (.tail (.single (.openReq 1 0 false rfl)) (.submit 1 1 0 [1] rfl))
    (.launchReq 1 [1] rfl)) (.launchDone 1 (.error "launch failed"))

/-- The heartbeat of the job reports the failed launch with its message. -/
example : (sampleFailed.heartbeat policy 1 ("", .Alive)).toOption.map Prod.fst =
    some ("launch failed", .Err) := rfl

theorem heartbeat_fails_only_in_end_sampleFailed :
    sampleFailed.heartbeat policy 2 ("", .Alive) = .error "it!=spawned_jobs.end()" ∧
      ("it!=spawned_jobs.end()" = "it!=spawned_jobs.end()" ∨
        "it!=spawned_jobs.end()" = "!se.started" ∨
        ∃ s rs, policy.endRsrcs s rs = .error "it!=spawned_jobs.end()") :=
  ⟨rfl, heartbeat_fails_only_in_end policy_roundStable rfl rfl (fun _ _ h => by cases h)
    sampleFailedRun
    (show sampleFailed.heartbeat policy 2 ("", .Alive) = .error "it!=spawned_jobs.end()" from rfl)⟩

end Local

end Backends
