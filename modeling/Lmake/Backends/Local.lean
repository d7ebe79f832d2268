import Lmake.Backends.Generic

/-!
# The local backend: resources of the machine

The local backend runs jobs on the machine itself.  A job's resources are a vector of `uint32`,
one per resource name of the config (and an implicit `<single>`), and the backend keeps the
`capacity` of the machine and what its running jobs `occupied`.  A job is queued under its
resources rounded up to their 4 most significant bits (`roundRsrc`), clipped to the capacity, and
it is that rounded vector the job holds while it runs.

Two things go wrong near the top of the type.  `roundRsrc` does its last shift in 32 bits, and a
value above `0xE0000000` rounds up to `2^32`, that is `0`: such a job holds no resource at all, and
`launchReq_oversubscribes` launches two of them on a machine that has room for one.  And the queue
key depends on the capacity, which `config` may change while jobs wait:
`launchReq_after_config` has two reqs waiting for one job under two different keys, and the next
launch looks the job up under a key the other req does not have.

Below the top, the accounting is sound: `round_rsrc` rounds up (`roundRsrc_up_unless_wrapped`),
and what `fit_now` accepts passes the check of `acquire_rsrcs`, `end_rsrcs` giving back exactly
what it took (`acquireRsrcs_endRsrcs_of_fitNow`).
-/

set_option autoImplicit false

namespace Backends

namespace Local

open Lmake

/-! ## Resources -/

/-- A value of the type `Rsrc = uint32_t`, reduced as the machine does. -/
def wrap (x : Nat) : Nat := x % 2 ^ 32

/-- `round_rsrc` on an unsigned type of `w` bits: values up to `8` are kept; others are rounded up
to their 3 most significant bits after the first one (`NMsb = 3`), the final shift being done in
the type. -/
def roundRsrc (w i : Nat) : Nat :=
  if i ≤ 2 ^ 3 then i
  else
    -- the shift that keeps `NMsb` bits: `bit_width(i)-NMsb`
    let sw := Nat.log2 i + 1 - 3
    (((i - 1) >>> sw + 1) <<< sw) % 2 ^ w

/-- Above `2^3`, `round_rsrc` keeps the quotient by `2^sw` of `i-1`, plus one. -/
theorem roundRsrc_eq {w i : Nat} (h : 2 ^ 3 < i) :
    roundRsrc w i = ((i - 1) / 2 ^ (Nat.log2 i - 2) + 1) * 2 ^ (Nat.log2 i - 2) % 2 ^ w := by
  simp only [roundRsrc, Nat.not_le.mpr h, if_false, Nat.shiftRight_eq_div_pow, Nat.shiftLeft_eq]
  rfl

theorem log2_lt_32 {i : Nat} (h : i < 2 ^ 32) : Nat.log2 i < 32 := by
  rcases Nat.eq_zero_or_pos i with rfl | hi
  · decide
  · exact (Nat.log2_lt (Nat.pos_iff_ne_zero.mp hi)).mpr h

/-- `round_rsrc` rounds up every value it does not wrap. -/
theorem le_roundRsrc {i : Nat} (h : i ≤ 0xE0000000) : i ≤ roundRsrc 32 i := by
  by_cases hi : i ≤ 2 ^ 3
  · rw [roundRsrc, if_pos hi]
  have hlt : 2 ^ 3 < i := Nat.not_le.mp hi
  rw [roundRsrc_eq hlt]
  -- the shift is at most `29`, so the rounded value stays below `2^32`: no wrap
  have hsw : 2 ^ (Nat.log2 i - 2) ≤ 2 ^ 29 :=
    Nat.pow_le_pow_right (by decide) (by have := log2_lt_32 (show i < 2 ^ 32 by omega); omega)
  have hpos : 0 < 2 ^ (Nat.log2 i - 2) := Nat.two_pow_pos _
  generalize 2 ^ (Nat.log2 i - 2) = p at hsw hpos ⊢
  have hup : i - 1 < ((i - 1) / p + 1) * p := by
    rw [Nat.add_mul, Nat.one_mul]
    exact Nat.lt_div_mul_add hpos
  have hdown : ((i - 1) / p + 1) * p ≤ i - 1 + p := by
    rw [Nat.add_mul, Nat.one_mul]
    exact Nat.add_le_add_right (Nat.div_mul_le_self _ _) _
  rw [Nat.mod_eq_of_lt (by omega)]
  omega

/-- Above `0xE0000000`, `round_rsrc` rounds up to `2^32`, which the type wraps to `0`. -/
theorem roundRsrc_eq_zero {i : Nat} (h1 : 0xE0000000 < i) (h2 : i < 2 ^ 32) : roundRsrc 32 i = 0 := by
  have hlog : Nat.log2 i = 31 :=
    (Nat.log2_eq_iff (by omega)).mpr ⟨by omega, by omega⟩
  rw [roundRsrc_eq (by omega), hlog]
  have hq : (i - 1) / 2 ^ (31 - 2) = 7 := by
    rw [Nat.div_eq_iff (by decide)]
    omega
  exact hq ▸ (by decide : (7 + 1) * 2 ^ (31 - 2) % 2 ^ 32 = 0)

/-- **`round_rsrc` on `uint32_t`**: it rounds every value up, but those above `0xE0000000`, which
it rounds to `0`. -/
theorem roundRsrc_up_unless_wrapped {i : Nat} (h : i < 2 ^ 32) :
    if 0xE0000000 < i then roundRsrc 32 i = 0 else i ≤ roundRsrc 32 i := by
  split
  · exact roundRsrc_eq_zero ‹_› h
  · exact le_roundRsrc (Nat.le_of_not_lt ‹_›)

theorem roundRsrc_up_unless_wrapped_top : 0xF0000000 < 2 ^ 32 ∧
    (if 0xE0000000 < 0xF0000000 then roundRsrc 32 0xF0000000 = 0
      else 0xF0000000 ≤ roundRsrc 32 0xF0000000) :=
  ⟨by decide, roundRsrc_up_unless_wrapped (by decide)⟩

/-- The state of the local backend: `capacity_` and `occupied`. -/
structure LocalBackend where
  capacity : List Nat
  occupied : List Nat
  deriving DecidableEq, Repr

namespace LocalBackend

/-- `lacking_rsrc`: some resource asks for more than the capacity. -/
def lackingRsrc (be : LocalBackend) (rs : List Nat) : Bool :=
  (List.range rs.length).any fun i => decide (rs.getD i 0 > be.capacity.getD i 0)

/-- `fit_now`: the sum, computed in `uint32`, stays within the capacity. -/
def fitNow (be : LocalBackend) (rs : List Nat) : Bool :=
  (List.range be.occupied.length).all fun i =>
    decide (wrap (be.occupied.getD i 0 + rs.getD i 0) ≤ be.capacity.getD i 0)

/-- `SWEAR(occupied[i]<=capacity_[i])` for every resource. -/
def chkOccupied (be : LocalBackend) : Except String Unit :=
  swear ((List.range be.occupied.length).all fun i =>
    decide (be.occupied.getD i 0 ≤ be.capacity.getD i 0)) "occupied[i]<=capacity_[i]"

/-- `acquire_rsrcs`: `occupied += rs`, in `uint32`. -/
def acquireRsrcs (be : LocalBackend) (rs : List Nat) : Except String LocalBackend := do
  swear (be.occupied.length == rs.length) "size()==rsrcs.size()"
  let be := { be with occupied := List.zipWith (fun o r => wrap (o + r)) be.occupied rs }
  chkOccupied be
  pure be

/-- `end_rsrcs`: `occupied -= rs`, in `uint32`. -/
def endRsrcs (be : LocalBackend) (rs : List Nat) : Except String LocalBackend := do
  swear (be.occupied.length == rs.length) "size()==rsrcs.size()"
  let be := { be with occupied := List.zipWith (fun o r => wrap (o + (2 ^ 32 - r))) be.occupied rs }
  chkOccupied be
  pure be

/-- `RsrcsData::round`: round each resource up, but not above the capacity. -/
def round (be : LocalBackend) (rs : List Nat) : Except String (List Nat) :=
  (List.range rs.length).mapM fun i => do
    swear (decide (rs.getD i 0 ≤ be.capacity.getD i 0)) "self[i]<=c[i]"
    pure (min (roundRsrc 32 (rs.getD i 0)) (be.capacity.getD i 0))

/-- A later `sub_config` with the same resource names: the capacity changes, `occupied` stays. -/
def config (be : LocalBackend) (capacity : List Nat) : LocalBackend := { be with capacity }

/-! ### What a job's resources do to `occupied` -/

/-- What `acquire_rsrcs` did when it succeeds. -/
theorem acquireRsrcs_ok {be be' : LocalBackend} {rs : List Nat} (h : be.acquireRsrcs rs = .ok be') :
    be.occupied.length = rs.length ∧
      be' = { be with occupied := List.zipWith (fun o r => wrap (o + r)) be.occupied rs } := by
  obtain ⟨u, hs, h⟩ := bind_eq_ok h
  obtain ⟨u', -, h⟩ := bind_eq_ok h
  exact ⟨by simpa using swear_eq_ok.mp hs, (Except.ok.inj h).symm⟩

/-- What `end_rsrcs` did when it succeeds: a subtraction in `uint32`. -/
theorem endRsrcs_ok {be be' : LocalBackend} {rs : List Nat} (h : be.endRsrcs rs = .ok be') :
    be.occupied.length = rs.length ∧
      be' = { be with
        occupied := List.zipWith (fun o r => wrap (o + (2 ^ 32 - r))) be.occupied rs } := by
  obtain ⟨u, hs, h⟩ := bind_eq_ok h
  obtain ⟨u', -, h⟩ := bind_eq_ok h
  exact ⟨by simpa using swear_eq_ok.mp hs, (Except.ok.inj h).symm⟩

/-- Adding then taking a `uint32` back leaves a count as it was. -/
theorem zipWith_end_acquire (os rs : List Nat) (hlen : os.length = rs.length)
    (hos : ∀ o ∈ os, o < 2 ^ 32) (hrs : ∀ r ∈ rs, r < 2 ^ 32) :
    List.zipWith (fun o r => wrap (o + (2 ^ 32 - r)))
      (List.zipWith (fun o r => wrap (o + r)) os rs) rs = os := by
  induction os generalizing rs with
  | nil => rfl
  | cons o os ih =>
    obtain _ | ⟨r, rs⟩ := rs
    · cases hlen
    have ho := hos o List.mem_cons_self
    have hr := hrs r List.mem_cons_self
    simp only [List.zipWith_cons_cons, List.cons.injEq]
    refine ⟨by simp only [wrap]; omega, ih rs (by simpa using hlen) ?_ ?_⟩
    · exact fun o h => hos o (List.mem_cons_of_mem _ h)
    · exact fun r h => hrs r (List.mem_cons_of_mem _ h)

/-- What `fit_now` accepts, `acquire_rsrcs` takes without failing its check. -/
theorem acquireRsrcs_of_fitNow {be : LocalBackend} {rs : List Nat}
    (hlen : be.occupied.length = rs.length) (hfit : be.fitNow rs = true) :
    be.acquireRsrcs rs =
      .ok { be with occupied := List.zipWith (fun o r => wrap (o + r)) be.occupied rs } := by
  have hchk :
      chkOccupied { be with occupied := List.zipWith (fun o r => wrap (o + r)) be.occupied rs } =
        .ok () := by
    simp only [fitNow, List.all_eq_true, List.mem_range, decide_eq_true_eq] at hfit
    simp only [chkOccupied, swear, List.all_eq_true, List.mem_range, decide_eq_true_eq]
    rw [if_pos]
    intro i hi
    simp only [List.length_zipWith, hlen, Nat.min_self] at hi
    have := hfit i (hlen ▸ hi)
    simpa [List.getD_eq_getElem?_getD, List.getElem?_zipWith, hi, hlen ▸ hi] using this
  simp only [acquireRsrcs, swear, hlen, beq_self_eq_true, if_true, hchk]
  rfl

/-- **A job that fits is taken, then given back**: on a backend whose counts pass the check and fit
in a `uint32`, resources that `fit_now` accepts are acquired without failing, and released
afterwards they leave the backend as it was. -/
theorem acquireRsrcs_endRsrcs_of_fitNow {be : LocalBackend} {rs : List Nat}
    (hlen : be.occupied.length = rs.length) (hfit : be.fitNow rs = true)
    (hchk : be.chkOccupied = .ok ()) (hocc : ∀ o ∈ be.occupied, o < 2 ^ 32)
    (hrs : ∀ r ∈ rs, r < 2 ^ 32) :
    ∃ be₁, be.acquireRsrcs rs = .ok be₁ ∧ be₁.endRsrcs rs = .ok be := by
  refine ⟨_, acquireRsrcs_of_fitNow hlen hfit, ?_⟩
  have hlen₁ : (List.zipWith (fun o r => wrap (o + r)) be.occupied rs).length = rs.length := by
    simp [hlen]
  -- the counts are back as they were, which passed the check
  simp only [endRsrcs, swear, hlen₁, beq_self_eq_true, if_true, zipWith_end_acquire _ _ hlen hocc hrs]
  rw [show ({ be with occupied := be.occupied } : LocalBackend) = be from rfl, hchk]
  rfl

theorem acquireRsrcs_endRsrcs_of_fitNow_twoOfFour :
    ∃ be₁, (⟨[4], [1]⟩ : LocalBackend).acquireRsrcs [2] = .ok be₁ ∧
      be₁.endRsrcs [2] = .ok ⟨[4], [1]⟩ :=
  acquireRsrcs_endRsrcs_of_fitNow rfl (by decide) rfl (by decide) (by decide)

end LocalBackend

/-- The local backend's overrides of the generic backend; `start_rsrcs` is not overridden. -/
def policy : RsrcsPolicy (List Nat) LocalBackend where
  round := LocalBackend.round
  lackingRsrc := LocalBackend.lackingRsrc
  fitNow := LocalBackend.fitNow
  acquireRsrcs := LocalBackend.acquireRsrcs
  startRsrcs := fun be _ => be
  endRsrcs := LocalBackend.endRsrcs

/-- A freshly configured local backend, with nothing waiting nor running. -/
def fresh (capacity : List Nat) : GenericBackend (List Nat) LocalBackend :=
  ⟨⟨capacity, capacity.map fun _ => 0⟩, ∅, 0, ∅, ⟨∅, []⟩, ∅⟩

/-- A later config of a running backend. -/
def reconfig (be : GenericBackend (List Nat) LocalBackend) (capacity : List Nat) :
    GenericBackend (List Nat) LocalBackend :=
  { be with sub := be.sub.config capacity }

/-- The spawned entries: job, resources asked for, rounded resources held. -/
def spawned (be : GenericBackend (List Nat) LocalBackend) : List (Nat × List Nat × List Nat) :=
  be.spawnedJobs.tab.entries.map fun e => (e.1, e.2.rsrcs, e.2.roundedRsrcs)

/-- The queue keys of each req. -/
def queueKeys (be : GenericBackend (List Nat) LocalBackend) : List (Nat × List (List Nat)) :=
  be.reqs.entries.map fun e => (e.1, e.2.waitingQueues.keys)

/-- What a launch gives to see: the jobs launched, `occupied`, and the spawned entries. -/
def launchView (r : List Nat × GenericBackend (List Nat) LocalBackend) :
    List Nat × List Nat × List (Nat × List Nat × List Nat) :=
  (r.1, r.2.sub.occupied, spawned r.2)

open Backends.GenericBackend

/-- Two jobs asking for `0xF0000000` of the first resource, on a machine with `0xFFFFFFFF`: each
fits (`lacking_rsrc` accepts it), is rounded to `2^32`, that is `0`, and both are launched at once,
holding nothing, with `occupied` still `0`; together they use `0x1E0000000`. -/
theorem launchReq_oversubscribes :
    ((do
        let be ← openReq (fresh [0xFFFFFFFF, 1]) 1 0 false
        let be ← submit policy be 1 1 0 [0xF0000000, 0]
        let be ← submit policy be 2 1 0 [0xF0000000, 0]
        launchReq policy be 1).map launchView) =
      .ok ([1, 2], [0, 0], [(2, [0xF0000000, 0], [0, 0]), (1, [0xF0000000, 0], [0, 0])]) ∧
      0xF0000000 + 0xF0000000 > 0xFFFFFFFF :=
  ⟨rfl, by decide⟩

/-- A job asking for `9` cpus is submitted for req `1` on a machine with `9`, queued under `[9,0]`.
The capacity then becomes `12`, and req `2` waits for the job too, queued under `[10,0]`.  Launching
for req `1` looks the job up in the queues of req `2` under `[9,0]`, which is not there. -/
theorem launchReq_after_config :
    ((do
        let be ← openReq (fresh [9, 1]) 1 0 false
        let be ← openReq be 2 0 false
        let be ← submit policy be 1 1 0 [9, 0]
        let be := reconfig be [12, 1]
        let be ← addPressure policy be 1 2 0
        pure (queueKeys be)) =
      .ok [(2, [[10, 0]]), (1, [[9, 0]])]) ∧
    (do
        let be ← openReq (fresh [9, 1]) 1 0 false
        let be ← openReq be 2 0 false
        let be ← submit policy be 1 1 0 [9, 0]
        let be := reconfig be [12, 1]
        let be ← addPressure policy be 1 2 0
        (launchReq policy be 1).map Prod.fst) = .error "wit2->second" :=
  ⟨rfl, rfl⟩

end Local

end Backends
