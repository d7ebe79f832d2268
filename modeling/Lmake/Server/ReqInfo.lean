import Mathlib.Data.List.Perm.Basic

/-!
# The watchers of a `ReqInfo`

A `ReqInfo` (`lmake_server/req.x.hh`) keeps the jobs and nodes that wait for it, its watchers,
in a union that fits the layout of a pointer: an array of `NWatchers` watchers while there are at
most that many, `_n_watchers` of them in use, and a vector on the heap beyond, marked by
`_n_watchers==VectorMrkr`.  `n_wait` counts what this `ReqInfo` itself waits for.

`wakeup_watchers`, once nothing is waited for, moves the watchers aside, empties the list and
calls each watcher's `wakeup`.  A `wakeup` may add watchers to this very `ReqInfo`, and make it
wait again, after which the watchers still aside are added back instead of woken.

The model keeps the union as the member that is constructed (`Members`), and a read of the other
member is a step that does not go on (`none`).  A `wakeup` is an arbitrary callback that acts on
this `ReqInfo` only through `add_watcher` and by setting `n_wait` (`Action`); it is told the
watcher it wakes and the state it is woken in.

## Main results

* `Inv`: the member constructed is the one `_n_watchers` marks, an array of `NWatchers` slots
  with `_n_watchers <= NWatchers` of them in use, or the vector; then `n_watchers()` is the number
  of watchers held (`numWatchers_eq`).
* `addWatcher_spec`: `_add_watcher` keeps it and appends the watcher to those held.
* `wakeupWatchers_spec`: from a state with `Inv` that does not wait, `wakeup_watchers` keeps it,
  wakes watchers only in states that do not wait and keep `Inv`, and neither loses nor duplicates
  a watcher: those held after it, with those woken, are a permutation of those held before, with
  those the wakeups added.
-/

set_option autoImplicit false

namespace Engine

/-- The union of the watchers: the array (`_watchers_a`) or the vector (`_watchers_v`), whichever
is constructed. -/
inductive Members (W : Type) where
  | arr (a : List W)
  | vec (v : List W)
  deriving DecidableEq, Repr

/-- The part of a `ReqInfo` that its watchers use: `n_wait`, `_n_watchers` and the union. -/
structure ReqInfo (W : Type) where
  nWait : Nat
  nWatchers : Nat
  members : Members W
  deriving DecidableEq, Repr

/-- What a watcher's `wakeup` may do to this `ReqInfo`: `add_watcher`, or change `n_wait`. -/
inductive Action (W : Type) where
  | add (w : W)
  | setWait (n : Nat)
  deriving DecidableEq, Repr

/-- A call of a watcher's `wakeup` in a run of `wakeup_watchers`: the watcher, the state of this
`ReqInfo` it was called in, and what it did to this `ReqInfo`. -/
structure Wakeup (W : Type) where
  watcher : W
  state : ReqInfo W
  actions : List (Action W)
  deriving DecidableEq, Repr

namespace ReqInfo

variable {W : Type} (N : Nat)

/-- `VectorMrkr`. -/
def vectorMrkr : Nat := N + 1

/-- `ReqInfo()`: no watcher, in an array. -/
def new [Inhabited W] : ReqInfo W := ⟨0, 0, .arr (List.replicate N default)⟩

/-- `waiting()`. -/
def waiting (ri : ReqInfo W) : Bool := ri.nWait != 0

/-- `n_watchers()`. -/
def numWatchers (ri : ReqInfo W) : Option Nat :=
  if ri.nWatchers = vectorMrkr N then
    match ri.members with
    | .vec v => some v.length
    | .arr _ => none
  else some ri.nWatchers

/-- `_add_watcher(watcher)`: into the vector, into the next slot of the array, or, the array being
full, into a new vector with the array's watchers. -/
def addWatcher (ri : ReqInfo W) (w : W) : Option (ReqInfo W) :=
  if ri.nWatchers = vectorMrkr N then
    match ri.members with
    | .vec v => some { ri with members := .vec (v ++ [w]) }
    | .arr _ => none
  else if ri.nWatchers = N then
    match ri.members with
    | .arr a => some { ri with members := .vec (a ++ [w]), nWatchers := vectorMrkr N }
    | .vec _ => none
  else
    match ri.members with
    | .arr a => some { ri with members := .arr (a.set ri.nWatchers w), nWatchers := ri.nWatchers + 1 }
    | .vec _ => none

/-- One action of a `wakeup` on this `ReqInfo`. -/
def act (ri : ReqInfo W) : Action W → Option (ReqInfo W)
  | .add w => addWatcher N ri w
  | .setWait n => some { ri with nWait := n }

/-- The actions of a `wakeup`, in order. -/
def acts (ri : ReqInfo W) (as : List (Action W)) : Option (ReqInfo W) :=
  as.foldlM (act N) ri

-- The wakeups: the `k`-th call of a run, of the watcher `w` in the state `ri`, does `cb k w ri`.
-- Numbering the calls lets each one do anything, whatever the calls before it did.
variable (cb : Nat → W → ReqInfo W → List (Action W))

/-- `go(start,n)` of `wakeup_watchers`: each watcher moved aside is added back while this
`ReqInfo` waits, and woken otherwise; `k` wakeups were called before.  Returns the state, and the
wakeups called. -/
def go (k : Nat) : ReqInfo W → List W → Option (ReqInfo W × List (Wakeup W))
  | ri, [] => some (ri, [])
  | ri, w :: ws =>
    if waiting ri then do
      let ri ← addWatcher N ri w
      go k ri ws
    else do
      let ri' ← acts N ri (cb k w ri)
      let (ri'', log) ← go (k + 1) ri' ws
      pure (ri'', ⟨w, ri, cb k w ri⟩ :: log)

/-- `wakeup_watchers()`: the vector is moved aside and an empty array constructed in its place,
or the array is copied aside; `_n_watchers` goes to `0`, then `go`. -/
def wakeupWatchers [Inhabited W] (ri : ReqInfo W) : Option (ReqInfo W × List (Wakeup W)) :=
  if waiting ri then none
  else if ri.nWatchers = vectorMrkr N then
    match ri.members with
    | .vec v => go N cb 0 { ri with members := .arr (List.replicate N (default : W)), nWatchers := 0 } v
    | .arr _ => none
  else
    match ri.members with
    | .arr a => go N cb 0 { ri with nWatchers := 0 } (a.take ri.nWatchers)
    | .vec _ => none

/-- `operator=(ReqInfo&&)`: the union of `src` is moved in, as `src`'s `_n_watchers` tells. -/
def moveAssign (src : ReqInfo W) : Option (ReqInfo W) :=
  if src.nWatchers = vectorMrkr N then
    match src.members with
    | .vec v => some ⟨src.nWait, src.nWatchers, .vec v⟩
    | .arr _ => none
  else
    match src.members with
    | .arr a => some ⟨src.nWait, src.nWatchers, .arr a⟩
    | .vec _ => none

/-! ## The invariant -/

/-- The watchers held. -/
def held (ri : ReqInfo W) : List W :=
  match ri.members with
  | .vec v => v
  | .arr a => a.take ri.nWatchers

/-- The member constructed is the one `_n_watchers` marks: the vector, or the array of
`NWatchers` slots with at most that many in use. -/
def Inv (ri : ReqInfo W) : Prop :=
  match ri.members with
  | .vec _ => ri.nWatchers = vectorMrkr N
  | .arr a => ri.nWatchers ≤ N ∧ a.length = N

/-- The watchers that actions add, in order. -/
def adds (as : List (Action W)) : List W :=
  as.filterMap fun
    | .add w => some w
    | .setWait _ => none

/-- The watchers the wakeups of a run added, in order. -/
def added (log : List (Wakeup W)) : List W :=
  log.flatMap fun e => adds e.actions

/-- The `ReqInfo`s the code makes: `ReqInfo()`, then `add_watcher`, changes of `n_wait`,
`wakeup_watchers` with any wakeups, and moves. -/
inductive Reachable [Inhabited W] : ReqInfo W → Prop
  | new : Reachable (new N)
  | add {ri ri' : ReqInfo W} (w : W) : Reachable ri → addWatcher N ri w = some ri' → Reachable ri'
  | setWait {ri : ReqInfo W} (n : Nat) : Reachable ri → Reachable { ri with nWait := n }
  | wakeup {ri ri' : ReqInfo W} {log : List (Wakeup W)} (cb : Nat → W → ReqInfo W → List (Action W)) :
      Reachable ri → wakeupWatchers N cb ri = some (ri', log) → Reachable ri'
  | move {ri ri' : ReqInfo W} : Reachable ri → moveAssign N ri = some ri' → Reachable ri'

/-! ## What the operations do -/

section Proofs

variable {N}

theorem take_set_succ (a : List W) {n : Nat} (w : W) (h : n < a.length) :
    (a.set n w).take (n + 1) = a.take n ++ [w] := by
  induction a generalizing n with
  | nil => simp at h
  | cons x a ih =>
    cases n with
    | zero => simp
    | succ n =>
      simp only [List.set_cons_succ, List.take_succ_cons, List.cons_append]
      rw [ih (by simpa using h)]

/-- Under the invariant, `n_watchers()` reads the member constructed and counts the watchers
held. -/
theorem numWatchers_eq {ri : ReqInfo W} (h : Inv N ri) :
    numWatchers N ri = some (held ri).length := by
  unfold Inv at h
  unfold numWatchers held
  split at h
  · next v hm => simp [h]
  · next a hm =>
    have hne : ri.nWatchers ≠ vectorMrkr N := by
      simp only [vectorMrkr]
      omega
    simp [hne, List.length_take, h.2, Nat.min_eq_left h.1]

theorem new_inv [Inhabited W] : Inv N (new N : ReqInfo W) := by
  simp [Inv, new]

/-- `n_wait` is not part of the invariant. -/
@[simp]
theorem inv_setWait {ri : ReqInfo W} (n : Nat) : Inv N { ri with nWait := n } ↔ Inv N ri :=
  Iff.rfl

theorem addWatcher_spec {ri : ReqInfo W} (h : Inv N ri) (w : W) :
    ∃ ri', addWatcher N ri w = some ri' ∧ Inv N ri' ∧ held ri' = held ri ++ [w] ∧
      ri'.nWait = ri.nWait := by
  unfold Inv at h
  split at h
  · -- the vector takes it
    next v hm =>
    exact ⟨{ ri with members := .vec (v ++ [w]) }, by simp [addWatcher, h, hm],
      by simp [Inv, h], by simp [held, hm], rfl⟩
  · next a hm =>
    have hne : ri.nWatchers ≠ vectorMrkr N := by
      simp only [vectorMrkr]
      omega
    by_cases hfull : ri.nWatchers = N
    · -- the array is full: it becomes a vector
      refine ⟨{ ri with members := .vec (a ++ [w]), nWatchers := vectorMrkr N },
        by simp [addWatcher, hfull, hm, vectorMrkr], by simp [Inv], ?_, rfl⟩
      simp [held, hm, hfull, ← h.2]
    · -- the next slot of the array
      have hlt : ri.nWatchers < a.length := by omega
      refine ⟨{ ri with members := .arr (a.set ri.nWatchers w), nWatchers := ri.nWatchers + 1 },
        by simp [addWatcher, hne, hfull, hm], by simp [Inv]; omega, ?_, rfl⟩
      simp [held, hm, take_set_succ a w hlt]

/-- Under the invariant, a move reads the member constructed: it copies the state. -/
theorem moveAssign_of_inv {ri : ReqInfo W} (h : Inv N ri) : moveAssign N ri = some ri := by
  obtain ⟨nWait, nWatchers, members⟩ := ri
  cases members with
  | vec v =>
    have h : nWatchers = vectorMrkr N := h
    simp [moveAssign, h]
  | arr a =>
    have h : nWatchers ≤ N ∧ a.length = N := h
    have hne : nWatchers ≠ vectorMrkr N := by
      simp only [vectorMrkr]
      omega
    simp [moveAssign, hne]

theorem adds_append (as bs : List (Action W)) : adds (as ++ bs) = adds as ++ adds bs := by
  simp [adds, List.filterMap_append]

theorem act_spec {ri : ReqInfo W} (h : Inv N ri) (a : Action W) :
    ∃ ri', act N ri a = some ri' ∧ Inv N ri' ∧ held ri' = held ri ++ adds [a] := by
  cases a with
  | add w =>
    obtain ⟨ri', hrun, hinv, hheld, -⟩ := addWatcher_spec h w
    exact ⟨ri', hrun, hinv, by simp [hheld, adds]⟩
  | setWait n => exact ⟨{ ri with nWait := n }, rfl, h, by simp [held, adds]⟩

theorem acts_spec : ∀ (as : List (Action W)) {ri : ReqInfo W}, Inv N ri →
    ∃ ri', acts N ri as = some ri' ∧ Inv N ri' ∧ held ri' = held ri ++ adds as
  | [], ri, h => ⟨ri, rfl, h, by simp [adds]⟩
  | a :: as, ri, h => by
    obtain ⟨ri₁, hrun₁, hinv₁, hheld₁⟩ := act_spec h a
    obtain ⟨ri', hrun, hinv, hheld⟩ := acts_spec as hinv₁
    refine ⟨ri', ?_, hinv, ?_⟩
    · simp only [acts, List.foldlM_cons] at hrun ⊢
      rw [hrun₁]
      exact hrun
    · rw [hheld, hheld₁, List.append_assoc, ← adds_append]
      rfl

/-- The loop over the watchers moved aside.  The induction is on those watchers: each one is
either held again or woken, and a wakeup adds to those held what its actions add. -/
theorem go_spec : ∀ (ws : List W) {k : Nat} {ri : ReqInfo W}, Inv N ri →
    ∃ ri' log, go N cb k ri ws = some (ri', log) ∧ Inv N ri' ∧
      (held ri' ++ log.map Wakeup.watcher).Perm (held ri ++ ws ++ added log) ∧
      ∀ e ∈ log, waiting e.state = false ∧ Inv N e.state
  | [], k, ri, h => ⟨ri, [], rfl, h, by simp [added], by simp⟩
  | w :: ws, k, ri, h => by
    by_cases hw : waiting ri = true
    · -- waiting again: the watcher is held again
      obtain ⟨ri₁, hrun₁, hinv₁, hheld₁, -⟩ := addWatcher_spec h w
      obtain ⟨ri', log, hrun, hinv, hperm, hlog⟩ := go_spec ws (k := k) hinv₁
      refine ⟨ri', log, by simp [go, hw, hrun₁, hrun], hinv, ?_, hlog⟩
      simpa [hheld₁, List.append_assoc] using hperm
    · -- not waiting: the watcher is woken
      have hw' : waiting ri = false := by simpa using hw
      obtain ⟨ri₁, hrun₁, hinv₁, hheld₁⟩ := acts_spec (cb k w ri) h
      obtain ⟨ri', log, hrun, hinv, hperm, hlog⟩ := go_spec ws (k := k + 1) hinv₁
      refine ⟨ri', ⟨w, ri, cb k w ri⟩ :: log, by simp [go, hw', hrun₁, hrun], hinv, ?_, ?_⟩
      · classical
        rw [List.perm_iff_count] at hperm ⊢
        intro x
        have hx := hperm x
        simp only [hheld₁, added, List.count_append, List.map_cons, List.count_cons,
          List.flatMap_cons] at hx ⊢
        omega
      · simp only [List.mem_cons, forall_eq_or_imp]
        exact ⟨⟨hw', h⟩, hlog⟩

variable [Inhabited W]

theorem wakeupWatchers_spec_of_inv {ri : ReqInfo W} (h : Inv N ri) (hw : waiting ri = false) :
    ∃ ri' log, wakeupWatchers N cb ri = some (ri', log) ∧ Inv N ri' ∧
      (held ri' ++ log.map Wakeup.watcher).Perm (held ri ++ added log) ∧
      ∀ e ∈ log, waiting e.state = false ∧ Inv N e.state := by
  unfold Inv at h
  split at h
  · -- the vector is moved aside, and an empty array constructed
    next v hm =>
    have hinv₀ : Inv N { ri with members := .arr (List.replicate N (default : W)), nWatchers := 0 } := by
      simp [Inv]
    obtain ⟨ri', log, hrun, hinv, hperm, hlog⟩ := go_spec cb v (k := 0) hinv₀
    refine ⟨ri', log, by simp [wakeupWatchers, hw, h, hm, hrun], hinv, ?_, hlog⟩
    simpa [held, hm] using hperm
  · -- the array is copied aside
    next a hm =>
    have hne : ri.nWatchers ≠ vectorMrkr N := by
      simp only [vectorMrkr]
      omega
    have hinv₀ : Inv N (⟨ri.nWait, 0, .arr a⟩ : ReqInfo W) := by
      simp [Inv, h.2]
    obtain ⟨ri', log, hrun, hinv, hperm, hlog⟩ :=
      go_spec cb (a.take ri.nWatchers) (k := 0) hinv₀
    refine ⟨ri', log, by simp [wakeupWatchers, hw, hne, hm, hrun], hinv, ?_, hlog⟩
    simpa [held, hm] using hperm

variable {cb} in
/-- `wakeup_watchers` runs only in a state that does not wait. -/
theorem waiting_of_wakeupWatchers {ri ri' : ReqInfo W} {log : List (Wakeup W)}
    (h : wakeupWatchers N cb ri = some (ri', log)) : waiting ri = false := by
  unfold wakeupWatchers at h
  split at h
  · simp at h
  · simpa using ‹¬waiting ri = true›

/-- Every `ReqInfo` the code makes keeps the invariant.  The induction is on how it was made. -/
theorem Reachable.inv {ri : ReqInfo W} (hr : Reachable N ri) : Inv N ri := by
  induction hr with
  | new => exact new_inv
  | add w _ hadd ih =>
    obtain ⟨ri', hrun, hinv, -⟩ := addWatcher_spec ih w
    rw [hadd] at hrun
    cases hrun
    exact hinv
  | setWait n _ ih => exact (inv_setWait n).mpr ih
  | wakeup cb _ hwake ih =>
    obtain ⟨ri', log, hrun, hinv, -⟩ := wakeupWatchers_spec_of_inv cb ih
      (waiting_of_wakeupWatchers hwake)
    rw [hwake] at hrun
    cases hrun
    exact hinv
  | move _ hmove ih =>
    rw [moveAssign_of_inv ih] at hmove
    cases hmove
    exact ih

/-- `wakeup_watchers`, run on any `ReqInfo` the code makes while it does not wait, with wakeups that
do anything to it through `add_watcher` and `n_wait`, neither loses nor duplicates a watcher: those
held after it, with those woken, are a permutation of those held before, with those the wakeups
added.  A watcher is woken only while this `ReqInfo` does not wait, and the invariant, with
`n_watchers()` counting the watchers held, holds in every state a watcher is woken in and at
the end. -/
theorem wakeupWatchers_spec {ri : ReqInfo W} (hr : Reachable N ri) (hw : waiting ri = false) :
    ∃ ri' log, wakeupWatchers N cb ri = some (ri', log) ∧
      (held ri' ++ log.map Wakeup.watcher).Perm (held ri ++ added log) ∧
      Inv N ri' ∧ numWatchers N ri' = some (held ri').length ∧
      ∀ e ∈ log, waiting e.state = false ∧ Inv N e.state ∧
        numWatchers N e.state = some (held e.state).length := by
  obtain ⟨ri', log, hrun, hinv, hperm, hlog⟩ := wakeupWatchers_spec_of_inv cb hr.inv hw
  refine ⟨ri', log, hrun, hperm, hinv, numWatchers_eq hinv, fun e he => ?_⟩
  obtain ⟨hwe, hie⟩ := hlog e he
  exact ⟨hwe, hie, numWatchers_eq hie⟩

/-- Three watchers held in a vector; the first wakeup adds a watcher and makes this `ReqInfo` wait
again, so that the other two are added back, and the array fills up into a vector once more. -/
theorem wakeupWatchers_spec_rewait :
    Reachable 2 (⟨0, 3, .vec [7, 8, 9]⟩ : ReqInfo Nat) ∧
    waiting (⟨0, 3, .vec [7, 8, 9]⟩ : ReqInfo Nat) = false ∧
    ∃ ri' log, wakeupWatchers 2 (fun k _ _ => if k = 0 then [.add 5, .setWait 1] else [])
        ⟨0, 3, .vec [7, 8, 9]⟩ = some (ri', log) ∧
      (held ri' ++ log.map Wakeup.watcher).Perm (held ⟨0, 3, .vec [7, 8, 9]⟩ ++ added log) ∧
      Inv 2 ri' ∧ numWatchers 2 ri' = some (held ri').length ∧
      ∀ e ∈ log, waiting e.state = false ∧ Inv 2 e.state ∧
        numWatchers 2 e.state = some (held e.state).length := by
  have h₁ : Reachable 2 (⟨0, 1, .arr [7, 0]⟩ : ReqInfo Nat) := .add 7 .new rfl
  have h₂ : Reachable 2 (⟨0, 2, .arr [7, 8]⟩ : ReqInfo Nat) := .add 8 h₁ rfl
  have h₃ : Reachable 2 (⟨0, 3, .vec [7, 8, 9]⟩ : ReqInfo Nat) := .add 9 h₂ rfl
  exact ⟨h₃, rfl, wakeupWatchers_spec _ h₃ rfl⟩

example :
    wakeupWatchers 2 (fun k _ _ => if k = 0 then [.add 5, .setWait 1] else [])
        (⟨0, 3, .vec [7, 8, 9]⟩ : ReqInfo Nat) =
      some (⟨1, 3, .vec [5, 8, 9]⟩, [⟨7, ⟨0, 0, .arr [0, 0]⟩, [.add 5, .setWait 1]⟩]) := by
  decide

end Proofs

end ReqInfo

end Engine
