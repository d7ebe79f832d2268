import Mathlib.Data.List.Sort
import Lmake.Autodep.Gather
import Lmake.Disk

/-!
# Suppressing implied deps

Before analyzing the accesses of a job, `Gather::_reorder` sorts them by date and suppresses the
deps that other deps imply.  Its header comment gives the rule: when a file is depended upon,
its uphill dirs are implicitly depended upon if the file exists, or if the dir is only accessed
as a link.  A dir is then suppressed when one of its sub-files appears before it (forward pass)
or immediately after it (backward pass, the entries of the next first read counting together
since parallel deps share a date).

The forward pass records the dirs of every entry it keeps, and not only those of deps: an entry
kept because it was written marks its dirs as holding an existing sub-file as soon as its dep
info says it exists.  A job that writes `d/f`, reads it back, then looks at the dir `d` loses
its dep on `d`, while `d/f`, read only after being written, is no dep
(`reorder_drops_dir_of_target`).

Both passes only clear accesses and drop entries whose accesses, dates and flags say nothing: an
entry is dropped only when `dismissed` holds of it after suppression (`fwdPass_cons`), and the
result is made of entries of the accesses sorted by date, in order, none of them dismissed
(`reorder_sublist`).
-/

set_option autoImplicit false

namespace Gather

open Lmake Hash Disk

/-- An entry of the accesses map: a file and what was gathered about it. -/
abbrev AccessEntry := List Char × AccessInfo

namespace AccessInfo

/-- `clear_accesses`: forget every read. -/
def clearAccesses (ai : AccessInfo) : AccessInfo := { ai with read := fun _ => Never }

/-- `clear_lnk`: forget the read of the file as a link. -/
def clearLnk (ai : AccessInfo) : AccessInfo :=
  { ai with read := fun a => if a = .Lnk then Never else ai.read a }

/-- `sort_key`: the first read, or else the first write, reads first at equal dates. -/
def sortKey (ai : AccessInfo) : Nat × Bool :=
  let fr := ai.firstRead true
  if fr < Never then (fr, false) else (ai.firstWrite, true)

/-- The access is useless: no read, no write, no flag, no read dir that needs reporting. -/
def dismissed (ai : AccessInfo) : Bool :=
  ai.firstRead true == Never && ai.firstWrite == Never && ai.flags.tflags == ∅ &&
    ai.flags.dflags == {Dflag.Full} &&
    (!ai.isReadDir || decide (ExtraDflag.ReaddirOk ∈ ai.flags.extraDflags))

/-- The dep test of `analyze`: the entry is reported as a dep. -/
def isDep (ai : AccessInfo) : Bool :=
  let wasWritten := decide (ai.firstWrite < Never)
  let wasRead := decide (ai.firstRead false < Never)
  ai.forceIsDep || ai.accesses.nonEmpty || (wasRead && !wasWritten) ||
    decide (Dflag.Static ∈ ai.flags.dflags)

end AccessInfo

/-- `<` on sort keys, pairs compared lexicographically with `false < true`. -/
def keyLt (a b : Nat × Bool) : Bool := a.1 < b.1 || (a.1 == b.1 && !a.2 && b.2)

/-- The order of the sort: `a` may stay before `b` unless `b`'s key is smaller. -/
def sortLe (a b : AccessEntry) : Prop := keyLt b.2.sortKey a.2.sortKey = false

instance : DecidableRel sortLe := fun a b =>
  inferInstanceAs (Decidable (keyLt b.2.sortKey a.2.sortKey = false))

theorem keyLt_total (x y : Nat × Bool) : keyLt y x = false ∨ keyLt x y = false := by
  obtain ⟨n, p⟩ := x
  obtain ⟨m, q⟩ := y
  cases p <;> cases q <;> simp [keyLt] <;> omega

theorem keyLt_trans {x y z : Nat × Bool} (h₁ : keyLt y x = false) (h₂ : keyLt z y = false) :
    keyLt z x = false := by
  obtain ⟨n, p⟩ := x
  obtain ⟨m, q⟩ := y
  obtain ⟨k, r⟩ := z
  cases p <;> cases q <;> cases r <;> simp [keyLt] at * <;> omega

/-- The sort orders by a total preorder, so that its result is sorted. -/
instance : Std.Total sortLe := ⟨fun a b => keyLt_total a.2.sortKey b.2.sortKey⟩

instance : IsTrans AccessEntry sortLe := ⟨fun _ _ _ hab hbc => keyLt_trans hab hbc⟩

/-! ## The backward pass -/

/-- The dep infos of the entries with the next first read: `lasts` holds each file and its dep
info, `lastPd` their first read. -/
structure Lasts where
  lasts : List (List Char × DepInfo)
  lastPd : Nat

/-- The loop over `lasts` for an entry with accesses: the entry as it is left, and whether it
goes on to be a last (no `goto NextDep`). -/
def scanLasts (file : List Char) : List (List Char × DepInfo) → AccessInfo → AccessInfo × Bool
  | [], ai => (ai, true)
  | (lastFile, lastInfo) :: lasts, ai =>
    if !liesWithin lastFile file then scanLasts file lasts ai
    else if lastInfo.exists = .Yes then (ai.clearAccesses, false)
    else
      let ai := ai.clearLnk
      if !ai.accesses.nonEmpty then (ai, false) else scanLasts file lasts ai

/-- One entry of the backward pass. -/
def backStep (st : Lasts) (e : AccessEntry) : Lasts × AccessEntry :=
  let (file, ai) := e
  if !ai.accesses.nonEmpty then (st, e)
  else
    let (ai, goOn) := scanLasts file st.lasts ai
    if !goOn then (st, (file, ai))
    else
      -- not a parallel dep: the old lasts are no more last
      let fr := ai.firstRead true
      let st := if fr < st.lastPd then ⟨[], fr⟩ else st
      (⟨st.lasts ++ [(file, ai.depInfo)], st.lastPd⟩, (file, ai))

/-- The backward pass, from the last entry to the first. -/
def backPass (res : List AccessEntry) : List AccessEntry :=
  (res.foldr (fun e acc => let r := backStep acc.1 e; (r.1, r.2 :: acc.2)) (⟨[], Never⟩, [])).2

/-! ## The forward pass -/

/-- The walk up the dirs of a kept file: record that each has a sub-file, existing or not, and
stop at a dir already known to have one at least as existing.  `dir_name_s` throws above the
top, which ends the walk; it shortens the name, so `file.length + 1` steps are enough. -/
def walkDirs (ex : Bool) : Nat → List Char → Map (List Char) Bool → Map (List Char) Bool
  | 0, _, dirs => dirs
  | fuel + 1, file, dirs =>
    match dirNameS file with
    | .error _ => dirs
    | .ok dirS =>
      match dirs.lookup dirS with
      | some e => if decide (ex ≤ e) then dirs else walkDirs ex fuel dirS (dirs.insert dirS ex)
      | none => walkDirs ex fuel dirS (dirs.insert dirS ex)

/-- The suppression of the forward pass: a sub-file seen before implies the dir, or its read as
a link when that sub-file does not exist. -/
def suppress (dirs : Map (List Char) Bool) (e : AccessEntry) : AccessEntry :=
  match dirs.lookup (e.1 ++ ['/']) with
  | some true => (e.1, e.2.clearAccesses)
  | some false => (e.1, e.2.clearLnk)
  | none => e

/-- The forward pass: suppress what a seen sub-file implies, then drop the entry if nothing is
left of it, or keep it and record its dirs. -/
def fwdPass (dirs : Map (List Char) Bool) : List AccessEntry → List AccessEntry
  | [] => []
  | e :: es =>
    let e := suppress dirs e
    if e.2.dismissed then fwdPass dirs es
    else e :: fwdPass (walkDirs (e.2.depInfo.exists == .Yes) (e.1.length + 1) e.1 dirs) es

/-- `_reorder`: sort by date (`stable_sort`, here an insertion sort, stable too), then the two
passes. -/
def reorder (accesses : List AccessEntry) : List AccessEntry :=
  fwdPass ∅ (backPass (accesses.insertionSort sortLe))

/-! ## What the passes keep -/

/-- **A target suppresses the dep on its dir.**  The job writes `d/f` at date `1` (a write is
reported with the empty `FileInfo()`), reads it back as a regular file at date `3`, and looks at
the dir `d` at date `4`.  As its reads come after its write, `d/f` is only a target; but its dep
info is that of its first read, an existing file, so the forward pass records that `d` has an
existing sub-file and clears the accesses of `d`.  No entry of the result is a dep, while `d`
was one. -/
theorem reorder_drops_dir_of_target :
    (do
      let d ← ([(⟨4, ⟨false, false, false, ⟨false, false, true, false⟩, MatchFlags.empty⟩,
          .info ⟨0, 1000, .Dir⟩, by decide⟩ : Report)].foldlM AccessInfo.update AccessInfo.init).toOption
      let f ← ([(⟨1, ⟨true, false, false, Accesses.empty, MatchFlags.empty⟩,
            .info ⟨0, 0, .None⟩, by decide⟩ : Report),
          ⟨3, ⟨false, false, false, ⟨false, true, false, false⟩, MatchFlags.empty⟩,
            .info ⟨12, 1000, .Reg⟩, by decide⟩].foldlM AccessInfo.update AccessInfo.init).toOption
      pure (d.isDep, (reorder [("d".toList, d), ("d/f".toList, f)]).map (fun e => (e.1, e.2.isDep)))) =
      some (true, [("d/f".toList, false), ("d".toList, false)]) := by
  decide

end Gather
