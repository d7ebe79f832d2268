import Lmake.BasicUtils

/-!
# The path name library

`disk.cc` handles file names as plain strings.  A name is *canonical* when it has no empty or
`.` component and no `..` after a plain component; `mk_canon` computes the canonical form of a
name and `is_canon` tells whether a name is canonical, by the same case analysis on the last
characters before each slash.  `mk_lcl` expresses a file as seen from a dir, walking up with one
`../` per component of the dir that the file does not share, and `mk_glb` undoes it.

Names are modelled as `List Char`.  A read past the end of a `::string` reads its terminating
nul, as `getD _ _ '\x00'` does.  A thrown exception (`throw_if`) and a failed assertion
(`SWEAR`) are the `.error` of an `Except`.

Results:

* `mkCanon_root_not_abs`: `mk_canon` maps an absolute name of the root that does not end with a
  slash, such as `/a/..`, to the empty name, which is not absolute.
* `mkGlb_mkLcl`: `mk_glb` inverts `mk_lcl` for a canonical file and a dir name with no `..`
  component, both absolute or both relative.  The proof follows the two scans: `mk_lcl` stops
  after the last slash the file shares with the dir (`scanSlash_spec`), and `mk_glb` walks up
  one component of the dir per `../` (`glbLoop_dotDots`), then stops because a canonical file
  never has `../` right after a component of a dir with no `..` (`isCanon_handleSlash`).
-/

set_option autoImplicit false

namespace Disk

open Lmake

/-! ## Definitions -/

/-- `CanonAction`: the names `is_canon` accepts beyond plain canonical names. -/
structure CanonAction where
  externOk : Bool := true
  emptyOk : Bool := false
  dotOk : Bool := false
  hasPfx : Bool := false
  hasSfx : Bool := false
deriving DecidableEq, Repr

/-- `is_dir_name`. -/
def isDirName (file : List Char) : Bool := file.isEmpty || file.getLast? == some '/'

/-- `is_abs`: the first character, which is the terminating nul for an empty name. -/
def isAbs (file : List Char) : Bool := file.getD 0 '\x00' == '/'

/-- `string::rfind(c)`: the position of the last `c`. -/
def rfind (c : Char) : List Char → Option Nat
  | [] => none
  | x :: l =>
    match rfind c l with
    | some i => some (i + 1)
    | none => if x = c then some 0 else none

/-- `handle_slash` of `is_canon`, at a slash preceded by `pre`, read backwards: `p[-k]` is
`pre[k-1]`. -/
def handleSlash (action : CanonAction) (pre : List Char) : Bool :=
  let sz := pre.length
  let p (k : Nat) : Char := pre.getD (k - 1) '\x00'
  if sz = 0 then true
  else if p 1 = '/' then false
  else if p 1 ≠ '.' then true
  else if sz = 1 then action.dotOk || action.hasPfx
  else if p 2 = '/' then false
  else if p 2 ≠ '.' then true
  else if sz = 2 then action.externOk
  else if p 3 ≠ '/' then true
  else if sz = 3 then action.hasPfx && action.externOk
  else if p 4 ≠ '.' then false
  else if sz = 4 then action.hasPfx && action.externOk
  else if p 5 ≠ '.' then false
  else if sz = 5 then action.externOk
  else if p 6 = '/' then action.externOk
  else false

/-- The loop of `is_canon` over the characters `rest` still to read, `pre` being those already
read, backwards. -/
def canonScan (action : CanonAction) (path : List Char) : List Char → List Char → Except String Bool
  | [], pre => pure (path.getLast? == some '/' || action.hasSfx || handleSlash action pre)
  | c :: rest, pre =>
    if c = '\x00' then throw ("file contains nul char : " ++ String.ofList path)
    else if c = '/' && !handleSlash action pre then pure false
    else canonScan action path rest (c :: pre)

/-- `is_canon`. -/
def isCanon (path : List Char) (action : CanonAction := {}) : Except String Bool :=
  if path = [] then pure action.emptyOk
  else canonScan action path path []

/-- `handle` of `mk_canon`: push `c` and, on a slash, suppress what the canonical form drops
(`end[-k]` is `res[sz-k]`). -/
def handle (isAbs : Bool) (res : List Char) (c : Char) : List Char :=
  let res := res ++ [c]
  let sz := res.length - 1
  let e (k : Nat) : Char := res.getD (sz - k) '\x00'
  -- the parent dir is plain: suppress it, up to the char after the slash before it
  let dotDot : List Char :=
    match rfind '/' (res.take (sz - 3)) with
    | none => res.take 0
    | some pos => res.take (pos + 1)
  if c ≠ '/' then res
  else if sz = 0 then (if !isAbs then res.take sz else res)
  else if e 1 = '/' then res.take sz
  else if e 1 ≠ '.' then res
  else if sz = 1 then res.take (sz - 1)
  else if e 2 = '/' then res.take (sz - 1)
  else if e 2 ≠ '.' then res
  else if sz = 2 then res
  else if e 3 ≠ '/' then res
  else if sz = 3 then res.take (sz - 2)
  else if e 4 ≠ '.' then dotDot
  else if sz = 4 then dotDot
  else if e 5 ≠ '.' then dotDot
  else if sz = 5 then res
  else if e 6 = '/' then res
  else dotDot

/-- `mk_canon`. -/
def mkCanon (path : List Char) : Except String (List Char) := do
  if path = [] then return []
  let isAbs := path.getD 0 '\x00' = '/'
  let res ← path.foldlM (fun res c =>
    if c = '\x00' then throw ("file contains nul char : " ++ String.ofList path)
    else pure (handle isAbs res c)) []
  if path.getLast? ≠ some '/' then
    let res := handle isAbs res '/'
    if res ≠ [] then return res.dropLast
    else return ['.']
  return res

/-- The scan of `mk_lcl` over the characters `rest` of `path` from position `i`: the position
after the last slash of the longest common prefix of `path` and `dirS`. -/
def scanSlash (dirS : List Char) : List Char → Nat → Nat → Nat
  | [], _, lastSlash1 => lastSlash1
  | c :: rest, i, lastSlash1 =>
    if c ≠ dirS.getD i '\x00' then lastSlash1
    else scanSlash dirS rest (i + 1) (if c = '/' then i + 1 else lastSlash1)

/-- `mk_lcl`: `path` as seen from `dirS`. -/
def mkLcl (path dirS : List Char) : Except String (List Char) := do
  swear (isDirName dirS) "is_dir_name(dir_s)"
  swear (isAbs path == isAbs dirS) "is_abs(path)==is_abs(dir_s)"
  let lastSlash1 := scanSlash dirS path 0 0
  let res := (dirS.drop lastSlash1).foldl
    (fun res c => if c = '/' then res ++ ['.', '.', '/'] else res) []
  pure (res ++ path.drop lastSlash1)

/-- One step up in `mk_glb`: suppress the ending slash, then keep up to the slash before. -/
def upDir (dS : List Char) : Except String (List Char) :=
  let d := dS.dropLast
  match rfind '/' d with
  | none => do
    swear (!d.isEmpty) "+d_s"
    pure []
  | some lastSlash => pure (d.take (lastSlash + 1))

/-- The loop of `mk_glb`: each leading `../` walks `dS` one dir up, unless `dS` is empty. -/
def glbLoop : List Char → List Char → Except String (List Char)
  | '.' :: '.' :: '/' :: p, dS =>
    if dS = [] then pure (dS ++ '.' :: '.' :: '/' :: p)
    else do
      let dS ← upDir dS
      glbLoop p dS
  | p, dS => pure (dS ++ p)

/-- `mk_glb`: `path`, seen from `dirS`, as seen from the origin of `dirS`. -/
def mkGlb (path dirS : List Char) : Except String (List Char) :=
  if isAbs path then pure path
  else glbLoop path dirS

/-- `is_lcl`: neither absolute nor above the origin. -/
def isLcl (file : List Char) : Bool :=
  !(isAbs file || ['.', '.', '/'].isPrefixOf file || file == ['.', '.'])

/-- `dir_name_s(file)`: the dir of a name, with its final slash, the empty name for a name with
no dir; it throws on the empty name and when walking up from `..`. -/
def dirNameS (file : List Char) : Except String (List Char) :=
  let bad : Except String (List Char) := throw ("cannot walk uphill from " ++ String.ofList file)
  if file = [] then bad
  else
    let slash := file.length - (if isDirName file then 1 else 0)
    if slash = 0 then pure []
    else
      let prevSlash := slash
      match rfind '/' (file.take slash) with
      | none => if file.take prevSlash = ['.', '.'] then bad else pure []
      | some slash =>
        if (file.drop slash).take (prevSlash - slash) = ['/', '.', '.'] then bad
        else pure (file.take (slash + 1))

/-- `lies_within(file,dir)`, for canonical names: `file` is strictly inside `dir`. -/
def liesWithin (file dir : List Char) : Bool :=
  if isDirName dir && dir.isEmpty || !isDirName dir && dir == ['.'] then
    isLcl file && file != ['.']
  else
    let d := if isDirName dir then dir.dropLast else dir
    if !(['/', '.', '.'].isSuffixOf d) && d != ['.', '.'] then
      d.isPrefixOf file && file.getD d.length '\x00' == '/'
    -- else the dir is a series of `..`, as it is canonical
    else if isAbs file then false
    else if !d.isPrefixOf file then true
    else
      let sv := file.drop d.length
      !(['/', '.', '.', '/'].isPrefixOf sv) && sv != ['/', '.', '.']

/-! ## `mk_canon` loses the root -/

/-- **The root of an absolute name is lost.**  `/a/..` names the root, but the synthetic slash
that `mk_canon` appends to the name brings `res` back to `/`, and the `pop_back` meant to remove
that slash leaves the empty name, which is relative. -/
theorem mkCanon_root_not_abs :
    mkCanon "/a/..".toList = .ok [] ∧ isAbs "/a/..".toList = true ∧ isAbs [] = false := by
  decide

/-! ## Finding the last slash -/

theorem rfind_eq_none {c : Char} {l : List Char} (h : c ∉ l) : rfind c l = none := by
  induction l with
  | nil => rfl
  | cons x l ih =>
    have hx : x ≠ c := fun hx => h (hx ▸ List.mem_cons_self)
    simp [rfind, ih (fun hl => h (List.mem_cons_of_mem x hl)), hx]

theorem rfind_append_of_not_mem {c : Char} {m : List Char} (h : c ∉ m) (l : List Char) :
    rfind c (l ++ m) = rfind c l := by
  induction l with
  | nil => exact rfind_eq_none h
  | cons x l ih => simp only [List.cons_append, rfind, ih]

theorem rfind_append_singleton (c : Char) (l : List Char) : rfind c (l ++ [c]) = some l.length := by
  induction l with
  | nil => simp [rfind]
  | cons x l ih => simp [rfind, ih]

theorem rfind_append_cons {c : Char} {m : List Char} (h : c ∉ m) (l : List Char) :
    rfind c (l ++ c :: m) = some l.length := by
  rw [← List.singleton_append, ← List.append_assoc, rfind_append_of_not_mem h,
    rfind_append_singleton]

theorem not_mem_of_rfind_eq_none {c : Char} {l : List Char} (h : rfind c l = none) : c ∉ l := by
  induction l with
  | nil => exact List.not_mem_nil
  | cons x l ih =>
    rw [rfind] at h
    cases hr : rfind c l with
    | some i => rw [hr] at h; cases h
    | none =>
      simp only [hr] at h
      split at h
      · cases h
      · next hx =>
        rw [List.mem_cons, not_or]
        exact ⟨fun hcx => hx hcx.symm, ih hr⟩

/-- The position `rfind` gives is that of the last `c`. -/
theorem rfind_eq_some {c : Char} {l : List Char} {i : Nat} (h : rfind c l = some i) :
    ∃ m, l = l.take i ++ c :: m ∧ c ∉ m := by
  induction l generalizing i with
  | nil => cases h
  | cons x l ih =>
    rw [rfind] at h
    cases hr : rfind c l with
    | some j =>
      rw [hr] at h
      cases h
      obtain ⟨m, hl, hm⟩ := ih hr
      exact ⟨m, by rw [List.take_succ_cons, List.cons_append, ← hl], hm⟩
    | none =>
      simp only [hr] at h
      split at h
      · next hx =>
        cases h
        exact ⟨l, by rw [hx, List.take_zero, List.nil_append], not_mem_of_rfind_eq_none hr⟩
      · cases h

/-! ## Walking up a dir -/

/-- `"../"` repeated `n` times. -/
def dotDots : Nat → List Char
  | 0 => []
  | n + 1 => '.' :: '.' :: '/' :: dotDots n

/-- The loop of `mk_lcl` emits one `../` per slash. -/
theorem foldl_dotDots (s acc : List Char) :
    s.foldl (fun res c => if c = '/' then res ++ ['.', '.', '/'] else res) acc =
      acc ++ dotDots (s.count '/') := by
  induction s generalizing acc with
  | nil => simp [dotDots]
  | cons c s ih =>
    by_cases hc : c = '/'
    · subst hc
      rw [List.foldl_cons, if_pos rfl, ih, List.count_cons_self, dotDots]
      simp
    · rw [List.foldl_cons, if_neg hc, ih, List.count_cons_of_ne hc]

/-- One step up from a dir `A ++ seg ++ "/"` whose last component `seg` is not empty, or is
not the first one, leads to `A`. -/
theorem upDir_append {A seg : List Char} (hseg : '/' ∉ seg)
    (hA : A = [] ∨ A.getLast? = some '/') (hne : A ≠ [] ∨ seg ≠ []) :
    upDir (A ++ seg ++ ['/']) = .ok A := by
  have hdrop : (A ++ seg ++ ['/']).dropLast = A ++ seg := List.dropLast_concat
  simp only [upDir, hdrop, rfind_append_of_not_mem hseg]
  rcases hA with rfl | hA
  · have hseg' : seg ≠ [] := hne.resolve_left (fun h => h rfl)
    simp [rfind, swear, hseg']
  · obtain ⟨A', rfl⟩ := List.getLast?_eq_some_iff.1 hA
    have htake : (A' ++ '/' :: seg).take (A'.length + 1) = A' ++ ['/'] := by
      rw [show A' ++ '/' :: seg = (A' ++ ['/']) ++ seg by simp]
      exact List.take_left' (by simp)
    simp only [rfind_append_singleton, List.append_assoc, List.cons_append, List.nil_append]
    rw [htake]
    rfl

/-- A name ending with a slash ends with a last component, after the components before it. -/
theorem exists_last_component {s : List Char} {n : Nat} (hc : s.count '/' = n + 1)
    (hs : s.getLast? = some '/') :
    ∃ s' seg, s = s' ++ seg ++ ['/'] ∧ '/' ∉ seg ∧ s'.count '/' = n ∧
      (s' = [] ∨ s'.getLast? = some '/') := by
  obtain ⟨t, rfl⟩ := List.getLast?_eq_some_iff.1 hs
  have ht : t.count '/' = n := by simpa using hc
  by_cases hmem : '/' ∈ t
  · -- split at the last slash, the first one of the reversed name
    obtain ⟨b, a, hrev, hb⟩ := List.eq_append_cons_of_mem (List.mem_reverse.2 hmem)
    have hsplit : t = a.reverse ++ '/' :: b.reverse := by
      rw [← List.reverse_reverse t, hrev]
      simp
    have hb' : '/' ∉ b.reverse := by simpa using hb
    refine ⟨a.reverse ++ ['/'], b.reverse, by simp [hsplit], hb', ?_, .inr (by simp)⟩
    rw [← ht, hsplit]
    simp [List.count_eq_zero_of_not_mem hb']
  · refine ⟨[], t, rfl, hmem, ?_, .inl rfl⟩
    rw [← ht, List.count_eq_zero_of_not_mem hmem]
    rfl

/-- `mk_glb` walks `dS = A ++ s` up once per component of `s` for the `n` leading `../`. -/
theorem glbLoop_dotDots (q : List Char) : ∀ (n : Nat) (A s : List Char), s.count '/' = n →
    (s = [] ∨ s.getLast? = some '/') → (A = [] ∨ A.getLast? = some '/') →
    (A = [] → s.head? ≠ some '/') →
    glbLoop (dotDots n ++ q) (A ++ s) = glbLoop q A
  | 0, A, s, hc, hs, _, _ => by
    have hs0 : s = [] := by
      rcases hs with hs | hs
      · exact hs
      · obtain ⟨t, rfl⟩ := List.getLast?_eq_some_iff.1 hs
        simp at hc
    simp [hs0, dotDots]
  | n + 1, A, s, hc, hs, hA, hhead => by
    have hsne : s ≠ [] := by rintro rfl; simp at hc
    obtain ⟨s', seg, rfl, hseg, hc', hs'⟩ :=
      exists_last_component hc (hs.resolve_left hsne)
    -- the first component of a relative name is not empty
    have hne : A ++ s' ≠ [] ∨ seg ≠ [] := by
      by_cases hA0 : A = []
      · by_cases hs0 : s' = []
        · subst hA0 hs0
          refine .inr fun hseg0 => hhead rfl ?_
          simp [hseg0]
        · exact .inl (by simp [hs0])
      · exact .inl (by simp [hA0])
    have hA' : A ++ s' = [] ∨ (A ++ s').getLast? = some '/' := by
      rcases hs' with rfl | hs'
      · simpa using hA
      · exact .inr (by rw [List.getLast?_append, hs']; rfl)
    have hup : upDir (A ++ (s' ++ seg ++ ['/'])) = .ok (A ++ s') := by
      rw [← List.append_assoc, ← List.append_assoc]
      simpa using upDir_append hseg hA' hne
    have hhead' : A = [] → s'.head? ≠ some '/' := by
      intro hA0 h
      obtain ⟨t, rfl⟩ := List.head?_eq_some_iff.1 h
      exact hhead hA0 (by simp)
    rw [dotDots, List.cons_append, List.cons_append, List.cons_append, glbLoop.eq_1,
      if_neg (by simp), hup]
    exact glbLoop_dotDots q n A s' hc' hs' hA hhead'

/-- `mk_glb` stops at a name that does not start with `../`, or when it reached the origin. -/
theorem glbLoop_stop {q A : List Char} (h : A = [] ∨ ∀ r, q ≠ '.' :: '.' :: '/' :: r) :
    glbLoop q A = .ok (A ++ q) := by
  by_cases hq : ∃ r, q = '.' :: '.' :: '/' :: r
  · obtain ⟨r, rfl⟩ := hq
    have hA : A = [] := h.resolve_right fun h' => h' r rfl
    rw [glbLoop.eq_1, if_pos hA]
    rfl
  · exact glbLoop.eq_2 q A fun r hr => hq ⟨r, hr⟩

/-! ## Canonical names -/

theorem canonScan_not_nul {a : CanonAction} {path : List Char} :
    ∀ (rest pre : List Char), canonScan a path rest pre = .ok true → '\x00' ∉ rest
  | [], _, _ => List.not_mem_nil
  | c :: rest, pre, h => by
    unfold canonScan at h
    by_cases hc : c = '\x00'
    · rw [if_pos hc] at h
      cases h
    · rw [if_neg hc] at h
      split at h
      · cases h
      · exact List.not_mem_cons_of_ne_of_not_mem (Ne.symm hc) (canonScan_not_nul rest _ h)

/-- At each slash of a name it accepts, the scan of `is_canon` accepted what precedes. -/
theorem canonScan_handleSlash {a : CanonAction} {path B : List Char} :
    ∀ (A pre : List Char), canonScan a path (A ++ '/' :: B) pre = .ok true →
      handleSlash a (A.reverse ++ pre) = true
  | [], pre, h => by
    by_contra hs
    rw [List.reverse_nil, List.nil_append, Bool.not_eq_true] at hs
    simp [canonScan, hs] at h
    cases h
  | c :: A, pre, h => by
    rw [List.cons_append] at h
    unfold canonScan at h
    by_cases hc : c = '\x00'
    · rw [if_pos hc] at h
      cases h
    · rw [if_neg hc] at h
      split at h
      · cases h
      · simpa using canonScan_handleSlash A (c :: pre) h

theorem isCanon_ne_nil {p : List Char} (h : isCanon p = .ok true) : p ≠ [] := by
  rintro rfl
  cases h

theorem isCanon_not_nul {p : List Char} (h : isCanon p = .ok true) : '\x00' ∉ p := by
  rw [isCanon, if_neg (isCanon_ne_nil h)] at h
  exact canonScan_not_nul p [] h

theorem isCanon_handleSlash {p A B : List Char} (h : isCanon p = .ok true)
    (hp : p = A ++ '/' :: B) : handleSlash {} A.reverse = true := by
  rw [isCanon, if_neg (isCanon_ne_nil h), hp] at h
  simpa using canonScan_handleSlash A [] h

theorem handleSlash_slash (a : CanonAction) (t : List Char) : handleSlash a ('/' :: t) = false := by
  simp [handleSlash]

/-- `..` after a slash is canonical only after `..`. -/
theorem handleSlash_dotDot {t : List Char} (h : handleSlash {} ('.' :: '.' :: '/' :: t) = true) :
    t = ['.', '.'] ∨ ∃ u, t = '.' :: '.' :: '/' :: u := by
  rcases t with _ | ⟨c4, _ | ⟨c5, _ | ⟨c6, u⟩⟩⟩
  all_goals simp [handleSlash] at h
  · obtain ⟨rfl, rfl⟩ := h
    exact .inl rfl
  · obtain ⟨rfl, rfl, rfl⟩ := h
    exact .inr ⟨u, rfl⟩

/-- A canonical name has no empty component. -/
theorem isCanon_not_slash_slash {p A r : List Char} (h : isCanon p = .ok true) :
    p ≠ A ++ '/' :: '/' :: r := by
  intro hp
  have := isCanon_handleSlash h (show p = (A ++ ['/']) ++ '/' :: r by simp [hp])
  simp [handleSlash_slash] at this

/-- A canonical name has `../` after a slash only after another `..`. -/
theorem isCanon_dotDot_after_slash {p A r : List Char} (h : isCanon p = .ok true)
    (hp : p = A ++ '/' :: '.' :: '.' :: '/' :: r) :
    A = ['.', '.'] ∨ ∃ u, A = u ++ ['/', '.', '.'] := by
  have hs := isCanon_handleSlash h (show p = (A ++ ['/', '.', '.']) ++ '/' :: r by simp [hp])
  rcases handleSlash_dotDot (by simpa using hs) with hA | ⟨u, hu⟩
  · exact .inl (by simpa using congrArg List.reverse hA)
  · exact .inr ⟨u.reverse, by simpa using congrArg List.reverse hu⟩

/-- A dir whose first components end with `..` has a `..` component. -/
theorem dotDot_mem_splitOn {A s : List Char}
    (h : A = ['.', '.'] ∨ ∃ u, A = u ++ ['/', '.', '.']) :
    ['.', '.'] ∈ (A ++ '/' :: s).splitOn '/' := by
  have hdd : ['.', '.'].splitOn '/' = [['.', '.']] := List.splitOn_eq_singleton (by decide)
  rw [List.splitOn_append_cons_self]
  rcases h with rfl | ⟨u, rfl⟩
  · simp [hdd]
  · rw [show u ++ ['/', '.', '.'] = u ++ '/' :: ['.', '.'] from rfl,
      List.splitOn_append_cons_self]
    simp [hdd]

/-! ## The scan of `mk_lcl` -/

/-- Where the scan stops, the file and the dir agree up to the last slash seen. -/
theorem take_eq_of_stop {d p r : List Char} {i acc : Nat} (hp : p = d.take i ++ r)
    (hi : i ≤ d.length) (hacc : acc ≤ i) : p.take acc = d.take acc := by
  rw [hp, List.take_append_of_le_length (by simp; omega), List.take_take, Nat.min_eq_left hacc]

/-- What the scan of `mk_lcl` finds: a position after a slash (or `0`) up to which the file and
the dir agree.  The induction is on the characters still to read. -/
theorem scanSlash_spec {d p : List Char} : ∀ (rest : List Char) (i acc : Nat),
    p = d.take i ++ rest → i ≤ d.length → '\x00' ∉ rest → acc ≤ i →
    (acc = 0 ∨ d.getD (acc - 1) '\x00' = '/') →
    acc ≤ scanSlash d rest i acc ∧ scanSlash d rest i acc ≤ d.length ∧
      p.take (scanSlash d rest i acc) = d.take (scanSlash d rest i acc) ∧
      (scanSlash d rest i acc = 0 ∨ d.getD (scanSlash d rest i acc - 1) '\x00' = '/')
  | [], i, acc, hp, hi, _, hacc, hs => ⟨le_rfl, by simp [scanSlash]; omega,
      take_eq_of_stop hp hi hacc, hs⟩
  | c :: rest, i, acc, hp, hi, hnul, hacc, hs => by
    by_cases hc : c ≠ d.getD i '\x00'
    · rw [scanSlash, if_pos hc]
      exact ⟨le_rfl, by omega, take_eq_of_stop hp hi hacc, hs⟩
    · rw [scanSlash, if_neg hc]
      rw [not_not] at hc
      have hc0 : c ≠ '\x00' := fun h0 => hnul (h0 ▸ List.mem_cons_self)
      -- a character of the file matched one of the dir, not the nul past its end
      have hid : i < d.length := by
        by_contra hge
        rw [List.getD_eq_getElem?_getD, List.getElem?_eq_none (by omega)] at hc
        exact hc0 hc
      have hget : d[i]? = some c := by
        rw [List.getD_eq_getElem?_getD, List.getElem?_eq_getElem hid] at hc
        rw [List.getElem?_eq_getElem hid, hc]
        rfl
      have hp' : p = d.take (i + 1) ++ rest := by
        rw [hp, List.take_add_one, hget]
        simp
      have hs' : (if c = '/' then i + 1 else acc) = 0 ∨
          d.getD ((if c = '/' then i + 1 else acc) - 1) '\x00' = '/' := by
        split
        · next hsl => exact .inr (by rw [Nat.add_sub_cancel, ← hc, hsl])
        · exact hs
      obtain ⟨h1, h2, h3, h4⟩ := scanSlash_spec rest (i + 1) _ hp' (by omega)
        (fun h => hnul (List.mem_cons_of_mem c h)) (by split <;> omega) hs'
      exact ⟨le_trans (by split <;> omega) h1, h2, h3, h4⟩

/-- Two absolute names share their first slash. -/
theorem scanSlash_pos {d p : List Char} (hnul : '\x00' ∉ p) (hp : p.head? = some '/')
    (hd : d.head? = some '/') : 0 < scanSlash d p 0 0 := by
  obtain ⟨r, rfl⟩ := List.head?_eq_some_iff.1 hp
  obtain ⟨t, rfl⟩ := List.head?_eq_some_iff.1 hd
  rw [scanSlash, if_neg (by simp), if_pos rfl]
  obtain ⟨h1, -⟩ := scanSlash_spec (d := '/' :: t) (p := '/' :: r) r 1 1 (by simp)
    (by simp) (fun h => hnul (List.mem_cons_of_mem _ h)) le_rfl (.inr rfl)
  rw [Nat.zero_add]
  omega

/-! ## `mk_glb` inverts `mk_lcl` -/

/-- `mk_lcl` walks up once per component of the dir after the last shared slash. -/
theorem mkLcl_eq {p d : List Char} (hdir : isDirName d = true) (habs : isAbs p = isAbs d) :
    mkLcl p d = .ok (dotDots ((d.drop (scanSlash d p 0 0)).count '/') ++
      p.drop (scanSlash d p 0 0)) := by
  simp [mkLcl, swear, hdir, habs, foldl_dotDots]
  rfl

theorem isAbs_eq_true {l : List Char} : isAbs l = true ↔ l.head? = some '/' := by
  cases l <;> simp [isAbs]

theorem isAbs_dotDots_append {n : Nat} {q : List Char} (h : isAbs (dotDots n ++ q) = true) :
    n = 0 ∧ q.head? = some '/' := by
  cases n with
  | zero =>
    refine ⟨rfl, ?_⟩
    cases q with
    | nil => simp [isAbs, dotDots] at h
    | cons c q => simpa [isAbs, dotDots] using h
  | succ n => simp [isAbs, dotDots] at h

/-- **`mk_glb` inverts `mk_lcl`.**  For a canonical file `p` and a dir name `d` with no `..`
component, both absolute or both relative, `mk_lcl` succeeds and `mk_glb` takes its result back
to `p`. -/
theorem mkGlb_mkLcl (p d : List Char) (hp : isCanon p = .ok true)
    (hd : d = [] ∨ (isCanon d = .ok true ∧ d.getLast? = some '/'))
    (hdd : ['.', '.'] ∉ d.splitOn '/') (habs : isAbs p = isAbs d) :
    (do let l ← mkLcl p d; mkGlb l d) = .ok p := by
  have hnul := isCanon_not_nul hp
  have hdir : isDirName d = true := by
    rcases hd with rfl | ⟨-, h⟩
    · rfl
    · simp [isDirName, h]
  obtain ⟨-, hkd, hpk, hkslash⟩ := scanSlash_spec (d := d) (p := p) p 0 0 (by simp)
    (Nat.zero_le _) hnul le_rfl (.inl rfl)
  rw [mkLcl_eq hdir habs]
  simp only [bind, Except.bind]
  generalize hk : scanSlash d p 0 0 = k at hkd hpk hkslash ⊢
  have hpA : p = d.take k ++ p.drop k := by rw [← hpk, List.take_append_drop]
  have hdA : d = d.take k ++ d.drop k := (List.take_append_drop k d).symm
  -- the shared part ends with a slash
  have hA : d.take k = [] ∨ (d.take k).getLast? = some '/' := by
    by_cases hk0 : k = 0
    · exact .inl (by simp [hk0])
    · have hget : d[k - 1]? = some '/' := by
        rw [List.getElem?_eq_getElem (by omega)]
        rw [List.getD_eq_getElem?_getD, List.getElem?_eq_getElem (by omega)] at hkslash
        exact congrArg some (hkslash.resolve_left hk0)
      exact .inr (by rw [List.getLast?_take, if_neg hk0, hget]; rfl)
  -- the rest of the dir is made of components ending with a slash
  have hsl : d.drop k = [] ∨ (d.drop k).getLast? = some '/' := by
    by_cases hs0 : d.drop k = []
    · exact .inl hs0
    · have hlen : ¬ d.length ≤ k := fun h => hs0 (List.drop_eq_nil_of_le h)
      have hd' : d ≠ [] := by rintro rfl; simp at hs0
      have hlast : d.getLast? = some '/' := by simpa [isDirName, hd'] using hdir
      exact .inr (by rw [List.getLast?_drop, if_neg hlen, hlast])
  -- a relative dir does not start with a slash
  have hhead : d.take k = [] → (d.drop k).head? ≠ some '/' := by
    intro hA0 hdh
    have hd0 : d.head? = some '/' := by rwa [hdA, hA0]
    have hp0 : p.head? = some '/' := isAbs_eq_true.1 (habs.trans (isAbs_eq_true.2 hd0))
    have hpos := scanSlash_pos hnul hp0 hd0
    rw [hk] at hpos
    rcases List.take_eq_nil_iff.1 hA0 with h | h
    · omega
    · simp [h] at hd0
  generalize d.take k = A at hpA hdA hA hhead
  generalize hq : p.drop k = q at hpA ⊢
  generalize d.drop k = s at hdA hsl hhead ⊢
  unfold mkGlb
  split
  · -- the file is absolute and shares nothing but its root with the dir
    next habsl =>
    obtain ⟨hn0, hqh⟩ := isAbs_dotDots_append habsl
    rw [hn0]
    rcases hA with rfl | hA
    · rw [hpA]
      rfl
    · obtain ⟨A', rfl⟩ := List.getLast?_eq_some_iff.1 hA
      obtain ⟨r, rfl⟩ := List.head?_eq_some_iff.1 hqh
      exact absurd (by rw [hpA]; simp) (isCanon_not_slash_slash (A := A') (r := r) hp)
  · -- the file does not have `../` after the shared part, which has no `..` component
    have hstop : A = [] ∨ ∀ r, q ≠ '.' :: '.' :: '/' :: r := by
      rcases hA with hA0 | hA
      · exact .inl hA0
      · refine .inr fun r hr => hdd ?_
        obtain ⟨A', rfl⟩ := List.getLast?_eq_some_iff.1 hA
        have hp' : p = A' ++ '/' :: '.' :: '.' :: '/' :: r := by rw [hpA, hr]; simp
        rw [hdA, List.append_assoc, List.singleton_append]
        exact dotDot_mem_splitOn (isCanon_dotDot_after_slash hp hp')
    rw [hdA, glbLoop_dotDots q _ A s rfl hsl hA hhead, glbLoop_stop hstop, ← hpA]

/-- `/a/b` seen from `/a/c/d/` is `../../b`, which `mk_glb` takes back to `/a/b`. -/
theorem mkGlb_mkLcl_up_two :
    isCanon "/a/b".toList = .ok true ∧
      (isCanon "/a/c/d/".toList = .ok true ∧ "/a/c/d/".toList.getLast? = some '/') ∧
      ['.', '.'] ∉ "/a/c/d/".toList.splitOn '/' ∧
      isAbs "/a/b".toList = isAbs "/a/c/d/".toList ∧
      (do let l ← mkLcl "/a/b".toList "/a/c/d/".toList; mkGlb l "/a/c/d/".toList) =
        .ok "/a/b".toList :=
  ⟨by decide, by decide, by decide, by decide,
    mkGlb_mkLcl _ _ (by decide) (.inr (by decide)) (by decide) (by decide)⟩

example : mkLcl "/a/b".toList "/a/c/d/".toList = .ok "../../b".toList := by decide

end Disk
