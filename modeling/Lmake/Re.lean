import Mathlib.Data.List.TakeWhile
import Lmake.BasicUtils

/-!
# Regular expressions: `RegExpr`

`Re::RegExpr` never hands a whole regular expression to PCRE2.  A `Pattern` is a sequence of
texts, each a fixed text (`Maybe`), a capturing regex (`Yes`) or a non-capturing one (`No`).  The
fixed texts before the first regex and after the last one become a prefix and a suffix that the
matcher checks itself; five shapes (no regex, one `.*`, one `.+`) are matched without PCRE2; the
fixed texts between regexes are searched for, in order, before calling PCRE2; and PCRE2 is run on
the subject without its suffix, from the end of its prefix.  A regex given as one string is first
split by `_mk_pattern` into a fixed prefix, a core and a fixed suffix, read off the string by hand.

PCRE2 is not part of the repository: `RegExpr` is modelled over any engine `Pcre2` that offers
the three calls it makes, and what a theorem needs of PCRE2's documented behaviour is a hypothesis
of that theorem.

Two places where the matcher does not mean what its regex means:
* `_mk_pattern` ignores a top-level alternation: `ab|cd` is split into the prefix `ab`, the core
  `|` and the suffix `cd`, so that `RegExpr` asks a subject to start with `ab` and end with `cd`,
  whatever PCRE2 makes of the core, and does not match `ab`, which `ab|cd` matches
  (`regExpr_alt_split`);
* the subject PCRE2 sees stops before the suffix, so that `$` in the last regex of a pattern sees
  the end of the subject where the suffix starts: `RegExpr` matches `ab` with `(a$)` followed by
  the fixed `b`, which `(a$)b` does not match (`regExpr_match_truncated`).
-/

set_option autoImplicit false

namespace Re

open Lmake

/-- `_EscapeIsSpecial`. -/
def escapeIsSpecial (c : Char) : Bool := "()[].*+?|\\\x7b\x7d^$".toList.contains c

/-- `escape`: a backslash before each special character. -/
def escape (s : List Char) : List Char :=
  s.flatMap fun c => if escapeIsSpecial c then ['\\', c] else [c]

/-- `_EscapeIsQuantifier`: `{` starts a quantifier. -/
def escapeIsQuantifier (c : Char) : Bool := "*+?\x7b".toList.contains c

/-- `_is_alphanum`. -/
def isAlphanum (c : Char) : Bool :=
  ('0' ≤ c && c ≤ '9') || ('a' ≤ c && c ≤ 'z') || ('A' ≤ c && c ≤ 'Z')

/-- The escapes of control characters both scans of `_mk_pattern` know. -/
def ctrlEscape (c : Char) : Option Char :=
  if c = 'a' then some '\x07'
  else if c = 'e' then some '\x1b'
  else if c = 'f' then some '\x0c'
  else if c = 'n' then some '\n'
  else if c = 'r' then some '\r'
  else if c = 't' then some '\t'
  else none

/-- `Pattern`: texts, each fixed (`Maybe`), capturing (`Yes`) or not (`No`). -/
abbrev Pattern := List (List Char × Bool3)

/-! ## `_mk_pattern` -/

/-- The prefix scan of `_mk_pattern`, over the text from `start`: whether it ends by
`goto DoneStart` (`true`) or `goto Done`, the text from the last `start`, and the prefix read. -/
def pfxScan : List Char → List Char → Bool × List Char × List Char
  | [], pfx => (false, [], pfx)
  -- an ending backslash is left to PCRE2
  | ['\\'], pfx => (false, ['\\'], pfx)
  | '\\' :: c :: rest, pfx =>
    let c? : Option Char :=
      if c = '\x00' then some c
      else match ctrlEscape c with
        | some c => some c
        | none => if isAlphanum c then none else some c
    match c? with
    -- too many pitfalls to analyze suffix
    | none => (false, '\\' :: c :: rest, pfx)
    | some c =>
      if escapeIsQuantifier (rest.getD 0 '\x00') then (true, '\\' :: c :: rest, pfx)
      else pfxScan rest (pfx ++ [c])
  | c :: rest, pfx =>
    if escapeIsSpecial c then (true, c :: rest, pfx)
    -- a plain char followed by a quantifier is not fixed
    else if escapeIsQuantifier (rest.getD 0 '\x00') then (true, c :: rest, pfx)
    else pfxScan rest (pfx ++ [c])

/-- The check of `_mk_pattern` for fancy escapes: a backslash followed by a letter or a digit, at
any position. -/
def hasFancyEscape : List Char → Bool
  | '\\' :: c :: rest => isAlphanum c || hasFancyEscape (c :: rest)
  | _ :: rest => hasFancyEscape rest
  | [] => false

/-- The suffix scan of `_mk_pattern`, over the core read backwards: what is left of it, backwards,
and the suffix read, backwards.  A character after a backslash is taken as escaped. -/
def sfxScan : List Char → List Char → Except String (List Char × List Char)
  | c :: '\\' :: rest, sfx => do
    let c ← match ctrlEscape c with
      | some c => pure c
      | none => do
        swear (!isAlphanum c) "!_is_alphanum(c)"
        pure c
    sfxScan rest (sfx ++ [c])
  | c :: c1 :: rest, sfx =>
    if escapeIsSpecial c then pure (c :: c1 :: rest, sfx) else sfxScan (c1 :: rest) (sfx ++ [c])
  | core, sfx => pure (core, sfx)

/-- `_mk_pattern`: a fixed prefix, a non-capturing core and a fixed suffix. -/
def mkPattern (s : List Char) : Except String Pattern :=
  match pfxScan s [] with
  | (doneStart, core, pfx) =>
    if !doneStart || hasFancyEscape core then pure [(pfx, .Maybe), (core, .No), ([], .Maybe)]
    else do
      let (coreRev, sfxRev) ← sfxScan core.reverse []
      pure [(pfx, .Maybe), (coreRev.reverse, .No), (sfxRev.reverse, .Maybe)]

/-! ## PCRE2 -/

/-- The capture vector of a match: for each group, group 0 first, the positions it matched
between, if any. -/
abbrev Caps := List (Option (Nat × Nat))

/-- What `RegExpr` calls of PCRE2, for patterns compiled with the flags it passes
(`ANCHORED|DOLLAR_ENDONLY|DOTALL|ENDANCHORED`): `pcre2_compile`, the capture count that
`pcre2_pattern_info` gives, and `pcre2_match` on the first `length` chars of a subject from
`startOffset`, which gives the capture vector up to the highest group that is set, or `none` when
the subject does not match. -/
structure Pcre2 (Code : Type) where
  compile : List Char → Except String Code
  captureCount : Code → Nat
  pcre2Match : Code → List Char → Nat → Nat → Option Caps

variable {Code : Type} (M : Pcre2 Code)

/-- PCRE2 matches the whole of `u` with the regex `s`. -/
def Pcre2.Matches (s u : List Char) : Prop :=
  ∃ code, M.compile s = .ok code ∧ (M.pcre2Match code u u.length 0).isSome

/-! ## `RegExpr` -/


/-- `RegExprSpecial`. -/
inductive Special where
  | Plain
  | Single
  | AnyNoCapture
  | AnyCapture
  | NonEmptyNoCapture
  | NonEmptyCapture
  deriving DecidableEq, Repr

/-- `RegExpr`: its fixed prefix and suffix, the fixed texts between its regexes, the code PCRE2
compiled, and its special shape. -/
structure RegExpr (Code : Type) where
  pfx : List Char
  sfx : List Char
  infxs : List (List Char)
  code : Option Code
  special : Special

/-- The loop of `RegExpr(Pattern)` over the entries between the prefix and the suffix, after an
entry of capture `prevCapture`: the regex given to PCRE2 and the infixes, consecutive fixed texts
being merged. -/
def mkPat : Bool3 → Pattern → List Char → List (List Char) → List Char × List (List Char)
  | _, [], pat, infxs => (pat, infxs)
  | _, (t, .Yes) :: es, pat, infxs => mkPat .Yes es (pat ++ '(' :: t ++ [')']) infxs
  | _, (t, .No) :: es, pat, infxs => mkPat .No es (pat ++ "(?:".toList ++ t ++ [')']) infxs
  | prevCapture, (t, .Maybe) :: es, pat, infxs =>
    let infxs :=
      if prevCapture = .Maybe then infxs.dropLast ++ [infxs.getLast?.getD [] ++ t] else infxs ++ [t]
    mkPat .Maybe es (pat ++ escape t) infxs

/-- `RegExpr(Pattern)`: the fixed texts around the regexes, the special shapes, and else the code
PCRE2 compiles for the regexes and the fixed texts between them. -/
def RegExpr.ofPattern (pattern : Pattern) : Except String (RegExpr Code) :=
  let start := (pattern.takeWhile (·.2 = .Maybe)).length
  let stop := pattern.length - ((pattern.drop start).reverse.takeWhile (·.2 = .Maybe)).length
  let pfx := ((pattern.take start).map Prod.fst).flatten
  let sfx := ((pattern.drop stop).map Prod.fst).flatten
  let e := pattern.getD start ([], .Maybe)
  if start = stop then pure ⟨pfx, sfx, [], none, .Single⟩
  else if stop = start + 1 && (e.1 == ".*".toList || e.1 == ".*?".toList) then
    match e.2 with
    | .Yes => pure ⟨pfx, sfx, [], none, .AnyCapture⟩
    | .No => pure ⟨pfx, sfx, [], none, .AnyNoCapture⟩
    | .Maybe => throw "FAIL"
  else if stop = start + 1 && (e.1 == ".+".toList || e.1 == ".+?".toList) then
    match e.2 with
    | .Yes => pure ⟨pfx, sfx, [], none, .NonEmptyCapture⟩
    | .No => pure ⟨pfx, sfx, [], none, .NonEmptyNoCapture⟩
    | .Maybe => throw "FAIL"
  else do
    let (pat, infxs) := mkPat .No ((pattern.take stop).drop start) [] []
    let code ← M.compile pat
    pure ⟨pfx, sfx, infxs, some code, .Plain⟩

/-- `RegExpr(string)`. -/
def RegExpr.ofString (pattern : List Char) : Except String (RegExpr Code) := do
  RegExpr.ofPattern M (← mkPattern pattern)

/-- `n_marks`. -/
def RegExpr.nMarks (re : RegExpr Code) : Nat :=
  match re.special with
  | .Single | .AnyNoCapture | .NonEmptyNoCapture => 0
  | .AnyCapture | .NonEmptyCapture => 1
  | .Plain => (re.code.map M.captureCount).getD 0

/-- The first position of `needle` in a text. -/
def firstIndex (needle : List Char) : List Char → Option Nat
  | [] => if needle.isEmpty then some 0 else none
  | c :: cs => if needle.isPrefixOf (c :: cs) then some 0 else (firstIndex needle cs).map (· + 1)

/-- `string_view::find(needle,pos)`. -/
def find (hay needle : List Char) (pos : Nat) : Option Nat :=
  if pos ≤ hay.length then (firstIndex needle (hay.drop pos)).map (· + pos) else none

/-- The fast path of `_n_match1`: the infixes are found in order in the core. -/
def infxsFound (core : List Char) : List (List Char) → Nat → Bool
  | [], _ => true
  | infx :: infxs, pos =>
    match find core infx pos with
    | none => false
    | some pos => infxsFound core infxs (pos + infx.length)

/-- The checks of `_n_match1` on the prefix and the suffix: `false` when the subject cannot
match; `Maybe` only checks the size, and `No` checks nothing. -/
def RegExpr.chkPsfx (re : RegExpr Code) (subject : List Char) : Bool3 → Except String Bool
  | .Yes =>
    pure (re.pfx.length + re.sfx.length ≤ subject.length && re.pfx.isPrefixOf subject &&
      re.sfx.isSuffixOf subject)
  | .Maybe =>
    if subject.length < re.pfx.length + re.sfx.length then pure false
    else do
      swear (re.pfx.isPrefixOf subject) "subject.starts_with(_pfx)"
      swear (re.sfx.isSuffixOf subject) "subject.ends_with(_sfx)"
      pure true
  | .No => do
    swear (re.pfx.length + re.sfx.length ≤ subject.length) "subject.size()>=psfx_sz"
    swear (re.pfx.isPrefixOf subject) "subject.starts_with(_pfx)"
    swear (re.sfx.isSuffixOf subject) "subject.ends_with(_sfx)"
    pure true

/-- `_n_match1`: the number of groups of a match, group 0 included, or `-1`, with the match data
PCRE2 filled. -/
def RegExpr.nMatch1 (re : RegExpr Code) (subject : List Char) (chkPsfx : Bool3) :
    Except String (Int × Caps) := do
  let psfxSz := re.pfx.length + re.sfx.length
  if !(← re.chkPsfx subject chkPsfx) then pure (-1, [])
  else
    match re.special with
    | .Single => pure (if subject.length = psfxSz then 1 else -1, [])
    | .AnyNoCapture => pure (1, [])
    | .AnyCapture => pure (2, [])
    | .NonEmptyNoCapture => pure (if psfxSz < subject.length then 1 else -1, [])
    | .NonEmptyCapture => pure (if psfxSz < subject.length then 2 else -1, [])
    | .Plain =>
      match re.code with
      | none => throw "_code && +d"
      | some code =>
        let core := (subject.drop re.pfx.length).take (subject.length - psfxSz)
        -- if an infix cannot be found, no hope to match on the regexpr
        if !infxsFound core re.infxs 0 then pure (-1, [])
        else
          -- the subject, and not the core, so that group positions are correct
          let n1 : Int × Caps :=
            match M.pcre2Match code subject (subject.length - re.sfx.length) re.pfx.length with
            | none => (-1, [])
            | some v => (v.length, v)
          do
            swear (n1.1 != 0) "n1"
            pure n1

/-- `can_match`. -/
def RegExpr.canMatch (re : RegExpr Code) (s : List Char) (cp : Bool3 := .Yes) :
    Except String Bool := do
  let (n1, _) ← re.nMatch1 M s cp
  pure (0 ≤ n1)

/-- The groups `match` reads from the match data, from group 1 on. -/
def groupsOf (subject : List Char) (v : Caps) (n : Nat) : Except String (List (List Char)) :=
  (List.range n).mapM fun i =>
    match v.getD (i + 1) none with
    | some (a, b) => do
      swear (b ≤ subject.length) "v[2*i+1]<=subject.size()"
      pure ((subject.drop a).take (b - a))
    | none => pure []

/-- `match`: the whole subject, then the groups, an unset group being empty. -/
def RegExpr.match (re : RegExpr Code) (subject : List Char) (chkPsfx : Bool3 := .Yes) :
    Except String (Option (List (List Char))) := do
  let (n1, v) ← re.nMatch1 M subject chkPsfx
  if n1 < 0 then pure none
  else if n1 = 0 then throw "FAIL"
  else if n1 = 1 then pure (some [subject])
  else if n1 = 2 && (re.special == .AnyCapture || re.special == .NonEmptyCapture) then
    pure (some [subject, (subject.drop re.pfx.length).take
      (subject.length - (re.pfx.length + re.sfx.length))])
  else if n1 = 2 && re.special != .Plain then throw "FAIL"
  else do
    let groups ← groupsOf subject v (n1.toNat - 1)
    pure (some (subject :: groups))

/-- `_s_mk_pattern` of the build without PCRE2: the regex a pattern stands for, its fixed texts
escaped, its capturing regexes in groups and the others in non-capturing groups. -/
def sMkPattern (pattern : Pattern) : List Char :=
  pattern.flatMap fun e =>
    match e.2 with
    | .Maybe => escape e.1
    | .Yes => '(' :: e.1 ++ [')']
    | .No => "(?:".toList ++ e.1 ++ [')']

/-! ## Where the matcher and the regex disagree -/

/-- A subject shorter than the fixed prefix and suffix together never matches. -/
theorem canMatch_of_lt {re : RegExpr Code} {u : List Char}
    (h : u.length < re.pfx.length + re.sfx.length) : re.canMatch M u .Yes = .ok false := by
  have hchk : re.chkPsfx u .Yes = .ok false := by
    simp only [RegExpr.chkPsfx, show ¬ re.pfx.length + re.sfx.length ≤ u.length by omega,
      decide_false, Bool.false_and]
    rfl
  simp only [RegExpr.canMatch, RegExpr.nMatch1, hchk]
  rfl

/-- `ab|cd` is split into the fixed prefix `ab`, the core `|` and the fixed suffix `cd`, and the
core is handed to PCRE2 as `(?:|)`. -/
theorem ofString_alt :
    RegExpr.ofString M "ab|cd".toList = (do
      let code ← M.compile "(?:|)".toList
      pure ⟨"ab".toList, "cd".toList, [], some code, .Plain⟩) := rfl

/-- **`_mk_pattern` splits an alternation.**  `ab|cd` has the fixed prefix `ab`, the core `|` and
the fixed suffix `cd`, so that `RegExpr`, if PCRE2 compiles its core, asks a subject to start with
`ab` and end with `cd`.  For every PCRE2 that matches `ab` with `ab|cd`, as its first alternative
does, `RegExpr` and PCRE2 disagree on `ab`. -/
theorem regExpr_alt_split (hab : M.Matches "ab|cd".toList "ab".toList) :
    mkPattern "ab|cd".toList =
      .ok [("ab".toList, .Maybe), ("|".toList, .No), ("cd".toList, .Maybe)] ∧
    ¬ ((∃ re, RegExpr.ofString M "ab|cd".toList = .ok re ∧
        re.canMatch M "ab".toList .Yes = .ok true) ↔ M.Matches "ab|cd".toList "ab".toList) := by
  refine ⟨rfl, fun hiff => ?_⟩
  obtain ⟨re, hre, hcan⟩ := hiff.mpr hab
  rw [ofString_alt] at hre
  obtain ⟨code, -, hre⟩ := bind_eq_ok hre
  cases hre
  rw [canMatch_of_lt M (by simp)] at hcan
  cases hcan

/-- `RegExpr(p).match(u)`, checking the prefix and the suffix: the groups of a match. -/
def matchPattern (p : Pattern) (u : List Char) : Except String (Option (List (List Char))) := do
  let re ← RegExpr.ofPattern M p
  re.match M u .Yes

/-- `(a$)` followed by the fixed `b`: PCRE2 is given `(a$)`, and the suffix `b`. -/
theorem ofPattern_dollar :
    RegExpr.ofPattern M [("a$".toList, .Yes), ("b".toList, .Maybe)] = (do
      let code ← M.compile "(a$)".toList
      pure ⟨[], "b".toList, [], some code, .Plain⟩) := rfl

/-- **PCRE2 does not see the suffix.**  For `(a$)` followed by the fixed `b`, `RegExpr` runs
PCRE2 on `ab` cut before its suffix.  For every PCRE2 that matches `a` with `(a$)`, group 1 being
`a`, and does not match `ab` with `(a$)b`, where `$` comes before the `b` and not at the end, as
`DOLLAR_ENDONLY` says: `RegExpr` matches `ab`, with the groups `ab` and `a`, and the regex the
pattern stands for does not. -/
theorem regExpr_match_truncated {code : Code} (hc : M.compile "(a$)".toList = .ok code)
    (hm : M.pcre2Match code "ab".toList 1 0 = some [some (0, 1), some (0, 1)])
    (hn : ¬ M.Matches "(a$)b".toList "ab".toList) :
    sMkPattern [("a$".toList, .Yes), ("b".toList, .Maybe)] = "(a$)b".toList ∧
    matchPattern M [("a$".toList, .Yes), ("b".toList, .Maybe)] "ab".toList =
      .ok (some ["ab".toList, "a".toList]) ∧
    ¬ ((∃ g, matchPattern M [("a$".toList, .Yes), ("b".toList, .Maybe)] "ab".toList =
        .ok (some g)) ↔ M.Matches "(a$)b".toList "ab".toList) := by
  have hmatch : matchPattern M [("a$".toList, .Yes), ("b".toList, .Maybe)] "ab".toList =
      .ok (some ["ab".toList, "a".toList]) := by
    -- PCRE2 is called on the subject cut before the suffix, from the end of the empty prefix
    have hm' : M.pcre2Match code "ab".toList ("ab".toList.length - "b".toList.length)
        ([] : List Char).length = some [some (0, 1), some (0, 1)] := hm
    rw [matchPattern, ofPattern_dollar, hc]
    simp only [bind, Except.bind, pure, Except.pure, RegExpr.match, RegExpr.nMatch1,
      RegExpr.chkPsfx, hm']
    rfl
  exact ⟨rfl, hmatch, fun hiff => hn (hiff.mp ⟨_, hmatch⟩)⟩

/-- An engine given by PCRE2's answers to a few calls: it compiles every pattern, and matches a
subject only where its table says so. -/
def Pcre2.ofAnswers (t : List ((List Char × List Char × Nat × Nat) × Caps)) : Pcre2 (List Char) where
  compile pat := .ok pat
  captureCount _ := 0
  pcre2Match pat u length start := t.lookup (pat, u, length, start)

/-- PCRE2's answer for `ab|cd` on `ab`. -/
def altAnswers : Pcre2 (List Char) :=
  .ofAnswers [(("ab|cd".toList, "ab".toList, 2, 0), [some (0, 2)])]

theorem regExpr_alt_split_answers :
    altAnswers.Matches "ab|cd".toList "ab".toList ∧
    mkPattern "ab|cd".toList =
      .ok [("ab".toList, .Maybe), ("|".toList, .No), ("cd".toList, .Maybe)] ∧
    ¬ ((∃ re, RegExpr.ofString altAnswers "ab|cd".toList = .ok re ∧
        re.canMatch altAnswers "ab".toList .Yes = .ok true) ↔
      altAnswers.Matches "ab|cd".toList "ab".toList) :=
  have hab : altAnswers.Matches "ab|cd".toList "ab".toList := ⟨_, rfl, rfl⟩
  ⟨hab, regExpr_alt_split altAnswers hab⟩

/-- PCRE2's answer for `(a$)` on `ab` cut to `a`; `(a$)b` on `ab` has none. -/
def dollarAnswers : Pcre2 (List Char) :=
  .ofAnswers [(("(a$)".toList, "ab".toList, 1, 0), [some (0, 1), some (0, 1)])]

theorem regExpr_match_truncated_answers :
    ¬ dollarAnswers.Matches "(a$)b".toList "ab".toList ∧
    matchPattern dollarAnswers [("a$".toList, .Yes), ("b".toList, .Maybe)] "ab".toList =
      .ok (some ["ab".toList, "a".toList]) := by
  have hn : ¬ dollarAnswers.Matches "(a$)b".toList "ab".toList := by
    rintro ⟨code, hc, hm⟩
    cases hc
    exact absurd hm (by decide)
  exact ⟨hn, (regExpr_match_truncated dollarAnswers rfl rfl hn).2.1⟩

end Re
