import Lmake.BasicUtils

/-!
# Delays and their short text form

A `Delay` (time.hh) is a signed count of nanoseconds.  `short_str` writes it in about six
characters, in one of six layouts chosen by its magnitude (`5.000s`, `12.34s`, ` 1m05s`, `12h05m`,
`  123h`, `  123d`), and the constructor `Delay(::string const&)`, whose comment says its
"format is same as short_str", reads digits with at most one dot per field, each field closed by
one of the unit letters `d h m s`.

## What is here

* `Delay.shortStr` and `Delay.ofString`, the parser being one step per character (`parseChar`)
  over an explicit state, as the source's loop keeps it in its locals.
* `foldlM_digits`, `parse_field`, `parse_dotField`: what a run of digits, and a field closed by a
  unit letter, does to that state.  The layouts are assembled from these.
* `ofString_shortStr`: a delay below 100000 days whose short form holds no blank reads back as
  itself truncated toward zero to the unit of the last field shown.
* `ofString_error_of_blank`: a text holding a blank never reads.  `short_str` right-aligns its
  leading field with blanks, so a delay from one minute to ten, for instance, does not read back.
  `ofString_shortStr_eq` puts the two together.

The model's ticks are unbounded integers: below 100000 days every value of the source fits its
`int64_t`.
-/

set_option autoImplicit false

namespace Lmake.Time

/-- `Delay`: a signed number of nanoseconds. -/
structure Delay where
  val : Int
  deriving DecidableEq, Repr

/-- `msec()`: the C++ division truncates toward zero. -/
def Delay.msec (d : Delay) : Int := d.val.tdiv 1000000

/-- The layouts of `short_str` over the magnitude `v`, in ms, of the delay; `sign` is `-` or
nothing.  The six-character overflow text carries no sign. -/
def shortLayout (sign : List Char) (v : Nat) : List Char :=
  if v < 10 * 1000 then
    sign ++ Nat.toDigits 10 (v / 1000) ++ ['.'] ++
      widen (Nat.toDigits 10 (v % 1000)) 3 true '0' ++ ['s']
  else
  let v := v / 10
  if v < 60 * 100 then
    sign ++ widen (Nat.toDigits 10 (v / 100)) 2 true ' ' ++ ['.'] ++
      widen (Nat.toDigits 10 (v % 100)) 2 true '0' ++ ['s']
  else
  let v := v / 100
  if v < 60 * 60 then
    sign ++ widen (Nat.toDigits 10 (v / 60)) 2 true ' ' ++ ['m'] ++
      widen (Nat.toDigits 10 (v % 60)) 2 true '0' ++ ['s']
  else
  let v := v / 60
  if v < 100 * 60 then
    sign ++ widen (Nat.toDigits 10 (v / 60)) 2 true ' ' ++ ['h'] ++
      widen (Nat.toDigits 10 (v % 60)) 2 true '0' ++ ['m']
  else
  let v := v / 60
  if v < 100000 then sign ++ widen (Nat.toDigits 10 v) 5 true ' ' ++ ['h']
  else
  let v := v / 24
  if v < 100000 then sign ++ widen (Nat.toDigits 10 v) 5 true ' ' ++ ['d']
  else ['f', 'o', 'r', 'e', 'v', 'r']

/-- `Delay::short_str`. -/
def Delay.shortStr (d : Delay) : List Char :=
  let v := d.msec
  shortLayout (if v < 0 then ['-'] else []) v.natAbs

/-- The locals of the parsing loop of `Delay(::string const&)`, with the value being built. -/
structure ParseState where
  first : Bool
  dotSeen : Bool
  neg : Bool
  valExp : Nat
  valMantissa : Int
  val : Int
  deriving DecidableEq, Repr

def ParseState.init : ParseState := ⟨true, false, false, 0, 0, 0⟩

/-- The `s` case, which `d`, `h` and `m` fall through to once they have scaled the mantissa:
the field is brought to nanoseconds, signed and added, and the next field starts afresh. -/
def ParseState.addSeconds (st : ParseState) (mantissa : Int) : ParseState :=
  let m := mantissa * 10 ^ (9 - st.valExp)
  let m := if st.neg then -m else m
  { st with val := st.val + m, dotSeen := false, valExp := 0, valMantissa := 0 }

/-- One turn of the parsing loop over the text `s`. -/
def parseChar (s : List Char) (st : ParseState) (c : Char) : Except String ParseState := do
  let st ← match c with
    | '-' => do
      throwUnless st.first ("internal - : " ++ String.ofList s)
      pure { st with neg := true }
    | '.' => do
      throwUnless (!st.dotSeen) ("several dots : " ++ String.ofList s)
      pure { st with dotSeen := true }
    | 'd' => pure (st.addSeconds (st.valMantissa * 24 * 60 * 60))
    | 'h' => pure (st.addSeconds (st.valMantissa * 60 * 60))
    | 'm' => pure (st.addSeconds (st.valMantissa * 60))
    | 's' => pure (st.addSeconds st.valMantissa)
    | c => do
      throwUnless c.isDigit
        ("unrecognized char (" ++ String.singleton c ++ ") : " ++ String.ofList s)
      let valExp := if st.dotSeen then st.valExp + 1 else st.valExp
      throwUnless (valExp ≤ 9) ("too many digits after dot : " ++ String.ofList s)
      pure { st with valMantissa := st.valMantissa * 10 + ((c.toNat - '0'.toNat : Nat) : Int),
                     valExp := valExp }
  pure { st with first := false }

/-- `Delay::Delay(::string const&)`; a trailing field with no unit letter is dropped. -/
def Delay.ofString (s : List Char) : Except String Delay := do
  let st ← s.foldlM (parseChar s) ParseState.init
  pure ⟨st.val⟩

/-! ## The parser, one character at a time -/

/-- The state between two fields: no dot seen, no digit pending. -/
def idle (first neg : Bool) (val : Int) : ParseState := ⟨first, false, neg, 0, 0, val⟩

/-- `(-1)^neg * x`. -/
def signed (neg : Bool) (x : Int) : Int := if neg then -x else x

@[simp] theorem signed_false (x : Int) : signed false x = x := rfl

@[simp] theorem signed_true (x : Int) : signed true x = -x := rfl

theorem signed_add (neg : Bool) (x y : Int) : signed neg x + signed neg y = signed neg (x + y) := by
  cases neg
  · rfl
  · simp only [signed_true]
    omega

/-- The unit letters, with the seconds in each unit. -/
def unitSec : Char → Option Nat
  | 'd' => some (24 * 60 * 60)
  | 'h' => some (60 * 60)
  | 'm' => some 60
  | 's' => some 1
  | _ => none

theorem parseChar_digit {s : List Char} {st : ParseState} {c : Char} (hc : c.isDigit = true)
    (hexp : (if st.dotSeen then st.valExp + 1 else st.valExp) ≤ 9) :
    parseChar s st c = .ok { st with
      valMantissa := st.valMantissa * 10 + ((c.toNat - '0'.toNat : Nat) : Int),
      valExp := if st.dotSeen then st.valExp + 1 else st.valExp, first := false } := by
  unfold parseChar
  split <;> simp_all [Char.isDigit, throwUnless, bind, Except.bind, pure, Except.pure]

theorem parseChar_unit {s : List Char} {st : ParseState} {u : Char} {k : Nat}
    (hu : unitSec u = some k) :
    parseChar s st u = .ok { st.addSeconds (st.valMantissa * k) with first := false } := by
  unfold unitSec at hu
  split at hu <;> cases hu <;>
    simp [parseChar, bind, Except.bind, pure, Except.pure, Int.mul_assoc]

theorem parseChar_dot {s : List Char} {st : ParseState} (h : st.dotSeen = false) :
    parseChar s st '.' = .ok { st with dotSeen := true, first := false } := by
  simp [parseChar, throwUnless, h, bind, Except.bind, pure, Except.pure]

theorem parseChar_minus {s : List Char} {st : ParseState} (h : st.first = true) :
    parseChar s st '-' = .ok { st with neg := true, first := false } := by
  simp [parseChar, throwUnless, h, bind, Except.bind, pure, Except.pure]

theorem parseChar_blank (s : List Char) (st : ParseState) : ∃ e, parseChar s st ' ' = .error e :=
  ⟨_, by simp [parseChar, throwUnless, bind, Except.bind, Char.isDigit]; rfl⟩

/-! ## Fields -/

/-- A run of digits accumulates into the mantissa, counting decimals once a dot was seen.  The
rest of the text is left general so that fields compose. -/
theorem foldlM_digits {s : List Char} (rest : List Char) :
    ∀ (ds : List Char), (∀ c ∈ ds, c.isDigit = true) → ∀ (st : ParseState) (m : Nat),
      st.valMantissa = m → (if st.dotSeen then st.valExp + ds.length else st.valExp) ≤ 9 →
      (ds ++ rest).foldlM (parseChar s) st = rest.foldlM (parseChar s) { st with
        valMantissa := Nat.ofDigitChars 10 ds m,
        valExp := if st.dotSeen then st.valExp + ds.length else st.valExp,
        first := st.first && ds.isEmpty }
  | [], _, st, m, hm, _ => by
    cases st
    simp_all
  | c :: cs, hds, st, m, hm, hexp => by
    have hc : c.isDigit = true := hds c List.mem_cons_self
    have hexp1 : (if st.dotSeen then st.valExp + 1 else st.valExp) ≤ 9 := by
      cases h : st.dotSeen <;> simp [h] at hexp ⊢ <;> omega
    have hm' : st.valMantissa * 10 + ((c.toNat - '0'.toNat : Nat) : Int) =
        ((10 * m + (c.toNat - '0'.toNat) : Nat) : Int) := by
      rw [hm]; push_cast; omega
    rw [List.cons_append, List.foldlM_cons, parseChar_digit hc hexp1, hm']
    simp only [bind, Except.bind]
    rw [foldlM_digits rest cs (fun c' h' => hds c' (List.mem_cons_of_mem c h')) _ _ rfl
      (by cases h : st.dotSeen <;> simp [h] at hexp ⊢ <;> omega)]
    cases h : st.dotSeen <;> simp [Nat.ofDigitChars_cons, Nat.add_assoc, Nat.add_comm 1]

/-- A field of digits closed by a unit letter adds its value, in nanoseconds. -/
theorem parse_field {s ds : List Char} (hds : ∀ c ∈ ds, c.isDigit = true)
    {u : Char} {k : Nat} (hu : unitSec u = some k) (rest : List Char) (first neg : Bool)
    (val : Int) :
    (ds ++ u :: rest).foldlM (parseChar s) (idle first neg val) =
      rest.foldlM (parseChar s)
        (idle false neg (val + signed neg (Nat.ofDigitChars 10 ds 0 * k * 10 ^ 9 : Nat))) := by
  rw [foldlM_digits (u :: rest) ds hds (idle first neg val) 0 rfl (by simp [idle]),
    List.foldlM_cons, parseChar_unit hu]
  simp [idle, ParseState.addSeconds, signed, bind, Except.bind]

/-- A field with a dot: the decimals after it scale the field down. -/
theorem parse_dotField {s ds₁ ds₂ : List Char} (hds₁ : ∀ c ∈ ds₁, c.isDigit = true)
    (hds₂ : ∀ c ∈ ds₂, c.isDigit = true) (hlen : ds₂.length ≤ 9)
    {u : Char} {k : Nat} (hu : unitSec u = some k) (rest : List Char) (first neg : Bool)
    (val : Int) :
    (ds₁ ++ '.' :: (ds₂ ++ u :: rest)).foldlM (parseChar s) (idle first neg val) =
      rest.foldlM (parseChar s) (idle false neg
        (val + signed neg
          (Nat.ofDigitChars 10 (ds₁ ++ ds₂) 0 * k * 10 ^ (9 - ds₂.length) : Nat))) := by
  rw [foldlM_digits ('.' :: (ds₂ ++ u :: rest)) ds₁ hds₁ (idle first neg val) 0 rfl
      (by simp [idle]),
    List.foldlM_cons, parseChar_dot rfl]
  simp only [bind, Except.bind]
  rw [foldlM_digits (u :: rest) ds₂ hds₂ _ _ rfl (by simpa [idle] using hlen),
    List.foldlM_cons, parseChar_unit hu]
  simp [idle, ParseState.addSeconds, signed, Nat.ofDigitChars_append, bind, Except.bind]

/-! ## The layouts of `short_str` read back -/

theorem isDigit_of_mem_toDigits {n : Nat} {c : Char} (hc : c ∈ Nat.toDigits 10 n) :
    c.isDigit = true :=
  Nat.isDigit_of_mem_toDigits (by decide) (by decide) hc

theorem length_toDigits_le {r n : Nat} (hn : 0 < n) (hr : r < 10 ^ n) :
    (Nat.toDigits 10 r).length ≤ n :=
  (Nat.length_toDigits_le_iff (by decide) hn).mpr hr

theorem isDigit_of_mem_widen_zero {r n : Nat} {c : Char}
    (hc : c ∈ widen (Nat.toDigits 10 r) n true '0') : c.isDigit = true := by
  rw [widen_right, List.mem_append, List.mem_replicate] at hc
  rcases hc with ⟨-, rfl⟩ | hc
  · decide
  · exact isDigit_of_mem_toDigits hc

theorem length_widen_zero {r n : Nat} (hn : 0 < n) (hr : r < 10 ^ n) :
    (widen (Nat.toDigits 10 r) n true '0').length = n := by
  have hlen := length_toDigits_le hn hr
  rw [widen_right, List.length_append, List.length_replicate]
  omega

/-- A zero-padded field reads as its value. -/
theorem ofDigitChars_widen_zero {r n : Nat} (hn : 0 < n) (hr : r < 10 ^ n) (init : Nat) :
    Nat.ofDigitChars 10 (widen (Nat.toDigits 10 r) n true '0') init = 10 ^ n * init + r := by
  have hlen := length_toDigits_le hn hr
  rw [widen_right, Nat.ofDigitChars_append, Nat.ofDigitChars_replicate_zero,
    Nat.ofDigitChars_eq_ofDigitChars_zero, Nat.ofDigitChars_ten_toDigits, ← Nat.mul_assoc,
    ← Nat.pow_add, Nat.add_sub_cancel' hlen]

/-- The sign comes first, while `first` still holds. -/
theorem parse_sign (s rest : List Char) (neg : Bool) :
    ((if neg then ['-'] else []) ++ rest).foldlM (parseChar s) ParseState.init =
      rest.foldlM (parseChar s) (idle (!neg) neg 0) := by
  cases neg
  · rfl
  · simp only [if_true, List.singleton_append, List.foldlM_cons,
      @parseChar_minus s ParseState.init rfl]
    rfl

/-- `12.34s` and `5.000s`: a whole part, then `n` zero-padded decimals. -/
theorem parse_dotLayout {s : List Char} {n : Nat} (hn : 0 < n) (hn9 : n ≤ 9) (a : Nat) {b : Nat}
    (hb : b < 10 ^ n) (first neg : Bool) :
    (Nat.toDigits 10 a ++ '.' :: (widen (Nat.toDigits 10 b) n true '0' ++ ['s'])).foldlM
        (parseChar s) (idle first neg 0) =
      .ok (idle false neg (signed neg ((10 ^ n * a + b) * 10 ^ (9 - n) : Nat))) := by
  rw [parse_dotField (fun _ => isDigit_of_mem_toDigits) (fun _ => isDigit_of_mem_widen_zero)
    (by rw [length_widen_zero hn hb]; exact hn9) (rfl : unitSec 's' = some 1)]
  rw [Nat.ofDigitChars_append, Nat.ofDigitChars_ten_toDigits, ofDigitChars_widen_zero hn hb,
    length_widen_zero hn hb, Nat.mul_one]
  simp [pure, Except.pure]

/-- ` 1m05s` and `12h05m`: a leading field, then a zero-padded field of two digits. -/
theorem parse_twoFieldLayout {s : List Char} {u₁ u₂ : Char} {k₁ k₂ : Nat}
    (hu₁ : unitSec u₁ = some k₁) (hu₂ : unitSec u₂ = some k₂) (a : Nat) {b : Nat}
    (hb : b < 100) (first neg : Bool) :
    (Nat.toDigits 10 a ++ u₁ :: (widen (Nat.toDigits 10 b) 2 true '0' ++ [u₂])).foldlM
        (parseChar s) (idle first neg 0) =
      .ok (idle false neg (signed neg ((a * k₁ + b * k₂) * 10 ^ 9 : Nat))) := by
  rw [parse_field (fun _ => isDigit_of_mem_toDigits) hu₁,
    parse_field (fun _ => isDigit_of_mem_widen_zero) hu₂, Nat.ofDigitChars_ten_toDigits,
    ofDigitChars_widen_zero (by decide) hb, Nat.mul_zero, Nat.zero_add, Int.zero_add,
    signed_add, ← Int.natCast_add, ← Nat.add_mul, List.foldlM_nil]
  rfl

/-- `  123h` and `  123d`: one field. -/
theorem parse_oneFieldLayout {s : List Char} {u : Char} {k : Nat} (hu : unitSec u = some k)
    (a : Nat) (first neg : Bool) :
    (Nat.toDigits 10 a ++ [u]).foldlM (parseChar s) (idle first neg 0) =
      .ok (idle false neg (signed neg (a * k * 10 ^ 9 : Nat))) := by
  rw [parse_field (fun _ => isDigit_of_mem_toDigits) hu, Nat.ofDigitChars_ten_toDigits,
    Int.zero_add]
  rfl

/-- The unit, in ms, of the last field that `short_str` shows for a magnitude of `v` ms. -/
def shortUnitMs (v : Nat) : Nat :=
  if v < 10 * 1000 then 1
  else if v / 10 < 60 * 100 then 10
  else if v / 10 / 100 < 60 * 60 then 1000
  else if v / 10 / 100 / 60 < 100 * 60 then 60 * 1000
  else if v / 10 / 100 / 60 / 60 < 100000 then 60 * 60 * 1000
  else 24 * 60 * 60 * 1000

/-- Every layout short of the overflow text reads back, once its leading field is not padded
with blanks, as the magnitude truncated to the unit of its last field. -/
theorem parse_shortLayout (s : List Char) (neg : Bool) {v : Nat}
    (hv : v / 10 / 100 / 60 / 60 / 24 < 100000)
    (hb : ' ' ∉ shortLayout (if neg then ['-'] else []) v) :
    (shortLayout (if neg then ['-'] else []) v).foldlM (parseChar s) ParseState.init =
      .ok (idle false neg (signed neg (v / shortUnitMs v * shortUnitMs v * 1000000 : Nat))) := by
  unfold shortLayout at hb ⊢
  unfold shortUnitMs
  by_cases h1 : v < 10 * 1000
  · simp only [if_pos h1, List.append_assoc, List.cons_append, List.nil_append]
    rw [parse_sign,
      parse_dotLayout (n := 3) (b := v % 1000) (by decide) (by decide) _
        (by simp only [Nat.reducePow]; omega),
      show (10 ^ 3 * (v / 1000) + v % 1000) * 10 ^ (9 - 3) = v / 1 * 1 * 1000000 by
        simp only [Nat.reducePow, Nat.reduceSub]; omega]
  by_cases h2 : v / 10 < 60 * 100
  · simp only [if_neg h1, if_pos h2, List.append_assoc, List.cons_append, List.nil_append]
      at hb ⊢
    -- the leading field is blank-padded; `hb` says it was not padded
    rw [widen_right_eq_of_not_mem (fun h => hb (by simp [h])), parse_sign,
      parse_dotLayout (n := 2) (b := v / 10 % 100) (by decide) (by decide) _
        (by simp only [Nat.reducePow]; omega),
      show (10 ^ 2 * (v / 10 / 100) + v / 10 % 100) * 10 ^ (9 - 2) = v / 10 * 10 * 1000000 by
        simp only [Nat.reducePow, Nat.reduceSub]; omega]
  by_cases h3 : v / 10 / 100 < 60 * 60
  · simp only [if_neg h1, if_neg h2, if_pos h3, List.append_assoc, List.cons_append,
      List.nil_append] at hb ⊢
    rw [widen_right_eq_of_not_mem (fun h => hb (by simp [h])), parse_sign,
      parse_twoFieldLayout (rfl : unitSec 'm' = some 60) (rfl : unitSec 's' = some 1) _
        (by omega),
      show (v / 10 / 100 / 60 * 60 + v / 10 / 100 % 60 * 1) * 10 ^ 9 = v / 1000 * 1000 * 1000000
        by simp only [Nat.reducePow]; omega]
  by_cases h4 : v / 10 / 100 / 60 < 100 * 60
  · simp only [if_neg h1, if_neg h2, if_neg h3, if_pos h4, List.append_assoc,
      List.cons_append, List.nil_append] at hb ⊢
    rw [widen_right_eq_of_not_mem (fun h => hb (by simp [h])), parse_sign,
      parse_twoFieldLayout (rfl : unitSec 'h' = some (60 * 60)) (rfl : unitSec 'm' = some 60) _
        (by omega),
      show (v / 10 / 100 / 60 / 60 * (60 * 60) + v / 10 / 100 / 60 % 60 * 60) * 10 ^ 9 =
          v / (60 * 1000) * (60 * 1000) * 1000000 by
        simp only [Nat.reducePow]; omega]
  by_cases h5 : v / 10 / 100 / 60 / 60 < 100000
  · simp only [if_neg h1, if_neg h2, if_neg h3, if_neg h4, if_pos h5, List.append_assoc]
      at hb ⊢
    rw [widen_right_eq_of_not_mem (fun h => hb (by simp [h])), parse_sign,
      parse_oneFieldLayout (rfl : unitSec 'h' = some (60 * 60)),
      show v / 10 / 100 / 60 / 60 * (60 * 60) * 10 ^ 9 =
          v / (60 * 60 * 1000) * (60 * 60 * 1000) * 1000000 by
        simp only [Nat.reducePow]; omega]
  · simp only [if_neg h1, if_neg h2, if_neg h3, if_neg h4, if_neg h5, if_pos hv,
      List.append_assoc] at hb ⊢
    rw [widen_right_eq_of_not_mem (fun h => hb (by simp [h])), parse_sign,
      parse_oneFieldLayout (rfl : unitSec 'd' = some (24 * 60 * 60)),
      show v / 10 / 100 / 60 / 60 / 24 * (24 * 60 * 60) * 10 ^ 9 =
          v / (24 * 60 * 60 * 1000) * (24 * 60 * 60 * 1000) * 1000000 by
        simp only [Nat.reducePow]; omega]

/-- `d` truncated toward zero to a multiple of `u` nanoseconds. -/
def Delay.truncate (d : Delay) (u : Nat) : Delay := ⟨d.val.tdiv u * u⟩

/-- The sign `short_str` shows, with the magnitude it prints multiplied back, is the
truncation toward zero. -/
theorem signed_msec_trunc (d : Delay) (u : Nat) :
    signed (decide (d.msec < 0)) (d.msec.natAbs / u * u * 1000000 : Nat) =
      (d.truncate (u * 1000000)).val := by
  obtain ⟨x⟩ := d
  show signed (decide (x.tdiv 1000000 < 0)) ((x.tdiv 1000000).natAbs / u * u * 1000000 : Nat) =
    x.tdiv ((u * 1000000 : Nat) : Int) * ((u * 1000000 : Nat) : Int)
  have hdiv : ∀ n : Nat, n / 1000000 / u * u * 1000000 = n / (u * 1000000) * (u * 1000000) := by
    intro n
    rw [Nat.div_div_eq_div_mul, Nat.mul_comm 1000000 u, Nat.mul_assoc]
  have h6 : (1000000 : Int) = ((1000000 : Nat) : Int) := rfl
  obtain ⟨n, rfl | rfl⟩ : ∃ n : Nat, x = n ∨ x = -n := ⟨x.natAbs, Int.natAbs_eq x⟩
  · have hnn : ¬((n / 1000000 : Nat) : Int) < 0 := by omega
    rw [h6, ← Int.ofNat_tdiv, ← Int.ofNat_tdiv, Int.natAbs_natCast, hdiv, decide_eq_false hnn,
      signed_false, Int.natCast_mul]
  · rw [Int.neg_tdiv, h6, ← Int.ofNat_tdiv, Int.neg_tdiv, ← Int.ofNat_tdiv, Int.natAbs_neg,
      Int.natAbs_natCast, hdiv, Int.natCast_mul, Int.neg_mul]
    by_cases hz : n / 1000000 = 0
    · -- below a millisecond no sign is shown, and the truncation is zero as well
      have hq : n / (u * 1000000) = 0 := by
        rw [Nat.mul_comm, ← Nat.div_div_eq_div_mul, hz, Nat.zero_div]
      have hnn : ¬-((n / 1000000 : Nat) : Int) < 0 := by omega
      rw [decide_eq_false hnn, signed_false, hq, Int.natCast_zero, Int.zero_mul, Int.neg_zero]
    · have hpos : -((n / 1000000 : Nat) : Int) < 0 := by omega
      rw [decide_eq_true hpos, signed_true]

/-- A delay below 100000 days whose short form holds no blank reads back as itself truncated
toward zero to the unit of the last field shown. -/
theorem ofString_shortStr (d : Delay) (hd : d.val.natAbs < 100000 * 24 * 60 * 60 * 1000000000)
    (hb : ' ' ∉ d.shortStr) :
    Delay.ofString d.shortStr = .ok (d.truncate (shortUnitMs d.msec.natAbs * 1000000)) := by
  have hv : d.msec.natAbs / 10 / 100 / 60 / 60 / 24 < 100000 := by
    simp only [Delay.msec, Int.natAbs_tdiv]
    change d.val.natAbs / 1000000 / 10 / 100 / 60 / 60 / 24 < 100000
    omega
  have hsign : (if d.msec < 0 then ['-'] else []) = if decide (d.msec < 0) then ['-'] else [] := by
    simp
  simp only [Delay.shortStr, hsign] at hb ⊢
  rw [Delay.ofString, parse_shortLayout _ _ hv hb]
  simp only [bind, Except.bind, pure, Except.pure, idle]
  rw [signed_msec_trunc]

example : Delay.ofString (Delay.shortStr ⟨5 * 10 ^ 9 + 123456789⟩) = .ok ⟨5123000000⟩ := by
  decide

theorem foldlM_parseChar_blank (s : List Char) :
    ∀ (l : List Char), ' ' ∈ l → ∀ st, ∃ e, l.foldlM (parseChar s) st = .error e
  | c :: cs, h, st => by
    rw [List.foldlM_cons]
    rcases List.mem_cons.mp h with rfl | h
    · obtain ⟨e, he⟩ := parseChar_blank s st
      exact ⟨e, by rw [he]; rfl⟩
    · cases hc : parseChar s st c with
      | error e => exact ⟨e, rfl⟩
      | ok st' =>
        obtain ⟨e, he⟩ := foldlM_parseChar_blank s cs h st'
        exact ⟨e, by simp only [bind, Except.bind, he]⟩

/-- A text holding a blank never reads as a delay. -/
theorem ofString_error_of_blank {s : List Char} (h : ' ' ∈ s) :
    ∃ e, Delay.ofString s = .error e := by
  obtain ⟨e, he⟩ := foldlM_parseChar_blank s s h ParseState.init
  exact ⟨e, by simp only [Delay.ofString, he, bind, Except.bind]⟩

/-- **What reads back of a short form**: below 100000 days, the short form of a delay reads back
as the delay truncated to the unit of its last field, unless it holds a blank, which never reads. -/
theorem ofString_shortStr_eq (d : Delay) (hd : d.val.natAbs < 100000 * 24 * 60 * 60 * 1000000000) :
    (Delay.ofString d.shortStr).toOption =
      if ' ' ∈ d.shortStr then none else some (d.truncate (shortUnitMs d.msec.natAbs * 1000000)) := by
  split
  · obtain ⟨e, he⟩ := ofString_error_of_blank ‹_›
    rw [he]
    rfl
  · rw [ofString_shortStr d hd ‹_›]
    rfl

theorem ofString_shortStr_eq_fiveSeconds :
    (Delay.ofString (⟨5000000000⟩ : Delay).shortStr).toOption =
      if ' ' ∈ (⟨5000000000⟩ : Delay).shortStr then none
      else some ((⟨5000000000⟩ : Delay).truncate
        (shortUnitMs (⟨5000000000⟩ : Delay).msec.natAbs * 1000000)) :=
  ofString_shortStr_eq _ (by decide)

/-- One minute is written ` 1m00s`, with the leading field right-aligned on a blank, and the
parser rejects that blank. -/
theorem shortStr_minute_unreadable :
    Delay.shortStr ⟨60 * 10 ^ 9⟩ = [' ', '1', 'm', '0', '0', 's'] ∧
      Delay.ofString (Delay.shortStr ⟨60 * 10 ^ 9⟩) =
        .error "unrecognized char ( ) :  1m00s" := by
  decide

end Lmake.Time
