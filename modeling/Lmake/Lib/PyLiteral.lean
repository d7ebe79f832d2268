import Lmake.Lib.Escape

/-!
# Python string literals

The value of a single-quoted Python string literal, read with the escape rules of a bytes
literal: `\\ \' \" \a \b \f \n \r \t \v`, `\x` followed by exactly two hexadecimal digits of either
case, one to three octal digits, and a backslash before a line end, which is dropped.  Any other
escape keeps its backslash.  Inside the quotes an unescaped quote or line end is an error.  A
`str` literal reads every such escape the same way; it also reads `\N`, `\u` and `\U`, which a
bytes literal keeps as they are.

`body` reads the text between the quotes and `literal` a whole literal; both return `none` where
Python reports an error.  An octal escape above `0o377` is also `none` here.
-/

set_option autoImplicit false

namespace PyLiteral

/-- The value of a hexadecimal digit of either case. -/
def hexVal (c : UInt8) : Option Nat :=
  if 0x30 ≤ c ∧ c ≤ 0x39 then some (c.toNat - 0x30)
  else if 0x61 ≤ c ∧ c ≤ 0x66 then some (c.toNat - 0x61 + 10)
  else if 0x41 ≤ c ∧ c ≤ 0x46 then some (c.toNat - 0x41 + 10)
  else none

/-- The value of an octal digit. -/
def octVal (c : UInt8) : Option Nat :=
  if 0x30 ≤ c ∧ c ≤ 0x37 then some (c.toNat - 0x30) else none

/-- The escapes of one letter: what follows the backslash, and the byte it stands for. -/
def simpleEscape : UInt8 → Option UInt8
  | 0x5c => some 0x5c     -- \\
  | 0x27 => some 0x27     -- \'
  | 0x22 => some 0x22     -- \"
  | 0x61 => some 0x07     -- \a
  | 0x62 => some 0x08     -- \b
  | 0x66 => some 0x0c     -- \f
  | 0x6e => some 0x0a     -- \n
  | 0x72 => some 0x0d     -- \r
  | 0x74 => some 0x09     -- \t
  | 0x76 => some 0x0b     -- \v
  | _ => none

/-- An octal escape of value `v`: a byte, or `none` above `0o377`. -/
def octByte (v : Nat) : Option UInt8 := if v < 256 then some (UInt8.ofNat v) else none

/-- Where the reader of a body is: in plain text, after a backslash, after `\x` and one digit
more or less, or inside an octal escape of value `v` read from `n` digits. -/
inductive St where
  | plain
  | esc
  | hex₁
  | hex₂ (a : Nat)
  | oct (v n : Nat)
  deriving DecidableEq, Repr

/-- A byte of plain text: a quote or a line end is an error. -/
def plainStep (c : UInt8) : Option (List UInt8 × St) :=
  if c = 0x27 ∨ c = 0x0a ∨ c = 0x0d then none
  else if c = 0x5c then some ([], .esc)
  else some ([c], .plain)

/-- One byte: what it adds to the value, and where the reader goes. -/
def step : St → UInt8 → Option (List UInt8 × St)
  | .plain, c => plainStep c
  | .esc, e =>
    if e = 0x0a then some ([], .plain)
    else match simpleEscape e with
      | some v => some ([v], .plain)
      | none =>
        if e = 0x78 then some ([], .hex₁)
        else match octVal e with
          | some a => some ([], .oct a 1)
          | none => some ([0x5c, e], .plain)
  | .hex₁, h => (fun a => ([], .hex₂ a)) <$> hexVal h
  | .hex₂ a, h => (fun b => ([UInt8.ofNat (16 * a + b)], .plain)) <$> hexVal h
  | .oct v n, c =>
    match octVal c with
    | some d => if n < 3 then some ([], .oct (8 * v + d) (n + 1)) else octThen v c
    | none => octThen v c
where
  /-- The octal escape ends before `c`, which is read as plain text. -/
  octThen (v : Nat) (c : UInt8) : Option (List UInt8 × St) := do
    let x ← octByte v
    let r ← plainStep c
    pure (x :: r.1, r.2)

/-- The end of the text: only plain text or an octal escape may end there. -/
def finish : St → Option (List UInt8)
  | .plain => some []
  | .oct v _ => (fun x => [x]) <$> octByte v
  | _ => none

/-- The value of the text from a reader's state on. -/
def run : St → List UInt8 → Option (List UInt8)
  | st, [] => finish st
  | st, c :: t => do
    let r ← step st c
    (r.1 ++ ·) <$> run r.2 t

/-- The value of the text between the quotes of a literal. -/
def body (t : List UInt8) : Option (List UInt8) := run .plain t

/-- The value of a whole single-quoted literal. -/
def literal : List UInt8 → Option (List UInt8)
  | 0x27 :: rest => if rest.getLast? = some 0x27 then body rest.dropLast else none
  | _ => none

example : literal [0x27, 0x5c, 0x31, 0x30, 0x31, 0x32, 0x5c, 0x78, 0x34, 0x41, 0x27] =
    some [0x41, 0x32, 0x4a] := by decide

/-! ## Reading the body one escape at a time -/

theorem run_plain {c : UInt8} (hq : c ≠ 0x27) (hn : c ≠ 0x0a) (hr : c ≠ 0x0d) (hb : c ≠ 0x5c)
    (t : List UInt8) : run .plain (c :: t) = (c :: ·) <$> run .plain t := by
  simp [run, step, plainStep, hq, hn, hr, hb, bind, Option.bind]

theorem run_simple {e v : UInt8} (hv : simpleEscape e = some v) (t : List UInt8) :
    run .plain (0x5c :: e :: t) = (v :: ·) <$> run .plain t := by
  have hn : e ≠ 0x0a := by
    rintro rfl
    cases hv
  simp [run, step, plainStep, hn, hv, Function.comp_def]

theorem run_hex {h₁ h₂ : UInt8} {a b : Nat} (ha : hexVal h₁ = some a) (hb : hexVal h₂ = some b)
    (t : List UInt8) :
    run .plain (0x5c :: 0x78 :: h₁ :: h₂ :: t) = (UInt8.ofNat (16 * a + b) :: ·) <$> run .plain t := by
  simp [run, step, plainStep, ha, hb, simpleEscape, Function.comp_def]

theorem literal_eq (b : List UInt8) : literal (0x27 :: (b ++ [0x27])) = body b := by
  simp [literal]

end PyLiteral
