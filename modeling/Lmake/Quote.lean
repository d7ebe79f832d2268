import Lmake.Printable
import Lmake.Lib.PyLiteral
import Lmake.Lib.ShellWord

/-!
# Quoting for Python and for the shell

`mk_py_str` and `mk_shell_str` (utils.cc) write a byte string as a literal of another language:
a single-quoted Python literal, and a word of a POSIX shell command line.

`mk_shell_str` takes the first of four forms that suits the text: the text itself when every byte
is one the shell never treats specially, single quotes when it holds no quote, double quotes when
it holds none of the bytes still special there, and otherwise single quotes in which each quote
is written as the splice `'\''`.  `fields_mkShellStr` reads every form back, with the shell's
rules of `ShellWord`, as exactly one field: the text.

`mk_py_str` escapes nine bytes with a letter and writes every other byte outside the printable
range as `\x` and two digits.  The digits are computed as `'0'+c/16` and `'0'+c%16`, which are
`int`s, and the string library's `operator<<` writes an `int` with `to_chars`, in decimal: the
byte 1 is written `\x4849`.  Python reads `\x48` as one byte and `49` as two more
(`literal_mkPyStr`), so the literal has the text's value exactly when no byte of it takes that
branch (`literal_mkPyStr_eq_self_iff`).
-/

set_option autoImplicit false

namespace Lmake.Quote

open Escape Lmake.Printable

/-! ## mk_py_str -/

/-- What `operator<<` appends for an integer: its decimal digits. -/
def toChars (n : Nat) : List UInt8 := (Nat.toDigits 10 n).map Char.toUInt8

/-- The chunk that mk_py_str writes for one byte. -/
def pyStrChar (c : UInt8) : List UInt8 :=
  match c with
  | 0x07 => ascii "\\a"
  | 0x08 => ascii "\\b"
  | 0x0c => ascii "\\f"
  | 0x0a => ascii "\\n"
  | 0x0d => ascii "\\r"
  | 0x09 => ascii "\\t"
  | 0x0b => ascii "\\v"
  | 0x5c => ascii "\\\\"
  | 0x27 => [0x5c, 0x27]
  | c =>
    if isPrintable c then [c]
    else ascii "\\x" ++ toChars (0x30 + c.toNat / 16) ++ toChars (0x30 + c.toNat % 16)

def mkPyStr (s : List UInt8) : List UInt8 := [0x27] ++ s.flatMap pyStrChar ++ [0x27]

/-- The control bytes that mk_py_str writes with a letter escape. -/
def namedControl : List UInt8 := [0x07, 0x08, 0x0c, 0x0a, 0x0d, 0x09, 0x0b]

/-- The byte of a decimal digit. -/
def digitByte (d : Nat) : UInt8 := UInt8.ofNat (0x30 + d)

/-- The byte Python reads from `\x` and the two decimal digits of `n`. -/
def hexOfDecimal (n : Nat) : UInt8 := UInt8.ofNat (16 * (n / 10) + n % 10)

/-- What Python reads back from the chunk of one byte. -/
def pyRead (c : UInt8) : List UInt8 :=
  if isPrintable c || c ∈ namedControl then [c]
  else hexOfDecimal (0x30 + c.toNat / 16) :: toChars (0x30 + c.toNat % 16)

example : mkPyStr [0x61, 0x27, 0x0a] = [0x27, 0x61, 0x5c, 0x27, 0x5c, 0x6e, 0x27] := by decide

/-- The three kinds of chunk: a letter escape, the byte itself, and `\x` with the decimal digits
of the two nibbles. -/
theorem pyStrChar_cases (c : UInt8) :
    (∃ e ∈ pyStrChar c, pyStrChar c = [0x5c, e] ∧ PyLiteral.simpleEscape e = some c ∧
      pyRead c = [c]) ∨
    (pyStrChar c = [c] ∧ (c ≠ 0x27 ∧ c ≠ 0x0a ∧ c ≠ 0x0d ∧ c ≠ 0x5c) ∧ pyRead c = [c]) ∨
    (pyStrChar c = 0x5c :: 0x78 :: (toChars (0x30 + c.toNat / 16) ++ toChars (0x30 + c.toNat % 16)) ∧
      pyRead c = hexOfDecimal (0x30 + c.toNat / 16) :: toChars (0x30 + c.toNat % 16)) := by
  revert c
  apply forall_uint8
  decide +kernel

/-- A nibble plus `'0'` is a number of two decimal digits. -/
theorem toChars_nibble {k : Nat} (hk : k < 16) :
    toChars (0x30 + k) = [digitByte ((0x30 + k) / 10), digitByte ((0x30 + k) % 10)] := by
  revert k
  decide

theorem hexVal_digitByte {d : Nat} (hd : d < 10) : PyLiteral.hexVal (digitByte d) = some d := by
  revert d
  decide

theorem digitByte_plain {d : Nat} (hd : d < 10) :
    digitByte d ≠ 0x27 ∧ digitByte d ≠ 0x0a ∧ digitByte d ≠ 0x0d ∧ digitByte d ≠ 0x5c := by
  revert d
  decide

/-- Python reads the chunk of each byte, whatever follows it. -/
theorem run_pyStrChar (c : UInt8) (t : List UInt8) :
    PyLiteral.run .plain (pyStrChar c ++ t) = (pyRead c ++ ·) <$> PyLiteral.run .plain t := by
  rcases pyStrChar_cases c with ⟨e, -, hc, he, hr⟩ | ⟨hc, ⟨hq, hn, hcr, hb⟩, hr⟩ | ⟨hc, hr⟩
  · rw [hc, hr]
    exact PyLiteral.run_simple he t
  · rw [hc, hr]
    exact PyLiteral.run_plain hq hn hcr hb t
  · -- `\x` takes the two digits of the high nibble as hex; those of the low nibble stay text
    have hhi : c.toNat / 16 < 16 := by
      have := c.toNat_lt
      omega
    have hlo : c.toNat % 16 < 16 := Nat.mod_lt _ (by decide)
    have ha : (0x30 + c.toNat / 16) / 10 < 10 := by omega
    have ha' : (0x30 + c.toNat % 16) / 10 < 10 := by omega
    have hb₁ := hexVal_digitByte ha
    have hb₂ := hexVal_digitByte (Nat.mod_lt (0x30 + c.toNat / 16) (by decide : 10 > 0))
    obtain ⟨hq₁, hn₁, hr₁, hs₁⟩ := digitByte_plain ha'
    obtain ⟨hq₂, hn₂, hr₂, hs₂⟩ := digitByte_plain (Nat.mod_lt (0x30 + c.toNat % 16) (by decide))
    rw [hc, hr, toChars_nibble hhi, toChars_nibble hlo]
    simp only [List.cons_append, List.nil_append]
    rw [PyLiteral.run_hex hb₁ hb₂, PyLiteral.run_plain hq₁ hn₁ hr₁ hs₁,
      PyLiteral.run_plain hq₂ hn₂ hr₂ hs₂]
    simp only [Functor.map_map]
    rfl

theorem literal_mkPyStr (s : List UInt8) :
    PyLiteral.literal (mkPyStr s) = some (s.flatMap pyRead) := by
  have hbody : PyLiteral.run .plain (s.flatMap pyStrChar ++ []) =
      (s.flatMap pyRead ++ ·) <$> PyLiteral.run .plain [] :=
    decode_flatMap_text s (fun c _ t => run_pyStrChar c t) []
  rw [mkPyStr, List.singleton_append, List.cons_append, PyLiteral.literal_eq]
  simpa [PyLiteral.body, PyLiteral.run, PyLiteral.finish] using hbody

theorem pyRead_ne_nil (c : UInt8) : pyRead c ≠ [] := by
  unfold pyRead
  split <;> simp

theorem pyRead_eq_singleton_iff (c : UInt8) :
    pyRead c = [c] ↔ isPrintable c ∨ c ∈ namedControl := by
  revert c
  apply forall_uint8
  decide +kernel

/-- The literal reads back as the text exactly when every byte of the text is printable or has a
letter escape. -/
theorem literal_mkPyStr_eq_self_iff (s : List UInt8) :
    PyLiteral.literal (mkPyStr s) = some s ↔ ∀ c ∈ s, isPrintable c ∨ c ∈ namedControl := by
  rw [literal_mkPyStr, Option.some.injEq, flatMap_eq_self_iff pyRead_ne_nil]
  simp only [pyRead_eq_singleton_iff]

theorem mkPyStr_control_byte_misread :
    mkPyStr [1] = [0x27, 0x5c, 0x78, 0x34, 0x38, 0x34, 0x39, 0x27] ∧
      PyLiteral.literal (mkPyStr [1]) = some (ascii "H49") := by
  decide

/-! ## mk_shell_str -/

/-- The bytes that mk_shell_str leaves bare. -/
def isShellSafe (c : UInt8) : Bool :=
  c ∈ ascii "+,-./:=@^_" || (c ≥ 0x30 && c ≤ 0x39) || (c ≥ 0x61 && c ≤ 0x7a) ||
    (c ≥ 0x41 && c ≤ 0x5a)

/-- The bytes that rule out double quotes. -/
def isDqSpecial (c : UInt8) : Bool := c ∈ ascii "!\"$\\`"

/-- The chunk of one byte in the complex case: a quote leaves the single quotes, is written
escaped, and enters them again. -/
def shellQuoteChar (c : UInt8) : List UInt8 := if c = 0x27 then [0x27, 0x5c, 0x27, 0x27] else [c]

def mkShellStr (s : List UInt8) : List UInt8 :=
  if s = [] then [0x27, 0x27]
  else if s.all isShellSafe then s
  else if 0x27 ∉ s then [0x27] ++ s ++ [0x27]
  else if !s.any isDqSpecial then [0x22] ++ s ++ [0x22]
  else [0x27] ++ s.flatMap shellQuoteChar ++ [0x27]

example : mkShellStr (ascii "a b") = [0x27] ++ ascii "a b" ++ [0x27] := by decide
example : mkShellStr [0x27, 0x24] = [0x27, 0x27, 0x5c, 0x27, 0x27, 0x24, 0x27] := by decide

/-- A safe byte is read as itself outside quotes, and starts neither a tilde prefix nor a
comment. -/
theorem step_of_shellSafe {c : UInt8} (h : isShellSafe c) :
    ShellWord.step .unquoted c = some ([c], .unquoted) ∧ c ≠ 0x7e ∧ c ≠ 0x23 := by
  revert c
  apply forall_uint8
  decide +kernel

theorem step_double_of_not_dqSpecial {c : UInt8} (h0 : c ≠ 0) (h : isDqSpecial c = false) :
    ShellWord.step .double c = some ([c], .double) := by
  have hc : c ≠ 0x22 ∧ c ≠ 0x24 ∧ c ≠ 0x60 ∧ c ≠ 0x5c := by
    revert c
    apply forall_uint8
    decide +kernel
  exact ShellWord.step_double h0 hc.1 hc.2.1 hc.2.2.1 hc.2.2.2

theorem run_shellQuoteChar {c : UInt8} (h0 : c ≠ 0) (t : List UInt8) :
    ShellWord.run .single (shellQuoteChar c ++ t) = (c :: ·) <$> ShellWord.run .single t := by
  unfold shellQuoteChar
  split_ifs with hq
  · subst hq
    exact ShellWord.run_splice t
  · exact ShellWord.run_cons (ShellWord.step_single h0 hq) t

theorem fields_mkShellStr (s : List UInt8) (hs : 0 ∉ s) :
    ShellWord.fields (mkShellStr s) = some [s] := by
  have h0 : ∀ c ∈ s, c ≠ 0 := fun c hc h => hs (h ▸ hc)
  unfold mkShellStr
  split_ifs with he hsafe hq hdq
  · subst he
    decide
  · -- bare
    obtain ⟨c, t, rfl⟩ := List.exists_cons_of_ne_nil he
    have hstep := fun x hx => step_of_shellSafe (List.all_eq_true.mp hsafe x hx)
    have hrun := ShellWord.run_append_of_plain (fun x hx => (hstep x hx).1) []
    refine ShellWord.fields_of_run (hstep c List.mem_cons_self).2 ?_ (List.cons_ne_nil c t)
    simpa [ShellWord.run] using hrun
  · -- double quotes
    have hplain : ∀ c ∈ s, isDqSpecial c = false := by simpa using hdq
    have hrun : ShellWord.run .unquoted (0x22 :: (s ++ [0x22])) = some s :=
      ShellWord.run_quoted (by decide) (by decide)
        fun c hc => step_double_of_not_dqSpecial (h0 c hc) (hplain c hc)
    rw [List.singleton_append, List.cons_append]
    exact ShellWord.fields_of_run (by decide) hrun he
  · -- single quotes with the quotes spliced
    have hrun : ShellWord.run .unquoted (0x27 :: (s.flatMap shellQuoteChar ++ [0x27])) = some s :=
      ShellWord.run_quoted_flatMap (by decide) (by decide)
        fun c hc t => run_shellQuoteChar (h0 c hc) t
    rw [List.singleton_append, List.cons_append]
    exact ShellWord.fields_of_run (by decide) hrun he
  · -- single quotes
    have hrun : ShellWord.run .unquoted (0x27 :: (s ++ [0x27])) = some s :=
      ShellWord.run_quoted (by decide) (by decide)
        fun c hc => ShellWord.step_single (h0 c hc) fun h => hq (h ▸ hc)
    rw [List.singleton_append, List.cons_append]
    exact ShellWord.fields_of_run (by decide) hrun he

theorem fields_mkShellStr_quote_dollar :
    (0 : UInt8) ∉ [0x27, 0x24] ∧ ShellWord.fields (mkShellStr [0x27, 0x24]) = some [[0x27, 0x24]] :=
  ⟨by decide, fields_mkShellStr _ (by decide)⟩

end Lmake.Quote
