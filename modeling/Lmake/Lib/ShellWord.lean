import Lmake.Lib.Escape

/-!
# Words of a POSIX shell command line

How a POSIX shell turns one word of a command line, in a position other than the command name,
into fields.  The word is read one byte at a time (`step`), in one of five modes: outside quotes,
inside `'...'`, inside `"..."`, and right after a backslash outside or inside double quotes.
Quote removal keeps the bytes the quotes protect and drops the quotes.

The reader returns `none` wherever the fields would depend on more than the word's text or the
word would not be one word: an unquoted blank, line end or operator byte ends the word; an
unquoted `$` or backquote, or one inside double quotes, starts an expansion; an unquoted `*`, `?`
or `[` makes the field a pathname pattern; a leading `~` is a tilde prefix and a leading `#` a
comment; a quote left open or a trailing backslash continues the command on the next line.
Without expansions there is no field splitting, so a word read to the end is one field, deleted
when it is empty unless the word holds a quote (POSIX 2.6).
-/

set_option autoImplicit false

namespace ShellWord

open Escape

inductive Mode where
  | unquoted
  | single
  | double
  | escaped
  | dqEscaped
  deriving DecidableEq, Repr

/-- Outside quotes, the bytes that end a word: blanks, the line end and the operator bytes. -/
def isMeta (c : UInt8) : Bool := c ∈ ascii " \t\n|&;<>()"

/-- Outside quotes, the bytes that start an expansion or make a pathname pattern. -/
def isExpansion (c : UInt8) : Bool := c ∈ ascii "$`*?["

/-- Inside double quotes, the bytes a backslash escapes. -/
def dqEscapable (c : UInt8) : Bool := c ∈ ascii "$`\"\\\n"

/-- One byte: what it adds to the field, and the mode after it. -/
def step : Mode → UInt8 → Option (List UInt8 × Mode)
  | _, 0 => none
  | .unquoted, c =>
    if c = 0x27 then some ([], .single)
    else if c = 0x22 then some ([], .double)
    else if c = 0x5c then some ([], .escaped)
    else if isMeta c || isExpansion c then none
    else some ([c], .unquoted)
  | .escaped, c => if c = 0x0a then some ([], .unquoted) else some ([c], .unquoted)
  | .single, c => if c = 0x27 then some ([], .unquoted) else some ([c], .single)
  | .double, c =>
    if c = 0x22 then some ([], .unquoted)
    else if c = 0x24 ∨ c = 0x60 then none
    else if c = 0x5c then some ([], .dqEscaped)
    else some ([c], .double)
  | .dqEscaped, c =>
    if c = 0x0a then some ([], .double)
    else if dqEscapable c then some ([c], .double)
    else some ([0x5c, c], .double)

/-- Quote removal from a mode on, to the end of the word. -/
def run : Mode → List UInt8 → Option (List UInt8)
  | .unquoted, [] => some []
  | _, [] => none
  | m, c :: t => do
    let r ← step m c
    (r.1 ++ ·) <$> run r.2 t

/-- The fields of a word. -/
def fields : List UInt8 → Option (List (List UInt8))
  | [] => none
  | w@(c :: _) =>
    if c = 0x7e ∨ c = 0x23 then none
    else (fun f => if f = [] ∧ 0x27 ∉ w ∧ 0x22 ∉ w then [] else [f]) <$> run .unquoted w

example : fields (ascii "a'b c'\\ \"\\$x\"") = some [ascii "ab c $x"] := by decide
example : fields (ascii "a$b") = none := by decide

/-! ## Reading -/

theorem run_cons {m m' : Mode} {c : UInt8} {o : List UInt8} (h : step m c = some (o, m'))
    (t : List UInt8) : run m (c :: t) = (o ++ ·) <$> run m' t := by
  simp [run, h]

/-- A text whose every byte is read as itself in a mode that stays is read through. -/
theorem run_append_of_plain {m : Mode} {s : List UInt8} (h : ∀ c ∈ s, step m c = some ([c], m))
    (t : List UInt8) : run m (s ++ t) = (s ++ ·) <$> run m t := by
  have hs : run m (s.flatMap (fun c => [c]) ++ t) = (s.flatMap (fun c => [c]) ++ ·) <$> run m t :=
    decode_flatMap_text s (fun c hc t => run_cons (h c hc) t) t
  simpa using hs

theorem step_single {c : UInt8} (h0 : c ≠ 0) (hq : c ≠ 0x27) :
    step .single c = some ([c], .single) := by
  simp [step, hq]

theorem step_double {c : UInt8} (h0 : c ≠ 0) (hq : c ≠ 0x22) (hd : c ≠ 0x24) (hb : c ≠ 0x60)
    (hs : c ≠ 0x5c) : step .double c = some ([c], .double) := by
  simp [step, hq, hd, hb, hs]

/-- Inside single quotes, the splice that closes them, writes an escaped quote and opens them
again reads as one quote. -/
theorem run_splice (t : List UInt8) :
    run .single (0x27 :: 0x5c :: 0x27 :: 0x27 :: t) = (0x27 :: ·) <$> run .single t := by
  simp [run, step, Function.comp_def]

/-- A quoted text, each byte written as a chunk that the mode reads back as the byte, reads back,
the closing quote included. -/
theorem run_quoted_flatMap {m : Mode} {q : UInt8} (hopen : step .unquoted q = some ([], m))
    (hclose : step m q = some ([], .unquoted)) {enc : UInt8 → List UInt8} {s : List UInt8}
    (h : ∀ c ∈ s, ∀ t, run m (enc c ++ t) = (c :: ·) <$> run m t) :
    run .unquoted (q :: (s.flatMap enc ++ [q])) = some s := by
  have hs : run m (s.flatMap enc ++ [q]) = (s.flatMap (fun c => [c]) ++ ·) <$> run m [q] :=
    decode_flatMap_text s h [q]
  rw [run_cons hopen, hs, run_cons hclose]
  simp [run]

/-- A quoted text whose every byte is read as itself reads back. -/
theorem run_quoted {m : Mode} {q : UInt8} (hopen : step .unquoted q = some ([], m))
    (hclose : step m q = some ([], .unquoted)) {s : List UInt8}
    (h : ∀ c ∈ s, step m c = some ([c], m)) : run .unquoted (q :: (s ++ [q])) = some s := by
  have hs : run .unquoted (q :: (s.flatMap (fun c => [c]) ++ [q])) = some s :=
    run_quoted_flatMap hopen hclose (fun c hc t => run_cons (h c hc) t)
  simpa using hs

/-- A word that does not start a tilde prefix or a comment and is read to a nonempty field is
that one field. -/
theorem fields_of_run {c : UInt8} {t f : List UInt8} (hc : c ≠ 0x7e ∧ c ≠ 0x23)
    (h : run .unquoted (c :: t) = some f) (hf : f ≠ []) : fields (c :: t) = some [f] := by
  simp [fields, hc, h, hf]

end ShellWord
