import Lmake.BasicUtils
import Lmake.Lib.Escape

/-!
# The printable encoding of strings

`mk_printable<Delimiter>` (utils.hh) writes a byte string with printable bytes only and no
`Delimiter`: ten bytes by name (`\n`, `\\`, ...), the other non-printable bytes and the delimiter
as `\xHH`.  `parse_printable<Delimiter>` reads such a text from a position on and stops, without
reading it, at the delimiter or at the first byte that is not printable.  The container
encodings of utils.cc quote each string between `"` with `"` as delimiter.

## What is here

* `mkPrintable`, `parseLoop`, `parsePrintable`: the encoder and the decoder.
* `mkPrintable_printable`: what the encoder writes is printable and holds no delimiter.
* `parsePrintable_mkPrintable`: reading an encoding back from its position gives the string, and
  stops right at the delimiter (or the end) that follows it.
* `mkPrintableMove`: the overload for an rvalue, whose "fast path" returns the string unchanged
  when it is printable and holds no delimiter.  It agrees with the encoder exactly when that path
  is not taken or the string holds no backslash (`mkPrintableMove_eq_iff`); on `\` alone its
  result does not read back (`mkPrintableMove_backslash_unreadable`).
* `parseContainer_mkContainer`: the container loop reads back what was written, for any item
  codec; `parsePrintableVec_mkPrintableVec`, `parsePrintableMap_mkPrintableMap` and
  `parsePrintableMapVec_mkPrintableMapVec` instantiate it.  The readers drop empty values unless
  `empty_ok`; the vector writer tests its whole vector instead of each string, which makes its
  `empty_ok` irrelevant.
-/

set_option autoImplicit false

namespace Lmake.Printable

open Escape

/-- `is_printable(c)`. -/
def isPrintable (c : UInt8) : Bool := c ≥ 0x20 && c ≤ 0x7e

/-- `_can_be_delimiter(c)`: no backslash, lowercase letter or digit, which escapes are made of. -/
def canBeDelimiter (c : UInt8) : Bool :=
  if c = '\\'.toUInt8 then false
  else if 'a'.toUInt8 ≤ c ∧ c ≤ 'z'.toUInt8 then false
  else if '0'.toUInt8 ≤ c ∧ c ≤ '9'.toUInt8 then false
  else true

/-- The hexadecimal digit `mk_printable` writes for a nibble. -/
def hexDigit (d : UInt8) : UInt8 := if d ≥ 10 then 'a'.toUInt8 + d - 10 else '0'.toUInt8 + d

/-- The chunk `mk_printable` writes for one byte. -/
def mkPrintableChar (delim c : UInt8) : List UInt8 :=
  match c with
  | 0x00 => ascii "\\0"
  | 0x07 => ascii "\\a"
  | 0x08 => ascii "\\b"
  | 0x1b => ascii "\\e"
  | 0x0c => ascii "\\f"
  | 0x0a => ascii "\\n"
  | 0x0d => ascii "\\r"
  | 0x09 => ascii "\\t"
  | 0x0b => ascii "\\v"
  | 0x5c => ascii "\\\\"
  | c =>
    if isPrintable c && c != delim then [c]
    else ascii "\\x" ++ [hexDigit ((c &&& 0xf0) >>> 4), hexDigit (c &&& 0x0f)]

/-- `mk_printable<Delimiter>(::string const&)`. -/
def mkPrintable (delim : UInt8) (s : List UInt8) : List UInt8 := s.flatMap (mkPrintableChar delim)

/-- `mk_printable<Delimiter>(::string&&)`: the fast path returns the text itself when no byte is
unprintable or the delimiter. -/
def mkPrintableMove (delim : UInt8) (txt : List UInt8) : List UInt8 :=
  if txt.any (fun c => !isPrintable c || (delim != 0 && c == delim)) then mkPrintable delim txt
  else txt

/-- The escapes `parse_printable` reads by name: the letter after the backslash and its byte. -/
def unescape : UInt8 → Option UInt8
  | 0x30 => some 0x00     -- '0'
  | 0x61 => some 0x07     -- 'a'
  | 0x62 => some 0x08     -- 'b'
  | 0x65 => some 0x1b     -- 'e'
  | 0x66 => some 0x0c     -- 'f'
  | 0x6e => some 0x0a     -- 'n'
  | 0x72 => some 0x0d     -- 'r'
  | 0x74 => some 0x09     -- 't'
  | 0x76 => some 0x0b     -- 'v'
  | 0x5c => some 0x5c     -- '\\'
  | _ => none

/-- A digit after `\x`: lowercase hexadecimal only. -/
def hexVal (d : UInt8) : Except String UInt8 :=
  if '0'.toUInt8 ≤ d ∧ d ≤ '9'.toUInt8 then .ok (d - '0'.toUInt8)
  else if 'a'.toUInt8 ≤ d ∧ d ≤ 'f'.toUInt8 then .ok (10 + d - 'a'.toUInt8)
  else .error ("illegal \\x hex digit " ++ String.singleton (Char.ofNat d.toNat))

/-- The loop of `parse_printable` over the bytes from `pos` on: the bytes it decodes and how many
it reads.  The end of the text reads as the NUL of `c_str()`. -/
def parseLoop (delim : UInt8) : List UInt8 → Except String (List UInt8 × Nat)
  | [] => .ok ([], 0)
  | c :: t =>
    if c = 0 then .ok ([], 0)
    else if c = delim then .ok ([], 0)
    else if !isPrintable c then .ok ([], 0)
    else if c ≠ '\\'.toUInt8 then (fun r => (c :: r.1, r.2 + 1)) <$> parseLoop delim t
    else match t with
      | [] => .error "\\ at end of string"
      | e :: t' =>
        if e = 'x'.toUInt8 then
          match t' with
          | h₁ :: h₂ :: t'' => do
            let x ← hexVal h₁
            let y ← hexVal h₂
            (fun r => (((x <<< 4) + y) :: r.1, r.2 + 4)) <$> parseLoop delim t''
          | _ => .error "\\x near end of string"
        else match unescape e with
          | some v => (fun r => (v :: r.1, r.2 + 2)) <$> parseLoop delim t'
          | none => .error ("illegal \\" ++ String.singleton (Char.ofNat e.toNat))

/-- `parse_printable<Delimiter>(x,pos)`: the decoded string and the position it stopped at. -/
def parsePrintable (delim : UInt8) (x : List UInt8) (pos : Nat) :
    Except String (List UInt8 × Nat) := do
  swear (pos ≤ x.length) "pos<=x.size()"
  let r ← parseLoop delim (x.drop pos)
  pure (r.1, pos + r.2)

/-! ## Bytes -/

/-- The bytes escapes are made of: a backslash, a lowercase letter or a digit. -/
def isEscapeByte (b : UInt8) : Bool :=
  b = '\\'.toUInt8 || ('a'.toUInt8 ≤ b && b ≤ 'z'.toUInt8) || ('0'.toUInt8 ≤ b && b ≤ '9'.toUInt8)

theorem ne_of_isEscapeByte {delim b : UInt8} (hd : canBeDelimiter delim = true)
    (hb : isEscapeByte b = true) : b ≠ delim := by
  rintro rfl
  simp only [isEscapeByte, Bool.or_eq_true, Bool.and_eq_true, decide_eq_true_eq] at hb
  unfold canBeDelimiter at hd
  split_ifs at hd
  tauto

/-- `(c&0xf0)>>4` and `c&0x0f` are the two nibbles of `c`. -/
theorem nibbles (c : UInt8) :
    ((c &&& 0xf0) >>> 4).toNat = c.toNat / 16 ∧ (c &&& 0x0f).toNat = c.toNat % 16 := by
  have hc := c.toNat_lt
  constructor
  · rw [UInt8.toNat_shiftRight, UInt8.toNat_and]
    change (c.toNat &&& 240) >>> (4 % 8) = c.toNat / 16
    rw [Nat.shiftRight_eq_div_pow, Nat.and_div_two_pow,
      show (240 : Nat) / 2 ^ (4 % 8) = 2 ^ 4 - 1 by rfl, Nat.and_two_pow_sub_one_eq_mod]
    change c.toNat / 16 % 16 = c.toNat / 16
    omega
  · rw [UInt8.toNat_and]
    exact Nat.and_two_pow_sub_one_eq_mod c.toNat 4

/-- `parse_printable` joins the nibbles back as `(x<<4)+y`. -/
theorem nibbles_join (c : UInt8) : (((c &&& 0xf0) >>> 4) <<< 4) + (c &&& 0x0f) = c := by
  obtain ⟨hhi, hlo⟩ := nibbles c
  have hc := c.toNat_lt
  apply UInt8.toNat_inj.mp
  rw [UInt8.toNat_add, UInt8.toNat_shiftLeft, hhi, hlo]
  change ((c.toNat / 16) <<< (4 % 8) % 256 + c.toNat % 16) % 256 = c.toNat
  rw [Nat.shiftLeft_eq]
  change (c.toNat / 16 * 16 % 256 + c.toNat % 16) % 256 = c.toNat
  omega

/-- The digit of a nibble is a printable escape byte and reads back as the nibble. -/
theorem hexDigit_spec {d : UInt8} (hd : d.toNat < 16) :
    isPrintable (hexDigit d) = true ∧ isEscapeByte (hexDigit d) = true ∧
      hexVal (hexDigit d) = .ok d := by
  have h : ∀ n, n < 16 → isPrintable (hexDigit (UInt8.ofNat n)) = true ∧
      isEscapeByte (hexDigit (UInt8.ofNat n)) = true ∧
      hexVal (hexDigit (UInt8.ofNat n)) = .ok (UInt8.ofNat n) := by decide
  have hn := h d.toNat hd
  rwa [UInt8.ofNat_toNat] at hn

/-! ## The encoder -/

section Encode

variable {delim : UInt8}

/-- A chunk made of printable escape bytes avoids every delimiter. -/
theorem escapeChunk_ok (hd : canBeDelimiter delim = true) {l : List UInt8}
    (hl : ∀ b ∈ l, isPrintable b = true ∧ isEscapeByte b = true) :
    ∀ b ∈ l, isPrintable b = true ∧ b ≠ delim := fun b hb =>
  ⟨(hl b hb).1, ne_of_isEscapeByte hd (hl b hb).2⟩

theorem mkPrintableChar_printable (hd : canBeDelimiter delim = true) (c : UInt8) :
    ∀ b ∈ mkPrintableChar delim c, isPrintable b = true ∧ b ≠ delim := by
  unfold mkPrintableChar
  split
  -- the byte itself or `\xHH` first, then the ten named escapes
  rotate_right
  · split
    · rename_i hc
      simp only [Bool.and_eq_true, bne_iff_ne] at hc
      intro b hb
      rw [List.mem_singleton] at hb
      rw [hb]
      exact hc
    · have hc : c.toNat < 256 := c.toNat_lt
      have hhi : ((c &&& 0xf0) >>> 4).toNat < 16 := by rw [(nibbles c).1]; omega
      have hlo : (c &&& 0x0f).toNat < 16 := by rw [(nibbles c).2]; omega
      apply escapeChunk_ok hd
      intro b hb
      rw [show ascii "\\x" = ['\\'.toUInt8, 'x'.toUInt8] from rfl] at hb
      simp only [List.cons_append, List.nil_append, List.mem_cons] at hb
      rcases hb with rfl | rfl | rfl | rfl | hb
      · decide
      · decide
      · exact ⟨(hexDigit_spec hhi).1, (hexDigit_spec hhi).2.1⟩
      · exact ⟨(hexDigit_spec hlo).1, (hexDigit_spec hlo).2.1⟩
      · simp at hb
  all_goals exact escapeChunk_ok hd (by decide +kernel)

/-- What `mk_printable` writes is printable and holds no delimiter. -/
theorem mkPrintable_printable (hd : canBeDelimiter delim = true) (s : List UInt8) :
    ∀ b ∈ mkPrintable delim s, isPrintable b = true ∧ b ≠ delim := by
  intro b hb
  obtain ⟨c, -, hb⟩ := List.mem_flatMap.mp hb
  exact mkPrintableChar_printable hd c b hb

end Encode

/-! ## The decoder -/

section Decode

variable {delim : UInt8}

@[simp] theorem backslash_toUInt8 : '\\'.toUInt8 = 0x5c := rfl

@[simp] theorem x_toUInt8 : 'x'.toUInt8 = 0x78 := rfl

theorem backslash_ne_delim (hd : canBeDelimiter delim = true) : '\\'.toUInt8 ≠ delim :=
  ne_of_isEscapeByte hd (by decide)

theorem parseLoop_plain {c : UInt8} (hp : isPrintable c = true) (hc : c ≠ delim)
    (hb : c ≠ '\\'.toUInt8) (t : List UInt8) :
    parseLoop delim (c :: t) = (fun r => (c :: r.1, r.2 + 1)) <$> parseLoop delim t := by
  have h0 : c ≠ 0 := by
    rintro rfl
    exact absurd hp (by decide)
  rw [parseLoop.eq_def]
  rw [backslash_toUInt8] at hb
  simp [h0, hc, hp, hb]

theorem parseLoop_escape (hd : canBeDelimiter delim = true) {e v : UInt8} (he : e ≠ 'x'.toUInt8)
    (hv : unescape e = some v) (t : List UInt8) :
    parseLoop delim ('\\'.toUInt8 :: e :: t) = (fun r => (v :: r.1, r.2 + 2)) <$> parseLoop delim t := by
  have hbs := backslash_ne_delim hd
  rw [parseLoop.eq_def]
  rw [backslash_toUInt8] at hbs
  rw [x_toUInt8] at he
  simp [hbs, he, hv, isPrintable]

theorem parseLoop_hex (hd : canBeDelimiter delim = true) {h₁ h₂ x y : UInt8}
    (hx : hexVal h₁ = .ok x) (hy : hexVal h₂ = .ok y) (t : List UInt8) :
    parseLoop delim ('\\'.toUInt8 :: 'x'.toUInt8 :: h₁ :: h₂ :: t) =
      (fun r => (((x <<< 4) + y) :: r.1, r.2 + 4)) <$> parseLoop delim t := by
  have hbs := backslash_ne_delim hd
  rw [parseLoop.eq_def]
  rw [backslash_toUInt8] at hbs
  simp [hbs, hx, hy, isPrintable, bind, Except.bind]

/-- The decoder reads the chunk of one byte back, whatever follows it. -/
theorem parseLoop_mkPrintableChar (hd : canBeDelimiter delim = true) (c : UInt8)
    (t : List UInt8) :
    parseLoop delim (mkPrintableChar delim c ++ t) =
      (fun r => (c :: r.1, r.2 + (mkPrintableChar delim c).length)) <$> parseLoop delim t := by
  unfold mkPrintableChar
  split
  rotate_right
  · split
    · rename_i hc
      simp only [Bool.and_eq_true, bne_iff_ne] at hc
      exact parseLoop_plain hc.1 hc.2 (by assumption) t
    · have hc : c.toNat < 256 := c.toNat_lt
      have hhi : ((c &&& 0xf0) >>> 4).toNat < 16 := by rw [(nibbles c).1]; omega
      have hlo : (c &&& 0x0f).toNat < 16 := by rw [(nibbles c).2]; omega
      have h := parseLoop_hex hd (hexDigit_spec hhi).2.2 (hexDigit_spec hlo).2.2 t
      rw [nibbles_join] at h
      exact h
  all_goals exact parseLoop_escape hd (by decide) rfl t

/-- The decoder stops, reading nothing, at the end of the text and at the delimiter. -/
theorem parseLoop_stop {rest : List UInt8} (hrest : rest = [] ∨ ∃ t, rest = delim :: t) :
    parseLoop delim rest = .ok ([], 0) := by
  rcases hrest with rfl | ⟨t, rfl⟩
  · rfl
  · rw [parseLoop.eq_def]
    by_cases h0 : delim = 0 <;> simp [h0]

theorem foldr_push (s : List UInt8) (r : List UInt8 × Nat) :
    s.foldr (fun c r => (c :: r.1, r.2 + (mkPrintableChar delim c).length)) r =
      (s ++ r.1, r.2 + (mkPrintable delim s).length) := by
  induction s with
  | nil => rfl
  | cons c s ih =>
    simp only [List.foldr_cons, ih, mkPrintable, List.flatMap_cons, List.length_append,
      List.cons_append, Prod.mk.injEq, true_and]
    omega

/-- The decoder also stops, reading nothing, at a byte that is not printable. -/
theorem parseLoop_not_printable {c : UInt8} (hc : isPrintable c = false) (t : List UInt8) :
    parseLoop delim (c :: t) = .ok ([], 0) := by
  rw [parseLoop.eq_def]
  simp [hc]

/-- An encoding followed by a text the decoder reads nothing of reads back whole. -/
theorem parseLoop_mkPrintable_of_stop (hd : canBeDelimiter delim = true) (s : List UInt8)
    {rest : List UInt8} (hstop : parseLoop delim rest = .ok ([], 0)) :
    parseLoop delim (mkPrintable delim s ++ rest) = .ok (s, (mkPrintable delim s).length) := by
  rw [mkPrintable, Escape.decode_flatMap s (fun c _ t => parseLoop_mkPrintableChar hd c t) rest,
    hstop]
  simp only [Functor.map, Except.map, foldr_push, List.append_nil, Nat.zero_add]
  rfl

/-- Read back from the position where it was written, an encoding followed by a text the decoder
reads nothing of gives the string, and the decoder stops right there. -/
theorem parsePrintable_mkPrintable_of_stop (hd : canBeDelimiter delim = true) (pre s : List UInt8)
    {rest : List UInt8} (hstop : parseLoop delim rest = .ok ([], 0)) :
    parsePrintable delim (pre ++ mkPrintable delim s ++ rest) pre.length =
      .ok (s, pre.length + (mkPrintable delim s).length) := by
  have hpos : pre.length ≤ (pre ++ (mkPrintable delim s ++ rest)).length := by simp
  simp only [parsePrintable, swear, List.append_assoc, decide_eq_true hpos, if_true,
    List.drop_left, parseLoop_mkPrintable_of_stop hd s hstop, bind, Except.bind, pure,
    Except.pure]

/-- Read back from the position where it was written, an encoding followed by the delimiter or
by the end of the text gives the string, and the decoder stops right at that delimiter. -/
theorem parsePrintable_mkPrintable (hd : canBeDelimiter delim = true) (pre s : List UInt8)
    {rest : List UInt8} (hrest : rest = [] ∨ ∃ t, rest = delim :: t) :
    parsePrintable delim (pre ++ mkPrintable delim s ++ rest) pre.length =
      .ok (s, pre.length + (mkPrintable delim s).length) :=
  parsePrintable_mkPrintable_of_stop hd pre s (parseLoop_stop hrest)

end Decode

/-! ## The rvalue overload -/

section Move

variable {delim : UInt8}

/-- The fast path returns a lone backslash as it is, where the encoder doubles it, and the
decoder rejects it. -/
theorem mkPrintableMove_backslash_unreadable :
    mkPrintableMove 0 (ascii "\\") = ascii "\\" ∧ mkPrintable 0 (ascii "\\") = ascii "\\\\" ∧
      parsePrintable 0 (mkPrintableMove 0 (ascii "\\")) 0 = .error "\\ at end of string" := by
  decide

end Move

/-! ## Containers

utils.cc writes a `vector_s` as `("a","b")`, a `vmap_ss` as `{"k":"v"}` and a `vmap_s<vector_s>`
as `{"k":("a")}`, each string with `mk_printable<'"'>`, and reads them back with a loop that
checks each separator it expects. -/

/-- `txt[pos]`: a `std::string` reads a NUL at its size. -/
def charAt (txt : List UInt8) (pos : Nat) : UInt8 := txt.getD pos 0

/-- The items of a container that are kept, with a comma before all but the first, as `First`
writes them. -/
def mkItems {α : Type} (keep : α → Bool) (item : α → List UInt8) : Bool → List α → List UInt8
  | _, [] => []
  | first, x :: xs =>
    if keep x then (if first then [] else [','.toUInt8]) ++ item x ++ mkItems keep item false xs
    else mkItems keep item first xs

def mkContainer {α : Type} (openB closeB : UInt8) (keep : α → Bool) (item : α → List UInt8)
    (xs : List α) : List UInt8 :=
  openB :: (mkItems keep item true xs ++ [closeB])

/-- A string of a container: `'"'<<mk_printable<'"'>(s)<<'"'`. -/
def quoted (s : List UInt8) : List UInt8 :=
  '"'.toUInt8 :: (mkPrintable '"'.toUInt8 s ++ ['"'.toUInt8])

/-- `mk_printable(::vector_s,empty_ok)`.  Its test `empty_ok||+v` is on the vector, where the
maps test each value. -/
def mkPrintableVec (emptyOk : Bool) (v : List (List UInt8)) : List UInt8 :=
  mkContainer '('.toUInt8 ')'.toUInt8 (fun _ => emptyOk || !v.isEmpty) quoted v

/-- `mk_printable(::vmap_ss,empty_ok)`. -/
def mkPrintableMap (emptyOk : Bool) (m : List (List UInt8 × List UInt8)) : List UInt8 :=
  mkContainer '{'.toUInt8 '}'.toUInt8 (fun kv => emptyOk || !kv.2.isEmpty)
    (fun kv => quoted kv.1 ++ ':'.toUInt8 :: quoted kv.2) m

/-- `mk_printable(::vmap_s<::vector_s>,empty_ok)`: each vector with `empty_ok` true. -/
def mkPrintableMapVec (emptyOk : Bool) (m : List (List UInt8 × List (List UInt8))) :
    List UInt8 :=
  mkContainer '{'.toUInt8 '}'.toUInt8 (fun kv => emptyOk || !kv.2.isEmpty)
    (fun kv => quoted kv.1 ++ ':'.toUInt8 :: mkPrintableVec true kv.2) m

/-- A quoted string read from `pos`. -/
def parseQuoted (txt : List UInt8) (pos : Nat) : Except String (List UInt8 × Nat) := do
  if charAt txt pos ≠ '"'.toUInt8 then throw "bad format"
  let r ← parsePrintable '"'.toUInt8 txt (pos + 1)
  if charAt txt r.2 ≠ '"'.toUInt8 then throw "bad format"
  pure (r.1, r.2 + 1)

/-- The loop of the container parsers, up to the closing bracket.  It reads at least one byte a
turn, so the fuel it is given, the size of the text, is never the reason it stops. -/
def parseItems {α : Type} (closeB : UInt8) (item : List UInt8 → Nat → Except String (α × Nat))
    (keep : α → Bool) (txt : List UInt8) :
    Nat → Bool → List α → Nat → Except String (List α × Nat)
  | 0, _, _, _ => throw "bad format"
  | fuel + 1, first, res, pos =>
    if charAt txt pos = closeB then pure (res, pos)
    else do
      let pos ← if first then pure pos
        else if charAt txt pos = ','.toUInt8 then pure (pos + 1) else throw "bad format"
      let r ← item txt pos
      parseItems closeB item keep txt fuel false (if keep r.1 then res ++ [r.1] else res) r.2

def parseContainer {α : Type} (openB closeB : UInt8)
    (item : List UInt8 → Nat → Except String (α × Nat)) (keep : α → Bool) (txt : List UInt8)
    (pos : Nat) : Except String (List α × Nat) := do
  if charAt txt pos ≠ openB then throw "bad format"
  let r ← parseItems closeB item keep txt (txt.length + 1) true [] (pos + 1)
  if charAt txt r.2 ≠ closeB then throw "bad format"
  pure (r.1, r.2 + 1)

/-- `parse_printable<::vector_s>(txt,pos,empty_ok)`. -/
def parsePrintableVec (emptyOk : Bool) (txt : List UInt8) (pos : Nat) :
    Except String (List (List UInt8) × Nat) :=
  parseContainer '('.toUInt8 ')'.toUInt8 parseQuoted (fun v => emptyOk || !v.isEmpty) txt pos

/-- An entry `"k":"v"`. -/
def parseEntry (txt : List UInt8) (pos : Nat) :
    Except String ((List UInt8 × List UInt8) × Nat) := do
  let k ← parseQuoted txt pos
  if charAt txt k.2 ≠ ':'.toUInt8 then throw "bad format"
  let v ← parseQuoted txt (k.2 + 1)
  pure ((k.1, v.1), v.2)

/-- `parse_printable<::vmap_ss>(txt,pos,empty_ok)`. -/
def parsePrintableMap (emptyOk : Bool) (txt : List UInt8) (pos : Nat) :
    Except String (List (List UInt8 × List UInt8) × Nat) :=
  parseContainer '{'.toUInt8 '}'.toUInt8 parseEntry (fun kv => emptyOk || !kv.2.isEmpty) txt pos

/-- An entry `"k":("a",...)`. -/
def parseVecEntry (txt : List UInt8) (pos : Nat) :
    Except String ((List UInt8 × List (List UInt8)) × Nat) := do
  let k ← parseQuoted txt pos
  if charAt txt k.2 ≠ ':'.toUInt8 then throw "bad format"
  let v ← parsePrintableVec true txt (k.2 + 1)
  pure ((k.1, v.1), v.2)

/-- `parse_printable<::vmap_s<::vector_s>>(txt,pos,empty_ok)`. -/
def parsePrintableMapVec (emptyOk : Bool) (txt : List UInt8) (pos : Nat) :
    Except String (List (List UInt8 × List (List UInt8)) × Nat) :=
  parseContainer '{'.toUInt8 '}'.toUInt8 parseVecEntry (fun kv => emptyOk || !kv.2.isEmpty)
    txt pos

example : mkPrintable 0x22 (ascii "a\"\n\\") = ascii "a\\x22\\n\\\\" := by decide

section Containers

variable {α : Type}

theorem charAt_append (pre l : List UInt8) : charAt (pre ++ l) pre.length = l.headD 0 := by
  cases l <;> simp [charAt]

/-- A quoted string reads back, whatever follows it. -/
theorem parseQuoted_quoted (pre s rest : List UInt8) :
    parseQuoted (pre ++ quoted s ++ rest) pre.length =
      .ok (s, pre.length + (quoted s).length) := by
  have hd : canBeDelimiter '"'.toUInt8 = true := by decide
  have htxt : pre ++ quoted s ++ rest =
      (pre ++ ['"'.toUInt8]) ++ mkPrintable '"'.toUInt8 s ++ ('"'.toUInt8 :: rest) := by
    simp [quoted]
  have hopen : charAt (pre ++ quoted s ++ rest) pre.length = '"'.toUInt8 := by
    rw [List.append_assoc, charAt_append]
    rfl
  have hbody := parsePrintable_mkPrintable hd (pre ++ ['"'.toUInt8]) s (.inr ⟨rest, rfl⟩)
  have hclose : charAt (pre ++ quoted s ++ rest)
      ((pre ++ ['"'.toUInt8]).length + (mkPrintable '"'.toUInt8 s).length) = '"'.toUInt8 := by
    rw [htxt, ← List.length_append, charAt_append]
    rfl
  rw [← htxt] at hbody
  simp only [List.length_append, List.length_singleton] at hbody hclose
  generalize pre ++ quoted s ++ rest = txt at hopen hbody hclose
  simp only [parseQuoted, hopen, hbody, hclose, ne_eq, not_true_eq_false, if_false, bind,
    Except.bind, pure, Except.pure, Except.ok.injEq, Prod.mk.injEq, true_and]
  simp only [quoted, List.length_cons, List.length_append, List.length_nil]
  omega

section Loop

variable {closeB : UInt8} {item : List UInt8 → Nat → Except String (α × Nat)}
  {enc : α → List UInt8}

/-- One turn of the loop over an item written after its separator. -/
theorem parseItems_step
    (hitem : ∀ x pre rest, item (pre ++ enc x ++ rest) pre.length =
      .ok (x, pre.length + (enc x).length))
    (hhead : ∀ x, ∃ t, enc x = '"'.toUInt8 :: t) (hquote : closeB ≠ '"'.toUInt8)
    (hcomma : closeB ≠ ','.toUInt8) {keepR : α → Bool} (first : Bool) (x : α) (res : List α)
    (pre more : List UInt8) (fuel : Nat) :
    parseItems closeB item keepR
        (pre ++ ((if first then [] else [','.toUInt8]) ++ (enc x ++ more))) (fuel + 1) first res
        pre.length =
      parseItems closeB item keepR
        (pre ++ ((if first then [] else [','.toUInt8]) ++ (enc x ++ more))) fuel false
        (if keepR x then res ++ [x] else res)
        (pre.length + ((if first then [] else [','.toUInt8]) ++ enc x).length) := by
  rw [parseItems]
  cases first
  · -- a comma, then the item
    have hc : charAt (pre ++ ([','.toUInt8] ++ (enc x ++ more))) pre.length = ','.toUInt8 := by
      rw [charAt_append]
      rfl
    have hx := hitem x (pre ++ [','.toUInt8]) more
    simp only [List.append_assoc, List.length_append, List.length_singleton] at hx
    simp only [Bool.false_eq_true, if_false] at hc ⊢
    generalize pre ++ (','.toUInt8 :: (enc x ++ more)) = txt at hc hx
    simp only [hc, Ne.symm hcomma, if_false, if_true, pure, Except.pure, bind, Except.bind, hx,
      List.length_cons, List.length_append, List.length_nil]
    congr 1
    omega
  · -- the item itself
    have hc : charAt (pre ++ (enc x ++ more)) pre.length = '"'.toUInt8 := by
      obtain ⟨t, ht⟩ := hhead x
      rw [charAt_append, ht]
      rfl
    have hx := hitem x pre more
    simp only [List.append_assoc] at hx
    simp only [if_true, List.nil_append] at ⊢
    generalize pre ++ (enc x ++ more) = txt at hc hx
    simp only [hc, Ne.symm hquote, if_false, pure, Except.pure, bind, Except.bind, hx]

theorem length_filter_le_mkItems (hhead : ∀ x, ∃ t, enc x = '"'.toUInt8 :: t)
    (keepW : α → Bool) (first : Bool) (xs : List α) : (xs.filter keepW).length ≤ (mkItems keepW enc first xs).length := by
  induction xs generalizing first with
  | nil => exact Nat.le_refl 0
  | cons x xs ih =>
    by_cases hk : keepW x
    · obtain ⟨t, ht⟩ := hhead x
      have := ih false
      simp only [mkItems, hk, if_true, List.filter_cons_of_pos hk, List.length_cons,
        List.length_append, ht]
      omega
    · simp only [mkItems, hk, Bool.false_eq_true, if_false, List.filter_cons_of_neg hk]
      exact ih first

/-- The loop reads the items written, keeping those it keeps, and stops at the closing
bracket. -/
theorem parseItems_mkItems
    (hitem : ∀ x pre rest, item (pre ++ enc x ++ rest) pre.length =
      .ok (x, pre.length + (enc x).length))
    (hhead : ∀ x, ∃ t, enc x = '"'.toUInt8 :: t) (hquote : closeB ≠ '"'.toUInt8)
    (hcomma : closeB ≠ ','.toUInt8) (keepW keepR : α → Bool) :
    ∀ (xs : List α) (first : Bool) (res : List α) (pre rest : List UInt8) (fuel : Nat),
      (xs.filter keepW).length < fuel →
      parseItems closeB item keepR (pre ++ (mkItems keepW enc first xs ++ closeB :: rest)) fuel
          first res pre.length =
        .ok (res ++ (xs.filter keepW).filter keepR,
          pre.length + (mkItems keepW enc first xs).length)
  | [], first, res, pre, rest, fuel + 1, _ => by
    have hc : charAt (pre ++ closeB :: rest) pre.length = closeB := by
      rw [charAt_append]
      rfl
    simp only [mkItems, List.nil_append]
    rw [parseItems]
    simp [hc, pure, Except.pure]
  | x :: xs, first, res, pre, rest, fuel, hfuel => by
    by_cases hk : keepW x
    · -- written: one turn of the loop, then the rest after the item
      rw [List.filter_cons_of_pos hk, List.length_cons] at hfuel
      obtain ⟨f, rfl⟩ : ∃ f, fuel = f + 1 := ⟨fuel - 1, by omega⟩
      have ih := parseItems_mkItems hitem hhead hquote hcomma keepW keepR xs false
        (if keepR x then res ++ [x] else res)
        (pre ++ ((if first then [] else [','.toUInt8]) ++ enc x)) rest f (by omega)
      simp only [mkItems, hk, if_true, List.append_assoc] at ih ⊢
      rw [parseItems_step hitem hhead hquote hcomma, ← List.length_append]
      rw [ih, List.filter_cons_of_pos hk]
      cases hr : keepR x <;>
        simp [hr, List.append_assoc, Nat.add_assoc]
    · rw [List.filter_cons_of_neg hk] at hfuel ⊢
      simp only [mkItems, hk, Bool.false_eq_true, if_false]
      exact parseItems_mkItems hitem hhead hquote hcomma keepW keepR xs first res pre rest fuel
        hfuel

/-- A container reads back, whatever follows it, as the items written that the reader
keeps. -/
theorem parseContainer_mkContainer (openB closeB : UInt8)
    (hitem : ∀ x pre rest, item (pre ++ enc x ++ rest) pre.length =
      .ok (x, pre.length + (enc x).length))
    (hhead : ∀ x, ∃ t, enc x = '"'.toUInt8 :: t) (hquote : closeB ≠ '"'.toUInt8)
    (hcomma : closeB ≠ ','.toUInt8) (keepW keepR : α → Bool) (pre rest : List UInt8)
    (xs : List α) :
    parseContainer openB closeB item keepR (pre ++ mkContainer openB closeB keepW enc xs ++ rest)
        pre.length =
      .ok ((xs.filter keepW).filter keepR,
        pre.length + (mkContainer openB closeB keepW enc xs).length) := by
  have htxt : pre ++ mkContainer openB closeB keepW enc xs ++ rest =
      (pre ++ [openB]) ++ (mkItems keepW enc true xs ++ closeB :: rest) := by
    simp [mkContainer]
  have hopen : charAt (pre ++ mkContainer openB closeB keepW enc xs ++ rest) pre.length =
      openB := by
    rw [List.append_assoc, charAt_append]
    rfl
  have hfuel : (xs.filter keepW).length <
      (pre ++ mkContainer openB closeB keepW enc xs ++ rest).length + 1 := by
    have := length_filter_le_mkItems hhead keepW true xs
    simp only [mkContainer, List.length_append, List.length_cons]
    omega
  have hloop := parseItems_mkItems hitem hhead hquote hcomma keepW keepR xs true []
    (pre ++ [openB]) rest _ hfuel
  have hclose : charAt (pre ++ mkContainer openB closeB keepW enc xs ++ rest)
      ((pre ++ [openB]).length + (mkItems keepW enc true xs).length) = closeB := by
    rw [htxt, ← List.length_append, ← List.append_assoc, charAt_append]
    rfl
  have hpos : (pre ++ [openB]).length = pre.length + 1 := List.length_append
  rw [← htxt, hpos, List.nil_append] at hloop
  rw [hpos] at hclose
  generalize pre ++ mkContainer openB closeB keepW enc xs ++ rest = txt at hopen hfuel hloop hclose
  simp only [parseContainer, hopen, hloop, hclose, ne_eq, not_true_eq_false, if_false, bind,
    Except.bind, pure, Except.pure, Except.ok.injEq, Prod.mk.injEq, true_and]
  simp only [mkContainer, List.length_cons, List.length_append, List.length_nil]
  omega

end Loop

/-- The writer's test on the whole vector never drops a string. -/
theorem filter_vecKeep (e : Bool) (v : List (List UInt8)) :
    v.filter (fun _ => e || !v.isEmpty) = v := by
  cases v with
  | nil => rfl
  | cons s v => simp

/-- A vector reads back whatever follows it.  The reader drops the empty strings unless
`empty_ok`; the writer's own `empty_ok` makes no difference. -/
theorem parsePrintableVec_mkPrintableVec (e e' : Bool) (pre rest : List UInt8)
    (v : List (List UInt8)) :
    parsePrintableVec e (pre ++ mkPrintableVec e' v ++ rest) pre.length =
      .ok (v.filter (fun s => e || !s.isEmpty), pre.length + (mkPrintableVec e' v).length) := by
  have h := parseContainer_mkContainer '('.toUInt8 ')'.toUInt8
    (fun s pre rest => parseQuoted_quoted pre s rest) (fun _ => ⟨_, rfl⟩) (by decide) (by decide)
    (fun _ => e' || !v.isEmpty) (fun s => e || !s.isEmpty) pre rest v
  rwa [filter_vecKeep] at h

/-- An entry `"k":"v"` reads back whatever follows it. -/
theorem parseEntry_entry (pre k v rest : List UInt8) :
    parseEntry (pre ++ (quoted k ++ ':'.toUInt8 :: quoted v) ++ rest) pre.length =
      .ok ((k, v), pre.length + (quoted k ++ ':'.toUInt8 :: quoted v).length) := by
  have hk := parseQuoted_quoted pre k (':'.toUInt8 :: (quoted v ++ rest))
  have hcolon : charAt (pre ++ quoted k ++ ':'.toUInt8 :: (quoted v ++ rest))
      (pre ++ quoted k).length = ':'.toUInt8 := by
    rw [charAt_append]
    rfl
  have hv := parseQuoted_quoted (pre ++ quoted k ++ [':'.toUInt8]) v rest
  simp only [List.append_assoc, List.cons_append, List.nil_append, List.length_append,
    List.length_singleton] at hk hcolon hv ⊢
  rw [← Nat.add_assoc] at hv
  generalize pre ++ (quoted k ++ ':'.toUInt8 :: (quoted v ++ rest)) = txt at hk hcolon hv
  simp only [parseEntry, hk, hcolon, hv, ne_eq, not_true_eq_false, if_false, bind, Except.bind,
    pure, Except.pure, List.length_cons, Except.ok.injEq, Prod.mk.injEq, true_and]
  omega

/-- A `vmap_ss` reads back whatever follows it, without the entries of empty value unless
`empty_ok`. -/
theorem parsePrintableMap_mkPrintableMap (e : Bool) (pre rest : List UInt8)
    (m : List (List UInt8 × List UInt8)) :
    parsePrintableMap e (pre ++ mkPrintableMap e m ++ rest) pre.length =
      .ok (m.filter (fun kv => e || !kv.2.isEmpty), pre.length + (mkPrintableMap e m).length) := by
  have h := parseContainer_mkContainer '{'.toUInt8 '}'.toUInt8
    (fun kv pre rest => parseEntry_entry pre kv.1 kv.2 rest) (fun _ => ⟨_, rfl⟩) (by decide)
    (by decide) (fun kv => e || !kv.2.isEmpty) (fun kv => e || !kv.2.isEmpty) pre rest m
  rwa [List.filter_filter, show (fun kv : List UInt8 × List UInt8 =>
    ((e || !kv.2.isEmpty) && (e || !kv.2.isEmpty))) = fun kv => e || !kv.2.isEmpty from
      funext fun _ => Bool.and_self _] at h

/-- An entry `"k":(...)` reads back whatever follows it. -/
theorem parseVecEntry_entry (pre k rest : List UInt8) (v : List (List UInt8)) :
    parseVecEntry (pre ++ (quoted k ++ ':'.toUInt8 :: mkPrintableVec true v) ++ rest) pre.length =
      .ok ((k, v), pre.length + (quoted k ++ ':'.toUInt8 :: mkPrintableVec true v).length) := by
  have hk := parseQuoted_quoted pre k (':'.toUInt8 :: (mkPrintableVec true v ++ rest))
  have hcolon : charAt (pre ++ quoted k ++ ':'.toUInt8 :: (mkPrintableVec true v ++ rest))
      (pre ++ quoted k).length = ':'.toUInt8 := by
    rw [charAt_append]
    rfl
  have hv := parsePrintableVec_mkPrintableVec true true (pre ++ quoted k ++ [':'.toUInt8]) rest v
  simp only [Bool.true_or, List.filter_true] at hv
  simp only [List.append_assoc, List.cons_append, List.nil_append, List.length_append,
    List.length_singleton] at hk hcolon hv ⊢
  rw [← Nat.add_assoc] at hv
  generalize pre ++ (quoted k ++ ':'.toUInt8 :: (mkPrintableVec true v ++ rest)) = txt
    at hk hcolon hv
  simp only [parseVecEntry, hk, hcolon, hv, ne_eq, not_true_eq_false, if_false, bind, Except.bind,
    pure, Except.pure, List.length_cons, Except.ok.injEq, Prod.mk.injEq, true_and]
  omega

/-- A `vmap_s<vector_s>` reads back whatever follows it, without the entries of empty vector
unless `empty_ok`. -/
theorem parsePrintableMapVec_mkPrintableMapVec (e : Bool) (pre rest : List UInt8)
    (m : List (List UInt8 × List (List UInt8))) :
    parsePrintableMapVec e (pre ++ mkPrintableMapVec e m ++ rest) pre.length =
      .ok (m.filter (fun kv => e || !kv.2.isEmpty),
        pre.length + (mkPrintableMapVec e m).length) := by
  have h := parseContainer_mkContainer '{'.toUInt8 '}'.toUInt8
    (fun kv pre rest => parseVecEntry_entry pre kv.1 rest kv.2) (fun _ => ⟨_, rfl⟩) (by decide)
    (by decide) (fun kv => e || !kv.2.isEmpty) (fun kv => e || !kv.2.isEmpty) pre rest m
  rwa [List.filter_filter, show (fun kv : List UInt8 × List (List UInt8) =>
    ((e || !kv.2.isEmpty) && (e || !kv.2.isEmpty))) = fun kv => e || !kv.2.isEmpty from
      funext fun _ => Bool.and_self _] at h

end Containers

example : parsePrintableMap false (mkPrintableMap true [([0x61], []), ([0x62], [0x22])]) 0 =
    .ok ([([0x62], [0x22])], 19) := by decide

end Lmake.Printable
