import Lmake.Printable
import Lmake.Hash.Base64

/-!
# Codec file names and codec table lines

A codec table (`rpc_job_exec.hh`, namespace `Codec`) associates, within a context, short codes
with values.  `CodecFile` names one association as a node of the repository: `name()` writes the
dir of the context followed by `<code>.decode` for a decode, or by `<crc>.encode` for an encode,
where `<crc>` is the base64 text of the checksum of the value.

The dir of the context of a table that is a file `tab` is `LMAKE/lmake/codec/<tab>/` followed by
`*` and the context escaped with `*` as delimiter; that of an external table, a dir `tab/` out of
the repository, is `tab/tab/` followed by the context as is.  A code is escaped with `/` as
delimiter.  `CodecFile(New,node)` and `CodecFile(New,node,tab)` read such a node back: the end
of the context is at the last `/`, which is right after it since neither an escaped code, nor a
base64 text, nor a suffix holds one, and for a file table the start of the context is at the last
`*` before that, since the escaped context holds none.

An `Entry` is a line of a table, `\t<code>\t<ctx>\t<val>` with each field written by
`mk_printable`, which writes no tab, and read back by `parse_printable`, which stops at the first
byte that is not printable.

## Main results

* `readCodeValCrc_codeValText`: the code or checksum reads back from after the last slash.
* `ofNode_name`: `CodecFile(New,node)` reads back the `name()` of a file table.
* `ofNodeExt_name`: `CodecFile(New,node,tab)` reads back the `name()` of an external table.
* `ofLine_line`: `Entry(line())` is the entry.
* `codec_round_trip`: the three together.
-/

set_option autoImplicit false

namespace Codec

open Lmake Lmake.Printable Escape Hash

/-- `CodecSep`. -/
def codecSep : UInt8 := '*'.toUInt8

/-- `DecodeSfx`. -/
def decodeSfx : List UInt8 := ascii ".decode"

/-- `EncodeSfx`. -/
def encodeSfx : List UInt8 := ascii ".encode"

/-- The slash. -/
def slash : UInt8 := '/'.toUInt8

/-- `CodecCrc`, that is `Hash::Crc96`: a checksum of 96 bits. -/
abbrev CodecCrc := BitVec 96

/-- `_code_val_crc`: the code of a decode, or the checksum of the value of an encode. -/
inductive CodeValCrc where
  | code (c : List UInt8)
  | valCrc (crc : CodecCrc)
  deriving DecidableEq, Repr

/-- `CodecFile`: the table, the context, and the code or the checksum of the value. -/
structure CodecFile where
  file : List UInt8
  ctx : List UInt8
  codeValCrc : CodeValCrc
  deriving DecidableEq, Repr

/-! ## File names, as bytes -/

/-- `is_dir_name`, on bytes. -/
def isDirName (file : List UInt8) : Bool := file.isEmpty || file.getLast? == some slash

/-- `is_abs`, on bytes: the first byte, which is the terminating nul for an empty name. -/
def isAbs (file : List UInt8) : Bool := file.getD 0 0 == slash

/-- `is_lcl`, on bytes: neither absolute nor above the origin. -/
def isLcl (file : List UInt8) : Bool :=
  !(isAbs file || (ascii "../").isPrefixOf file || file == ascii "..")

/-- `add_slash`. -/
def addSlash (file : List UInt8) : List UInt8 :=
  if file.isEmpty then file
  else if file == ascii "." then []
  else if file.getLast? != some slash then file ++ [slash]
  else file

/-- `string::rfind(c)`, on bytes: the position of the last `c`. -/
def rfind (c : UInt8) : List UInt8 → Option Nat
  | [] => none
  | x :: l =>
    match rfind c l with
    | some i => some (i + 1)
    | none => if x = c then some 0 else none

/-- `SWEAR(pos!=Npos && cond)` on a position `rfind` found. -/
def swearFound (pos : Option Nat) (cond : Nat → Bool) (msg : String) : Except String Nat :=
  match pos with
  | some p => if cond p then .ok p else .error msg
  | none => .error msg

/-! ## Writing names -/

namespace CodecFile

/-- `CodecFile::s_pfx_s(tmp)`. -/
def sPfxS (tmp : Bool) : List UInt8 :=
  if tmp then ascii "LMAKE/lmake/codec_tmp/" else ascii "LMAKE/lmake/codec/"

/-- `CodecFile::s_dir_s(tab,tmp)`: an external table is its own dir. -/
def sDirS (tab : List UInt8) (tmp : Bool) : Except String (List UInt8) :=
  if isDirName tab then do
    swear (!tmp) "!tmp"
    pure tab
  else pure (addSlash (sPfxS tmp ++ tab))

/-- `CodecFile::ctx_dir_s(tmp)`. -/
def ctxDirS (cf : CodecFile) (tmp : Bool) : Except String (List UInt8) := do
  let res ← sDirS cf.file tmp
  let res :=
    if isDirName cf.file then res ++ ascii "tab/" ++ cf.ctx
    else res ++ [codecSep] ++ mkPrintable codecSep cf.ctx
  pure (res ++ [slash])

/-- What `name()` writes after the dir of the context. -/
def codeValText : CodeValCrc → List UInt8
  | .valCrc crc => base64 crc ++ encodeSfx
  | .code code => mkPrintable slash code ++ decodeSfx

/-- `CodecFile::name(tmp)`. -/
def name (cf : CodecFile) (tmp : Bool) : Except String (List UInt8) := do
  let res ← ctxDirS cf tmp
  pure (res ++ codeValText cf.codeValCrc)

/-! ## Reading names -/

/-- The part both readers of a node share: the code or the checksum after the last slash, which
ends at `pos3`, a `.decode` being tried first. -/
def readCodeValCrc (node : List UInt8) (pos3 : Nat) : Except String CodeValCrc :=
  if decodeSfx.isSuffixOf node then do
    let sz := node.length - decodeSfx.length - pos3
    let r ← parsePrintable slash ((node.drop pos3).take sz) 0
    pure (.code r.1)
  else if encodeSfx.isSuffixOf node then do
    let sz := node.length - encodeSfx.length - pos3
    swear (sz == base64Sz 96) "sz==CodecCrc::Base64Sz"
    let crc ← sFromBase64 ((node.drop pos3).take sz)
    pure (.valCrc crc)
  else .error "FAIL"

/-- `CodecFile(New,node)`, for a file table. -/
def ofNode (node : List UInt8) : Except String CodecFile := do
  swear (isLcl node) "is_lcl(node)"
  let pos1 := (sPfxS false).length
  let pos3 ← swearFound (rfind slash node) (pos1 < ·) "pos3!=Npos && pos1<pos3"
  -- `rfind(CodecSep,pos3-1)` looks at the positions up to `pos3-1`
  let pos2 ← swearFound (rfind codecSep (node.take pos3))
    (fun p => pos1 < p && node.getD (p - 1) 0 == slash)
    "pos2!=Npos && pos1<pos2 && node[pos2-1]=='/'"
  let file := ((node.drop pos1).take (pos2 - pos1)).dropLast
  let pos3 := pos3 + 1
  let codeValCrc ← readCodeValCrc node pos3
  let pos2 := pos2 + 1
  let ctx ← parsePrintable codecSep ((node.drop pos2).take (pos3 - 1 - pos2)) 0
  pure ⟨file, ctx.1, codeValCrc⟩

/-- `CodecFile(New,node,ext_codec_dir_s)`, for an external table. -/
def ofNodeExt (node extCodecDirS : List UInt8) : Except String CodecFile := do
  swear (!isLcl node) "!is_lcl(node)"
  let pos3 ← swearFound (rfind slash node) (0 < ·) "pos3!=Npos && 0<pos3"
  let pos2 := extCodecDirS.length
  swear (extCodecDirS.isPrefixOf node) "node.starts_with(ext_codec_dir_s)"
  throwUnless ((ascii "tab/").isPrefixOf (node.drop pos2)) "is not a codec file"
  let file := node.take pos2
  let pos3 := pos3 + 1
  let codeValCrc ← readCodeValCrc node pos3
  let pos3 := pos3 - 1
  let pos2 := pos2 + 4
  -- `pos3-pos2` wraps when the last slash is that of `tab/`, and the context is then the rest
  let ctx := if pos2 ≤ pos3 then (node.drop pos2).take (pos3 - pos2) else node.drop pos2
  pure ⟨file, ctx, codeValCrc⟩

end CodecFile

/-! ## Table lines -/

/-- `Entry`: a line of a codec table. -/
structure Entry where
  ctx : List UInt8
  code : List UInt8
  val : List UInt8
  deriving DecidableEq, Repr

/-- The tab. -/
def tab : UInt8 := 0x09

/-- `add_nl`. -/
def addNl (txt : List UInt8) : List UInt8 :=
  if !txt.isEmpty && txt.getLast? != some 0x0a then txt ++ [0x0a] else txt

/-- `Entry::line(with_nl)`. -/
def Entry.line (e : Entry) (withNl : Bool) : List UInt8 :=
  let res := [tab] ++ mkPrintable 0 e.code ++ [tab] ++ mkPrintable 0 e.ctx ++ [tab] ++
    mkPrintable 0 e.val
  if withNl then addNl res else res

/-- `Entry(line)`: each field after a tab, the last one up to the end of the line. -/
def Entry.ofLine (line : List UInt8) : Except String Entry := do
  let pos := 0
  throwUnless (charAt line pos == tab) "bad codec line format : "
  let pos := pos + 1
  let (code, pos) ← parsePrintable 0 line pos
  throwUnless (charAt line pos == tab) "bad codec line format : "
  let pos := pos + 1
  let (ctx, pos) ← parsePrintable 0 line pos
  throwUnless (charAt line pos == tab) "bad codec line format : "
  let pos := pos + 1
  let (val, pos) ← parsePrintable 0 line pos
  throwUnless (charAt line pos == 0) "bad codec line format : "
  pure ⟨ctx, code, val⟩

/-! ## Finding the last slash -/

theorem rfind_eq_none {c : UInt8} {l : List UInt8} (h : c ∉ l) : rfind c l = none := by
  induction l with
  | nil => rfl
  | cons x l ih =>
    have hx : x ≠ c := fun hx => h (hx ▸ List.mem_cons_self)
    simp [rfind, ih (fun hl => h (List.mem_cons_of_mem x hl)), hx]

theorem rfind_append_cons {c : UInt8} {m : List UInt8} (h : c ∉ m) (l : List UInt8) :
    rfind c (l ++ c :: m) = some l.length := by
  induction l with
  | nil => simp [rfind, rfind_eq_none h]
  | cons x l ih => simp only [List.cons_append, rfind, ih, List.length_cons]

/-! ## The code or the checksum -/

theorem slash_not_mem_codeValText (cvc : CodeValCrc) : slash ∉ CodecFile.codeValText cvc := by
  cases cvc with
  | code c =>
    have hc := @mkPrintable_printable slash (by decide) c
    simp only [CodecFile.codeValText, List.mem_append, not_or]
    exact ⟨fun h => (hc slash h).2 rfl, by decide⟩
  | valCrc crc =>
    simp only [CodecFile.codeValText, List.mem_append, not_or]
    exact ⟨fun h => absurd (mem_base64 crc slash h) (by decide), by decide⟩

theorem decodeSfx_not_suffix (l : List UInt8) : decodeSfx.isSuffixOf (l ++ encodeSfx) = false := by
  simp [List.isSuffixOf, decodeSfx, encodeSfx, ascii, List.isPrefixOf]
  decide

theorem isSuffixOf_append (pre l s : List UInt8) : s.isSuffixOf (pre ++ (l ++ s)) = true := by
  rw [← List.append_assoc]
  exact List.isSuffixOf_iff_suffix.mpr (List.suffix_append _ s)

/-- The code or the checksum reads back from after the last slash. -/
theorem readCodeValCrc_codeValText (pre : List UInt8) (cvc : CodeValCrc) :
    CodecFile.readCodeValCrc (pre ++ CodecFile.codeValText cvc) pre.length = .ok cvc := by
  cases cvc with
  | code c =>
    have hp := @parsePrintable_mkPrintable slash (by decide) [] c [] (Or.inl rfl)
    simp only [List.nil_append, List.append_nil, List.length_nil, Nat.zero_add] at hp
    have hsz : pre.length + ((mkPrintable slash c).length + decodeSfx.length) -
        decodeSfx.length - pre.length = (mkPrintable slash c).length := by omega
    simp [CodecFile.readCodeValCrc, CodecFile.codeValText, isSuffixOf_append, hsz, hp, bind,
      Except.bind, pure, Except.pure]
  | valCrc crc =>
    have hlen : (base64 crc).length = base64Sz 96 := length_base64Loop _ _
    have hd : decodeSfx.isSuffixOf (pre ++ (base64 crc ++ encodeSfx)) = false := by
      rw [← List.append_assoc]
      exact decodeSfx_not_suffix _
    have hsz : pre.length + (base64Sz 96 + encodeSfx.length) - encodeSfx.length - pre.length =
        base64Sz 96 := by omega
    have htake : (base64 crc ++ encodeSfx).take (base64Sz 96) = base64 crc := by
      rw [← hlen, List.take_left]
    simp [CodecFile.readCodeValCrc, CodecFile.codeValText, hd, isSuffixOf_append, hlen, hsz,
      htake, swear, sFromBase64_base64, bind, Except.bind, pure, Except.pure]

/-! ## Tables that are files -/

theorem isLcl_sPfxS (rest : List UInt8) : isLcl (CodecFile.sPfxS false ++ rest) = true := by
  simp [isLcl, isAbs, CodecFile.sPfxS, ascii, slash, List.isPrefixOf]
  decide

theorem addSlash_sPfxS {file : List UInt8} (hf : isDirName file = false) :
    addSlash (CodecFile.sPfxS false ++ file) = CodecFile.sPfxS false ++ file ++ [slash] := by
  simp only [isDirName, Bool.or_eq_false_iff, List.isEmpty_eq_false_iff, beq_eq_false_iff_ne] at hf
  have hlen : (ascii ".").length < (CodecFile.sPfxS false ++ file).length := by
    simp [CodecFile.sPfxS, ascii]
  have hne : CodecFile.sPfxS false ++ file ≠ ascii "." := fun h => by rw [h] at hlen; omega
  simp [addSlash, hne, hf.1, List.getLast?_append_of_ne_nil _ hf.1, hf.2]

/-- The name of a decode or an encode of a table that is a file. -/
theorem name_of_file (cf : CodecFile) (hf : isDirName cf.file = false) :
    cf.name false = .ok ((CodecFile.sPfxS false ++ cf.file ++ [slash]) ++
      codecSep :: (mkPrintable codecSep cf.ctx ++ slash :: CodecFile.codeValText cf.codeValCrc)) := by
  simp [CodecFile.name, CodecFile.ctxDirS, CodecFile.sDirS, hf, addSlash_sPfxS hf, bind,
    Except.bind, pure, Except.pure]

/-- `CodecFile(New,node)` reads back the `name()` of a decode or an encode of a table that is a
file.  The table ends at the last `*` before the last `/`, and the context between them. -/
theorem ofNode_name (cf : CodecFile) (hf : isDirName cf.file = false) :
    ∃ node, cf.name false = .ok node ∧ CodecFile.ofNode node = .ok cf := by
  obtain ⟨file, ctx, cvc⟩ := cf
  refine ⟨_, name_of_file _ hf, ?_⟩
  simp only at hf ⊢
  -- the dir of the table, the escaped context, and what follows the last slash
  generalize hD : CodecFile.sPfxS false ++ file ++ [slash] = D
  generalize hX : mkPrintable codecSep ctx = X
  generalize hT : CodecFile.codeValText cvc = T
  have hPD : (CodecFile.sPfxS false).length + file.length + 1 = D.length := by
    rw [← hD]
    simp
    omega
  have hfile : (((D ++ codecSep :: (X ++ slash :: T)).drop (CodecFile.sPfxS false).length).take
      (D.length - (CodecFile.sPfxS false).length)).dropLast = file := by
    rw [← hD]
    simp [List.take_append, List.take_of_length_le]
  have hsl : slash ∉ T := hT ▸ slash_not_mem_codeValText cvc
  have hsep : codecSep ∉ X := fun h =>
    (@mkPrintable_printable codecSep (by decide) ctx codecSep (hX ▸ h)).2 rfl
  have hnode : D ++ codecSep :: (X ++ slash :: T) = (D ++ codecSep :: X) ++ slash :: T := by
    simp
  have h3 : rfind slash (D ++ codecSep :: (X ++ slash :: T)) = some (D.length + 1 + X.length) := by
    rw [hnode, rfind_append_cons hsl]
    simp
    omega
  have htake : (D ++ codecSep :: (X ++ slash :: T)).take (D.length + 1 + X.length) =
      D ++ codecSep :: X := by
    rw [hnode, show D.length + 1 + X.length = (D ++ codecSep :: X).length by simp; omega,
      List.take_left]
  have hD1 : (D ++ codecSep :: (X ++ slash :: T)).getD (D.length - 1) 0 = slash := by
    rw [← hD]
    simp [List.getD_eq_getElem?_getD]
  have hcvc : CodecFile.readCodeValCrc (D ++ codecSep :: (X ++ slash :: T))
      (D.length + 1 + X.length + 1) = .ok cvc := by
    have hpos : D.length + 1 + X.length + 1 = (D ++ codecSep :: X ++ [slash]).length := by
      simp
      omega
    rw [hpos, show D ++ codecSep :: (X ++ slash :: T) = D ++ codecSep :: X ++ [slash] ++ T by simp,
      ← hT]
    exact readCodeValCrc_codeValText _ cvc
  have hctx : parsePrintable codecSep (((D ++ codecSep :: (X ++ slash :: T)).drop
      (D.length + 1)).take (D.length + 1 + X.length + 1 - 1 - (D.length + 1))) 0 =
      .ok (ctx, X.length) := by
    have h := @parsePrintable_mkPrintable codecSep (by decide) [] ctx [] (Or.inl rfl)
    rw [hX] at h
    simpa using h
  have hl : isLcl (D ++ codecSep :: (X ++ slash :: T)) = true := by
    rw [← hD, List.append_assoc, List.append_assoc]
    exact isLcl_sPfxS _
  have h2 : rfind codecSep (D ++ codecSep :: X) = some D.length := rfind_append_cons hsep D
  have hpos3 : (CodecFile.sPfxS false).length < D.length + 1 + X.length := by omega
  have hpos2 : (CodecFile.sPfxS false).length < D.length := by omega
  simp only [CodecFile.ofNode, hl, swear, swearFound, h3, htake, h2, hcvc, hctx, hfile,
    decide_eq_true hpos3, decide_eq_true hpos2, hD1, beq_self_eq_true, Bool.and_self, if_true,
    bind, Except.bind, pure, Except.pure]

/-! ## External tables -/

/-- Under a dir out of the repository, every name is out of it. -/
theorem isLcl_append_of_dirName {file : List UInt8} (hd : isDirName file = true)
    (hl : isLcl file = false) (rest : List UInt8) : isLcl (file ++ rest) = false := by
  have hne : file ≠ [] := by
    rintro rfl
    exact absurd hl (by decide)
  have hlast : file.getLast? = some slash := by simpa [isDirName, hne] using hd
  have hdd : file ≠ ascii ".." := fun h => absurd (h ▸ hlast) (by decide)
  have habs : isAbs (file ++ rest) = isAbs file := by
    simp [isAbs, List.getD_eq_getElem?_getD, List.getElem?_append_left (List.length_pos_iff.mpr hne)]
  simp only [isLcl, Bool.not_eq_false', Bool.or_eq_true, beq_iff_eq] at hl ⊢
  rcases hl with (h | h) | h
  · -- absolute
    exact .inl (.inl (habs ▸ h))
  · -- above the origin
    exact .inl (.inr (List.isPrefixOf_iff_prefix.mpr
      ((List.isPrefixOf_iff_prefix.mp h).trans (List.prefix_append _ _))))
  · exact absurd h hdd

/-- The name of a decode or an encode of an external table. -/
theorem name_of_dir (cf : CodecFile) (hd : isDirName cf.file = true) :
    cf.name false =
      .ok (cf.file ++ ascii "tab/" ++ cf.ctx ++ slash :: CodecFile.codeValText cf.codeValCrc) := by
  simp [CodecFile.name, CodecFile.ctxDirS, CodecFile.sDirS, hd, swear, bind, Except.bind, pure,
    Except.pure]

/-- `CodecFile(New,node,tab)` reads back the `name()` of a decode or an encode of an external
table `tab`: the context stands between `tab/tab/` and the last `/`. -/
theorem ofNodeExt_name (cf : CodecFile) (hd : isDirName cf.file = true)
    (hl : isLcl cf.file = false) :
    ∃ node, cf.name false = .ok node ∧ CodecFile.ofNodeExt node cf.file = .ok cf := by
  obtain ⟨file, ctx, cvc⟩ := cf
  refine ⟨_, name_of_dir _ hd, ?_⟩
  simp only at hd hl ⊢
  generalize hT : CodecFile.codeValText cvc = T
  have hsl : slash ∉ T := hT ▸ slash_not_mem_codeValText cvc
  have hlen : (file ++ ascii "tab/" ++ ctx).length = file.length + 4 + ctx.length := by
    simp [ascii]
    omega
  have h3 : rfind slash (file ++ ascii "tab/" ++ ctx ++ slash :: T) =
      some (file.length + 4 + ctx.length) := by
    rw [rfind_append_cons hsl, hlen]
  have hnl : isLcl (file ++ ascii "tab/" ++ ctx ++ slash :: T) = false := by
    rw [List.append_assoc, List.append_assoc]
    exact isLcl_append_of_dirName hd hl _
  have hpre : file.isPrefixOf (file ++ ascii "tab/" ++ ctx ++ slash :: T) = true := by
    rw [List.append_assoc, List.append_assoc]
    exact List.isPrefixOf_iff_prefix.mpr (List.prefix_append _ _)
  have htab : (ascii "tab/").isPrefixOf
      ((file ++ ascii "tab/" ++ ctx ++ slash :: T).drop file.length) = true := by
    rw [List.append_assoc, List.append_assoc, List.drop_left]
    exact List.isPrefixOf_iff_prefix.mpr (List.prefix_append _ _)
  have hfile : (file ++ ascii "tab/" ++ ctx ++ slash :: T).take file.length = file := by
    rw [List.append_assoc, List.append_assoc, List.take_left]
  have hcvc : CodecFile.readCodeValCrc (file ++ ascii "tab/" ++ ctx ++ slash :: T)
      (file.length + 4 + ctx.length + 1) = .ok cvc := by
    rw [← hlen, show (file ++ ascii "tab/" ++ ctx).length + 1 =
      (file ++ ascii "tab/" ++ ctx ++ [slash]).length by simp; omega, show file ++ ascii "tab/" ++ ctx ++
      slash :: T = file ++ ascii "tab/" ++ ctx ++ [slash] ++ T by simp, ← hT]
    exact readCodeValCrc_codeValText _ cvc
  have hctx : ((file ++ ascii "tab/" ++ ctx ++ slash :: T).drop (file.length + 4)).take
      (file.length + 4 + ctx.length - (file.length + 4)) = ctx := by
    rw [show file ++ ascii "tab/" ++ ctx ++ slash :: T = (file ++ ascii "tab/") ++ (ctx ++ slash :: T)
      by simp, show file.length + 4 = (file ++ ascii "tab/").length by simp [ascii], List.drop_left]
    simp
  simp only [CodecFile.ofNodeExt, hnl, swear, swearFound, h3, hpre, htab, hfile, hcvc, hctx,
    Bool.not_false, Nat.add_sub_cancel, decide_eq_true (show 0 < file.length + 4 + ctx.length by omega),
    if_pos (show file.length + 4 ≤ file.length + 4 + ctx.length by omega), if_true, bind,
    Except.bind, pure, Except.pure, throwUnless]

/-! ## Table lines -/

/-- One field of a line: after its tab, the escaped string reads back, and the reader stops at the
tab of the next field or at the end of the line. -/
theorem parse_field (pre s : List UInt8) {rest : List UInt8}
    (hrest : rest = [] ∨ ∃ t, rest = tab :: t) :
    charAt (pre ++ [tab] ++ mkPrintable 0 s ++ rest) pre.length = tab ∧
      parsePrintable 0 (pre ++ [tab] ++ mkPrintable 0 s ++ rest) (pre.length + 1) =
        .ok (s, (pre ++ [tab] ++ mkPrintable 0 s).length) := by
  have hstop : parseLoop 0 rest = .ok ([], 0) := by
    rcases hrest with rfl | ⟨t, rfl⟩
    · exact parseLoop_stop (Or.inl rfl)
    · exact parseLoop_not_printable (by decide) t
  constructor
  · rw [List.append_assoc, List.append_assoc, charAt_append]
    rfl
  · have h := @parsePrintable_mkPrintable_of_stop 0 (by decide) (pre ++ [tab]) s _ hstop
    rw [show (pre ++ [tab] ++ mkPrintable 0 s).length =
        (pre ++ [tab]).length + (mkPrintable 0 s).length from List.length_append,
      show pre.length + 1 = (pre ++ [tab]).length by simp]
    exact h

/-- `Entry(line())` is the entry: each field reads back and stops at the tab after it. -/
theorem ofLine_line (e : Entry) : Entry.ofLine (e.line false) = .ok e := by
  obtain ⟨ctx, code, val⟩ := e
  -- the line, cut before each of its three fields
  have hL₁ : Entry.line ⟨ctx, code, val⟩ false =
      [] ++ [tab] ++ mkPrintable 0 code ++ ([tab] ++ mkPrintable 0 ctx ++ [tab] ++ mkPrintable 0 val) := by
    simp [Entry.line]
  have hL₂ : Entry.line ⟨ctx, code, val⟩ false =
      ([tab] ++ mkPrintable 0 code) ++ [tab] ++ mkPrintable 0 ctx ++ ([tab] ++ mkPrintable 0 val) := by
    simp [Entry.line]
  have hL₃ : Entry.line ⟨ctx, code, val⟩ false =
      ([tab] ++ mkPrintable 0 code ++ [tab] ++ mkPrintable 0 ctx) ++ [tab] ++ mkPrintable 0 val ++ [] := by
    simp [Entry.line]
  obtain ⟨ht₁, hp₁⟩ := @parse_field [] code
    ([tab] ++ mkPrintable 0 ctx ++ [tab] ++ mkPrintable 0 val) (.inr ⟨_, rfl⟩)
  obtain ⟨ht₂, hp₂⟩ := @parse_field ([tab] ++ mkPrintable 0 code) ctx
    ([tab] ++ mkPrintable 0 val) (.inr ⟨_, rfl⟩)
  obtain ⟨ht₃, hp₃⟩ := parse_field ([tab] ++ mkPrintable 0 code ++ [tab] ++ mkPrintable 0 ctx) val
    (.inl rfl)
  rw [← hL₁] at ht₁ hp₁
  rw [← hL₂] at ht₂ hp₂
  rw [← hL₃] at ht₃ hp₃
  have hend : charAt (Entry.line ⟨ctx, code, val⟩ false)
      ([tab] ++ mkPrintable 0 code ++ [tab] ++ mkPrintable 0 ctx ++ [tab] ++ mkPrintable 0 val).length
      = 0 := by
    rw [hL₃, List.append_nil]
    simp [charAt]
  simp only [Entry.ofLine, List.length_nil, Nat.zero_add, List.nil_append] at *
  simp only [throwUnless, ht₁, hp₁, ht₂, hp₂, ht₃, hp₃, hend, beq_self_eq_true, if_true, bind,
    Except.bind, pure, Except.pure]

/-- Codec names and table lines read back: the `name()` of a decode or of an encode of a table that
is a file (a name that is not empty and does not end with `/`) through `CodecFile(New,node)`, that
of an external table (a dir out of the repository) through `CodecFile(New,node,tab)`, and every
line through `Entry(line)`, whatever the context, the code, the checksum and the value. -/
theorem codec_round_trip :
    (∀ cf : CodecFile, isDirName cf.file = false →
      ∃ node, cf.name false = .ok node ∧ CodecFile.ofNode node = .ok cf) ∧
    (∀ cf : CodecFile, isDirName cf.file = true → isLcl cf.file = false →
      ∃ node, cf.name false = .ok node ∧ CodecFile.ofNodeExt node cf.file = .ok cf) ∧
    (∀ e : Entry, Entry.ofLine (e.line false) = .ok e) :=
  ⟨ofNode_name, ofNodeExt_name, ofLine_line⟩

/-- A decode of a file table whose context holds a `*` and a `/`, and whose code holds a `/`. -/
theorem codec_round_trip_star_slash :
    isDirName (ascii "tab.py") = false ∧
      ∃ node, (⟨ascii "tab.py", ascii "a/b*c", .code (ascii "x/y")⟩ : CodecFile).name false =
          .ok node ∧
        CodecFile.ofNode node = .ok ⟨ascii "tab.py", ascii "a/b*c", .code (ascii "x/y")⟩ :=
  ⟨by decide, codec_round_trip.1 _ (by decide)⟩

example : (⟨ascii "t", ascii "a*b", .code (ascii "c/d")⟩ : CodecFile).name false =
    .ok (ascii "LMAKE/lmake/codec/t/*a\\x2ab/c\\x2fd.decode") := by
  decide

end Codec
