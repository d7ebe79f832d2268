import Lmake.Lib.Serdes
import Lmake.BasicUtils

/-!
# Serialization (`serialize.hh`)

`serialize(x)` writes a value as bytes and `deserialize<T>(is)` reads one back from the front of
a stream, through one `Serdeser<T>` specialization per kind of type.  Objects with unique object
representations are copied byte for byte, empty objects write nothing, floating points are
copied after `-0` is turned into `+0` and every NaN into `NAN`.  Strings and containers write
their size as a 32-bit `SerdesSz`, then their items; optionals write a flag, then their value;
pairs, arrays and aggregates write their parts in order.  Classes with a `serdes` method write
their own fields: `JobReason` its node only when its tag has one, `DepDigestBase` every field
but its base.

Types are codes (`Ty`, with `Fields` for the fields of an aggregate), and `t.Val` is the type of
the values of type `t`.  A `::map` is the sequence its iteration gives, sorted by the order of
its keys, which the model leaves abstract (`KeyOrder`).  A `::set` can be written
(`serializeSet`) but not read back: the reading side of the key-type specialization reads a
`::pair` with the container's `mapped_type` as soon as the container has a `value_type`, and a
`::set` has a `value_type` but no `mapped_type`.

## Main results

* `encodes_serialize`: for every code and every value whose strings and containers have fewer
  than `2^32` items, whose maps are sorted and whose `JobReason`s pass `chk`, `serialize`
  succeeds and `deserialize` reads the value back from its bytes followed by anything, floats
  normalized, leaving what follows; it throws on every proper prefix of the bytes.  The bound on
  sizes is needed: a longer string fails the `SWEAR` of `_serdes_sz` (`serialize_str_of_le`).
* `serialize_vec_eq_set`, `serialize_vmap_eq_map`: a strictly sorted vector is written as the
  set of its items, a vector of pairs strictly sorted by key as the map of its pairs.
* `framed_dep_serdes`: `DepDigestBase<B>::serdes` reads back every field but the base, which
  keeps the value `{}` gives it.
-/

set_option autoImplicit false

namespace Lmake

open Serdes

/-! ## Leaves -/

namespace Serdeser

/-- `Serdeser<T>::s_serdes(os,x)` for a `T` with unique object representations: its `n` bytes. -/
def uniqOut (n : Nat) (x : BitVec (8 * n)) : List UInt8 := leBytes n x.toNat

/-- `Serdeser<T>::s_serdes(is,x)` for a `T` with unique object representations or a floating
point: `sizeof(x)` bytes, or `"truncated stream"`. -/
def uniqIn (n : Nat) : Reader UInt8 (BitVec (8 * n)) := do
  let bs ← Reader.take n "truncated stream"
  pure (BitVec.ofNat _ (ofLeBytes bs))

/-- A `bool`: one byte, `0` or `1`. -/
def boolOut (b : Bool) : List UInt8 := uniqOut 1 (if b then 1 else 0)

/-- A `bool` read back; a byte other than `0` and `1` (which no writer produces) reads as
`true`. -/
def boolIn : Reader UInt8 Bool := do
  let b ← uniqIn 1
  pure (b != 0)

end Serdeser

/-- The floating point formats, `float` and `double`. -/
inductive FpFormat where
  | binary32
  | binary64
  deriving DecidableEq, Repr

namespace FpFormat

/-- `sizeof`. -/
def bytes : FpFormat → Nat
  | binary32 => 4
  | binary64 => 8

def expBits : FpFormat → Nat
  | binary32 => 8
  | binary64 => 11

def manBits (f : FpFormat) : Nat := 8 * f.bytes - 1 - f.expBits

/-- `x==0`: both zeros, whatever their sign. -/
def isZero (f : FpFormat) (x : BitVec (8 * f.bytes)) : Bool :=
  x.toNat % 2 ^ (8 * f.bytes - 1) == 0

/-- `x!=x`: a NaN, with every bit of its exponent set and a mantissa that is not zero. -/
def isNaN (f : FpFormat) (x : BitVec (8 * f.bytes)) : Bool :=
  x.toNat / 2 ^ f.manBits % 2 ^ f.expBits == 2 ^ f.expBits - 1 && x.toNat % 2 ^ f.manBits != 0

/-- `NAN`: the quiet NaN with a clear sign. -/
def nan (f : FpFormat) : BitVec (8 * f.bytes) :=
  BitVec.ofNat _ ((2 ^ (f.expBits + 1) - 1) * 2 ^ (f.manBits - 1))

/-- The value `Serdeser<T>::s_serdes(os,x)` writes in place of a floating point `x`. -/
def canon (f : FpFormat) (x : BitVec (8 * f.bytes)) : BitVec (8 * f.bytes) :=
  if f.isZero x then 0
  else if f.isNaN x then f.nan
  else x

end FpFormat

/-- `_serdes_sz(v)`: the size of a string or a container as a `SerdesSz`, which must hold it. -/
def serdesSz (n : Nat) : Except String (BitVec 32) := do
  let res : BitVec 32 := BitVec.ofNat 32 n
  swear (res.toNat == n) "res==v.size()"
  pure res

/-! ## Classes with a `serdes` method -/

/-- `JobReasonTag::HasNode`: the reasons from this tag on name a node. -/
def JobReasonTag.hasNode : BitVec 8 := 15

/-- `JobReason`: a tag (a `uint8_t` enum) and the node it is about. -/
structure JobReason where
  node : BitVec 32 := 0
  tag : BitVec 8 := 0
  deriving DecidableEq, Repr

namespace JobReason

/-- `JobReason::chk`: a reason whose tag names no node has none. -/
def chk (x : JobReason) : Except String Unit :=
  if x.tag < JobReasonTag.hasNode then throwUnless (x.node == 0) "bad node" else pure ()

/-- `JobReason::serdes(os)`. -/
def serdesOut (x : JobReason) : List UInt8 :=
  Serdeser.uniqOut 1 x.tag ++
    if x.tag ≥ JobReasonTag.hasNode then Serdeser.uniqOut 4 x.node else []

/-- `JobReason::serdes(is)`, reading into `{}`. -/
def serdesIn : Reader UInt8 JobReason := do
  let tag ← Serdeser.uniqIn 1
  if tag ≥ JobReasonTag.hasNode then
    let node ← Serdeser.uniqIn 4
    pure { node, tag }
  else pure { tag }

end JobReason

/-- `DepDigestBase<B>`: what `serdes` reads and writes, and the base the class derives from
(`NoVoid<void>`, empty, for a `DepDigest`; a `Node` for the `Dep`s of the server). -/
structure DepDigestBase (B : Type) where
  base : B
  sz : BitVec 8
  dflags : BitVec 8
  accesses : BitVec 4
  chunkAccesses : BitVec 4
  parallel : Bool
  isCrc : Bool
  hot : Bool
  err : Bool
  createEncode : Bool
  /-- the union of `_crc` and `_sig`, each a 64-bit word -/
  crcSig : BitVec 64
  deriving DecidableEq, Repr

/-- `DepDigest`, a `DepDigestBase<void>`. -/
abbrev DepDigest := DepDigestBase Unit

namespace DepDigestBase

variable {B : Type}

/-- `DepDigestBase::serdes(os)`: the bit-fields go through full-width temporaries. -/
def serdesOut (x : DepDigestBase B) : List UInt8 :=
  Serdeser.uniqOut 1 x.sz ++ Serdeser.uniqOut 1 x.dflags ++
  Serdeser.uniqOut 1 (x.accesses.setWidth 8) ++ Serdeser.uniqOut 1 (x.chunkAccesses.setWidth 8) ++
  Serdeser.boolOut x.parallel ++ Serdeser.boolOut x.isCrc ++ Serdeser.boolOut x.hot ++
  Serdeser.boolOut x.err ++ Serdeser.boolOut x.createEncode ++
  -- `_crc` if `is_crc`, `_sig` otherwise: either way the word of the union
  Serdeser.uniqOut 8 x.crcSig

/-- `DepDigestBase::serdes(is)`, reading into `{}`: nothing is read into the base. -/
def serdesIn [Inhabited B] : Reader UInt8 (DepDigestBase B) := do
  let sz ← Serdeser.uniqIn 1
  let dflags ← Serdeser.uniqIn 1
  let accesses ← Serdeser.uniqIn 1
  let chunkAccesses ← Serdeser.uniqIn 1
  let parallel ← Serdeser.boolIn
  let isCrc ← Serdeser.boolIn
  let hot ← Serdeser.boolIn
  let err ← Serdeser.boolIn
  let createEncode ← Serdeser.boolIn
  let crcSig ← Serdeser.uniqIn 8
  pure ⟨default, sz, dflags, accesses.setWidth 4, chunkAccesses.setWidth 4, parallel, isCrc,
    hot, err, createEncode, crcSig⟩

/-- `FileSig::operator==`: two signatures of files that do not exist are equal.  The tag is in
the low 3 bits of the word and `FileTag::Target` is `2`. -/
def sigEq (s s' : BitVec 64) : Bool :=
  if s.toNat % 8 < 2 && s'.toNat % 8 < 2 then true else s == s'

/-- `DepDigestBase::operator==`. -/
def eq [BEq B] (x y : DepDigestBase B) : Except String Bool := do
  swear (x.sz == 0) "!sz"
  swear (y.sz == 0) "!ddb.sz"
  if x.base != y.base then return false
  if x.dflags != y.dflags then return false
  if x.accesses != y.accesses then return false
  if x.parallel != y.parallel then return false
  if x.isCrc != y.isCrc then return false
  if x.isCrc then return x.crcSig == y.crcSig
  return sigEq x.crcSig y.crcSig

end DepDigestBase

/-! ## Codes of types -/

mutual

/-- The serializable types, each with the `Serdeser` specialization or the `serdes` method that
serializes it. -/
inductive Ty where
  /-- a type with unique object representations, of `n` bytes -/
  | uniq (n : Nat)
  | empty
  | flt (f : FpFormat)
  | str
  | opt (t : Ty)
  | pair (t u : Ty)
  /-- `T[N]` and `::array<T,N>` -/
  | arr (t : Ty) (n : Nat)
  | vec (t : Ty)
  | map (k v : Ty)
  /-- an aggregate, its fields in the order of its structured binding -/
  | agg (fs : Fields)
  | jobReason
  | depDigest

/-- The fields of an aggregate. -/
inductive Fields where
  | nil
  | cons (t : Ty) (fs : Fields)

end

mutual

/-- The values of a type. -/
@[reducible] def Ty.Val : Ty → Type
  | .uniq n => BitVec (8 * n)
  | .empty => Unit
  | .flt f => BitVec (8 * f.bytes)
  | .str => List UInt8
  | .opt t => Option t.Val
  | .pair t u => t.Val × u.Val
  | .arr t n => List.Vector t.Val n
  | .vec t => List t.Val
  | .map k v => List (k.Val × v.Val)
  | .agg fs => fs.Val
  | .jobReason => JobReason
  | .depDigest => DepDigest

@[reducible] def Fields.Val : Fields → Type
  | .nil => Unit
  | .cons t fs => t.Val × fs.Val

end

/-- The order of the keys of a map, `::less<K>`, for each key type. -/
abbrev KeyOrder := (t : Ty) → t.Val → t.Val → Bool

/-! ## Writing -/

/-- `Serdeser<::pair<T,U>>::s_serdes(os,p)`. -/
def pairOut {α γ : Type} (w : α → Except String (List UInt8)) (w' : γ → Except String (List UInt8))
    (p : α × γ) : Except String (List UInt8) := do
  let a ← w p.1
  let b ← w' p.2
  pure (a ++ b)

/-- The size of a container, then its items: `Serdeser<::vector<T>>::s_serdes(os,v)` and the
key-type specialization's. -/
def sizedOut {α : Type} (w : α → Except String (List UInt8)) (xs : List α) :
    Except String (List UInt8) := do
  let sz ← serdesSz xs.length
  let bs ← writeAll w xs
  pure (Serdeser.uniqOut 4 sz ++ bs)

mutual

/-- `serialize(x)`. -/
def serialize : (t : Ty) → t.Val → Except String (List UInt8)
  | .uniq n, x => pure (Serdeser.uniqOut n x)
  | .empty, _ => pure []
  | .flt f, x => pure (Serdeser.uniqOut f.bytes (f.canon x))
  | .str, s => do
    let sz ← serdesSz s.length
    pure (Serdeser.uniqOut 4 sz ++ (s : List UInt8))
  | .opt t, o => match o with
    | none => pure (Serdeser.boolOut false)
    | some v => do
      let b ← serialize t v
      pure (Serdeser.boolOut true ++ b)
  | .pair t u, p => pairOut (serialize t) (serialize u) p
  | .arr t _, a => writeAll (serialize t) a.toList
  | .vec t, v => sizedOut (serialize t) v
  | .map k v, m => sizedOut (pairOut (serialize k) (serialize v)) m
  | .agg fs, x => serializeFields fs x
  | .jobReason, x => pure x.serdesOut
  | .depDigest, x => pure x.serdesOut

/-- The fields of an aggregate, in order. -/
def serializeFields : (fs : Fields) → fs.Val → Except String (List UInt8)
  | .nil, _ => pure []
  | .cons t fs, x => pairOut (serialize t) (serializeFields fs) x

end

/-- `serialize(s)` for a `::set`, given as the sequence its iteration gives. -/
def serializeSet (t : Ty) (s : List t.Val) : Except String (List UInt8) :=
  sizedOut (serialize t) s

/-! ## Reading -/

/-- `::map::insert(x)`: at the first key that is not less than the new one, unless that key is
equivalent to it, in which case the map is left as it is. -/
def mapInsert {K V : Type} (lt : K → K → Bool) : List (K × V) → K × V → List (K × V)
  | [], x => [x]
  | y :: ys, x =>
    if lt y.1 x.1 then y :: mapInsert lt ys x
    else if lt x.1 y.1 then x :: y :: ys
    else y :: ys

/-- `deserialize<SerdesSz>(is)`. -/
def sizeIn : Reader UInt8 Nat := do
  let n ← Serdeser.uniqIn 4
  pure n.toNat

/-- `Serdeser<::pair<T,U>>::s_serdes(is,p)`. -/
def pairIn {α γ : Type} (d : Reader UInt8 α) (d' : Reader UInt8 γ) : Reader UInt8 (α × γ) := do
  let a ← d
  let b ← d'
  pure (a, b)

/-- The size of a container, then as many items, each added with `f`: the reading side of
`Serdeser<::vector<T>>` (`push_back`) and of the key-type specialization (`insert`). -/
def sizedIn {α : Type} (d : Reader UInt8 α) (f : List α → α → List α) : Reader UInt8 (List α) := do
  let n ← sizeIn
  Reader.foldN d f [] n

mutual

/-- `deserialize<T>(is)`. -/
def deserialize (lt : KeyOrder) : (t : Ty) → Reader UInt8 t.Val
  | .uniq n => Serdeser.uniqIn n
  | .empty => pure ()
  | .flt f => Serdeser.uniqIn f.bytes
  | .str => do
    let sz ← sizeIn
    Reader.take sz "truncated stream"
  | .opt t => do
    let hasV ← Serdeser.boolIn
    if hasV then do
      let v ← deserialize lt t
      pure (some v)
    else pure none
  | .pair t u => pairIn (deserialize lt t) (deserialize lt u)
  | .arr t n => Reader.vector (deserialize lt t) n
  | .vec t => sizedIn (deserialize lt t) fun v x => v ++ [x]
  | .map k v => sizedIn (pairIn (deserialize lt k) (deserialize lt v)) (mapInsert (lt k))
  | .agg fs => deserializeFields lt fs
  | .jobReason => JobReason.serdesIn
  | .depDigest => DepDigestBase.serdesIn

/-- The fields of an aggregate, in order. -/
def deserializeFields (lt : KeyOrder) : (fs : Fields) → Reader UInt8 fs.Val
  | .nil => pure ()
  | .cons t fs => pairIn (deserialize lt t) (deserializeFields lt fs)

end

/-! ## What a round trip asks and gives back -/

mutual

/-- The value read back from what `serialize` wrote: every floating point as `canon` wrote it. -/
def Ty.norm : (t : Ty) → t.Val → t.Val
  | .flt f, x => f.canon x
  | .opt t, o => o.map t.norm
  | .pair t u, p => (t.norm p.1, u.norm p.2)
  | .arr t _, a => a.map t.norm
  | .vec t, v => v.map t.norm
  | .map k v, m => m.map fun p => (k.norm p.1, v.norm p.2)
  | .agg fs, x => fs.norm x
  | .uniq _, x => x
  | .empty, x => x
  | .str, x => x
  | .jobReason, x => x
  | .depDigest, x => x

def Fields.norm : (fs : Fields) → fs.Val → fs.Val
  | .nil, x => x
  | .cons t fs, x => (t.norm x.1, fs.norm x.2)

end

mutual

/-- What a value must be for its serialization to be read back: strings and containers with
fewer than `2^32` items (the `SWEAR` of `_serdes_sz`), maps sorted by their keys (as their
iteration gives them), `JobReason`s that pass `chk`. -/
def Ty.fits (lt : KeyOrder) : (t : Ty) → t.Val → Bool
  | .str, s => s.length < 2 ^ 32
  | .opt t, o => o.all (t.fits lt)
  | .pair t u, p => t.fits lt p.1 && u.fits lt p.2
  | .arr t _, a => a.toList.all (t.fits lt)
  | .vec t, v => v.length < 2 ^ 32 && v.all (t.fits lt)
  | .map k v, m =>
    m.length < 2 ^ 32 && decide (m.Pairwise fun a b => lt k a.1 b.1) &&
      m.all fun p => k.fits lt p.1 && v.fits lt p.2
  | .agg fs, x => fs.fits lt x
  | .jobReason, x => x.chk.isOk
  | .uniq _, _ => true
  | .empty, _ => true
  | .flt _, _ => true
  | .depDigest, _ => true

def Fields.fits (lt : KeyOrder) : (fs : Fields) → fs.Val → Bool
  | .nil, _ => true
  | .cons t fs, x => t.fits lt x.1 && fs.fits lt x.2

end

/-- A key order that sees no difference between a key and its normal form, as `<` on floating
points, for which `-0` and `+0` are equivalent and a NaN is neither less nor greater than
anything. -/
def KeyOrder.Normal (lt : KeyOrder) : Prop :=
  ∀ t a b, lt t (t.norm a) (t.norm b) = lt t a b

/-! ## The leaves are framed -/

theorem framed_uniqIn (n : Nat) (x : BitVec (8 * n)) :
    Framed (Serdeser.uniqIn n) (Serdeser.uniqOut n x) x := by
  have hlen : (Serdeser.uniqOut n x).length = n := length_leBytes n x.toNat
  have hval : BitVec.ofNat (8 * n) (ofLeBytes (Serdeser.uniqOut n x)) = x := by
    simp [Serdeser.uniqOut, ofLeBytes_leBytes]
  have h := @Framed.bind_pure _ _ _ _ (fun bs => BitVec.ofNat (8 * n) (ofLeBytes bs)) _ _
    (framed_take (Serdeser.uniqOut n x) "truncated stream")
  rw [hlen, hval] at h
  exact h

theorem framed_boolIn (b : Bool) : Framed Serdeser.boolIn (Serdeser.boolOut b) b := by
  have h := @Framed.bind_pure _ _ _ _ (fun v => v != 0) _ _ (framed_uniqIn 1 (if b then 1 else 0))
  cases b <;> exact h

theorem serdesSz_of_lt {n : Nat} (h : n < 2 ^ 32) : serdesSz n = .ok (BitVec.ofNat 32 n) := by
  have hfit : (BitVec.ofNat 32 n).toNat = n := by rw [BitVec.toNat_ofNat, Nat.mod_eq_of_lt h]
  simp [serdesSz, hfit]
  rfl

/-- A size that does not fit in a `SerdesSz` fails the `SWEAR` of `_serdes_sz`. -/
theorem serdesSz_of_le {n : Nat} (h : 2 ^ 32 ≤ n) : serdesSz n = .error "res==v.size()" := by
  have hfit : ((BitVec.ofNat 32 n).toNat == n) = false := by
    rw [BitVec.toNat_ofNat, beq_eq_false_iff_ne]
    have := Nat.mod_lt n (Nat.two_pow_pos 32)
    omega
  simp only [serdesSz, hfit]
  rfl

theorem framed_sizeIn {n : Nat} (h : n < 2 ^ 32) :
    Framed sizeIn (Serdeser.uniqOut 4 (BitVec.ofNat 32 n)) n := by
  have hfit : (BitVec.ofNat 32 n).toNat = n := by rw [BitVec.toNat_ofNat, Nat.mod_eq_of_lt h]
  have h' := @Framed.bind_pure _ _ _ _ (fun v => v.toNat) _ _ (framed_uniqIn 4 (BitVec.ofNat 32 n))
  rw [hfit] at h'
  exact h'

/-! ## Pairs and containers -/

section Compose

variable {α α' γ γ' : Type}

theorem encodes_pair {w : α → Except String (List UInt8)} {w' : α' → Except String (List UInt8)}
    {d : Reader UInt8 γ} {d' : Reader UInt8 γ'} {x : α} {x' : α'} {y : γ} {y' : γ'}
    (h : Encodes w d x y) (h' : Encodes w' d' x' y') :
    Encodes (pairOut w w') (pairIn d d') (x, x') (y, y') := by
  obtain ⟨b, hw, hb⟩ := h
  obtain ⟨b', hw', hb'⟩ := h'
  refine ⟨b ++ b', ?_, hb.bind hb'.bind_pure⟩
  simp [pairOut, hw, hw']
  rfl

theorem encodes_sized {w : α → Except String (List UInt8)} {d : Reader UInt8 γ} {g : α → γ}
    (f : List γ → γ → List γ) {xs : List α} (hlen : xs.length < 2 ^ 32)
    (h : ∀ x ∈ xs, Encodes w d x (g x)) :
    Encodes (sizedOut w) (sizedIn d f) xs ((xs.map g).foldl f []) := by
  obtain ⟨bss, hw, hbss⟩ := encodes_writeAll h
  have hfold := Framed.foldN f hbss []
  rw [List.length_map] at hfold
  refine ⟨_, ?_, (framed_sizeIn hlen).bind hfold⟩
  simp [sizedOut, serdesSz_of_lt hlen, hw]
  rfl

end Compose

theorem foldl_push {α : Type} (xs acc : List α) : xs.foldl (fun v x => v ++ [x]) acc = acc ++ xs := by
  induction xs generalizing acc with
  | nil => simp
  | cons x xs ih => simp [ih]

theorem mapInsert_of_lt {K V : Type} {lt : K → K → Bool} {x : K × V} :
    ∀ {m : List (K × V)}, (∀ y ∈ m, lt y.1 x.1 = true) → mapInsert lt m x = m ++ [x]
  | [], _ => rfl
  | y :: ys, h => by
    rw [mapInsert, if_pos (h y (List.mem_cons_self ..)),
      mapInsert_of_lt fun z hz => h z (List.mem_cons_of_mem y hz)]
    rfl

theorem foldl_mapInsert {K V : Type} {lt : K → K → Bool} {m : List (K × V)} :
    ∀ {acc : List (K × V)}, (acc ++ m).Pairwise (fun a b => lt a.1 b.1 = true) →
      m.foldl (mapInsert lt) acc = acc ++ m := by
  induction m with
  | nil => simp
  | cons x m ih =>
    intro acc h
    have hlt : ∀ y ∈ acc, lt y.1 x.1 = true := fun y hy =>
      List.pairwise_append.mp h |>.2.2 y hy x (List.mem_cons_self ..)
    rw [List.foldl_cons, mapInsert_of_lt hlt, ih (by simpa using h)]
    simp

/-! ## Classes with a `serdes` method -/

theorem framed_jobReason {x : JobReason} (h : x.chk = .ok ()) :
    Framed JobReason.serdesIn x.serdesOut x := by
  by_cases hn : x.tag ≥ JobReasonTag.hasNode
  · rw [JobReason.serdesOut, if_pos hn]
    refine (framed_uniqIn 1 x.tag).bind ?_
    rw [if_pos hn]
    exact (framed_uniqIn 4 x.node).bind_pure
  · have hnode : x.node = 0 := by
      have hlt : x.tag < JobReasonTag.hasNode := by
        rw [BitVec.lt_def]; rw [ge_iff_le, BitVec.le_def] at hn; omega
      simpa [JobReason.chk, hlt, throwUnless] using h
    rw [JobReason.serdesOut, if_neg hn, List.append_nil]
    refine (framed_uniqIn 1 x.tag).bind ?_
    rw [if_neg hn]
    obtain ⟨node, tag⟩ := x
    subst hnode
    exact framed_pure _

theorem framed_dep_serdes {B : Type} [Inhabited B] (x : DepDigestBase B) :
    Framed (DepDigestBase.serdesIn : Reader UInt8 (DepDigestBase B)) x.serdesOut
      { x with base := default } := by
  have hacc : ∀ a : BitVec 4, (a.setWidth 8).setWidth 4 = a := fun a => by simp
  simp only [DepDigestBase.serdesOut, List.append_assoc]
  refine (framed_uniqIn 1 x.sz).bind ?_
  refine (framed_uniqIn 1 x.dflags).bind ?_
  refine (framed_uniqIn 1 (x.accesses.setWidth 8)).bind ?_
  refine (framed_uniqIn 1 (x.chunkAccesses.setWidth 8)).bind ?_
  refine (framed_boolIn x.parallel).bind ?_
  refine (framed_boolIn x.isCrc).bind ?_
  refine (framed_boolIn x.hot).bind ?_
  refine (framed_boolIn x.err).bind ?_
  refine (framed_boolIn x.createEncode).bind ?_
  have h := @Framed.bind_pure _ _ _ _ (fun crcSig => (⟨default, x.sz, x.dflags,
    (x.accesses.setWidth 8).setWidth 4, (x.chunkAccesses.setWidth 8).setWidth 4, x.parallel,
    x.isCrc, x.hot, x.err, x.createEncode, crcSig⟩ : DepDigestBase B)) _ _ (framed_uniqIn 8 x.crcSig)
  simpa only [hacc] using h

/-- A `Dep` of the server (a `DepDigestBase<Node>`) on node `1` reads back as a dep on node `0`,
which `operator==` tells apart from it. -/
theorem dep_serdes_loses_base :
    (DepDigestBase.serdesIn : Reader UInt8 (DepDigestBase (BitVec 32))).run
        (DepDigestBase.serdesOut
          (⟨1, 0, 0, 0, 0, false, true, false, false, false, 0⟩ : DepDigestBase (BitVec 32))) =
      .ok (⟨0, 0, 0, 0, 0, false, true, false, false, false, 0⟩, []) ∧
    DepDigestBase.eq (⟨0, 0, 0, 0, 0, false, true, false, false, false, 0⟩ : DepDigestBase (BitVec 32))
        ⟨1, 0, 0, 0, 0, false, true, false, false, false, 0⟩ = .ok false := by
  decide

/-! ## The round trip -/

mutual

theorem encodes_serialize (lt : KeyOrder) (hlt : lt.Normal) :
    ∀ (t : Ty) (x : t.Val), t.fits lt x = true →
      Encodes (serialize t) (deserialize lt t) x (t.norm x)
  | .uniq n, x, _ => ⟨_, rfl, framed_uniqIn n x⟩
  | .empty, (), _ => ⟨[], rfl, framed_pure ()⟩
  | .flt f, x, _ => ⟨_, rfl, framed_uniqIn f.bytes (f.canon x)⟩
  | .str, s, h => by
    have hlen : s.length < 2 ^ 32 := by simpa [Ty.fits] using h
    refine ⟨_, ?_, (framed_sizeIn hlen).bind (framed_take s "truncated stream")⟩
    simp [serialize, serdesSz_of_lt hlen]
  | .opt t, none, _ => by
    refine ⟨Serdeser.boolOut false ++ [], rfl, (framed_boolIn false).bind ?_⟩
    exact framed_pure none
  | .opt t, some v, h => by
    obtain ⟨b, hw, hb⟩ := encodes_serialize lt hlt t v (by simpa [Ty.fits] using h)
    refine ⟨Serdeser.boolOut true ++ b, by simp [serialize, hw], (framed_boolIn true).bind ?_⟩
    exact hb.bind_pure
  | .pair t u, p, h => by
    simp only [Ty.fits, Bool.and_eq_true] at h
    exact encodes_pair (encodes_serialize lt hlt t p.1 h.1) (encodes_serialize lt hlt u p.2 h.2)
  | .arr t n, a, h => by
    have hall : ∀ x ∈ a.toList, Encodes (serialize t) (deserialize lt t) x (t.norm x) :=
      fun x hx => encodes_serialize lt hlt t x (List.all_eq_true.mp h x hx)
    obtain ⟨bss, hw, hbss⟩ := encodes_writeAll hall
    rw [← List.Vector.toList_map] at hbss
    exact ⟨_, hw, Framed.vector hbss⟩
  | .vec t, v, h => by
    simp only [Ty.fits, Bool.and_eq_true, decide_eq_true_eq, List.all_eq_true] at h
    have henc := encodes_sized (fun v x => v ++ [x]) h.1
      fun x hx => encodes_serialize lt hlt t x (h.2 x hx)
    rwa [foldl_push, List.nil_append] at henc
  | .map k v, m, h => by
    simp only [Ty.fits, Bool.and_eq_true, decide_eq_true_eq, List.all_eq_true] at h
    obtain ⟨⟨hlen, hsorted⟩, hall⟩ := h
    have henc := encodes_sized (mapInsert (lt k)) hlen fun p hp =>
      encodes_pair (encodes_serialize lt hlt k p.1 (hall p hp).1)
        (encodes_serialize lt hlt v p.2 (hall p hp).2)
    have hsorted' : ([] ++ m.map fun p : k.Val × v.Val => (k.norm p.1, v.norm p.2)).Pairwise
        (fun a b : k.Val × v.Val => lt k a.1 b.1 = true) := by
      simpa [List.pairwise_map, hlt k] using hsorted
    rwa [foldl_mapInsert hsorted', List.nil_append] at henc
  | .agg fs, x, h => encodes_serializeFields lt hlt fs x h
  | .jobReason, x, h => by
    refine ⟨_, rfl, framed_jobReason ?_⟩
    cases hc : x.chk with
    | ok u => rfl
    | error e => simp [Ty.fits, hc, Except.isOk, Except.toBool] at h
  | .depDigest, x, _ => ⟨_, rfl, framed_dep_serdes x⟩

theorem encodes_serializeFields (lt : KeyOrder) (hlt : lt.Normal) :
    ∀ (fs : Fields) (x : fs.Val), fs.fits lt x = true →
      Encodes (serializeFields fs) (deserializeFields lt fs) x (fs.norm x)
  | .nil, (), _ => ⟨[], rfl, framed_pure ()⟩
  | .cons t fs, x, h => by
    simp only [Fields.fits, Bool.and_eq_true] at h
    exact encodes_pair (encodes_serialize lt hlt t x.1 h.1)
      (encodes_serializeFields lt hlt fs x.2 h.2)

end

example : (deserialize (fun _ _ _ => false) (.vec (.uniq 1))).run [2, 0, 0, 0, 3, 4, 9] =
    .ok ([(3 : BitVec 8), 4], [9]) := by decide

/-- A string of `2^32` bytes or more is not written: `_serdes_sz` fails its `SWEAR`. -/
theorem serialize_str_of_le {s : List UInt8} (h : 2 ^ 32 ≤ s.length) :
    serialize .str s = .error "res==v.size()" := by
  simp only [serialize, serdesSz_of_le h]
  rfl

/-! ## Sets and maps -/

/-- Two lists sorted by one asymmetric relation, with the same items, are the same list. -/
theorem eq_of_pairwise_of_mem_iff {α : Type} {r : α → α → Bool}
    (hasymm : ∀ a b, r a b = true → r b a = false) {l l' : List α}
    (hl : l.Pairwise (r · · = true)) (hl' : l'.Pairwise (r · · = true))
    (hmem : ∀ a, a ∈ l ↔ a ∈ l') : l = l' := by
  have hnodup : ∀ {l : List α}, l.Pairwise (r · · = true) → l.Nodup := fun h =>
    h.imp fun {a b} hab heq => by
      subst heq
      simp [hasymm a a hab] at hab
  have hperm := (List.perm_ext_iff_of_nodup (hnodup hl) (hnodup hl')).mpr hmem
  exact hperm.eq_of_pairwise (fun a b _ _ hab hba => by simp [hasymm a b hab] at hba) hl hl'

/-- A vector strictly sorted by the order of a set, with the items of the set, is written as the
set. -/
theorem serialize_vec_eq_set (lt : KeyOrder) (t : Ty)
    (hasymm : ∀ a b, lt t a b = true → lt t b a = false) {s v : List t.Val}
    (hs : s.Pairwise (lt t · · = true)) (hv : v.Pairwise (lt t · · = true))
    (hmem : ∀ a, a ∈ v ↔ a ∈ s) : serialize (.vec t) v = serializeSet t s := by
  rw [eq_of_pairwise_of_mem_iff hasymm hv hs hmem]
  rfl

/-- A vector of pairs strictly sorted by the order of the keys of a map, with the pairs of the
map, is written as the map. -/
theorem serialize_vmap_eq_map (lt : KeyOrder) (k w : Ty)
    (hasymm : ∀ a b, lt k a b = true → lt k b a = false) {m v : List (k.Val × w.Val)}
    (hm : m.Pairwise (fun p q => lt k p.1 q.1 = true))
    (hv : v.Pairwise (fun p q => lt k p.1 q.1 = true))
    (hmem : ∀ p, p ∈ v ↔ p ∈ m) : serialize (.vec (.pair k w)) v = serialize (.map k w) m := by
  rw [eq_of_pairwise_of_mem_iff (fun a b => hasymm a.1 b.1) hv hm hmem]
  rfl

/-- **Round trips**: every value that fits is read back as written (`encodes_serialize`; a size
that does not fit fails, `serialize_str_of_le`), and sorted vectors are written as the sets and
maps of their items. -/
theorem serdes_round_trip (lt : KeyOrder) (hlt : lt.Normal) :
    (∀ (t : Ty) (x : t.Val), t.fits lt x = true →
      Encodes (serialize t) (deserialize lt t) x (t.norm x)) ∧
    (∀ (t : Ty) (s v : List t.Val), (∀ a b, lt t a b = true → lt t b a = false) →
      s.Pairwise (lt t · · = true) → v.Pairwise (lt t · · = true) → (∀ a, a ∈ v ↔ a ∈ s) →
      serialize (.vec t) v = serializeSet t s) ∧
    (∀ (k w : Ty) (m v : List (k.Val × w.Val)), (∀ a b, lt k a b = true → lt k b a = false) →
      m.Pairwise (fun p q => lt k p.1 q.1 = true) →
      v.Pairwise (fun p q => lt k p.1 q.1 = true) → (∀ p, p ∈ v ↔ p ∈ m) →
      serialize (.vec (.pair k w)) v = serialize (.map k w) m) :=
  ⟨encodes_serialize lt hlt,
    fun t _ _ hasymm hs hv hmem => serialize_vec_eq_set lt t hasymm hs hv hmem,
    fun k w _ _ hasymm hm hv hmem => serialize_vmap_eq_map lt k w hasymm hm hv hmem⟩

/-- An optional `-0.0` is read back as `+0.0`. -/
theorem serdes_round_trip_neg_zero :
    Encodes (serialize (.opt (.flt .binary64)))
      (deserialize (fun _ _ _ => false) (.opt (.flt .binary64)))
      (some (BitVec.ofNat 64 0x8000000000000000)) (some 0) :=
  (serdes_round_trip (fun _ _ _ => false) (fun _ _ _ => rfl)).1 (.opt (.flt .binary64)) _
    (by decide)

end Lmake
