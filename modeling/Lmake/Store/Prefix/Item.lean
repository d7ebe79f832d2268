import Lmake.Store.Alloc

/-!
# The items of a prefix file

A prefix file (`store/prefix.hh`) stores a trie in the slots of an `AllocFile`.  Each item holds a
chunk of the keys that go through it and, after it, one of three things: nothing (`Terminal`),
the index of the next item (`Prefix`), or a comparison value `cmp_val` with a bit index `cmp_bit`
and two next items (`Split`): the keys whose next char agrees with `cmp_val` up to `cmp_bit` go on
the `is_eq` side, the others on the other side.  An item is `used` when a key ends there; it then
holds the key's data and may never move.

An item takes 1 to `MaxSz` quanta of `ItemSizeOf` bytes.  Its header comes first, then the chunk,
then, from the end of the item backward, the data, the next indices and `cmp_val`: how many chars
fit (`s_max_chunk_sz`) and how small an item may be (`s_min_sz`) are byte arithmetic on the sizes
of the instantiation's types, which `Layout` gathers and which the model computes as the source
does.  The chunk is stored in reverse order, so that removing chars at its start (`shorten_by`)
and adding chars at its start (`prepend_from`) leave the other chars where they are: a backup of
the header alone (`SaveItem`) is enough to undo them.

The model keeps the chunk storage (`raw`, indexed as the bytes after `ChunkOfs`) apart from the
fields at the end of the item, which it keeps as fields; the layout checks ensure that, in a run
without crash, the chunk never reaches them.
-/

set_option autoImplicit false
set_option linter.dupNamespace false

namespace Store

open Lmake

/-! ## Sizes -/

/-- `round_up<D>`. -/
def roundUp (d n : Nat) : Nat := if n = 0 then 0 else n - 1 - (n - 1) % d + d

/-- `round_down<D>`. -/
def roundDown (d n : Nat) : Nat := n - n % d

/-- `div_up<D>`. -/
def divUp (n d : Nat) : Nat := if n = 0 then 0 else (n - 1) / d + 1

/-- `lsb_msk(b)`: the `b` lowest bits. -/
def lsbMsk (b : Nat) : Nat := 2 ^ b - 1

/-- `msb_msk(b)` on `size_t`: the bits from `b` up. -/
def msbMsk (b : Nat) : Nat := 2 ^ 64 - 2 ^ b

/-- `countl_zero` on an unsigned integer of `w` bits. -/
def countlZero (w x : Nat) : Nat := w - (if x = 0 then 0 else Nat.log2 x + 1)

/-- `ItemKind`; its value is the number of next indices of an item of the kind. -/
inductive ItemKind where
  | Terminal
  | Prefix
  | Split
  deriving DecidableEq, Repr

namespace ItemKind

/-- `+k`. -/
def toNat : ItemKind → Nat
  | Terminal => 0
  | Prefix => 1
  | Split => 2

/-- `kind()+1`, for the kinds that `mk_up` accepts. -/
def up : ItemKind → ItemKind
  | Terminal => Prefix
  | _ => Split

/-- `kind()-1`, for the kinds that `mk_down` accepts. -/
def down : ItemKind → ItemKind
  | Split => Prefix
  | _ => Terminal

/-- `Nxt(k)`: the sides `is_eq` of the next indices of a kind, in the order they are walked. -/
def nxts : ItemKind → List Bool
  | Terminal => []
  | Prefix => [true]
  | Split => [false, true]

/-- `is_eq>=*begin(Nxt(kind()))`: whether `nxt_if(is_eq)` is a field of the kind. -/
def hasNxt : ItemKind → Bool → Bool
  | Terminal, _ => false
  | Prefix, isEq => isEq
  | Split, _ => true

end ItemKind

/-- `MaxSz`: the largest item, in quanta. -/
def MaxSz : Nat := 4

/-- What an instantiation of a prefix file fixes: the sizes and alignments of its types (`Idx`,
`Char`, `CharUint` as which a char is compared, `Data` and the header `ItemBase`), how a char reads
as a `CharUint` (`Prefix::rep`), and `Reverse`, whether keys are stored from their end. -/
structure Layout (C : Type) where
  idxSize : Nat
  idxAlign : Nat
  charSize : Nat
  charAlign : Nat
  charUintSize : Nat
  charUintAlign : Nat
  /-- `DataSizeOf`: `0` for a file without data. -/
  dataSize : Nat
  dataAlign : Nat
  baseAlign : Nat
  rep : C → Nat
  reverse : Bool

namespace Layout

variable {C : Type} (L : Layout C)

/-- `NBits<CharUint>`. -/
def nBits : Nat := 8 * L.charUintSize

def logSizeOfChar : Nat :=
  if L.charUintSize = 1 then 0 else if L.charUintSize = 2 then 1 else if L.charUintSize ≤ 4 then 2
  else 3

/-- `MaxChunkSz`: what the `chunk_sz` bit field holds. -/
def maxChunkSz : Nat := lsbMsk (7 - L.logSizeOfChar)

/-- The width of the `cmp_bit` bit field. -/
def cmpBitWidth : Nat := L.logSizeOfChar + 3

/-- `ChunkOfs`: the chunk starts after `prev` and the bit fields. -/
def chunkOfs : Nat := roundUp L.charAlign (roundUp 2 L.idxSize + 2)

/-- `BigData`: data is stored after the next indices rather than before. -/
def bigData : Bool := L.idxAlign < L.dataAlign

def minSplitSizeOf : Nat := roundUp L.charUintAlign L.chunkOfs + L.charUintSize + L.idxSize * 2

def minUsedSplitSizeOf : Nat := L.minSplitSizeOf + L.dataSize + L.charUintSize

/-- `ItemSizeOf`: the bytes of a quantum. -/
def itemSizeOf : Nat :=
  roundUp (max (max L.baseAlign L.charAlign) (max L.charUintAlign (max L.idxAlign L.dataAlign)))
    (max L.minSplitSizeOf (max (L.idxSize * 4) (divUp L.minUsedSplitSizeOf MaxSz)))

/-- `MinUsedSz`: a used item can become a `Split` without moving. -/
def minUsedSz : Nat := divUp L.minUsedSplitSizeOf L.itemSizeOf

def needSzChk : Bool := L.chunkOfs + L.maxChunkSz * L.charSize < L.itemSizeOf * MaxSz

/-- The chars of the largest item, where a chunk is stored. -/
def rawCap : Nat := (L.itemSizeOf * MaxSz - L.chunkOfs) / L.charSize

def endOfs (sz : Nat) : Nat := L.itemSizeOf * sz

def cmpValOfs (sz : Nat) (u : Bool) : Nat :=
  roundDown L.charUintAlign
    (L.endOfs sz - (roundUp L.charUintSize (L.dataSize * u.toNat + L.idxSize * 2) + L.charUintSize))

def chunkEndOfs (sz : Nat) (k : ItemKind) (u : Bool) : Nat :=
  if k = .Split then roundDown L.charAlign (L.cmpValOfs sz u)
  else roundDown L.charAlign (L.endOfs sz - (L.dataSize * u.toNat + L.idxSize * k.toNat))

/-- `s_max_chunk_sz(sz,k,used)`, computed in a `ChunkIdx` (`uint8_t`). -/
def sMaxChunkSz (sz : Nat) (k : ItemKind) (u : Bool) : Nat :=
  let chunkSz := (L.chunkEndOfs sz k u - L.chunkOfs) / L.charSize % 2 ^ 8
  if L.needSzChk then min chunkSz L.maxChunkSz else chunkSz

/-- `s_min_sz(k,used,chunk_sz)`: the fewest quanta for a chunk. -/
def sMinSz (k : ItemKind) (u : Bool) (chunkSz : Nat) : Except String Nat := do
  let maxChunkSz := L.sMaxChunkSz MaxSz k u
  swear (chunkSz ≤ maxChunkSz) "max_chunk_sz>=chunk_sz"
  let minSz := MaxSz - (maxChunkSz - chunkSz) / L.itemSizeOf
  pure (if u && minSz < L.minUsedSz then L.minUsedSz else minSz)

/-- `_s_large_enough_empty(sz,k,used)`, `k` the numeric kind. -/
def largeEnoughEmpty (sz k : Nat) (u : Bool) : Bool :=
  if !u then true
  else if sz < L.minUsedSz then false
  else
    let atEnd := L.dataSize + L.idxSize * k
    let atEnd := if k = 2 then roundUp L.charUintSize atEnd + L.charUintSize else atEnd
    L.chunkOfs + L.charSize + atEnd ≤ L.endOfs sz

/-- `s_cmp_bit(cmp_val,dvg_val)`: the number of leading bits on which two chars agree. -/
def sCmpBit (cmpVal dvgVal : Nat) : Nat := countlZero L.nBits ((cmpVal ^^^ dvgVal) % 2 ^ L.nBits)

/-- `char_at<Reverse>(name,pos)`. -/
def charAt [Inhabited C] (name : List C) (pos : Nat) : C :=
  name.getD (if L.reverse then name.length - 1 - pos else pos) default

/-- `char_at<Reverse>(name,psfx,pos)`: the key is `name` then `psfx`. -/
def charAt2 [Inhabited C] (name psfx : List C) (pos : Nat) : C :=
  if pos < name.length then L.charAt name pos else L.charAt psfx (pos - name.length)

end Layout

/-! ## Items -/

/-- `Item`: the header (`ItemBase`), the chunk storage and the fields at the end of the item. -/
structure Item (C D : Type) where
  prev : Nat
  sz : Nat
  kind : ItemKind
  used : Bool
  cmpBit : Nat
  chunkSz : Nat
  prevIsEq : Bool
  /-- The chunk storage: `chunk(i)` is `raw[chunk_sz-1-i]`. -/
  raw : List C
  nxtNeq : Nat
  nxtEq : Nat
  cmpVal : Nat
  data : D
  deriving DecidableEq, Repr

instance {C D : Type} [Inhabited D] : Inhabited (Item C D) :=
  ⟨⟨0, 1, .Terminal, false, 0, 0, true, [], 0, 0, 0, default⟩⟩

/-- `Dvg`: where a key leaves the trie. -/
inductive Dvg where
  | Cont
  | Dvg
  | Long
  | Match
  | Short
  | Unused
  deriving DecidableEq, Repr

/-- `+dvg`: the enum's value, in the order of its declaration. -/
def Dvg.toNat : Store.Dvg → Nat
  | .Cont => 0
  | .Dvg => 1
  | .Long => 2
  | .Match => 3
  | .Short => 4
  | .Unused => 5

namespace Item

variable {C D : Type} [DecidableEq C] [Inhabited C] [Inhabited D] (L : Layout C)

/-- `chunk(i)`, stored in reverse order. -/
def chunk (it : Item C D) (i : Nat) : C := it.raw.getD (it.chunkSz - 1 - i) default

/-- `chunk(i) = c`. -/
def setChunk (it : Item C D) (i : Nat) (c : C) : Item C D :=
  { it with raw := it.raw.set (it.chunkSz - 1 - i) c }

/-- The chunk, `chunk(0)` first. -/
def chunkList (it : Item C D) : List C := (List.range it.chunkSz).map it.chunk

/-- `nxt_if(is_eq)`. -/
def nxtIf (it : Item C D) (isEq : Bool) : Nat := if isEq then it.nxtEq else it.nxtNeq

/-- `nxt_if(is_eq) = v`. -/
def setNxtIf (it : Item C D) (isEq : Bool) (v : Nat) : Item C D :=
  if isEq then { it with nxtEq := v } else { it with nxtNeq := v }

/-- `nxt_if(is_eq)`, which asserts that the kind has that field. -/
def getNxt (it : Item C D) (isEq : Bool) : Except String Nat := do
  swear (it.kind.hasNxt isEq) "is_eq>=*begin(Nxt(kind()))"
  pure (it.nxtIf isEq)

/-- `max_chunk_sz()`. -/
def maxChunkSz (it : Item C D) : Nat := L.sMaxChunkSz it.sz it.kind it.used

/-- `min_sz()`. -/
def minSz (it : Item C D) : Except String Nat := L.sMinSz it.kind it.used it.chunkSz

/-- `may_mk_up_empty()`. -/
def mayMkUpEmpty (it : Item C D) : Bool := L.largeEnoughEmpty it.sz (it.kind.toNat + 1) it.used

/-- `may_use_empty()`. -/
def mayUseEmpty (it : Item C D) : Bool := L.largeEnoughEmpty it.sz it.kind.toNat true

/-- `dvg_before(dvg_val)`: the char differs from `cmp_val` before `cmp_bit`. -/
def dvgBefore (it : Item C D) (dvgVal : Nat) : Bool :=
  (it.cmpVal ^^^ dvgVal) % 2 ^ L.nBits &&& (msbMsk (L.nBits - 1 - it.cmpBit) <<< 1) % 2 ^ 64 != 0

/-- `dvg_at(dvg_val)`: the char differs from `cmp_val` at `cmp_bit`. -/
def dvgAt (it : Item C D) (dvgVal : Nat) : Bool :=
  (it.cmpVal ^^^ dvgVal) % 2 ^ L.nBits &&& (1 <<< (L.nBits - 1 - it.cmpBit)) % 2 ^ L.nBits != 0

/-- The constructor `Item(sz,kind,used,chunk_sz,cmp_val,cmp_bit)`: no link, value-initialised
data, a chunk to be filled. -/
def new (sz : Nat) (kind : ItemKind) (used : Bool) (chunkSz cmpVal cmpBit : Nat) :
    Except String (Item C D) := do
  swear (sz ≥ 1) "sz_>=1"
  swear (chunkSz ≤ L.sMaxChunkSz sz kind used) "chunk_sz_<=max_chunk_sz()"
  if cmpVal != 0 then swear (kind == .Split) "kind()==Kind::Split"
  pure ⟨0, sz, kind, used, cmpBit % 2 ^ L.cmpBitWidth, chunkSz, true,
    List.replicate L.rawCap default, 0, 0, if kind = .Split then cmpVal else 0, default⟩

/-- `fill_from(start,sz,from,from_start)`. -/
def fillFrom (it : Item C D) (start n : Nat) (src : Item C D) (srcStart : Nat) : Item C D :=
  (List.range n).foldl (fun it i => it.setChunk (start + i) (src.chunk (srcStart + i))) it

/-- The constructor from a key: the chunk is the key's chars from `start`. -/
def ofName (sz : Nat) (kind : ItemKind) (used : Bool) (name psfx : List C) (start chunkSz : Nat) :
    Except String (Item C D) := do
  let it ← new L sz kind used chunkSz 0 0
  pure <| (List.range chunkSz).foldl
    (fun it i => it.setChunk i (L.charAt2 name psfx (start + i))) it

/-- The constructor from an item: the chunk is the item's chunk from `start`. -/
def ofItem (sz : Nat) (kind : ItemKind) (used : Bool) (chunkSz : Nat) (src : Item C D)
    (start cmpVal cmpBit : Nat) : Except String (Item C D) := do
  let it ← new L sz kind used chunkSz cmpVal cmpBit
  pure (it.fillFrom 0 chunkSz src start)

/-- `prepend_from(from,start)`: the new chars go after the old ones in storage. -/
def prependFrom (it src : Item C D) (start : Nat) : Item C D :=
  let it := { it with chunkSz := it.chunkSz + (src.chunkSz - start) }
  it.fillFrom 0 (src.chunkSz - start) src start

/-- `append_from(from,sz)`: the old chars move up in storage, the new ones take their place. -/
def appendFrom (it src : Item C D) (n : Nat) : Item C D :=
  let prevSz := it.chunkSz
  let it := { it with chunkSz := prevSz + n }
  -- `fill_from(0,prev_sz,self,sz)` reads the item as it is being written
  let it := (List.range prevSz).foldl (fun it i => it.setChunk i (it.chunk (n + i))) it
  it.fillFrom prevSz n src 0

/-- `shorten_by(start)`: dropping the first chars is lowering `chunk_sz`. -/
def shortenBy (it : Item C D) (start : Nat) : Except String (Item C D) := do
  swear (start ≤ it.chunkSz) "start<=chunk_sz"
  pure { it with chunkSz := it.chunkSz - start }

/-- `_mk_down(keep_is_eq)`: the kept next index goes to the `is_eq` field. -/
def mkDownAux (it : Item C D) (keepIsEq : Bool) : Item C D :=
  let it := if !keepIsEq then { it with nxtEq := it.nxtNeq } else it
  { it with kind := it.kind.down }

/-- `mk_down(keep_is_eq)`: a `Split` with one side empty becomes a `Prefix`. -/
def mkDownSplit (it : Item C D) (keepIsEq : Bool) : Except String (Item C D) := do
  swear (it.kind == .Split) "kind()==Kind::Split"
  swear (it.nxtIf (!keepIsEq) == 0) "!nxt_if(!keep_is_eq)"
  pure (it.mkDownAux keepIsEq)

/-- `mk_down()`: a `Prefix` with no next item becomes a `Terminal`. -/
def mkDownPrefix (it : Item C D) : Except String (Item C D) := do
  swear (it.kind == .Prefix) "kind()==Kind::Prefix"
  swear (it.nxtEq == 0) "!nxt()"
  pure (it.mkDownAux true)

/-- `_mk_up(cmp_val,dvg_val)`: one more next index, empty. -/
def mkUpAux (it : Item C D) (cmpVal dvgVal : Nat) : Except String (Item C D) := do
  let it := { it with kind := it.kind.up }
  let it := it.setNxtIf (if it.kind = .Split then false else true) 0
  let it ← if it.kind = .Split then
      pure { it with cmpVal, cmpBit := L.sCmpBit cmpVal dvgVal % 2 ^ L.cmpBitWidth }
    else do
      swear (dvgVal == 0) "!dvg_val"
      pure it
  swear (it.chunkSz ≤ it.maxChunkSz L) "chunk_sz<=max_chunk_sz()"
  pure it

/-- `mk_up(cmp_val,dvg_val)`: a `Prefix` becomes a `Split`. -/
def mkUpPrefix (it : Item C D) (cmpVal dvgVal : Nat) : Except String (Item C D) := do
  swear (it.kind == .Prefix) "kind()==Kind::Prefix"
  it.mkUpAux L cmpVal dvgVal

/-- `mk_up()`: a `Terminal` becomes a `Prefix`. -/
def mkUpTerminal (it : Item C D) : Except String (Item C D) := do
  swear (it.kind == .Terminal) "kind()==Kind::Terminal"
  it.mkUpAux L 0 0

/-- `mk_used(used)`: the data is destroyed, or value-initialised. -/
def mkUsed (it : Item C D) (used : Bool) : Except String (Item C D) :=
  if used == it.used then pure it
  else do
    let it := { it with used, data := default }
    swear (it.chunkSz ≤ it.maxChunkSz L) "chunk_sz<=max_chunk_sz()"
    pure it

/-- `need_mk_min_sz()`. -/
def needMkMinSz (it : Item C D) : Except String Bool := do
  let minSz ← it.minSz L
  swear (minSz ≤ it.sz) "min_sz()<=sz()"
  pure (minSz < it.sz)

/-- `mk_min_sz()`: the fields at the end move down, the freed quanta go back at `_commit`. -/
def mkMinSz (it : Item C D) : Except String (Item C D) := do
  let need ← it.needMkMinSz L
  swear need "need_mk_min_sz()"
  let minSz ← it.minSz L
  pure { it with sz := minSz }

/-- `dvg_char(pos,dvg_val)`: the char at `pos`, or `cmp_val` past the chunk of a `Split`. -/
def dvgChar (it : Item C D) (pos dvgVal : Nat) : Except String Nat :=
  if !(it.kind == .Split && it.chunkSz == pos) then pure (L.rep (it.chunk pos))
  else do
    swear (L.sCmpBit it.cmpVal dvgVal < it.cmpBit) "s_cmp_bit(cmp_val(),dvg_val) < cmp_bit"
    pure it.cmpVal

/-- The comparison loops of `find_dvg`: whether the `n` next chars of the key match the chunk,
and the positions reached. -/
def matchChunk (it : Item C D) (name psfx : List C) : Nat → Nat → Nat → Bool × Nat × Nat
  | 0, chunkPos, namePos => (true, chunkPos, namePos)
  | n + 1, chunkPos, namePos =>
    if L.charAt2 name psfx namePos != it.chunk chunkPos then (false, chunkPos, namePos)
    else matchChunk it name psfx n (chunkPos + 1) (namePos + 1)

/-- `find_dvg(idx,chunk_pos,name_pos,name,psfx)`: how the key goes on from `name_pos` through
the item from `chunk_pos`: the status, the next item (if `Cont`) and both positions. -/
def findDvg (it : Item C D) (idx chunkPos namePos : Nat) (name psfx : List C) :
    Dvg × Nat × Nat × Nat :=
  let totalSz := name.length + psfx.length
  let totalEndPos := min totalSz (namePos + it.chunkSz - chunkPos)
  match matchChunk L it name psfx (totalEndPos - namePos) chunkPos namePos with
  | (false, chunkPos, namePos) => (.Dvg, idx, chunkPos, namePos)
  | (true, chunkPos, namePos) =>
    if chunkPos < it.chunkSz then (.Short, idx, chunkPos, namePos)
    else if namePos = totalSz then (if it.used then .Match else .Unused, idx, chunkPos, namePos)
    else match it.kind with
      | .Terminal => (.Long, idx, chunkPos, namePos)
      | .Prefix => (.Cont, it.nxtEq, chunkPos, namePos)
      | .Split =>
        let dvgVal := L.rep (L.charAt2 name psfx namePos)
        if it.dvgBefore L dvgVal then (.Dvg, idx, chunkPos, namePos)
        else (.Cont, it.nxtIf !(it.dvgAt L dvgVal), chunkPos, namePos)

end Item

/-! ## Backups -/

/-- `SaveItem`: the header, the next indices, `cmp_val` and the data of an item; not its chunk. -/
structure SaveItem (C D : Type) where
  prev : Nat
  sz : Nat
  kind : ItemKind
  used : Bool
  cmpBit : Nat
  chunkSz : Nat
  prevIsEq : Bool
  nxtNeq : Nat
  nxtEq : Nat
  cmpVal : Nat
  data : D
  deriving DecidableEq, Repr

namespace SaveItem

variable {C D : Type}

/-- `save(from)`. -/
def save (it : Item C D) : SaveItem C D :=
  ⟨it.prev, it.sz, it.kind, it.used, it.cmpBit, it.chunkSz, it.prevIsEq, it.nxtNeq, it.nxtEq,
    it.cmpVal, it.data⟩

/-- `restore(to)`: the header, then the fields that the saved kind and `used` have. -/
def restore (s : SaveItem C D) (it : Item C D) : Item C D :=
  let it := { it with
    prev := s.prev, sz := s.sz, kind := s.kind, used := s.used, cmpBit := s.cmpBit,
    chunkSz := s.chunkSz, prevIsEq := s.prevIsEq }
  let it := s.kind.nxts.foldl
    (fun it isEq => it.setNxtIf isEq (if isEq then s.nxtEq else s.nxtNeq)) it
  let it := if s.kind = .Split then { it with cmpVal := s.cmpVal } else it
  if s.used then { it with data := s.data } else it

end SaveItem

/-! ## What a backup restores

A backup holds the header of an item and the fields at its end, not its chunk: restoring it brings
the item back as long as its chunk storage below the saved `chunk_sz` is intact, which
`shorten_by` and `prepend_from` ensure. -/

namespace Item

variable {C D : Type} [Inhabited C]

omit [Inhabited C] in
@[simp] theorem chunkSz_setChunk (it : Item C D) (i : Nat) (c : C) :
    (it.setChunk i c).chunkSz = it.chunkSz := rfl

@[simp] theorem chunkSz_fillFrom (it src : Item C D) (start n srcStart : Nat) :
    (it.fillFrom start n src srcStart).chunkSz = it.chunkSz := by
  induction n with
  | zero => rfl
  | succ n ih =>
    simp only [fillFrom, List.range_succ, List.foldl_append, List.foldl_cons, List.foldl_nil,
      chunkSz_setChunk] at ih ⊢
    exact ih

end Item

namespace SaveItem

variable {C D : Type}

end SaveItem

end Store
