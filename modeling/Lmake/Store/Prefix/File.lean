import Lmake.Store.Prefix.Item

/-!
# The prefix file: insertion, removal and recovery

`MultiPrefixFile` keeps tries in the items of an `AllocFile`, each trie from a root made by
`emplace_root`.  `insert` walks the trie along the key (`DvgDigest`, item after item through
`find_dvg`) and, where the key leaves it, `_insert` builds the new branch and hooks it in with
`_branch`, which cuts an item in two (`_cut_with`), turns it into one with one more next index
(`mk_up`), or inserts a `Split` after it.  `pop` unhooks a key's item and the items that only led to
it, and turns the item above into one with one less next index (`mk_down`).  Both keep items
small (`_minimize_sz`) and merge an unused `Prefix` into the next item when it fits
(`_compress_after`), which may move chars to a new or previous item (`_add_prefix`).

These operations are transactional.  Before its first write to an item of the trie, an operation
saves the item (`_backup`, in the `save` array of the file's header), choosing by hand, through the
`Bu` flags of each helper, which items are still to be saved; `_commit` then empties the array and
only then frees the items left out of the trie.  After a crash, opening the file restores the saved
items in order (`recover`).

The model is a state monad over the file, whose failures are the source's assertions and, when
`crashAtCommit` is set, a crash just before `_commit`, which returns the file as it stands there.
The source's loops (`DvgDigest`, the walk back in `_pop`, the recursive `_compress_after`) are
bounded by a fuel: the number of slots of the file, which a walk along a trie never reaches.
-/

set_option autoImplicit false

namespace Store

open Lmake

/-- How an operation stops early: a failed assertion, or a crash, with the file at that point. -/
inductive Stop (σ : Type) where
  | fail (msg : String)
  | crash (st : σ)
  deriving DecidableEq, Repr

/-- A `MultiPrefixFile`: its items, the saved items (`save[0..n_saved)`), the pops and size
reductions `_commit` is to do, and whether the next `_commit` is where the process crashes. -/
structure PrefixFile (C D : Type) where
  alloc : AllocFile (Item C D)
  saves : List (Nat × SaveItem C D)
  scheduledPop : List Nat
  scheduledShorten : List (Nat × Nat)
  crashAtCommit : Bool
  deriving DecidableEq, Repr

/-- The operations of the file. -/
abbrev FileM (C D : Type) := StateT (PrefixFile C D) (Except (Stop (PrefixFile C D)))

/-- `DvgDigest`: where a key leaves a trie, and the longest used prefix of the key. -/
structure DvgDigest where
  dvg : Dvg
  namePos : Nat
  idx : Nat
  chunkPos : Nat
  usedPos : Nat
  usedIdx : Nat
  deriving DecidableEq, Repr

namespace PrefixFile

variable {C D : Type} [Inhabited D]

/-- A new file: no item. -/
def new : PrefixFile C D := ⟨AllocFile.new, [], [], [], false⟩

/-- `_at(idx)`. -/
def item (f : PrefixFile C D) (idx : Nat) : Item C D := f.alloc.get idx

/-- `init` of a writable file: restore the saved items in order, then commit. -/
def recover (f : PrefixFile C D) : PrefixFile C D :=
  ⟨f.saves.foldl (fun a s => a.set s.1 (s.2.restore (a.get s.1))) f.alloc, [], [], [], false⟩

end PrefixFile

namespace MultiPrefixFile

variable {C D : Type} [DecidableEq C] [Inhabited C] [DecidableEq D] [Inhabited D] (L : Layout C)

/-! ## Access -/

/-- `SWEAR(cond)`. -/
def check (cond : Bool) (msg : String) : FileM C D Unit :=
  if cond then pure () else throw (.fail msg)

/-- An item-level computation, whose failures are the file's. -/
def lift {α : Type} (e : Except String α) : FileM C D α :=
  match e with
  | .ok a => pure a
  | .error msg => throw (.fail msg)

/-- `_at(idx)`. -/
def item (idx : Nat) : FileM C D (Item C D) := return (← get).item idx

def setItem (idx : Nat) (it : Item C D) : FileM C D Unit :=
  modify fun f => { f with alloc := f.alloc.set idx it }

/-- Apply an item-level operation to the item at `idx`. -/
def updItem (idx : Nat) (g : Item C D → Except String (Item C D)) : FileM C D Unit := do
  setItem idx (← lift (g (← item idx)))

/-- `_at(idx).nxt_if(is_eq)`. -/
def nxtOf (idx : Nat) (isEq : Bool) : FileM C D Nat := do lift ((← item idx).getNxt isEq)

/-- `_backup<Bu>(idx)`: `Hdr::backup`, into the next slot of `save`. -/
def backup (bu : Bool) (idx : Nat) : FileM C D Unit := do
  if bu then
    let f ← get
    check (f.saves.length < 64) "n_saved<::size(save)"
    set { f with saves := f.saves ++ [(idx, SaveItem.save (f.item idx))] }

/-- `_commit()`: forget the saved items, then free what the operation left out of the trie. -/
def commit : FileM C D Unit := do
  let f ← get
  if f.crashAtCommit then throw (.crash f)
  let alloc := f.scheduledPop.foldl (fun a idx => a.pop MaxSz idx (a.get idx).sz) f.alloc
  let alloc ← lift <| f.scheduledShorten.foldlM
    (fun a s => a.shorten MaxSz s.1 s.2 (a.get s.1).sz) alloc
  set { f with alloc, saves := [], scheduledPop := [], scheduledShorten := [] }

def schedulePop (idx : Nat) : FileM C D Unit :=
  modify fun f => { f with scheduledPop := f.scheduledPop ++ [idx] }

def scheduleShorten (idx oldSz : Nat) : FileM C D Unit :=
  modify fun f => { f with scheduledShorten := f.scheduledShorten ++ [(idx, oldSz)] }

/-! ## New items -/

/-- `Base::emplace(sz,...)`. -/
def emplaceItem (it : Item C D) : FileM C D Nat := do
  let f ← get
  let (idx, alloc) := f.alloc.emplace MaxSz it.sz it
  set { f with alloc }
  pure idx

/-- `_emplace(k,used,name,psfx,start,chunk_sz)`. -/
def emplaceName (k : ItemKind) (used : Bool) (name psfx : List C) (start chunkSz : Nat) :
    FileM C D Nat := do
  let sz ← lift (L.sMinSz k used chunkSz)
  emplaceItem (← lift (Item.ofName L sz k used name psfx start chunkSz))

/-- `_emplace(k,used,idx,start,chunk_sz,cmp_val,cmp_bit)`. -/
def emplaceFrom (k : ItemKind) (used : Bool) (idx start chunkSz cmpVal cmpBit : Nat) :
    FileM C D Nat := do
  let sz ← lift (L.sMinSz k used chunkSz)
  emplaceItem (← lift (Item.ofItem L sz k used chunkSz (← item idx) start cmpVal cmpBit))

/-- `_emplace(k,used,idx,start,chunk_sz)`: a `Split` copies the comparison of the item. -/
def emplaceLike (k : ItemKind) (used : Bool) (idx start chunkSz : Nat) : FileM C D Nat := do
  if k = .Split then
    let it ← item idx
    check (it.kind == .Split) "item.kind()==Kind::Split"
    emplaceFrom L k used idx start chunkSz it.cmpVal it.cmpBit
  else emplaceFrom L k used idx start chunkSz 0 0

/-- `_emplace(k,cmp_val,cmp_bit)`: an unused item with an empty chunk. -/
def emplaceEmpty (k : ItemKind) (cmpVal cmpBit : Nat) : FileM C D Nat := do
  let sz ← lift (L.sMinSz k false 0)
  emplaceItem (← lift (Item.new L sz k false 0 cmpVal cmpBit))

/-- `emplace_root()`: an unused `Terminal` of `MinUsedSz` quanta. -/
def emplaceRoot : FileM C D Nat := do
  emplaceItem (← lift (Item.new L L.minUsedSz .Terminal false 0 0 0))

/-! ## Links -/

/-- `_lnk<BuF,BuT>(from,is_eq,to)`: `from(is_eq)->0->to` becomes `from(is_eq)->to`. -/
def lnk (buF buT : Bool) (src : Nat) (isEq : Bool) (dst : Nat) : FileM C D Unit := do
  backup buF src
  backup buT dst
  let d ← item dst
  check (d.prev == 0 && d.prevIsEq) "!to_item.prev && to_item.prev_is_eq"
  let nxt ← nxtOf src isEq
  check (nxt == 0) "!nxt"
  setItem src ((← item src).setNxtIf isEq dst)
  setItem dst { (← item dst) with prev := src, prevIsEq := isEq }

/-- `_unlnk<BuF,BuT>(from,is_eq,to)`: `from(is_eq)->to` becomes `from(is_eq)->0->to`. -/
def unlnk (buF buT : Bool) (src : Nat) (isEq : Bool) (dst : Nat) : FileM C D Unit := do
  backup buF src
  backup buT dst
  let nxt ← nxtOf src isEq
  check (nxt == dst) "nxt==to"
  setItem src ((← item src).setNxtIf isEq 0)
  setItem nxt { (← item nxt) with prev := 0, prevIsEq := true }

/-- `_unlnk_after<BuI,BuNxt>(idx,is_eq)`. -/
def unlnkAfter (buI buNxt : Bool) (idx : Nat) (isEq : Bool) : FileM C D Unit := do
  unlnk buI buNxt idx isEq (← nxtOf idx isEq)

/-- `_unlnk_after<BuI,BuNxt>(idx)`, on a `Prefix`. -/
def unlnkAfterPrefix (buI buNxt : Bool) (idx : Nat) : FileM C D Unit := do
  check ((← item idx).kind == .Prefix) "_at(idx).kind()==Kind::Prefix"
  unlnkAfter buI buNxt idx true

/-- `_unlnk_before<BuPrev,BuI>(idx)`. -/
def unlnkBefore (buPrev buI : Bool) (idx : Nat) : FileM C D Unit := do
  let it ← item idx
  unlnk buPrev buI it.prev it.prevIsEq idx

/-- `_mv_lnk_after<BuF,BuOldNxt,BuT>(from,is_eq,to)`. -/
def mvLnkAfter (buF buOldNxt buT : Bool) (src : Nat) (isEq : Bool) (dst : Nat) :
    FileM C D Unit := do
  unlnkAfter buF buOldNxt src isEq
  -- `from` already backed up
  lnk false buT src isEq dst

/-- `_mv_lnk_before<BuOldPrev,BuF,BuT>(from,is_eq,to)`. -/
def mvLnkBefore (buOldPrev buF buT : Bool) (src : Nat) (isEq : Bool) (dst : Nat) :
    FileM C D Unit := do
  unlnkBefore buOldPrev buT dst
  -- `to` already backed up
  lnk buF false src isEq dst

/-- `_pop_item<BuPrev,BuI>(idx)`: unhook an item with no next item, to be freed at commit. -/
def popItem (buPrev buI : Bool) (idx : Nat) : FileM C D Unit := do
  let it ← item idx
  for isEq in it.kind.nxts do
    check (it.nxtIf isEq == 0) "!item.nxt_if(is_eq)"
  unlnkBefore buPrev buI idx
  schedulePop idx

/-- `_erase_prefix<BuPrev,BuI,BuNxt>(idx)`: `...->idx->...` becomes `...->...`; the previous
item. -/
def erasePrefix (buPrev buI buNxt : Bool) (idx : Nat) : FileM C D Nat := do
  let it ← item idx
  check (it.kind == .Prefix && !it.used) "item.kind()==Kind::Prefix && !item.used"
  let nxt ← lift (it.getNxt true)
  unlnkAfterPrefix buI buNxt idx
  popItem buPrev false idx
  lnk false false it.prev it.prevIsEq nxt
  pure it.prev

/-- `_insert_between<BuB,BuA>(before,before_is_eq,idx,is_eq,after)`. -/
def insertBetween (buB buA : Bool) (before : Nat) (beforeIsEq : Bool) (idx : Nat) (isEq : Bool)
    (after : Nat) : FileM C D Unit := do
  unlnk buB buA before beforeIsEq after
  lnk false false before beforeIsEq idx
  lnk false false idx isEq after

/-- `_insert_before<BuPrev,BuA>(idx,is_eq,after)`. -/
def insertBefore (buPrev buA : Bool) (idx : Nat) (isEq : Bool) (after : Nat) : FileM C D Unit := do
  let a ← item after
  insertBetween buPrev buA a.prev a.prevIsEq idx isEq after

/-- `_insert_after<BuB,BuNxtEq>(before,before_is_eq,idx,is_eq)`. -/
def insertAfter (buB buNxtEq : Bool) (before : Nat) (beforeIsEq : Bool) (idx : Nat) (isEq : Bool) :
    FileM C D Unit := do
  check ((← item idx).kind != .Terminal) "_at(idx).kind()!=Kind::Terminal"
  insertBetween buB buNxtEq before beforeIsEq idx isEq (← nxtOf before beforeIsEq)

/-- `_insert_after<BuB,BuNxtEq,BuNxtNeq>(before,before_is_eq,idx)`: a `Split` takes both next
items of `before`'s side. -/
def insertAfterSplit (buB buNxtEq buNxtNeq : Bool) (before : Nat) (beforeIsEq : Bool) (idx : Nat) :
    FileM C D Unit := do
  check ((← item idx).kind == .Split) "_at(idx).kind()==Kind::Split"
  insertBetween buB buNxtEq before beforeIsEq idx beforeIsEq (← nxtOf before beforeIsEq)
  mvLnkBefore false false buNxtNeq idx (!beforeIsEq) (← nxtOf before !beforeIsEq)

/-- `_mv<BuPrev,BuO,BuNxt0,BuNxt1>(old_idx,new_idx)`: the new item takes the links of the old
one, which is freed at commit. -/
def mv (buPrev buO buNxt0 buNxt1 : Bool) (oldIdx newIdx : Nat) : FileM C D Unit := do
  let o ← item oldIdx
  check (o.kind == (← item newIdx).kind) "old_item.kind()==new_item.kind()"
  mvLnkAfter buPrev buO false o.prev o.prevIsEq newIdx
  if (← item oldIdx).kind == .Split then
    mvLnkBefore false false buNxt0 newIdx false (← nxtOf oldIdx false)
  if (← item oldIdx).kind != .Terminal then
    mvLnkBefore false false buNxt1 newIdx true (← nxtOf oldIdx true)
  schedulePop oldIdx

/-! ## Restructuring -/

/-- `_mk_down<BuI,BuNxt>(idx,keep_is_eq)`: a `Split` becomes a `Prefix`. -/
def mkDown (buI buNxt : Bool) (idx : Nat) (keepIsEq : Bool) : FileM C D Unit := do
  backup buI idx
  if !keepIsEq then
    let nxt ← nxtOf idx keepIsEq
    backup buNxt nxt
    setItem nxt { (← item nxt) with prevIsEq := true }
  updItem idx (·.mkDownSplit keepIsEq)

/-- `_mk_down<BuI>(idx)`: a `Prefix` becomes a `Terminal`. -/
def mkDownPrefix (buI : Bool) (idx : Nat) : FileM C D Unit := do
  backup buI idx
  updItem idx (·.mkDownPrefix)

/-- `_minimize_sz<Bu>(idx)`: whether the item was made smaller; the root never is. -/
def minimizeSz (bu : Bool) (idx : Nat) : FileM C D Bool := do
  let it ← item idx
  if it.prev == 0 then return false
  if !(← lift (it.needMkMinSz L)) then return false
  backup bu idx
  updItem idx (·.mkMinSz L)
  scheduleShorten idx it.sz
  return true

/-- `_compress_after<BuPrev,BuI,BuNxt>(idx)`: merge an unused `Prefix` into its next item if the
chunks fit, then try the item before; whether it merged, and the item now there. -/
def compressAfter : Bool → Bool → Bool → Nat → Nat → FileM C D (Bool × Nat)
  | _, _, _, 0, _ => throw (.fail "fuel")
  | buPrev, buI, buNxt, fuel + 1, idx => do
    let it ← item idx
    -- the root is never merged: it must stay ready to hold its largest content
    if it.prev == 0 || it.kind != .Prefix || it.used then return (false, idx)
    let nxt ← lift (it.getNxt true)
    let n ← item nxt
    if it.chunkSz + n.chunkSz > n.maxChunkSz L then return (false, idx)
    backup buNxt nxt
    setItem nxt (n.prependFrom (← item idx) 0)
    -- `nxt` already backed up
    let prev ← erasePrefix buPrev buI false idx
    -- `idx` and `nxt` already backed up, the new previous item of `nxt` is not
    if prev != 0 then discard <| compressAfter true false false fuel prev
    return (true, nxt)

/-- `_compress_before<BuPrev2,BuPrev,BuI>(idx)`. -/
def compressBefore (buPrev2 buPrev buI : Bool) (fuel idx : Nat) : FileM C D Bool := do
  let prev := (← item idx).prev
  if prev == 0 then return false
  return (← compressAfter L buPrev2 buPrev buI fuel prev).1

/-- `_add_prefix<BuPrev2,BuPrev,BuI>(idx,chunk_sz,max_chunk_sz)`: move the chars of the item
beyond `max_chunk_sz` to the previous item if it is an unused `Prefix` with room, else to a new
`Prefix` before it; the number of chars moved. -/
def addPrefix (buPrev2 buPrev buI : Bool) (fuel idx chunkSz maxChunkSz : Nat) : FileM C D Nat := do
  if chunkSz ≤ maxChunkSz then return 0
  let prefixChunkSz := chunkSz - maxChunkSz
  let it ← item idx
  let p ← item it.prev
  if !p.used && p.prev != 0 && p.kind == .Prefix && p.chunkSz + prefixChunkSz ≤ p.maxChunkSz L
  then
    backup buPrev it.prev
    backup buI idx
    setItem it.prev ((← item it.prev).appendFrom (← item idx) prefixChunkSz)
    -- `idx` is not minimized: the caller does it
    updItem idx (·.shortenBy prefixChunkSz)
  else
    let pfx ← emplaceLike L .Prefix false idx 0 prefixChunkSz
    insertBefore buPrev buI pfx true idx
    updItem idx (·.shortenBy prefixChunkSz)
    -- the previous item is already backed up, `pfx` was not in the trie
    discard <| compressBefore L buPrev2 false false fuel pfx
  return prefixChunkSz

/-- `_cut_with<BuPrev2,BuPrev,BuI,BuNxt>(idx,pos,k,used,cmp_val,dvg_val)`: a new item of kind `k`
takes the first `pos` chars of the item, before it. -/
def cutWith (buPrev2 buPrev buI buNxt : Bool) (fuel idx pos : Nat) (k : ItemKind) (used : Bool)
    (cmpVal dvgVal : Nat) : FileM C D Nat := do
  let it ← item idx
  backup buI idx
  backup buPrev it.prev
  check (pos < it.chunkSz) "pos<item.chunk_sz"
  if k == .Prefix then check (pos > 0) "pos>0"
  -- the previous item and `idx` are already backed up
  let pos := pos - (← addPrefix L buPrev2 false false fuel idx pos (L.sMaxChunkSz MaxSz k used))
  let dvg ← emplaceFrom L k used idx 0 pos cmpVal (L.sCmpBit cmpVal dvgVal)
  updItem idx (·.shortenBy pos)
  insertBefore false false dvg true idx
  let (compressed, idx) ← compressAfter L false false buNxt fuel idx
  if !compressed then discard <| minimizeSz L false idx
  discard <| compressBefore L false false false fuel dvg
  return dvg

/-- `_branch<BuPrev2,BuPrev,BuI,BuNxt0,BuNxt1>(idx,pos,dvg_val)`: make room at `pos` in the item
for a new next item on the `!is_eq` side; the item where the branch goes. -/
def branch (buPrev2 buPrev buI buNxt0 buNxt1 : Bool) (fuel idx pos dvgVal : Nat) :
    FileM C D Nat := do
  backup buI idx
  let it ← item idx
  if pos < it.chunkSz then
    return ← cutWith L buPrev2 buPrev false buNxt1 fuel idx pos .Split false (L.rep (it.chunk pos))
      dvgVal
  if it.kind == .Split then
    -- an empty `Split` with the old comparison goes after the item, which compares earlier
    let cmpBit := L.sCmpBit it.cmpVal dvgVal
    check (cmpBit < it.cmpBit) "cmp_bit<item.cmp_bit"
    let cpy ← emplaceEmpty L .Split it.cmpVal it.cmpBit
    setItem idx { (← item idx) with cmpBit := cmpBit % 2 ^ L.cmpBitWidth }
    insertAfterSplit false buNxt1 buNxt0 idx true cpy
    return idx
  let cmpVal ← if it.kind == .Prefix then do lift ((← item it.nxtEq).dvgChar L 0 dvgVal) else pure 0
  if it.mayMkUpEmpty L then
    discard <| addPrefix L buPrev2 buPrev false fuel idx (← item idx).chunkSz
      (L.sMaxChunkSz it.sz it.kind.up it.used)
    if it.kind == .Prefix then updItem idx (·.mkUpPrefix L cmpVal dvgVal)
    else updItem idx (·.mkUpTerminal L)
    discard <| minimizeSz L false idx
    return idx
  -- a used `Prefix` too small to become a `Split`: an empty `Split` goes after it
  check (it.prev != 0) "+item.prev"
  check (it.kind == .Prefix) "kind==Kind::Prefix"
  check it.used "item.used"
  let newIdx ← emplaceEmpty L .Split cmpVal (L.sCmpBit cmpVal dvgVal)
  insertAfter false buNxt1 idx true newIdx true
  return newIdx

/-! ## Transactions -/

/-- The path `EnlargeItem` of `_use`: a used copy of the item takes its place. -/
def useEnlarge (fuel idx : Nat) (kind : ItemKind) (chunkSz : Nat) : FileM C D Nat := do
  let newIdx ← emplaceLike L kind true idx 0 chunkSz
  mv true false true true idx newIdx
  -- the previous item is already backed up
  discard <| compressBefore L true false true fuel newIdx
  commit
  return newIdx

/-- The path `InPlaceWithPrefix` of `_use`: the item becomes used where it is. -/
def useInPlace (fuel idx : Nat) : FileM C D Nat := do
  let it ← item idx
  discard <| addPrefix L true true false fuel idx it.chunkSz (L.sMaxChunkSz it.sz it.kind true)
  updItem idx (·.mkUsed L true)
  discard <| minimizeSz L false idx
  commit
  return idx

/-- `_use(idx)`: the key that ends at the end of the item's chunk is inserted. -/
def use (fuel idx : Nat) : FileM C D Nat := do
  backup true idx
  let it ← item idx
  check (!it.used) "!item.used"
  check (it.chunkSz != 0 || it.prev == 0) "chunk_sz || !item.prev"
  if it.mayUseEmpty L then return ← useInPlace L fuel idx
  check (it.prev != 0) "+item.prev"
  if it.kind != .Split then return ← useEnlarge L fuel idx it.kind it.chunkSz
  if it.prev == 0 || L.sMaxChunkSz MaxSz it.kind true < it.chunkSz then
    -- `InsertSplitAfter`: an empty `Split` takes the comparison, the item becomes a `Prefix`
    check (it.kind == .Split) "kind==Kind::Split"
    insertAfterSplit false true true idx true (← emplaceEmpty L .Split it.cmpVal it.cmpBit)
    updItem idx (·.mkDownSplit true)
    useInPlace L fuel idx
  else useEnlarge L fuel idx it.kind it.chunkSz

/-- `_cut(idx,pos)`: the key that ends at `pos` in the item's chunk is inserted. -/
def cut (fuel idx pos : Nat) : FileM C D Nat := do
  if pos == (← item idx).chunkSz then return ← use L fuel idx
  let res ← cutWith L true true true true fuel idx pos .Prefix true 0 0
  commit
  return res

/-- The loop of `_insert` that builds the `Prefix` items of a new branch, before its
`Terminal`: the first item of the branch, the last one and the position reached. -/
def mkChain (name psfx : List C) (totalSz : Nat) :
    Nat → Nat → Nat → Nat → FileM C D (Nat × Nat × Nat)
  | 0, branchIdx, prevIdx, pos => pure (branchIdx, prevIdx, pos)
  | fuel + 1, branchIdx, prevIdx, pos => do
    if pos + L.sMaxChunkSz MaxSz .Terminal true < totalSz then
      let chunkSz := min (totalSz - (pos + L.sMaxChunkSz L.minUsedSz .Terminal true))
        (L.sMaxChunkSz MaxSz .Prefix false)
      let newIdx ← emplaceName L .Prefix false name psfx pos chunkSz
      -- not in the trie yet
      let branchIdx ← if branchIdx != 0 then do lnk false false prevIdx true newIdx; pure branchIdx
        else pure newIdx
      mkChain name psfx totalSz fuel branchIdx newIdx (pos + chunkSz)
    else pure (branchIdx, prevIdx, pos)

/-- `_insert(idx,chunk_pos,name,psfx,pos)`: insert the key, which leaves the trie at `chunk_pos`
of the item and `pos` of the key. -/
def insertAt (fuel idx chunkPos : Nat) (name psfx : List C) (pos : Nat) : FileM C D Nat := do
  let totalSz := name.length + psfx.length
  check (pos ≤ totalSz) "pos<=total_sz"
  -- the new key is a prefix of an existing one
  if pos == totalSz then return ← cut L fuel idx chunkPos
  -- rather than an empty `Split` after a `Prefix`, the `Prefix` becomes a `Split`
  let prev := (← item idx).prev
  let (idx, chunkPos) ← if chunkPos == 0 && prev != 0 && (← item prev).kind == .Prefix then
      pure (prev, (← item prev).chunkSz)
    else pure (idx, chunkPos)
  let dvgVal := L.rep (L.charAt2 name psfx pos)
  let (branchIdx, prevIdx, pos) ← mkChain L name psfx totalSz (totalSz + 1) 0 0 pos
  let res ← emplaceName L .Terminal true name psfx pos (totalSz - pos)
  let branchIdx ← if branchIdx != 0 then do lnk false false prevIdx true res; pure branchIdx
    else pure res
  let idx ← branch L true true true true true fuel idx chunkPos dvgVal
  -- `idx` already backed up, the branch was not in the trie
  lnk false false idx ((← item idx).kind == .Prefix) branchIdx
  commit
  return res

/-- The walk back of `_pop`, from a `Terminal`, over the unused `Prefix` items that only lead to
it: the first item of the branch, and the item before it. -/
def walkBack : Nat → Nat → FileM C D (Nat × Nat)
  | 0, _ => throw (.fail "fuel")
  | fuel + 1, idx => do
    let prev := (← item idx).prev
    let p ← item prev
    -- the root may be an unused `Terminal`
    if p.kind == .Prefix && !p.used && p.prev != 0 then walkBack fuel prev else pure (idx, prev)

/-- The walk forward of `_pop`, after the commit: free the items of the branch. -/
def popChain : Nat → Nat → FileM C D Unit
  | 0, _ => throw (.fail "fuel")
  | fuel + 1, nxt => do
    let n ← item nxt
    modify fun f => { f with alloc := f.alloc.pop MaxSz nxt n.sz }
    if n.kind != .Terminal then popChain fuel (← lift (n.getNxt true))

/-- `_pop(idx)`: the key of the item is removed. -/
def popAt (fuel idx : Nat) : FileM C D Unit := do
  let it ← item idx
  check it.used "item->used"
  if it.kind == .Terminal && it.prev != 0 then
    let (nxt, idx) ← walkBack fuel idx
    let it ← item idx
    check (it.kind != .Terminal) "item->kind()!=Kind::Terminal"
    if it.kind == .Split then
      let isEq := (← item nxt).prevIsEq
      unlnkBefore true true nxt
      mkDown false true idx !isEq
    else
      unlnkBefore true true nxt
      mkDownPrefix false idx
    -- `idx` and `nxt` already backed up
    let (compressed, idx) ← compressAfter L true false false fuel idx
    -- `idx` and the previous item already backed up
    let compressedBefore ← compressBefore L true false false fuel idx
    if !(compressed || compressedBefore) then discard <| minimizeSz L false idx
    commit
    popChain fuel nxt
  else
    backup true idx
    updItem idx (·.mkUsed L false)
    let (compressed, idx) ← compressAfter L true false true fuel idx
    let compressedBefore ← compressBefore L true false false fuel idx
    if !(compressed || compressedBefore) then discard <| minimizeSz L false idx
    commit

/-! ## Searching -/

/-- The loop of `DvgDigest`, from `chunk_pos` `cp` in the first item: while the key goes on, the
next item, from its start; an item that is used where the key goes through (at a separator
`sep`, if given) is the longest used prefix so far. -/
def dvgLoop (f : PrefixFile C D) (name psfx : List C) (sep : Option C) :
    Nat → Nat → DvgDigest → DvgDigest
  | 0, _, d => d
  | fuel + 1, cp, d =>
    if d.dvg != .Cont then d
    else
      let it := f.item d.idx
      let (dvg, idx, chunkPos, namePos) := it.findDvg L d.idx cp d.namePos name psfx
      let atSep := match sep with
        | none => true
        | some sep => namePos == name.length + psfx.length || L.charAt2 name psfx namePos == sep
      let d' := { d with dvg, idx, chunkPos, namePos }
      let d' := if it.used && chunkPos == it.chunkSz && atSep then
          { d' with usedIdx := d.idx, usedPos := namePos }
        else d'
      dvgLoop f name psfx sep fuel 0 d'

/-- `DvgDigest(root,cp,f,n,psfx,np[,sep])`. -/
def dvgDigest (f : PrefixFile C D) (root cp : Nat) (name psfx : List C) (np : Nat)
    (sep : Option C) : DvgDigest :=
  dvgLoop L f name psfx sep (f.alloc.size + 1) cp ⟨.Cont, np, root, 0, 0, 0⟩

/-- `search(root,name,psfx)`: the item of the key, or `0`. -/
def search (f : PrefixFile C D) (root : Nat) (name psfx : List C) : Nat :=
  let d := dvgDigest L f root 0 name psfx 0 none
  if d.dvg == .Match then d.idx else 0

/-- `longest(root,name,psfx)`: the item of the longest key that is a prefix of the key, and its
length. -/
def longest (f : PrefixFile C D) (root : Nat) (name psfx : List C) : Nat × Nat :=
  let d := dvgDigest L f root 0 name psfx 0 none
  (d.usedIdx, d.usedPos)

/-- `insert(root,name,psfx)`: the item of the key, and whether it is new. -/
def insert (root : Nat) (name psfx : List C) : FileM C D (Nat × Bool) := do
  let f ← get
  let d := dvgDigest L f root 0 name psfx 0 none
  if d.dvg == .Match then return (d.idx, false)
  let res ← insertAt L (f.alloc.size + 1) d.idx d.chunkPos name psfx d.namePos
  check ((← item res).data == default) "at(res)==DataNv()"
  return (res, true)

/-- `pop(idx)`. -/
def pop (idx : Nat) : FileM C D Unit := do
  popAt L ((← get).alloc.size + 1) idx

/-- The loop of `insert_shorten_by`: walk back `n` chars from the item and insert the key that
ends there. -/
def shortenByLoop (fuel : Nat) : Nat → Nat → Nat → FileM C D Nat
  | 0, _, _ => pure 0
  | steps + 1, idx, n => do
    if idx == 0 then return 0
    let it ← item idx
    if n != 0 then
      if n < it.chunkSz then cut L fuel idx (it.chunkSz - n)
      else shortenByLoop fuel steps it.prev (n - it.chunkSz)
    else if it.used then pure idx
    else if it.chunkSz != 0 then use L fuel idx
    else shortenByLoop fuel steps it.prev 0

/-- `insert_shorten_by(idx,by)`: insert the key of the item without its last `by` chars. -/
def insertShortenBy (idx n : Nat) : FileM C D Nat := do
  let fuel := (← get).alloc.size + 1
  shortenByLoop L fuel fuel idx n

/-- The next separator of `insert_chain` after `pos`. -/
def nextSep (name : List C) (sep : C) : Nat → Nat → Nat
  | 0, pos => pos
  | fuel + 1, pos =>
    if pos < name.length && L.charAt name pos != sep then nextSep name sep fuel (pos + 1) else pos

/-- The loop of `insert_chain`: insert each prefix of the name that ends before a separator. -/
def chainLoop (name : List C) (sep : C) :
    Nat → Nat → Nat → List Nat → FileM C D (List Nat)
  | 0, _, _, created => pure created
  | fuel + 1, idx, sepPos, created => do
    if sepPos == name.length then return created
    let prevSepPos := sepPos
    let sepPos := nextSep L name sep name.length (sepPos + 1)
    let n := if L.reverse then name.drop (name.length - sepPos) else name.take sepPos
    let f ← get
    let d := dvgDigest L f idx (f.item idx).chunkSz n [] prevSepPos (some sep)
    let idx ← insertAt L (f.alloc.size + 1) d.idx d.chunkPos n [] d.namePos
    check ((← item idx).data == default) "at(idx)==DataNv()"
    chainLoop name sep fuel idx sepPos (created ++ [idx])

/-- `insert_chain(root,name,sep)`: insert all the prefixes of the name that end before a
separator; the longest one that was there, and those created. -/
def insertChain (root : Nat) (name : List C) (sep : C) : FileM C D (Nat × List Nat) := do
  let d := dvgDigest L (← get) root 0 name [] 0 (some sep)
  if d.dvg == .Match then return (d.usedIdx, [])
  check (d.usedPos < name.length) "dvg.used_pos<name.size()"
  let idx := if d.usedIdx != 0 then d.usedIdx else root
  return (d.usedIdx, ← chainLoop L name sep (name.length + 1) idx d.usedPos [])

/-! ## Reading -/

/-- The walk of `_key` from an item back to the root: the chunks of the key, the last one first,
each one as the source collects it (reversed for a `Reverse` file), without the last `psfxSz`
chars. -/
def keyPath (f : PrefixFile C D) : Nat → Nat → Nat → List (List C)
  | 0, _, _ => []
  | fuel + 1, idx, psfxSz =>
    if idx == 0 then []
    else
      let it := f.item idx
      if psfxSz ≥ it.chunkSz then keyPath f fuel it.prev (psfxSz - it.chunkSz)
      else
        let chunk := (List.range (it.chunkSz - psfxSz)).map it.chunk
        (if L.reverse then chunk.reverse else chunk) :: keyPath f fuel it.prev 0

/-- The fast path of `_key`, for `psfx_sz==0`: every chunk that is not empty. -/
def keyFastPath (f : PrefixFile C D) : Nat → Nat → List (List C)
  | 0, _ => []
  | fuel + 1, idx =>
    if idx == 0 then []
    else
      let it := f.item idx
      if it.chunkSz ≠ 0 then
        let chunk := (List.range it.chunkSz).map it.chunk
        (if L.reverse then chunk.reverse else chunk) :: keyFastPath f fuel it.prev
      else keyFastPath f fuel it.prev

/-- How `_key`, `_psfx` and `_key_psfx` put together the chunks they collect from an item back to
the root: a `Reverse` file appends them as it goes, the others replay them from the root. -/
def gather (path : List (List C)) : List C :=
  if L.reverse then path.flatten else path.reverse.flatten

/-- `_key(idx,psfx_sz)`: the key of an item, without its last `psfx_sz` chars; a `Reverse` file
gathers it from the item back, in reverse, which gives the key as it was given. -/
def key (f : PrefixFile C D) (idx psfxSz : Nat) : List C :=
  gather L (if psfxSz = 0 then keyFastPath L f (f.alloc.size + 1) idx
    else keyPath L f (f.alloc.size + 1) idx psfxSz)

/-- The walk of `_psfx`: the last `min(chunk_sz,psfx_sz)` chars of each chunk, until the item
whose chunk holds what is left of the `psfxSz` chars. -/
def psfxPath (f : PrefixFile C D) : Nat → Nat → Nat → List (List C)
  | 0, _, _ => []
  | fuel + 1, idx, psfxSz =>
    if idx == 0 then []
    else
      let it := f.item idx
      let n := min it.chunkSz psfxSz
      let chunk := (List.range n).map fun i => it.chunk (it.chunkSz - n + i)
      (if L.reverse then chunk.reverse else chunk) ::
        (if psfxSz > it.chunkSz then psfxPath f fuel it.prev (psfxSz - it.chunkSz) else [])

/-- `_psfx(idx,psfx_sz)`: the last `psfx_sz` chars of the key of an item (its first ones, as the
key was given, in a `Reverse` file). -/
def psfx (f : PrefixFile C D) (idx psfxSz : Nat) : List C :=
  gather L (psfxPath L f (f.alloc.size + 1) idx psfxSz)

/-- The walk of `_key_psfx`: the chunks of the key without its last `psfxSz` chars, and those of
these chars, from an item back to the root. -/
def keyPsfxPath (f : PrefixFile C D) : Nat → Nat → Nat → List (List C) × List (List C)
  | 0, _, _ => ([], [])
  | fuel + 1, idx, psfxSz =>
    if idx == 0 then ([], [])
    else
      let it := f.item idx
      if psfxSz ≥ it.chunkSz then
        let chunk := (List.range it.chunkSz).map it.chunk
        let r := keyPsfxPath f fuel it.prev (psfxSz - it.chunkSz)
        (r.1, (if L.reverse then chunk.reverse else chunk) :: r.2)
      else
        let sfx := (List.range psfxSz).map fun i => it.chunk (it.chunkSz - psfxSz + i)
        let pfx := (List.range (it.chunkSz - psfxSz)).map it.chunk
        let r := keyPsfxPath f fuel it.prev 0
        ((if L.reverse then pfx.reverse else pfx) :: r.1,
          (if psfxSz ≠ 0 then [if L.reverse then sfx.reverse else sfx] else []) ++ r.2)

/-- `_key_psfx(idx,psfx_sz)`: the key of an item cut before its last `psfx_sz` chars, in one walk. -/
def keyPsfx (f : PrefixFile C D) (idx psfxSz : Nat) : List C × List C :=
  let r := keyPsfxPath L f (f.alloc.size + 1) idx psfxSz
  (gather L r.1, gather L r.2)

/-- `_advance` of `Lst::Iterator`: the next item of a depth first walk from `start`, the
`!is_eq` side of a `Split` first; `k` tells where the walk comes from. -/
def advanceLoop (f : PrefixFile C D) (start : Nat) : Nat → Nat → ItemKind → Nat
  | 0, _, _ => 0
  | fuel + 1, idx, k =>
    let it := f.item idx
    if k != .Terminal then it.nxtIf (k == .Prefix)
    else if idx == start then 0
    else advanceLoop f start fuel it.prev (if it.prevIsEq then .Terminal else .Prefix)

/-- The walk of `lst(start)`: the used items from `idx` on. -/
def lstFrom (f : PrefixFile C D) (start : Nat) : Nat → Nat → List Nat
  | 0, _ => []
  | fuel + 1, idx =>
    if idx == 0 then []
    else
      let rest := lstFrom f start fuel
        (advanceLoop f start (f.alloc.size + 1) idx (f.item idx).kind)
      if (f.item idx).used then idx :: rest else rest

/-- `lst(root)`: the used items of the trie. -/
def lst (f : PrefixFile C D) (root : Nat) : List Nat :=
  lstFrom f root (3 * f.alloc.size + 1) root

/-! ## Checking -/

/-- `throw_unless(cond,msg)`. -/
def throwUnless (cond : Bool) (msg : String) : Except String Unit :=
  if cond then .ok () else .error msg

/-- What `_chk` checks of the link from an item to its next item on side `is_eq`, and of a
`Split`'s comparison against the first char of that item. -/
def chkNxt (f : PrefixFile C D) (idx : Nat) (isEq : Bool) : Except String Unit := do
  let it := f.item idx
  let nxt := it.nxtIf isEq
  let n := f.item nxt
  let side := "item(" ++ toString idx ++ ").nxt(" ++ toString isEq ++ ")"
  throwUnless (nxt != 0) (side ++ " is null")
  throwUnless (nxt < f.alloc.size) (side ++ " is out of range (" ++ toString f.alloc.size ++ ")")
  throwUnless (n.prev == idx) (side ++ ".prev is " ++ toString n.prev)
  throwUnless (n.prevIsEq == isEq) (side ++ ".prev_is_eq is" ++ toString n.prevIsEq)
  if it.kind == .Split then
    let nxtFirst ← if n.kind == .Split && n.chunkSz == 0 then do
        throwUnless (it.cmpBit < n.cmpBit) ("item(" ++ toString idx ++ ").cmp_bit (" ++
          toString it.cmpBit ++ ") is not lower than .nxt(" ++ toString isEq ++
          ").cmp_bit (" ++ toString n.cmpBit ++ ")")
        pure n.cmpVal
      else pure (L.rep (n.chunk 0))
    let msg := "item(" ++ toString idx ++ ").cmp_val is incompatible with .nxt(true).chunk(0) (" ++
      toString nxtFirst ++ ")"
    if isEq then throwUnless (L.sCmpBit it.cmpVal nxtFirst > it.cmpBit) msg
    else throwUnless (L.sCmpBit it.cmpVal nxtFirst == it.cmpBit) msg

/-- What `_chk` checks of an item against its previous item. -/
def chkPrev (f : PrefixFile C D) (idx : Nat) : Except String Unit := do
  let it := f.item idx
  let p := f.item it.prev
  let name := "item(" ++ toString idx ++ ")"
  throwUnless (p.kind != .Terminal) (name ++ ".prev=item(" ++ toString it.prev ++ ") is Terminal")
  let pn ← p.getNxt it.prevIsEq
  throwUnless (pn == idx) (name ++ ".prev.nxt(" ++ toString it.prevIsEq ++ ") is " ++
    toString pn)
  let first ← match it.kind with
    | .Terminal => do
      -- an unused `Terminal` only stands for an empty trie
      throwUnless it.used (name ++ " is Terminal and not used")
      throwUnless (it.chunkSz != 0) (name ++ " is Terminal with empty chunk")
      pure (L.rep (it.chunk 0))
    | .Prefix => do
      throwUnless (it.chunkSz != 0) (name ++ " is Prefix with empty chunk")
      if !it.used then
        -- else it should have been compressed
        let n := f.item it.nxtEq
        throwUnless (it.chunkSz + n.chunkSz > n.maxChunkSz L) (name ++ ".chunk_sz (" ++
          toString it.chunkSz ++ ") makes it mergeable with .nxt.chunk_sz (" ++
          toString (n.maxChunkSz L) ++ ")")
      pure (L.rep (it.chunk 0))
    | .Split => do
      if it.chunkSz == 0 then
        if p.kind == .Split then
          throwUnless (p.cmpBit < it.cmpBit) (name ++ ".prev.cmp_bit (" ++ toString p.cmpBit ++
            ") is not lower than .cmp_bit (" ++ toString it.cmpBit ++ ")")
        pure it.cmpVal
      else pure (L.rep (it.chunk 0))
  if p.kind == .Split then
    let msg := name ++ ".prev.cmp_val is incompatible with .chunk(0) (" ++ toString first ++ ")"
    if it.prevIsEq then throwUnless (L.sCmpBit p.cmpVal first > p.cmpBit) msg
    else throwUnless (L.sCmpBit p.cmpVal first == p.cmpBit) msg

/-- `_chk(idx,recurse_backward,recurse_forward)`: the number of used items checked. -/
def chkItem (f : PrefixFile C D) : Nat → Nat → Bool → Bool → Except String Nat
  | 0, _, _, _ => .error "fuel"
  | fuel + 1, idx, recurseBackward, recurseForward => do
    throwUnless (idx != 0) ("idx " ++ toString idx ++ " is null")
    throwUnless (idx < f.alloc.size) ("idx " ++ toString idx ++ " is out of range (" ++
      toString f.alloc.size ++ ")")
    let it := f.item idx
    let name := "item(" ++ toString idx ++ ")"
    -- the root is not minimized: it must stay ready to hold its largest content
    if it.prev != 0 then
      let minSz ← it.minSz L
      throwUnless (it.sz == minSz) (name ++ ".sz is non-minimum : " ++ toString it.sz ++ "!=" ++
        toString minSz)
    else
      throwUnless (it.sz == L.minUsedSz) ("root(" ++ toString idx ++ ").sz is non-minimum : " ++
        toString it.sz ++ "!=" ++ toString L.minUsedSz)
      throwUnless (it.chunkSz == 0) ("root(" ++ toString idx ++ ") must not have an empty chunk")
    let mut res := it.used.toNat
    for isEq in it.kind.nxts do
      chkNxt L f idx isEq
      if recurseForward then res := res + (← chkItem f fuel (it.nxtIf isEq) false true)
    if it.prev != 0 then
      chkPrev L f idx
      if recurseBackward then res := res + (← chkItem f fuel it.prev true false)
    else
      throwUnless it.prevIsEq ("item(" ++ toString idx ++ ") is root with !prev_is_eq")
    return res

/-- `chk(root)`: the trie of the root passes `_chk`. -/
def chk (f : PrefixFile C D) (root : Nat) : Except String Nat :=
  if root == 0 then .ok 0 else chkItem L f (f.alloc.size + 1) root false true


/-! ## Single prefix files -/

/-- `SinglePrefixFile::_boot()`: a new file gets its one root, `Root`. -/
def boot : FileM C D Unit := do
  let root ← emplaceRoot L
  check (root == 1) "root==Root"

end MultiPrefixFile

/-! ## What the primitives do -/

namespace MultiPrefixFile

variable {C D : Type}

@[simp] theorem run_setItem (idx : Nat) (it : Item C D) (f : PrefixFile C D) :
    (setItem idx it).run f = .ok ((), { f with alloc := f.alloc.set idx it }) := rfl

end MultiPrefixFile

end Store
