import Lmake.Store.Blocks
import Lmake.Store.Prefix.Item

/-!
# Vector files

A `VectorFile` (`store/vector.hh`) stores sequences of items in an `AllocFile` of `Chunk`s: the
index `0` stands for the empty sequence, and any other index for the chunk at that slot, which
holds its size `sz` and its items and spreads over `s_n_items(sz)` slots.  The file passes that
number of slots to the allocator, which checks it against the chunk it finds (`_chk_sz`), and
frees blocks of that size.  `assign` and `append` write in place while the chunk keeps its number
of slots, and move the sequence to a new block otherwise.

The model keeps a chunk as the list of its items and the file as an `AllocFile` of chunks, as
`Lmake.Store.Alloc` does, one chunk at the first slot of its block.  The sizes that `s_n_items`
computes with are those of the instantiation (`ChunkSizes`); `sz` has the width of the `Sz` of
the instantiation, and every size stored in it or passed to `s_n_items` is taken modulo `2^szBits`,
as the conversions of the source do.

## Main results

* `Stores`: what a file holds, as a map `M` from indices to sequences: the live indices hold
  the non-empty sequences of `M`, and the blocks of their chunks, of the size of the bucket of
  `n_items`, are apart from each other and from the free blocks.
* `step_spec`: each call (`Op`) keeps it (`CallSpec`), returns the index of the sequence the call
  is specified to make, `0` exactly when that sequence is empty, leaves the other sequences as
  they were and frees the block of its argument when it moves the sequence.  Every check on the
  way passes, when `Mantissa` is `1` to `8` and every sequence made fits `sz`.
* `vectorFile_refines`: so does every call, from every file that a sequence of calls made
  (`Reachable`).
* `emplace_replicate_two_pow`: a sequence of `2^szBits` items is stored with `sz = 0`, and
  `emplace_truncates`: `JobTgtsFile` loses `2^16` job targets so.
-/

set_option autoImplicit false

namespace Store

open Lmake

namespace Vector

/-- The sizes a `Chunk` is laid out with: the width of its `Sz`, `sizeof(Item)`, `MinSz`, and
`sizeof(ChunkBase)`, which holds `sz` and room for `MinSz` items. -/
structure ChunkSizes where
  szBits : Nat
  itemSize : Nat
  minSz : Nat
  baseSize : Nat
  /-- the base holds `sz` besides its items -/
  items_lt : minSz * itemSize < baseSize

namespace ChunkSizes

variable (L : ChunkSizes)

/-- A size converted to `Sz`. -/
def toSz (n : Nat) : Nat := n % 2 ^ L.szBits

/-- `Chunk::s_n_items(sz)`: the slots a chunk of `sz` items spreads over. -/
def sNItems (sz : Nat) : Nat :=
  divUp (L.baseSize - L.minSz * L.itemSize + sz * L.itemSize) L.baseSize

end ChunkSizes

/-- `Chunk`: its `sz` items. -/
structure Chunk (Item : Type) where
  items : List Item
  deriving DecidableEq, Repr, Inhabited

namespace Chunk

variable {Item : Type} (L : ChunkSizes)

/-- `Chunk(v)`: `sz` is `v.size()` converted to `Sz`, and that many items of `v` are copied. -/
def ofSpan (v : List Item) : Chunk Item := ⟨v.take (L.toSz v.length)⟩

/-- `n_items()`. -/
def nItems (c : Chunk Item) : Nat := L.sNItems c.items.length

/-- `shorten_by(by)`: the last `by` items are destroyed. -/
def shortenBy (c : Chunk Item) (n : Nat) : Except String (Chunk Item) := do
  swear (n < c.items.length) "by<sz"
  pure ⟨c.items.take (c.items.length - n)⟩

end Chunk

end Vector

/-! ## The allocator, when its data knows its size -/

namespace AllocFile

variable {E : Type} [Inhabited E] (nItems : E → Nat)

/-- `_n_items(idx)`. -/
def nItemsAt (af : AllocFile E) (idx : Nat) : Nat := if idx = 0 then 0 else nItems (af.get idx)

/-- `_chk_sz(idx,sz)`. -/
def chkSz (af : AllocFile E) (idx sz : Nat) : Except String Unit :=
  swear (sz == af.nItemsAt nItems idx) "sz==Idx(_n_items(idx))"

/-- `emplace(sz,args)`: `_emplace`, then `_chk_sz` on the new element. -/
def emplaceSz (mantissa : Nat) (af : AllocFile E) (sz : Nat) (e : E) :
    Except String (Nat × AllocFile E) := do
  let (res, af) := af.emplace mantissa sz e
  af.chkSz nItems res sz
  pure (res, af)

/-- `pop(idx)`: `_pop` with the size of the element. -/
def popNItems (mantissa : Nat) (af : AllocFile E) (idx : Nat) : AllocFile E :=
  af.pop mantissa idx (af.nItemsAt nItems idx)

/-- `shorten(idx,old_sz)`: `_shorten` to the size the element now has. -/
def shortenNItems (mantissa : Nat) (af : AllocFile E) (idx oldSz : Nat) :
    Except String (AllocFile E) :=
  af.shorten mantissa idx oldSz (af.nItemsAt nItems idx)

end AllocFile

/-! ## The file -/

namespace Vector

namespace VectorFile

open AllocFile

variable {Item : Type} (L : ChunkSizes) (mantissa : Nat)

/-- `size(idx)`. -/
def size (af : AllocFile (Chunk Item)) (idx : Nat) : Nat :=
  if idx = 0 then 0 else (af.get idx).items.length

/-- `view(idx)`. -/
def view (af : AllocFile (Chunk Item)) (idx : Nat) : List Item :=
  if idx = 0 then [] else (af.get idx).items

/-- `emplace(v)`. -/
def emplace (af : AllocFile (Chunk Item)) (v : List Item) :
    Except String (Nat × AllocFile (Chunk Item)) :=
  if v.isEmpty then pure (0, af)
  else af.emplaceSz (Chunk.nItems L) mantissa (L.sNItems (L.toSz v.length)) (Chunk.ofSpan L v)

/-- `emplace(x0,v)`: the chunk `Chunk(x0,v)` is `x0` followed by `v`, of `Sz(1+v.size())` items. -/
def emplaceCons (af : AllocFile (Chunk Item)) (x0 : Item) (v : List Item) :
    Except String (Nat × AllocFile (Chunk Item)) :=
  af.emplaceSz (Chunk.nItems L) mantissa (L.sNItems (L.toSz (v.length + 1)))
    (Chunk.ofSpan L (x0 :: v))

/-- `pop(idx)`. -/
def pop (af : AllocFile (Chunk Item)) (idx : Nat) : AllocFile (Chunk Item) :=
  if idx = 0 then af else af.popNItems (Chunk.nItems L) mantissa idx

/-- `shorten_by(idx,by)`: the chunk loses its last items in place, then the allocator frees the
slots it no longer spreads over. -/
def shortenBy (af : AllocFile (Chunk Item)) (idx n : Nat) :
    Except String (Nat × AllocFile (Chunk Item)) := do
  let sz := size af idx
  swear (n ≤ sz) "by<=sz"
  if n = sz then pure (0, pop L mantissa af idx)
  else
    let c ← (af.get idx).shortenBy n
    let af ← (af.set idx c).shortenNItems (Chunk.nItems L) mantissa idx (L.sNItems sz)
    pure (idx, af)

/-- `assign(idx,v)`: in place while the chunk keeps its number of slots, in a new block
otherwise. -/
def assign (af : AllocFile (Chunk Item)) (idx : Nat) (v : List Item) :
    Except String (Nat × AllocFile (Chunk Item)) :=
  if idx = 0 then emplace L mantissa af v
  else if v.isEmpty then pure (0, pop L mantissa af idx)
  else
    let oldN := (af.get idx).nItems L
    let newN := L.sNItems (L.toSz v.length)
    if newN ≠ oldN then
      (af.popNItems (Chunk.nItems L) mantissa idx).emplaceSz (Chunk.nItems L) mantissa newN
        (Chunk.ofSpan L v)
    -- the items are overwritten, destroyed or constructed up to `v.size()`, and `sz` is set
    else pure (idx, af.set idx (Chunk.ofSpan L v))

/-- `append(idx,v)`: in place while the chunk keeps its number of slots, in a new block
otherwise. -/
def append (af : AllocFile (Chunk Item)) (idx : Nat) (v : List Item) :
    Except String (Nat × AllocFile (Chunk Item)) :=
  if idx = 0 then emplace L mantissa af v
  else if v.isEmpty then pure (idx, af)
  else
    let c := af.get idx
    let oldN := c.nItems L
    let newN := L.sNItems (L.toSz (c.items.length + v.length))
    if newN > oldN then
      -- `both` is copied out of the chunk before its block is freed
      (af.popNItems (Chunk.nItems L) mantissa idx).emplaceSz (Chunk.nItems L) mantissa newN
        (Chunk.ofSpan L (c.items ++ v))
    -- `v` is constructed after the items, and `sz += v.size()`
    else pure (idx, af.set idx (Chunk.ofSpan L (c.items ++ v)))

end VectorFile

/-! ## Sizes -/

namespace ChunkSizes

variable (L : ChunkSizes)

/-- Every chunk spreads over one slot at least. -/
theorem sNItems_pos (sz : Nat) : 0 < L.sNItems sz := by
  have := L.items_lt
  simp only [sNItems, divUp]
  rw [if_neg (by omega)]
  exact Nat.succ_pos _

theorem sNItems_mono {a b : Nat} (h : a ≤ b) : L.sNItems a ≤ L.sNItems b := by
  have := L.items_lt
  have hab : a * L.itemSize ≤ b * L.itemSize := Nat.mul_le_mul_right _ h
  simp only [sNItems, divUp]
  rw [if_neg (by omega), if_neg (by omega)]
  exact Nat.succ_le_succ (Nat.div_le_div_right (by omega))

theorem toSz_of_lt {n : Nat} (h : n < 2 ^ L.szBits) : L.toSz n = n := Nat.mod_eq_of_lt h

end ChunkSizes

namespace Chunk

variable {Item : Type} (L : ChunkSizes)

theorem items_ofSpan_of_lt {v : List Item} (h : v.length < 2 ^ L.szBits) :
    (ofSpan L v).items = v := by
  simp [ofSpan, L.toSz_of_lt h]

/-- `n_items()` of a new chunk is what the file passed to the allocator. -/
theorem nItems_ofSpan (v : List Item) : (ofSpan L v).nItems L = L.sNItems (L.toSz v.length) := by
  have : L.toSz v.length ≤ v.length := Nat.mod_le _ _
  simp [nItems, ofSpan, this]

theorem shortenBy_of_lt (c : Chunk Item) {n : Nat} (h : n < c.items.length) :
    c.shortenBy n = .ok ⟨c.items.take (c.items.length - n)⟩ := by
  simp [shortenBy, h, swear, bind, Except.bind, pure, Except.pure]

end Chunk

end Vector

/-! ## What the allocator does for a vector file -/

namespace AllocFile

variable {E : Type} [Inhabited E] {nItems : E → Nat} {m : Nat} {af : AllocFile E}

theorem nItemsAt_of_ne {idx : Nat} (h : idx ≠ 0) : af.nItemsAt nItems idx = nItems (af.get idx) :=
  if_neg h

/-- In a file whose free lists hold blocks of the file, `_chk_sz` passes after `_emplace`. -/
theorem emplaceSz_eq (hw : af.Wf) {sz : Nat} {e : E} (he : nItems e = sz) :
    af.emplaceSz nItems m sz e = .ok (af.emplace m sz e) := by
  have hpos := pos_emplace m hw sz e
  have hget := get_emplace m hw sz e
  simp [emplaceSz, chkSz, nItemsAt_of_ne (Nat.pos_iff_ne_zero.mp hpos), hget, he, swear, bind,
    Except.bind, pure, Except.pure]

theorem get_pop (idx sz j : Nat) : (af.pop m idx sz).get j = af.get j := by
  unfold AllocFile.pop
  split <;> rfl

omit [Inhabited E] in
/-- `_pop` puts the block on the free list of its bucket. -/
theorem mem_freeList_pop {idx : Nat} (h : idx ≠ 0) (sz : Nat) :
    idx ∈ (af.pop m idx sz).freeList (bucket m sz) := by
  simp [AllocFile.pop, h, dealloc, freeList_setFree]

/-- A block on a free list stays there through `_emplace`, unless `_emplace` hands it out. -/
theorem mem_freeList_emplace {b i : Nat} (hi : i ∈ af.freeList b) (sz : Nat) (e : E) :
    (af.emplace m sz e).1 = i ∨ i ∈ (af.emplace m sz e).2.freeList b := by
  cases hf : af.freeList (bucket m sz) with
  | nil =>
    rw [emplace_of_freeList_nil hf, freeList_emplaceBack]
    exact .inr hi
  | cons res rest =>
    simp only [AllocFile.emplace, hf, freeList_set, freeList_setFree]
    by_cases hres : res = i
    · exact .inl hres
    · refine .inr ?_
      split
      · subst b
        rw [hf] at hi
        exact (List.mem_cons.mp hi).resolve_left (Ne.symm hres)
      · exact hi

end AllocFile

/-! ## What a file stores -/

namespace Vector

namespace VectorFile

open AllocFile

variable {Item : Type} {L : ChunkSizes} {m : Nat}

/-- The block of the chunk at `i`: as many slots as the bucket of its `n_items()` holds. -/
def blockOf (L : ChunkSizes) (m : Nat) (af : AllocFile (Chunk Item)) (i : Nat) : Nat × Nat :=
  (i, bucketSz m (bucket m ((af.get i).nItems L)))

/-- `af` stores the map `M` from indices to sequences, the chunks at the indices `live` holding
its non-empty sequences, and the blocks of these chunks, each sized by its `n_items()`, lying
apart from each other and from the free blocks. -/
structure Stores (L : ChunkSizes) (m : Nat) (af : AllocFile (Chunk Item)) (live : List Nat)
    (M : Nat → List Item) : Prop where
  nodup : live.Nodup
  blocks : af.BlocksApart m (live.map (blockOf L m af))
  items_eq : ∀ i ∈ live, (af.get i).items = M i
  nonempty : ∀ i ∈ live, M i ≠ []
  empty : ∀ i, i ∉ live → M i = []

variable {af : AllocFile (Chunk Item)} {live : List Nat} {M : Nat → List Item}

theorem Stores.inside (h : Stores L m af live M) {i : Nat} (hi : i ∈ live) :
    0 < i ∧ i < af.size := by
  have := h.blocks.inside _ (List.mem_append_left _ (List.mem_map_of_mem hi))
  simp only [blockOf] at this
  omega

theorem Stores.zero (h : Stores L m af live M) : M 0 = [] :=
  h.empty 0 fun h0 => Nat.lt_irrefl 0 (h.inside h0).1

theorem Stores.view_eq (h : Stores L m af live M) {i : Nat} (hi : i ∈ live) :
    view af i = M i := by
  rw [view, if_neg (Nat.pos_iff_ne_zero.mp (h.inside hi).1), h.items_eq i hi]

theorem Stores.mem_iff (h : Stores L m af live M) {i : Nat} : i ∈ live ↔ M i ≠ [] :=
  ⟨h.nonempty i, fun hM => Decidable.by_contra fun hi => hM (h.empty i hi)⟩

/-- A new file stores no sequence. -/
theorem stores_new : Stores L m (AllocFile.new : AllocFile (Chunk Item)) [] fun _ => [] where
  nodup := List.nodup_nil
  blocks := ⟨by simp [AllocFile.new, AllocFile.size], fun p hp => by
    simp [AllocFile.freeBlocks, AllocFile.new, blocksFrom] at hp, List.Pairwise.nil⟩
  items_eq _ hi := absurd hi List.not_mem_nil
  nonempty _ hi := absurd hi List.not_mem_nil
  empty _ _ := rfl

/-- The blocks of chunks that did not change. -/
theorem map_blockOf_congr {af' : AllocFile (Chunk Item)} {l : List Nat}
    (h : ∀ j ∈ l, af'.get j = af.get j) : l.map (blockOf L m af') = l.map (blockOf L m af) :=
  List.map_congr_left fun j hj => by simp only [blockOf, h j hj]

/-- A file whose chunks are those of `af` but for a new chunk `c` at the live index `i` stores
`M` updated at `i`, once the blocks of its chunks are apart. -/
theorem Stores.update (h : Stores L m af live M) {i : Nat} (hi : i ∈ live) {c : Chunk Item}
    (hc : c.items ≠ []) {af' : AllocFile (Chunk Item)} (hget : ∀ j, af'.get j = (af.set i c).get j)
    (hb : af'.BlocksApart m (live.map (blockOf L m af'))) :
    Stores L m af' live (Function.update M i c.items) where
  nodup := h.nodup
  blocks := hb
  items_eq j hj := by
    rw [hget]
    by_cases hji : j = i
    · subst hji
      rw [get_set_self _ _ _ (h.inside hj).2, Function.update_self]
    · rw [get_set_of_ne _ _ hji, Function.update_of_ne hji, h.items_eq j hj]
  nonempty j hj := by
    by_cases hji : j = i
    · subst hji
      rwa [Function.update_self]
    · rw [Function.update_of_ne hji]
      exact h.nonempty j hj
  empty j hj := by
    rw [Function.update_of_ne fun hji : j = i => hj (hji ▸ hi)]
    exact h.empty j hj

/-- A chunk written in place, over as many slots as the one it replaces. -/
theorem Stores.set (h : Stores L m af live M) {i : Nat} (hi : i ∈ live) {c : Chunk Item}
    (hc : c.items ≠ []) (hn : c.nItems L = (af.get i).nItems L) :
    Stores L m (af.set i c) live (Function.update M i c.items) := by
  refine h.update hi hc (fun _ => rfl) ?_
  have hsame : ∀ j ∈ live, blockOf L m (af.set i c) j = blockOf L m af j := fun j _ => by
    by_cases hji : j = i
    · subst hji
      simp only [blockOf, get_set_self _ _ _ (h.inside hi).2, hn]
    · simp only [blockOf, get_set_of_ne _ _ hji]
  rw [List.map_congr_left hsame]
  exact h.blocks.set i c

/-- The live blocks, the one at `i` first. -/
theorem Stores.blocks_erase (h : Stores L m af live M) {i : Nat} (hi : i ∈ live) :
    af.BlocksApart m (blockOf L m af i :: (live.erase i).map (blockOf L m af)) :=
  h.blocks.of_perm rfl (((List.perm_cons_erase hi).map (blockOf L m af)).symm.append_right _)

/-- `pop` of a live index puts its block on the free list of its bucket. -/
theorem Stores.pop (h : Stores L m af live M) {i : Nat} (hi : i ∈ live) :
    Stores L m (af.popNItems (Chunk.nItems L) m i) (live.erase i) (Function.update M i []) ∧
      i ∈ (af.popNItems (Chunk.nItems L) m i).freeList (bucket m (L.sNItems (M i).length)) := by
  have hi0 := Nat.pos_iff_ne_zero.mp (h.inside hi).1
  have hpop : af.popNItems (Chunk.nItems L) m i = af.pop m i ((af.get i).nItems L) := by
    rw [popNItems, nItemsAt_of_ne hi0]
  have hmem : ∀ {j}, j ∈ live.erase i ↔ j ≠ i ∧ j ∈ live := h.nodup.mem_erase_iff
  rw [hpop]
  refine ⟨⟨h.nodup.erase i, ?_, fun j hj => ?_, fun j hj => ?_, fun j hj => ?_⟩, ?_⟩
  · -- the block of `i` moves from the live blocks to the free ones
    rw [map_blockOf_congr fun j _ => get_pop i _ j]
    exact (h.blocks_erase hi).pop
  · rw [get_pop, Function.update_of_ne (hmem.mp hj).1, h.items_eq j (hmem.mp hj).2]
  · rw [Function.update_of_ne (hmem.mp hj).1]
    exact h.nonempty j (hmem.mp hj).2
  · by_cases hji : j = i
    · rw [hji, Function.update_self]
    · rw [Function.update_of_ne hji]
      exact h.empty j fun hj' => hj (hmem.mpr ⟨hji, hj'⟩)
  · rw [← h.items_eq i hi]
    exact mem_freeList_pop hi0 _

/-- `_emplace` of a new chunk over the slots it spreads over: `_chk_sz` passes, the chunk is live
at an index that was not, and the blocks on the free lists stay there unless handed out. -/
theorem Stores.emplace (hm : 0 < m) (h : Stores L m af live M) {c : Chunk Item}
    (hc : c.items ≠ []) :
    ∃ res af', af.emplaceSz (Chunk.nItems L) m (c.nItems L) c = .ok (res, af') ∧ 0 < res ∧
      res ∉ live ∧ Stores L m af' (res :: live) (Function.update M res c.items) ∧
      ∀ b i, i ∈ af.freeList b → res = i ∨ i ∈ af'.freeList b := by
  obtain ⟨res, af', he⟩ : ∃ res af', af.emplace m (c.nItems L) c = (res, af') := ⟨_, _, rfl⟩
  have hb := h.blocks.emplace hm (c.nItems L) c
  have hget := get_emplace m h.blocks.wf (c.nItems L) c
  have hpos := pos_emplace m h.blocks.wf (c.nItems L) c
  have hfree := fun b i (hi : i ∈ af.freeList b) => mem_freeList_emplace (m := m) hi (c.nItems L) c
  rw [he] at hb hget hpos hfree
  have hnot : res ∉ live := fun hr => hb.fst_ne_of_mem (List.mem_map_of_mem hr) rfl
  have hsame : ∀ j ∈ live, af'.get j = af.get j := fun j hj => by
    have := get_emplace_of_ne m (c.nItems L) c (h.inside hj).2
    rw [he] at this
    exact this (by rintro rfl; exact hnot hj)
  refine ⟨res, af', by rw [emplaceSz_eq h.blocks.wf rfl, he], hpos, hnot, ⟨?_, ?_, ?_, ?_, ?_⟩,
    hfree⟩
  · exact List.nodup_cons.mpr ⟨hnot, h.nodup⟩
  · rw [List.map_cons, map_blockOf_congr hsame]
    simpa only [blockOf, hget] using hb
  · intro j hj
    rcases List.mem_cons.mp hj with rfl | hj
    · rw [hget, Function.update_self]
    · rw [hsame j hj, Function.update_of_ne fun hjr : j = res => hnot (hjr ▸ hj), h.items_eq j hj]
  · intro j hj
    rcases List.mem_cons.mp hj with rfl | hj
    · rwa [Function.update_self]
    · rw [Function.update_of_ne fun hjr : j = res => hnot (hjr ▸ hj)]
      exact h.nonempty j hj
  · intro j hj
    rw [Function.update_of_ne fun hjr : j = res => hj (hjr ▸ List.mem_cons_self)]
    exact h.empty j fun hj' => hj (List.mem_cons_of_mem _ hj')

/-- `shorten_by` in place, to the first `k` items of a live chunk: `_shorten` frees the slots the
chunk no longer spreads over, and both of its checks pass. -/
theorem Stores.shorten (hm : 0 < m) (hm8 : m ≤ 8) (h : Stores L m af live M) {i k : Nat}
    (hi : i ∈ live) (hk : 0 < k) (hkle : k ≤ (M i).length) :
    ∃ af', (af.set i ⟨(M i).take k⟩).shortenNItems (Chunk.nItems L) m i
        (L.sNItems (M i).length) = .ok af' ∧
      Stores L m af' live (Function.update M i ((M i).take k)) := by
  have hlen : ((M i).take k).length = k := by simp [hkle]
  have hc : (M i).take k ≠ [] := List.ne_nil_of_length_pos (by rw [hlen]; exact hk)
  have hi0 := Nat.pos_iff_ne_zero.mp (h.inside hi).1
  have hget_i : (af.set i ⟨(M i).take k⟩).get i = ⟨(M i).take k⟩ :=
    get_set_self _ _ _ (h.inside hi).2
  have hat : (af.set i ⟨(M i).take k⟩).nItemsAt (Chunk.nItems L) i = L.sNItems k := by
    rw [nItemsAt_of_ne hi0, hget_i, Chunk.nItems, hlen]
  have hb : BlocksApart m (af.set i ⟨(M i).take k⟩)
      ((i, bucketSz m (bucket m ((af.get i).nItems L))) :: (live.erase i).map (blockOf L m af)) :=
    (h.blocks_erase hi).set i _
  rw [Chunk.nItems, h.items_eq i hi] at hb
  obtain ⟨af', hrun, hslots, hb'⟩ := hb.shorten_ok hm hm8 (L.sNItems_pos k) (L.sNItems_mono hkle)
  have hget : ∀ j, af'.get j = (af.set i ⟨(M i).take k⟩).get j := fun j => by
    simp only [AllocFile.get, hslots]
  refine ⟨af', by rw [shortenNItems, hat]; exact hrun, h.update hi hc hget ?_⟩
  -- the block of `i` is now the one of its new size, the others are as they were
  have hrest : (live.erase i).map (blockOf L m af') = (live.erase i).map (blockOf L m af) :=
    map_blockOf_congr fun j hj => by
      rw [hget, get_set_of_ne _ _ (h.nodup.mem_erase_iff.mp hj).1]
  have hperm := (List.perm_cons_erase hi).map (blockOf L m af')
  rw [List.map_cons, hrest, show blockOf L m af' i = (i, bucketSz m (bucket m (L.sNItems k))) by
    simp only [blockOf, hget, hget_i, Chunk.nItems, hlen]] at hperm
  exact hb'.of_perm rfl (hperm.append_right _)

/-! ## The calls -/

/-- What a call on `arg` must do to make the sequence `value`, when it returns `res` and leaves
`af'`, from a file storing `M`: `af'` stores `M` with the sequence of `arg` gone and `value` at
`res`; `res` is `0` exactly for the empty sequence, and is `arg` or an index that held nothing;
and when it is not `arg`, the block of `arg` is on the free list of its bucket. -/
structure CallSpec (L : ChunkSizes) (m : Nat) (M : Nat → List Item) (arg : Nat)
    (value : List Item) (res : Nat) (af' : AllocFile (Chunk Item)) : Prop where
  stores : ∃ live', Stores L m af' live' (Function.update (Function.update M arg []) res value)
  res_eq_zero : res = 0 ↔ value = []
  fresh : res = arg ∨ M res = []
  released : res ≠ arg → arg ≠ 0 → arg ∈ af'.freeList (bucket m (L.sNItems (M arg).length))

/-- A call that changes nothing and returns its argument, which holds `M arg`. -/
theorem Stores.callSpec_self (h : Stores L m af live M) {i : Nat} (hi : i = 0 ∨ i ∈ live) :
    CallSpec L m M i (M i) i af where
  stores := ⟨live, by rwa [Function.update_idem, Function.update_eq_self]⟩
  res_eq_zero := by
    rcases hi with rfl | hi
    · simp [h.zero]
    · simp [Nat.pos_iff_ne_zero.mp (h.inside hi).1, h.nonempty i hi]
  fresh := .inl rfl
  released hne := absurd rfl hne

/-- A call on `0` that makes a new chunk. -/
theorem Stores.callSpec_emplace (hm : 0 < m) (h : Stores L m af live M) {c : Chunk Item}
    (hc : c.items ≠ []) :
    ∃ res af', af.emplaceSz (Chunk.nItems L) m (c.nItems L) c = .ok (res, af') ∧
      CallSpec L m M 0 c.items res af' := by
  obtain ⟨res, af', hrun, hpos, hnot, hs, -⟩ := h.emplace hm hc
  have hM : Function.update M 0 [] = M := Function.update_eq_self_iff.mpr h.zero.symm
  exact ⟨res, af', hrun, ⟨⟨_, hM ▸ hs⟩, by simp [Nat.pos_iff_ne_zero.mp hpos, hc],
    .inr (h.empty res hnot), fun _ h0 => absurd rfl h0⟩⟩

/-- A call that moves a live sequence to a new chunk: `pop`, then `_emplace`. -/
theorem Stores.callSpec_move (hm : 0 < m) (h : Stores L m af live M) {i : Nat} (hi : i ∈ live)
    {c : Chunk Item} (hc : c.items ≠ []) :
    ∃ res af', (af.popNItems (Chunk.nItems L) m i).emplaceSz (Chunk.nItems L) m (c.nItems L) c =
      .ok (res, af') ∧ CallSpec L m M i c.items res af' := by
  obtain ⟨hp, hfree⟩ := h.pop hi
  obtain ⟨res, af', hrun, hpos, hnot, hs, hkeep⟩ := hp.emplace hm hc
  refine ⟨res, af', hrun, ⟨⟨_, hs⟩, by simp [Nat.pos_iff_ne_zero.mp hpos, hc], ?_, ?_⟩⟩
  · by_cases hri : res = i
    · exact .inl hri
    · exact .inr (h.empty res fun hr => hnot (h.nodup.mem_erase_iff.mpr ⟨hri, hr⟩))
  · intro hri _
    exact (hkeep _ _ hfree).resolve_left hri

/-- A call that leaves a new non-empty sequence at a live index, in place. -/
theorem Stores.callSpec_inPlace (h : Stores L m af live M) {i : Nat} (hi : i ∈ live)
    {value : List Item} (hv : value ≠ []) {af' : AllocFile (Chunk Item)}
    (hs : Stores L m af' live (Function.update M i value)) :
    CallSpec L m M i value i af' where
  stores := ⟨live, by rwa [Function.update_idem]⟩
  res_eq_zero := by simp [Nat.pos_iff_ne_zero.mp (h.inside hi).1, hv]
  fresh := .inl rfl
  released hne := absurd rfl hne

/-- A call that frees a live chunk and returns `0`. -/
theorem Stores.callSpec_pop (h : Stores L m af live M) {i : Nat} (hi : i ∈ live) :
    CallSpec L m M i [] 0 (af.popNItems (Chunk.nItems L) m i) where
  stores := by
    refine ⟨live.erase i, ?_⟩
    rw [Function.update_eq_self_iff.mpr]
    · exact (h.pop hi).1
    · rw [Function.update_of_ne (Nat.pos_iff_ne_zero.mp (h.inside hi).1).symm, h.zero]
  res_eq_zero := by simp
  fresh := .inr h.zero
  released _ _ := (h.pop hi).2

theorem emplace_spec (hm : 0 < m) (h : Stores L m af live M) {v : List Item}
    (hv : v.length < 2 ^ L.szBits) :
    ∃ res af', emplace L m af v = .ok (res, af') ∧ CallSpec L m M 0 v res af' := by
  by_cases hv0 : v = []
  · subst hv0
    have hs := h.callSpec_self (.inl rfl)
    rw [h.zero] at hs
    exact ⟨0, af, rfl, hs⟩
  · have hitems := Chunk.items_ofSpan_of_lt L hv
    obtain ⟨res, af', hrun, hs⟩ := h.callSpec_emplace hm (c := Chunk.ofSpan L v) (by rwa [hitems])
    refine ⟨res, af', ?_, hitems ▸ hs⟩
    rw [emplace, if_neg (by simpa using hv0), ← Chunk.nItems_ofSpan]
    exact hrun

theorem emplaceCons_spec (hm : 0 < m) (h : Stores L m af live M) (x0 : Item) {v : List Item}
    (hv : (x0 :: v).length < 2 ^ L.szBits) :
    ∃ res af', emplaceCons L m af x0 v = .ok (res, af') ∧ CallSpec L m M 0 (x0 :: v) res af' := by
  have hitems := Chunk.items_ofSpan_of_lt L hv
  obtain ⟨res, af', hrun, hs⟩ :=
    h.callSpec_emplace hm (c := Chunk.ofSpan L (x0 :: v)) (by rw [hitems]; exact List.cons_ne_nil _ _)
  refine ⟨res, af', ?_, hitems ▸ hs⟩
  rw [emplaceCons, show v.length + 1 = (x0 :: v).length from rfl, ← Chunk.nItems_ofSpan]
  exact hrun

theorem pop_spec (h : Stores L m af live M) {idx : Nat} (hidx : idx = 0 ∨ idx ∈ live) :
    CallSpec L m M idx [] 0 (pop L m af idx) := by
  rcases hidx with rfl | hi
  · have hs := h.callSpec_self (.inl rfl)
    rw [h.zero] at hs
    exact hs
  · rw [pop, if_neg (Nat.pos_iff_ne_zero.mp (h.inside hi).1)]
    exact h.callSpec_pop hi

theorem assign_spec (hm : 0 < m) (h : Stores L m af live M) {idx : Nat}
    (hidx : idx = 0 ∨ idx ∈ live) {v : List Item} (hv : v.length < 2 ^ L.szBits) :
    ∃ res af', assign L m af idx v = .ok (res, af') ∧ CallSpec L m M idx v res af' := by
  rcases hidx with rfl | hi
  · simpa [assign] using emplace_spec hm h hv
  have hi0 := Nat.pos_iff_ne_zero.mp (h.inside hi).1
  by_cases hv0 : v = []
  · subst hv0
    exact ⟨0, pop L m af idx, by simp [assign, hi0, pure, Except.pure], pop_spec h (.inr hi)⟩
  have hitems := Chunk.items_ofSpan_of_lt L hv
  have hc : (Chunk.ofSpan L v).items ≠ [] := by rwa [hitems]
  by_cases hn : L.sNItems (L.toSz v.length) = (af.get idx).nItems L
  · -- as many slots as before: in place
    refine ⟨idx, af.set idx (Chunk.ofSpan L v), by simp [assign, hi0, hv0, hn, pure, Except.pure], ?_⟩
    have hs := h.set hi hc (by rw [Chunk.nItems_ofSpan, hn])
    rw [hitems] at hs
    exact h.callSpec_inPlace hi hv0 hs
  · obtain ⟨res, af', hrun, hs⟩ := h.callSpec_move hm hi hc
    refine ⟨res, af', ?_, hitems ▸ hs⟩
    rw [Chunk.nItems_ofSpan] at hrun
    simpa [assign, hi0, hv0, hn, pure, Except.pure] using hrun

theorem append_spec (hm : 0 < m) (h : Stores L m af live M) {idx : Nat}
    (hidx : idx = 0 ∨ idx ∈ live) {v : List Item} (hv : (M idx ++ v).length < 2 ^ L.szBits) :
    ∃ res af', append L m af idx v = .ok (res, af') ∧ CallSpec L m M idx (M idx ++ v) res af' := by
  rcases hidx with rfl | hi
  · rw [h.zero, List.nil_append] at hv ⊢
    simpa [append] using emplace_spec hm h hv
  have hi0 := Nat.pos_iff_ne_zero.mp (h.inside hi).1
  by_cases hv0 : v = []
  · subst hv0
    rw [List.append_nil]
    exact ⟨idx, af, by simp [append, hi0, pure, Except.pure], h.callSpec_self (.inr hi)⟩
  have hold := h.items_eq idx hi
  have hlen : L.toSz ((af.get idx).items.length + v.length) = (af.get idx).items.length + v.length :=
    L.toSz_of_lt (by rw [hold, ← List.length_append]; exact hv)
  have hitems : (Chunk.ofSpan L ((af.get idx).items ++ v)).items = M idx ++ v := by
    rw [Chunk.items_ofSpan_of_lt L (by rw [hold]; exact hv), hold]
  have hc : (Chunk.ofSpan L ((af.get idx).items ++ v)).items ≠ [] := by
    rw [hitems]
    exact List.append_ne_nil_of_right_ne_nil _ hv0
  have hn : (Chunk.ofSpan L ((af.get idx).items ++ v)).nItems L =
      L.sNItems (L.toSz ((af.get idx).items.length + v.length)) := by
    rw [Chunk.nItems_ofSpan, List.length_append]
  by_cases hgt : L.sNItems (L.toSz ((af.get idx).items.length + v.length)) > (af.get idx).nItems L
  · obtain ⟨res, af', hrun, hs⟩ := h.callSpec_move hm hi hc
    refine ⟨res, af', ?_, hitems ▸ hs⟩
    rw [hn] at hrun
    simpa [append, hi0, hv0, hgt, pure, Except.pure] using hrun
  · -- a chunk never spreads over fewer slots when it grows: here it keeps its slots
    have hsame : (Chunk.ofSpan L ((af.get idx).items ++ v)).nItems L = (af.get idx).nItems L := by
      have := L.sNItems_mono (show (af.get idx).items.length ≤
        L.toSz ((af.get idx).items.length + v.length) by omega)
      rw [hn]
      exact Nat.le_antisymm (Nat.not_lt.mp hgt) this
    refine ⟨idx, af.set idx (Chunk.ofSpan L ((af.get idx).items ++ v)),
      by simp [append, hi0, hv0, hgt, pure, Except.pure], ?_⟩
    have hs := h.set hi hc hsame
    rw [hitems] at hs
    exact h.callSpec_inPlace hi (List.append_ne_nil_of_right_ne_nil _ hv0) hs

theorem shortenBy_spec (hm : 0 < m) (hm8 : m ≤ 8) (h : Stores L m af live M) {idx n : Nat}
    (hidx : idx = 0 ∨ idx ∈ live) (hn : n ≤ (M idx).length) :
    ∃ res af', shortenBy L m af idx n = .ok (res, af') ∧
      CallSpec L m M idx ((M idx).take ((M idx).length - n)) res af' := by
  have hsize : size af idx = (M idx).length := by
    rcases hidx with rfl | hi
    · simp [size, h.zero]
    · simp [size, Nat.pos_iff_ne_zero.mp (h.inside hi).1, h.items_eq idx hi]
  by_cases hall : n = (M idx).length
  · -- every item goes: the index is freed
    refine ⟨0, pop L m af idx, ?_, ?_⟩
    · simp [shortenBy, hsize, hall, swear, bind, Except.bind, pure, Except.pure]
    · rw [hall, Nat.sub_self, List.take_zero]
      exact pop_spec h hidx
  rcases hidx with rfl | hi
  · rw [h.zero] at hn hall
    exact absurd (Nat.le_zero.mp hn) hall
  have hi0 := Nat.pos_iff_ne_zero.mp (h.inside hi).1
  have hold := h.items_eq idx hi
  obtain ⟨af', hrun, hs⟩ := h.shorten hm hm8 hi (k := (M idx).length - n) (by omega) (by omega)
  have hchunk : (af.get idx).shortenBy n = .ok ⟨(M idx).take ((M idx).length - n)⟩ := by
    rw [Chunk.shortenBy_of_lt _ (by rw [hold]; omega), hold]
  refine ⟨idx, af', ?_, h.callSpec_inPlace hi ?_ hs⟩
  · simp [shortenBy, hsize, hall, hn, hchunk, hrun, swear, bind, Except.bind, pure, Except.pure]
  · exact List.ne_nil_of_length_pos (by simp; omega)

/-! ## Runs -/

/-- A call on a `VectorFile`. -/
inductive Op (Item : Type) where
  | emplace (v : List Item)
  | emplaceCons (x0 : Item) (v : List Item)
  | assign (idx : Nat) (v : List Item)
  | append (idx : Nat) (v : List Item)
  | shortenBy (idx n : Nat)
  | pop (idx : Nat)
  deriving DecidableEq, Repr

namespace Op

/-- The index a call is on: `0`, the empty sequence, for the calls that make a new one. -/
def arg : Op Item → Nat
  | emplace _ | emplaceCons _ _ => 0
  | assign idx _ | append idx _ | shortenBy idx _ | pop idx => idx

/-- The sequence a call is to leave at the index it returns, in a store `M`. -/
def value (M : Nat → List Item) : Op Item → List Item
  | emplace v => v
  | emplaceCons x0 v => x0 :: v
  | assign _ v => v
  | append idx v => M idx ++ v
  | shortenBy idx n => (M idx).take ((M idx).length - n)
  | pop _ => []

/-- What a call requires of the store `M`: it is on an index holding a sequence or on `0`; a call
that makes a sequence makes one of fewer than `2^szBits` items; `shorten_by` removes at most all
of them. -/
def Pre (szBits : Nat) (M : Nat → List Item) : Op Item → Prop
  | shortenBy idx n => (idx = 0 ∨ M idx ≠ []) ∧ n ≤ (M idx).length
  | pop idx => idx = 0 ∨ M idx ≠ []
  | op => (op.arg = 0 ∨ M op.arg ≠ []) ∧ (op.value M).length < 2 ^ szBits

/-- The store after a call that returned `res`: its argument no longer holds its sequence, and
`res` holds the call's value. -/
def post (M : Nat → List Item) (op : Op Item) (res : Nat) : Nat → List Item :=
  Function.update (Function.update M op.arg []) res (op.value M)

end Op

/-- A call on the file, and the index it returns; `pop` returns nothing, here `0`. -/
def step (L : ChunkSizes) (mantissa : Nat) (af : AllocFile (Chunk Item)) :
    Op Item → Except String (Nat × AllocFile (Chunk Item))
  | .emplace v => emplace L mantissa af v
  | .emplaceCons x0 v => emplaceCons L mantissa af x0 v
  | .assign idx v => assign L mantissa af idx v
  | .append idx v => append L mantissa af idx v
  | .shortenBy idx n => shortenBy L mantissa af idx n
  | .pop idx => pure (0, pop L mantissa af idx)

/-- Every call meets its specification. -/
theorem step_spec (hm : 0 < m) (hm8 : m ≤ 8) (h : Stores L m af live M) {op : Op Item}
    (hpre : op.Pre L.szBits M) :
    ∃ res af', step L m af op = .ok (res, af') ∧ CallSpec L m M op.arg (op.value M) res af' := by
  have hlive : ∀ {i}, (i = 0 ∨ M i ≠ []) → i = 0 ∨ i ∈ live := fun hi =>
    hi.imp_right h.mem_iff.mpr
  cases op with
  | emplace v => exact emplace_spec hm h hpre.2
  | emplaceCons x0 v => exact emplaceCons_spec hm h x0 hpre.2
  | assign idx v => exact assign_spec hm h (hlive hpre.1) hpre.2
  | append idx v => exact append_spec hm h (hlive hpre.1) hpre.2
  | shortenBy idx n => exact shortenBy_spec hm hm8 h (hlive hpre.1) hpre.2
  | pop idx => exact ⟨0, _, rfl, pop_spec h (hlive hpre)⟩

/-- The files that a sequence of calls makes from a new one, each with the store it holds. -/
inductive Reachable (L : ChunkSizes) (m : Nat) : AllocFile (Chunk Item) → (Nat → List Item) → Prop
  | new : Reachable L m AllocFile.new fun _ => []
  | call {af af' : AllocFile (Chunk Item)} {M : Nat → List Item} {op : Op Item} {res : Nat} :
      Reachable L m af M → op.Pre L.szBits M → step L m af op = .ok (res, af') →
      Reachable L m af' (op.post M res)

/-- Every file a sequence of calls makes stores its store.  The induction is on the calls, and
`step_spec` carries `Stores` over each of them. -/
theorem Reachable.stores (hm : 0 < m) (hm8 : m ≤ 8) {af : AllocFile (Chunk Item)}
    {M : Nat → List Item} (hr : Reachable L m af M) : ∃ live, Stores L m af live M := by
  induction hr with
  | new => exact ⟨[], stores_new⟩
  | call _ hpre hstep ih =>
    obtain ⟨live, h⟩ := ih
    obtain ⟨res, af', hrun, hspec⟩ := step_spec hm hm8 h hpre
    rw [hstep, Except.ok.injEq, Prod.mk.injEq] at hrun
    obtain ⟨rfl, rfl⟩ := hrun
    exact hspec.stores

/-- **`VectorFile` refines a map from indices to sequences.**  In every file that a sequence of
calls made, the live indices show the sequences of the store.  A further call that meets its
requirements passes every check on its way, returns an index that shows the sequence it is
specified to make, `0` exactly for the empty sequence, and either its argument or an index that
held no sequence; it leaves the view of every other live index as it was, and when it returns
another index than its non-zero argument, the argument's block is on the free list of its bucket.
`Mantissa` is `1` to `8`. -/
theorem vectorFile_refines (hm : 0 < m) (hm8 : m ≤ 8) {af : AllocFile (Chunk Item)}
    {M : Nat → List Item} (hr : Reachable L m af M) (op : Op Item) (hpre : op.Pre L.szBits M) :
    (∀ j, M j ≠ [] → view af j = M j) ∧
    ∃ res af', step L m af op = .ok (res, af') ∧
      view af' res = op.value M ∧ (res = 0 ↔ op.value M = []) ∧ (res = op.arg ∨ M res = []) ∧
      (∀ j, j ≠ op.arg → M j ≠ [] → view af' j = view af j) ∧
      (res ≠ op.arg → op.arg ≠ 0 →
        op.arg ∈ af'.freeList (bucket m (L.sNItems (M op.arg).length))) ∧
      Reachable L m af' (op.post M res) := by
  obtain ⟨live, h⟩ := hr.stores hm hm8
  have hview : ∀ j, M j ≠ [] → view af j = M j := fun j hj => h.view_eq (h.mem_iff.mpr hj)
  obtain ⟨res, af', hrun, hs⟩ := step_spec hm hm8 h hpre
  obtain ⟨live', h'⟩ := hs.stores
  refine ⟨hview, res, af', hrun, ?_, hs.res_eq_zero, hs.fresh, ?_, hs.released, .call hr hpre hrun⟩
  · -- `res` holds the value, or is `0` for the empty one
    by_cases hv : op.value M = []
    · rw [hv, hs.res_eq_zero.mpr hv]
      rfl
    · have hres := h'.view_eq (h'.mem_iff.mpr (by rwa [Function.update_self]))
      rwa [Function.update_self] at hres
  · -- another live index is not `res`, which is the argument or held nothing
    intro j hja hj
    have hjr : j ≠ res := by
      rintro rfl
      rcases hs.fresh with hra | hrM
      · exact hja hra
      · exact hj hrM
    have hpost : op.post M res j = M j := by
      rw [Op.post, Function.update_of_ne hjr, Function.update_of_ne hja]
    rw [h'.view_eq (h'.mem_iff.mpr (by rw [← Op.post, hpost]; exact hj))]
    rw [← Op.post, hpost, hview j hj]

/-- The sizes of the chunks of job targets: a 16-bit `Sz` (`RuleIdx`), 4-byte items, `MinSz`
of `1` and an 8-byte base. -/
def jobTgtsSizes : ChunkSizes := ⟨16, 4, 1, 8, by decide⟩

theorem vectorFile_refines_emplace :
    ∃ res af', step jobTgtsSizes 8 AllocFile.new (Op.emplace [7, 8, 9]) = .ok (res, af') ∧
      view af' res = [7, 8, 9] := by
  obtain ⟨-, res, af', hrun, hview, -⟩ :=
    vectorFile_refines (L := jobTgtsSizes) (m := 8) (by decide) (by decide) .new
      (Op.emplace [7, 8, 9]) ⟨by simp [Op.arg], by simp [Op.value, jobTgtsSizes]⟩
  exact ⟨res, af', hrun, hview⟩

/-- A sequence of `2^szBits` items does not fit `sz`.  `Chunk(v)` sets `sz` to `Sz(v.size())`,
here `0`, and copies that many items, and `_chk_sz` compares `s_n_items` of the same truncated
size: `emplace` passes its checks and returns an index, not `0`, whose view is empty. -/
theorem emplace_replicate_two_pow (L : ChunkSizes) (m : Nat) (x : Item) :
    ∃ af', emplace L m AllocFile.new (List.replicate (2 ^ L.szBits) x) = .ok (1, af') ∧
      view af' 1 = [] := by
  have hne : (List.replicate (2 ^ L.szBits) x).isEmpty = false := by
    simp
  have hchunk : Chunk.ofSpan L (List.replicate (2 ^ L.szBits) x) = ⟨[]⟩ := by
    simp [Chunk.ofSpan, ChunkSizes.toSz]
  have hsz : L.toSz (List.replicate (2 ^ L.szBits) x).length = 0 := by
    simp [ChunkSizes.toSz]
  have hfree : (AllocFile.new : AllocFile (Chunk Item)).freeList (bucket m (L.sNItems 0)) = [] := by
    simp [AllocFile.new, AllocFile.freeList]
  have hn : Chunk.nItems L (⟨[]⟩ : Chunk Item) = L.sNItems 0 := rfl
  refine ⟨((AllocFile.new : AllocFile (Chunk Item)).emplace m (L.sNItems 0) ⟨[]⟩).2, ?_, ?_⟩
  · rw [emplace, hne, if_neg Bool.false_ne_true, hsz, hchunk,
      emplaceSz_eq AllocFile.wf_new hn, emplace_of_freeList_nil hfree]
    rfl
  · have hget := get_emplace m (AllocFile.wf_new : (AllocFile.new : AllocFile (Chunk Item)).Wf)
      (L.sNItems 0) ⟨[]⟩
    rw [emplace_of_freeList_nil hfree] at hget ⊢
    rw [view, if_neg Nat.one_ne_zero]
    rw [fst_emplaceBack] at hget
    exact congrArg Chunk.items hget

/-- **`JobTgtsFile` loses a sequence of `2^16` job targets.**  Its `Sz` is the 16-bit
`RuleIdx`. -/
theorem emplace_truncates :
    ∃ af', emplace jobTgtsSizes 8 AllocFile.new (List.replicate (2 ^ 16) (0 : Nat)) = .ok (1, af') ∧
      view af' 1 = [] :=
  emplace_replicate_two_pow jobTgtsSizes 8 0

end VectorFile

end Vector

end Store
