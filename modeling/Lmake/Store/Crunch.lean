import Lmake.Lib.Serdes
import Lmake.Store.Vector

/-!
# Crunch vectors

A `Crunch` (`store/idxed.hh`) keeps a sequence of items in one word, an `Idxed2<Item,Vector>`:
the word is signed, an item is stored as its index, and a vector of the `VectorFile` as its index
negated.  The empty sequence is the word `0`, a sequence of one item is that item in place, and a
longer one is a vector of the file.  `0` is both an item and a vector: `_multi()` is
`!is_a<Item>()` and `_single()` is `!is_a<Vector>()`, so that `0` is neither.

So an item of index `0` stored in place is the empty sequence: `Crunch(v)` of the one-item
sequence of the null item views as empty (`make_span_null_item`).  Items are modelled by their
indices, and the word by an `Int`, wide enough for every item and vector index.

## Main results

* `Repr`: the word and the file represent a sequence, canonically, and the file holds the other
  owners' sequences as a store `O` that the word's own vector is not part of.
* `step_repr`: `assign`, `append`, `shorten_by` and `pop` keep it, with the sequence that the same
  call makes of a list, when every item is non-null and every sequence of more than one item fits
  `Sz`.  A vector that the word drops was live, so on no free list, and is on the free list of its
  bucket after the call (`Repr.not_mem_freeList`).
* `crunch_refines`: so does every call, after a construction and any sequence of calls
  (`Reachable`).

`shorten_by` down to one item calls `assign` on a span into the vector, and `assign` reads that
item after popping the vector, over which `_dealloc` has written the free list link: in every
chunk layout where the link ends before the items, as in `JobTgtsFile`, the item read is the one
the model returns (`shortenBy_reads_after_pop`).
-/

set_option autoImplicit false

namespace Store

namespace Vector

open Lmake

namespace Crunch

/-- `is_a<Item>()`. -/
def isItem (c : Int) : Bool := decide (0 ≤ c)

/-- `is_a<Vector>()`. -/
def isVector (c : Int) : Bool := decide (c ≤ 0)

/-- `_multi()`: `0` is an item, so it is not a vector here. -/
def multi (c : Int) : Bool := !isItem c

/-- `_single()`: `0` is a vector, so it is not an item here. -/
def single (c : Int) : Bool := !isVector c

/-- `Item(self)`. -/
def item (c : Int) : Nat := c.toNat

/-- `Vector(self)`: the word negated. -/
def vector (c : Int) : Nat := (-c).toNat

/-- `Idxed2(Vector(idx))`. -/
def ofVector (idx : Nat) : Int := -(idx : Int)

/-- The vector file of the items. -/
abbrev File := AllocFile (Chunk Nat)

variable (L : ChunkSizes) (mantissa : Nat)

/-- `size()`. -/
def size (af : File) (c : Int) : Nat := if single c then 1 else VectorFile.size af (vector c)

/-- `view()`: `items()` over `size()`. -/
def view (af : File) (c : Int) : List Nat :=
  if single c then [item c] else VectorFile.view af (vector c)

/-- `CrunchBase(v)`: a vector, unless `v` has one item, which is stored in place. -/
def ofSpan (af : File) (v : List Nat) : Except String (Int × File) :=
  if v.length ≠ 1 then (fun r => (ofVector r.1, r.2)) <$> VectorFile.emplace L mantissa af v
  else pure (v.headD 0, af)

/-- `assign(v)`. -/
def assign (af : File) (c : Int) (v : List Nat) : Except String (Int × File) :=
  if !multi c then ofSpan L mantissa af v
  else if v.length ≠ 1 then
    (fun r => (ofVector r.1, r.2)) <$> VectorFile.assign L mantissa af (vector c) v
  else pure (v.headD 0, VectorFile.pop L mantissa af (vector c))

/-- `pop()`: the vector is popped, and the word forgotten. -/
def pop (af : File) (c : Int) : Int × File :=
  (0, if multi c then VectorFile.pop L mantissa af (vector c) else af)

/-- `shorten_by(by)`: down to one item, `assign` of the first item. -/
def shortenBy (af : File) (c : Int) (n : Nat) : Except String (Int × File) := do
  let sz := size af c
  swear (n ≤ sz) "by<=sz"
  if !multi c then pure (if n = sz then 0 else c, af)
  else if n ≠ sz - 1 then
    (fun r => (ofVector r.1, r.2)) <$> VectorFile.shortenBy L mantissa af (vector c) n
  else assign L mantissa af c ((view af c).take 1)

/-- `append(v)`: an item in place becomes the first item of a vector. -/
def append (af : File) (c : Int) (v : List Nat) : Except String (Int × File) :=
  if c = 0 then assign L mantissa af c v
  else if multi c then
    (fun r => (ofVector r.1, r.2)) <$> VectorFile.append L mantissa af (vector c) v
  else if v ≠ [] then
    (fun r => (ofVector r.1, r.2)) <$> VectorFile.emplaceCons L mantissa af (item c) v
  else pure (c, af)

/-- How a `Crunch` is made: `Crunch()`, `Crunch(v)` or `Crunch(New,x)`. -/
inductive Make where
  | empty
  | span (v : List Nat)
  | item (x : Nat)
  deriving DecidableEq, Repr

/-- A call on a `Crunch`. -/
inductive Op where
  | assign (v : List Nat)
  | append (v : List Nat)
  | shortenBy (n : Nat)
  | pop
  deriving DecidableEq, Repr

/-- Making a `Crunch`. -/
def make (af : File) : Make → Except String (Int × File)
  | .empty => pure (0, af)
  | .span v => ofSpan L mantissa af v
  | .item x => pure (x, af)

/-- A call on a `Crunch`. -/
def step (af : File) (c : Int) : Op → Except String (Int × File)
  | .assign v => assign L mantissa af c v
  | .append v => append L mantissa af c v
  | .shortenBy n => shortenBy L mantissa af c n
  | .pop => pure (pop L mantissa af c)

example : view AllocFile.new 5 = [5] := by decide

theorem make_span_null_item :
    make VectorFile.jobTgtsSizes 8 AllocFile.new (.span [0]) = .ok (0, AllocFile.new) ∧
      view (AllocFile.new : File) 0 = [] := by
  decide

/-! ## The sequences -/

/-- A sequence fits its representation: in place, or in a chunk whose `sz` holds its size. -/
def Fits (szBits : Nat) (s : List Nat) : Prop := s.length = 1 ∨ s.length < 2 ^ szBits

namespace Make

/-- The sequence a construction makes. -/
def value : Make → List Nat
  | empty => []
  | span v => v
  | item x => [x]

/-- A construction of non-null items that fits. -/
def Pre (szBits : Nat) (mk : Make) : Prop := (∀ x ∈ mk.value, x ≠ 0) ∧ Fits szBits mk.value

end Make

namespace Op

/-- The sequence a call makes of `s`. -/
def apply (s : List Nat) : Op → List Nat
  | assign v => v
  | append v => s ++ v
  | shortenBy n => s.take (s.length - n)
  | pop => []

/-- What a call requires: `shorten_by` removes at most all the items, and a call that adds items
adds non-null ones and makes a sequence that fits. -/
def Pre (szBits : Nat) (s : List Nat) : Op → Prop
  | shortenBy n => n ≤ s.length
  | pop => True
  | op => (∀ x ∈ op.apply s, x ≠ 0) ∧ Fits szBits (op.apply s)

end Op

/-! ## Representation -/

/-- The store of the file: `O`, with the word's own vector, if any, holding `s`. -/
def own (O : Nat → List Nat) (c : Int) (s : List Nat) : Nat → List Nat :=
  if c < 0 then Function.update O (vector c) s else O

/-- The canonical word of a sequence: `0` for none, the item in place for one, a vector for
more. -/
def Canon (c : Int) : List Nat → Prop
  | [] => c = 0
  | [x] => c = x
  | _ :: _ :: _ => c < 0

@[simp] theorem canon_nil {c : Int} : Canon c [] ↔ c = 0 := Iff.rfl

@[simp] theorem canon_singleton {c : Int} {x : Nat} : Canon c [x] ↔ c = x := Iff.rfl

@[simp] theorem canon_cons_cons {c : Int} {x y : Nat} {t : List Nat} :
    Canon c (x :: y :: t) ↔ c < 0 := Iff.rfl

/-- The word `c` and the file `af` represent `s`: canonically, every item non-null, and the file
holds the other owners' store `O` besides, which the word's own vector is not part of. -/
structure Repr (L : ChunkSizes) (m : Nat) (af : File) (O : Nat → List Nat) (c : Int)
    (s : List Nat) : Prop where
  stores : ∃ live, VectorFile.Stores L m af live (own O c s)
  canon : Canon c s
  nonzero : ∀ x ∈ s, x ≠ 0
  apart : c < 0 → O (vector c) = []

/-- A vector that the word drops is on the free list of its bucket. -/
def Released (L : ChunkSizes) (m : Nat) (c c' : Int) (s : List Nat) (af' : File) : Prop :=
  c < 0 → c' ≠ c → vector c ∈ af'.freeList (bucket m (L.sNItems s.length))

@[simp] theorem vector_ofVector (i : Nat) : vector (ofVector i) = i := by
  simp [vector, ofVector]

theorem ofVector_neg {i : Nat} (h : i ≠ 0) : ofVector i < 0 := by
  simp only [ofVector]
  omega

theorem ofVector_vector {c : Int} (h : c < 0) : ofVector (vector c) = c := by
  simp only [ofVector, vector]
  omega

theorem vector_ne_zero {c : Int} (h : c < 0) : vector c ≠ 0 := by
  simp only [vector]
  omega

@[simp] theorem multi_eq_true {c : Int} : multi c = true ↔ c < 0 := by
  simp [multi, isItem]

@[simp] theorem multi_eq_false {c : Int} : multi c = false ↔ 0 ≤ c := by
  simp [multi, isItem]

@[simp] theorem single_eq_true {c : Int} : single c = true ↔ 0 < c := by
  simp [single, isVector]

theorem own_of_nonneg (O : Nat → List Nat) {c : Int} (h : 0 ≤ c) (s : List Nat) : own O c s = O := by
  simp [own, Int.not_lt.mpr h]

theorem own_ofVector (O : Nat → List Nat) {i : Nat} (h : i ≠ 0) (s : List Nat) :
    own O (ofVector i) s = Function.update O i s := by
  simp [own, ofVector_neg h]

/-- The three canonical forms, told apart by the word. -/
theorem Canon.iff {c : Int} {s : List Nat} (hc : Canon c s) (hnz : ∀ x ∈ s, x ≠ 0) :
    (c = 0 ↔ s = []) ∧ (single c = true ↔ s.length = 1) ∧ (multi c = true ↔ 2 ≤ s.length) := by
  match s, hc with
  | [], hc =>
    rw [canon_nil] at hc
    simp [hc]
  | [x], hc =>
    rw [canon_singleton] at hc
    have hx : x ≠ 0 := hnz x List.mem_cons_self
    subst hc
    refine ⟨?_, ?_, ?_⟩ <;> simp <;> omega
  | _ :: _ :: _, hc =>
    rw [canon_cons_cons] at hc
    refine ⟨?_, ?_, ?_⟩ <;> simp <;> omega

variable {L : ChunkSizes} {m : Nat} {af : File} {O : Nat → List Nat} {c : Int} {s : List Nat}

/-- The word's own vector holds `s`. -/
theorem own_vector (O : Nat → List Nat) {c : Int} (hc : c < 0) (s : List Nat) :
    own O c s (vector c) = s := by
  simp [own, hc]

theorem Repr.ne_nil_of_neg (h : Repr L m af O c s) (hc : c < 0) : s ≠ [] := by
  rintro rfl
  have := (h.canon.iff h.nonzero).1.mpr rfl
  omega

theorem Repr.live {live : List Nat} (h : Repr L m af O c s)
    (hs : VectorFile.Stores L m af live (own O c s)) (hc : c < 0) : vector c ∈ live :=
  hs.mem_iff.mpr (by rw [own_vector O hc s]; exact h.ne_nil_of_neg hc)

theorem Repr.zero (h : Repr L m af O c s) : O 0 = [] := by
  obtain ⟨live, hs⟩ := h.stores
  have h0 := hs.zero
  by_cases hc : c < 0
  · rwa [own, if_pos hc, Function.update_of_ne (vector_ne_zero hc).symm] at h0
  · rwa [own, if_neg hc] at h0

/-- The word views as `s`. -/
theorem Repr.view_eq (h : Repr L m af O c s) : view af c = s := by
  obtain ⟨live, hs⟩ := h.stores
  match s, h.canon with
  | [], hc =>
    rw [canon_nil] at hc
    simp [view, hc, vector, VectorFile.view]
  | [x], hc =>
    rw [canon_singleton] at hc
    have hx : x ≠ 0 := h.nonzero x List.mem_cons_self
    subst hc
    simp [view, item, Nat.pos_of_ne_zero hx]
  | _ :: _ :: _, hc =>
    rw [canon_cons_cons] at hc
    have hnot : ¬ 0 < c := by omega
    simp only [view, single_eq_true, hnot, if_false]
    rw [hs.view_eq (h.live hs hc), own_vector O hc _]

theorem Repr.size_eq (h : Repr L m af O c s) : size af c = s.length := by
  obtain ⟨live, hs⟩ := h.stores
  match s, h.canon with
  | [], hc =>
    rw [canon_nil] at hc
    simp [size, hc, vector, VectorFile.size]
  | [x], hc =>
    rw [canon_singleton] at hc
    have hx : x ≠ 0 := h.nonzero x List.mem_cons_self
    have hpos : 0 < c := by omega
    simp [size, hpos]
  | _ :: _ :: _, hc =>
    rw [canon_cons_cons] at hc
    have hnot : ¬ 0 < c := by omega
    have hi := h.live hs hc
    simp only [size, single_eq_true, hnot, if_false, VectorFile.size,
      if_neg (Nat.pos_iff_ne_zero.mp (hs.inside hi).1), hs.items_eq _ hi, own_vector O hc _]

/-- The other owners' sequences are where they were. -/
theorem Repr.view_others (h : Repr L m af O c s) {j : Nat} (hj : O j ≠ []) :
    VectorFile.view af j = O j := by
  obtain ⟨live, hs⟩ := h.stores
  have hjo : own O c s j = O j := by
    by_cases hc : c < 0
    · have hne : j ≠ vector c := fun hjc => hj (hjc ▸ h.apart hc)
      simp [own, hc, Function.update_of_ne hne]
    · simp [own, hc]
  rw [hs.view_eq (hs.mem_iff.mpr (by rwa [hjo])), hjo]

/-- The word's own vector is live, so it is on no free list. -/
theorem Repr.not_mem_freeList (h : Repr L m af O c s) (hc : c < 0) (b : Nat) :
    vector c ∉ af.freeList b := by
  obtain ⟨live, hs⟩ := h.stores
  intro hb
  exact hs.blocks.fst_ne_of_free (List.mem_map_of_mem (h.live hs hc)) (AllocFile.mem_freeBlocks hb) rfl

/-! ## The item `assign` reads after the pop

`shorten_by` down to one item calls `assign` with a span on the vector's first item, and `assign`
pops the vector before it reads that item.  `_dealloc` writes the free list link, an `Idx`, over
the first bytes of the freed chunk (the union of `Alloc::Data`), and the items of a chunk start
after its `sz`, aligned as an item.  So the item is still there when the link ends before the
items (`ChunkLayout.firstItem_link`), as in `JobTgtsFile` (`jobTgtsLayout`), and the model, whose
`pop` keeps the data of a freed block, returns the item the source reads
(`shortenBy_reads_after_pop`). -/

/-- How a chunk lies in memory: its `sz` on `szSize` bytes, then its items of `itemSize` bytes
each, aligned on `itemAlign`; the link of a free block is an `Idx` of `idxSize` bytes. -/
structure ChunkLayout where
  szSize : Nat
  itemAlign : Nat
  itemSize : Nat
  idxSize : Nat
  deriving DecidableEq

namespace ChunkLayout

variable (lay : ChunkLayout)

/-- The offset of `_items`: `sz` rounded up to the alignment of an item. -/
def itemsOffset : Nat := divUp lay.szSize lay.itemAlign * lay.itemAlign

/-- The bytes of a chunk of `items`, after the header `hdr` that holds `sz` and the padding. -/
def bytes (hdr : List UInt8) (items : List Nat) : List UInt8 :=
  hdr ++ items.flatMap (Serdes.leBytes lay.itemSize)

/-- `items()[0]`. -/
def firstItem (b : List UInt8) : Nat := Serdes.decodeAt lay.itemSize b lay.itemsOffset

/-- `_dealloc`: the link `nxt` written over the start of the block. -/
def link (b : List UInt8) (nxt : Nat) : List UInt8 := Serdes.encodeAt lay.idxSize b 0 nxt

/-- When the link ends before the items, the first item of a freed chunk is still there. -/
theorem firstItem_link (hlay : lay.idxSize ≤ lay.itemsOffset) {hdr : List UInt8}
    (hhdr : hdr.length = lay.itemsOffset) {x : Nat} (hx : x < 2 ^ (8 * lay.itemSize))
    (rest : List Nat) (nxt : Nat) : lay.firstItem (lay.link (lay.bytes hdr (x :: rest)) nxt) = x := by
  rw [firstItem, link, Serdes.decodeAt_encodeAt_of_le _ _ _ _ (Nat.zero_le _) (by omega), bytes,
    List.flatMap_cons, ← List.append_assoc, ← hhdr, Serdes.decodeAt_append, Nat.mod_eq_of_lt hx]

end ChunkLayout

/-- The chunks of `JobTgtsFile`: a 16-bit `sz` (`RuleIdx`), `JobTgt`s of 32 bits, and 32-bit
indices (`JobTgtsIdx`). -/
def jobTgtsLayout : ChunkLayout := ⟨2, 4, 4, 4⟩

example : jobTgtsLayout.idxSize ≤ jobTgtsLayout.itemsOffset := by decide

/-- `shorten_by` of a vector down to one item pops the vector and keeps its first item in place. -/
theorem shortenBy_to_one (hc : c < 0) {x : Nat} {rest : List Nat} (hv : view af c = x :: rest) :
    shortenBy L m af c (size af c - 1) = .ok (x, VectorFile.pop L m af (vector c)) := by
  have hns : single c = false := by
    rw [Bool.eq_false_iff, ne_eq, single_eq_true]
    omega
  have hsz : size af c = (x :: rest).length := by
    simp only [view, size, hns, Bool.false_eq_true, if_false, VectorFile.view,
      VectorFile.size] at hv ⊢
    split at hv
    · cases hv
    · rw [if_neg ‹_›, hv]
  simp [shortenBy, assign, hsz, hv, multi_eq_true.mpr hc, swear, bind, Except.bind, pure,
    Except.pure]

/-- **`shorten_by` down to one item reads the item the source reads.**  The source reads the first
item from the chunk after `_dealloc` has written its link over it; in every layout where the link
ends before the items, that is the item the model returns. -/
theorem shortenBy_reads_after_pop (lay : ChunkLayout) (hlay : lay.idxSize ≤ lay.itemsOffset)
    {hdr : List UInt8} (hhdr : hdr.length = lay.itemsOffset) (hc : c < 0) {x : Nat}
    {rest : List Nat} (hv : view af c = x :: rest) (hx : x < 2 ^ (8 * lay.itemSize)) (nxt : Nat) :
    shortenBy L m af c (size af c - 1) =
      .ok (lay.firstItem (lay.link (lay.bytes hdr (view af c)) nxt),
        VectorFile.pop L m af (vector c)) := by
  rw [hv, lay.firstItem_link hlay hhdr hx rest nxt]
  exact shortenBy_to_one hc hv

/-- A vector of `JobTgtsFile` with the items `5` and `6`. -/
def jobTgtsPair : Int × File :=
  match ofSpan VectorFile.jobTgtsSizes 8 AllocFile.new [5, 6] with
  | .ok r => r
  | .error _ => (0, AllocFile.new)

theorem shortenBy_reads_after_pop_jobTgtsPair :
    shortenBy VectorFile.jobTgtsSizes 8 jobTgtsPair.2 jobTgtsPair.1
        (size jobTgtsPair.2 jobTgtsPair.1 - 1) =
      .ok (jobTgtsLayout.firstItem (jobTgtsLayout.link
          (jobTgtsLayout.bytes [2, 0, 0, 0] (view jobTgtsPair.2 jobTgtsPair.1)) 0),
        VectorFile.pop VectorFile.jobTgtsSizes 8 jobTgtsPair.2 (vector jobTgtsPair.1)) :=
  shortenBy_reads_after_pop jobTgtsLayout (by decide) (by decide) (by decide)
    (show view jobTgtsPair.2 jobTgtsPair.1 = [5, 6] by decide) (by decide) 0

/-! ## Calls of the vector file -/

/-- The index a call of the file is on: the word's own vector, or `0` for a word in place. -/
def arg (c : Int) : Nat := if c < 0 then vector c else 0

/-- Without the word's own vector, the file holds `O`. -/
theorem Repr.update_own (h : Repr L m af O c s) : Function.update (own O c s) (arg c) [] = O := by
  by_cases hc : c < 0
  · rw [arg, if_pos hc, own, if_pos hc, Function.update_idem]
    exact Function.update_eq_self_iff.mpr (h.apart hc).symm
  · rw [arg, if_neg hc, own, if_neg hc]
    exact Function.update_eq_self_iff.mpr h.zero.symm

/-- What a call of the file on the word's index leaves in it, once the word takes the index the
call returns. -/
theorem Repr.update_callSpec (h : Repr L m af O c s) {value : List Nat} {res : Nat}
    (hres : res = 0 ↔ value = []) :
    Function.update (Function.update (own O c s) (arg c) []) res value =
      own O (ofVector res) value := by
  rw [h.update_own]
  by_cases hr : res = 0
  · have hv : value = [] := hres.mp hr
    subst hr hv
    rw [Function.update_eq_self_iff.mpr h.zero.symm]
    simp [own, ofVector]
  · rw [own_ofVector O hr]

/-- A call of the file on the word's index that leaves a sequence of other than one item: the
word becomes the index the call returns, and the vector it drops is freed. -/
theorem Repr.of_callSpec (h : Repr L m af O c s) {value : List Nat} {res : Nat} {af' : File}
    (hs : VectorFile.CallSpec L m (own O c s) (arg c) value res af') (hv : value.length ≠ 1)
    (hnz : ∀ x ∈ value, x ≠ 0) :
    Repr L m af' O (ofVector res) value ∧ Released L m c (ofVector res) s af' := by
  refine ⟨⟨?_, ?_, hnz, ?_⟩, ?_⟩
  · obtain ⟨live', hs'⟩ := hs.stores
    exact ⟨live', h.update_callSpec hs.res_eq_zero ▸ hs'⟩
  · match value, hv, hs.res_eq_zero with
    | [], _, hz => simp [ofVector, hz.mpr rfl]
    | [_], hv, _ => exact absurd rfl hv
    | _ :: _ :: _, _, hz =>
      rw [canon_cons_cons]
      exact ofVector_neg fun h0 => List.cons_ne_nil _ _ (hz.mp h0)
  · -- a new index held nothing, and the word's own vector is not part of `O`
    intro hneg
    have hr : res ≠ 0 := by
      rintro rfl
      simp [ofVector] at hneg
    rw [vector_ofVector]
    by_cases hcr : c < 0 ∧ res = vector c
    · rw [hcr.2]
      exact h.apart hcr.1
    · rcases hs.fresh with hra | hrM
      · refine absurd ⟨?_, ?_⟩ hcr <;> by_cases hc : c < 0 <;> simp_all [arg]
      · by_cases hc : c < 0
        · rwa [own, if_pos hc, Function.update_of_ne fun hrc => hcr ⟨hc, hrc⟩] at hrM
        · rwa [own, if_neg hc] at hrM
  · intro hc hne
    have hra : res ≠ arg c := by
      rintro rfl
      exact hne (by rw [arg, if_pos hc, ofVector_vector hc])
    have hfree := hs.released hra (by rw [arg, if_pos hc]; exact vector_ne_zero hc)
    rwa [arg, if_pos hc, own_vector O hc s] at hfree

/-! ## The calls -/

/-- A file holding `O` represents the empty sequence with the word `0`. -/
theorem repr_empty (hs : ∃ live, VectorFile.Stores L m af live O) : Repr L m af O 0 [] where
  stores := by simpa [own] using hs
  canon := rfl
  nonzero := by simp
  apart := by simp

/-- A file holding `O` represents a non-null item with the item in place. -/
theorem repr_item (hs : ∃ live, VectorFile.Stores L m af live O) {x : Nat} (hx : x ≠ 0) :
    Repr L m af O x [x] where
  stores := by rwa [own_of_nonneg O (Int.natCast_nonneg x)]
  canon := rfl
  nonzero := by simpa using hx
  apart hneg := absurd hneg (Int.not_lt.mpr (Int.natCast_nonneg x))

/-- A word in place, or none, leaves the file holding `O`. -/
theorem Repr.stores_of_nonneg (h : Repr L m af O c s) (hc : 0 ≤ c) :
    ∃ live, VectorFile.Stores L m af live O := by
  simpa [own_of_nonneg O hc s] using h.stores

theorem Released.of_nonneg {c' : Int} {af' : File} (hc : 0 ≤ c) : Released L m c c' s af' :=
  fun hneg => absurd hneg (Int.not_lt.mpr hc)

theorem Repr.pop (h : Repr L m af O c s) :
    ∃ c' af', (pure (pop L m af c) : Except String (Int × File)) = .ok (c', af') ∧
      Repr L m af' O c' [] ∧ Released L m c c' s af' := by
  by_cases hc : c < 0
  · obtain ⟨live, hs⟩ := h.stores
    have hspec := VectorFile.pop_spec hs (.inr (h.live hs hc))
    rw [show vector c = arg c by simp [arg, hc]] at hspec
    obtain ⟨hrep, hrel⟩ := h.of_callSpec hspec (by simp) (by simp)
    have hv0 : ofVector 0 = 0 := by simp [ofVector]
    rw [hv0] at hrep hrel
    exact ⟨0, _, by simp [Crunch.pop, hc, arg, pure, Except.pure], hrep, hrel⟩
  · have hc' : 0 ≤ c := Int.not_lt.mp hc
    exact ⟨0, af, by simp [Crunch.pop, hc, pure, Except.pure],
      repr_empty (h.stores_of_nonneg hc'), Released.of_nonneg hc'⟩

section Calls

variable (hm : 0 < m)
include hm

theorem Repr.ofSpan (h : Repr L m af O c s) (hc : 0 ≤ c) {v : List Nat} (hnz : ∀ x ∈ v, x ≠ 0)
    (hfit : Fits L.szBits v) :
    ∃ c' af', ofSpan L m af v = .ok (c', af') ∧ Repr L m af' O c' v ∧ Released L m c c' s af' := by
  by_cases hv1 : v.length = 1
  · obtain ⟨x, rfl⟩ := List.length_eq_one_iff.mp hv1
    exact ⟨x, af, rfl, repr_item (h.stores_of_nonneg hc) (hnz x List.mem_cons_self),
      Released.of_nonneg hc⟩
  · obtain ⟨live, hs⟩ := h.stores
    obtain ⟨res, af', hrun, hspec⟩ := VectorFile.emplace_spec hm hs (hfit.resolve_left hv1)
    rw [show (0 : Nat) = arg c by simp [arg, Int.not_lt.mpr hc]] at hspec
    obtain ⟨hrep, hrel⟩ := h.of_callSpec hspec hv1 hnz
    exact ⟨ofVector res, af', by simp [Crunch.ofSpan, hv1, hrun], hrep, hrel⟩

theorem Repr.assign (h : Repr L m af O c s) {v : List Nat} (hnz : ∀ x ∈ v, x ≠ 0)
    (hfit : Fits L.szBits v) :
    ∃ c' af', assign L m af c v = .ok (c', af') ∧ Repr L m af' O c' v ∧
      Released L m c c' s af' := by
  by_cases hc : c < 0
  · obtain ⟨live, hs⟩ := h.stores
    have harg : arg c = vector c := by simp [arg, hc]
    have hmulti : multi c = true := multi_eq_true.mpr hc
    by_cases hv1 : v.length = 1
    · -- one item: the vector is popped and the item stored in place
      obtain ⟨x, rfl⟩ := List.length_eq_one_iff.mp hv1
      have hspec := VectorFile.pop_spec hs (.inr (h.live hs hc))
      rw [← harg] at hspec
      obtain ⟨hrep, hrel⟩ := h.of_callSpec hspec (by simp) (by simp)
      have hx : x ≠ 0 := hnz x List.mem_cons_self
      refine ⟨x, _, by simp [Crunch.assign, hmulti, harg, pure, Except.pure],
        repr_item (hrep.stores_of_nonneg (by simp [ofVector])) hx, fun _ _ => ?_⟩
      exact hrel hc (by simp [ofVector]; omega)
    · obtain ⟨res, af', hrun, hspec⟩ :=
        VectorFile.assign_spec hm hs (.inr (h.live hs hc)) (hfit.resolve_left hv1)
      rw [← harg] at hspec
      obtain ⟨hrep, hrel⟩ := h.of_callSpec hspec hv1 hnz
      exact ⟨ofVector res, af', by simp [Crunch.assign, hmulti, hv1, hrun], hrep, hrel⟩
  · have hc' : 0 ≤ c := Int.not_lt.mp hc
    obtain ⟨c', af', hrun, hrep, hrel⟩ := h.ofSpan hm hc' hnz hfit
    exact ⟨c', af', by simp [Crunch.assign, multi_eq_false.mpr hc', hrun], hrep, hrel⟩

theorem Repr.append (h : Repr L m af O c s) {v : List Nat} (hnz : ∀ x ∈ s ++ v, x ≠ 0)
    (hfit : Fits L.szBits (s ++ v)) :
    ∃ c' af', append L m af c v = .ok (c', af') ∧ Repr L m af' O c' (s ++ v) ∧
      Released L m c c' s af' := by
  obtain ⟨hzero, hsingle, hmulti⟩ := h.canon.iff h.nonzero
  by_cases hc0 : c = 0
  · -- the empty sequence: `assign`
    subst hc0
    obtain rfl : s = [] := hzero.mp rfl
    rw [List.nil_append] at hnz hfit ⊢
    obtain ⟨c', af', hrun, hrep, hrel⟩ := h.assign hm hnz hfit
    exact ⟨c', af', by simp [Crunch.append, hrun], hrep, hrel⟩
  by_cases hc : c < 0
  · -- a vector: the file appends
    obtain ⟨live, hs⟩ := h.stores
    have harg : vector c = arg c := by simp [arg, hc]
    have hlen : 2 ≤ s.length := hmulti.mp (multi_eq_true.mpr hc)
    have hfit' : (own O c s (vector c) ++ v).length < 2 ^ L.szBits := by
      rw [own_vector O hc s]
      exact hfit.resolve_left (by simp; omega)
    obtain ⟨res, af', hrun, hspec⟩ := VectorFile.append_spec hm hs (.inr (h.live hs hc)) hfit'
    rw [own_vector O hc s, harg] at hspec
    obtain ⟨hrep, hrel⟩ := h.of_callSpec hspec (by simp; omega) hnz
    exact ⟨ofVector res, af', by simp [Crunch.append, hc0, multi_eq_true.mpr hc, hrun], hrep, hrel⟩
  · -- an item in place: a vector of it and `v`, unless `v` is empty
    have hpos : 0 < c := by omega
    obtain ⟨x, rfl⟩ := List.length_eq_one_iff.mp (hsingle.mp (single_eq_true.mpr hpos))
    have hcx : c = x := h.canon
    by_cases hv : v = []
    · subst hv
      exact ⟨c, af, by simp [Crunch.append, hc0, multi_eq_false.mpr (Int.le_of_lt hpos), pure, Except.pure],
        by simpa using h, Released.of_nonneg (Int.le_of_lt hpos)⟩
    obtain ⟨live, hs⟩ := h.stores
    have hitem : item c = x := by simp [item, hcx]
    have hfit' : (item c :: v).length < 2 ^ L.szBits := by
      rw [hitem]
      exact hfit.resolve_left (by simpa using hv)
    obtain ⟨res, af', hrun, hspec⟩ := VectorFile.emplaceCons_spec hm hs (item c) hfit'
    rw [hitem, show (0 : Nat) = arg c by simp [arg, hc]] at hspec
    obtain ⟨hrep, hrel⟩ := h.of_callSpec hspec (by simpa using hv) hnz
    exact ⟨ofVector res, af', by simp [Crunch.append, hc0, multi_eq_false.mpr (Int.le_of_lt hpos), hv, hrun],
      hrep, hrel⟩

theorem Repr.shortenBy (hm8 : m ≤ 8) (h : Repr L m af O c s) {n : Nat} (hn : n ≤ s.length) :
    ∃ c' af', shortenBy L m af c n = .ok (c', af') ∧ Repr L m af' O c' (s.take (s.length - n)) ∧
      Released L m c c' s af' := by
  have hsz := h.size_eq
  have hnz : ∀ x ∈ s.take (s.length - n), x ≠ 0 := fun x hx => h.nonzero x (List.mem_of_mem_take hx)
  by_cases hc : c < 0
  · obtain ⟨live, hs⟩ := h.stores
    have hlen : 2 ≤ s.length := (h.canon.iff h.nonzero).2.2.mp (multi_eq_true.mpr hc)
    by_cases hn1 : n = s.length - 1
    · -- down to one item: `assign` of the first item
      subst hn1
      rw [show s.length - (s.length - 1) = 1 by omega] at hnz ⊢
      have hv : (view af c).take 1 = s.take 1 := by rw [h.view_eq]
      obtain ⟨c', af', hrun, hrep, hrel⟩ := h.assign hm hnz (.inl (by simp; omega))
      refine ⟨c', af', ?_, hrep, hrel⟩
      simp [Crunch.shortenBy, hsz, multi_eq_true.mpr hc, hv, hrun, swear, bind, Except.bind]
    · have harg : vector c = arg c := by simp [arg, hc]
      have hn' : n ≤ (own O c s (vector c)).length := by rwa [own_vector O hc s]
      obtain ⟨res, af', hrun, hspec⟩ :=
        VectorFile.shortenBy_spec hm hm8 hs (.inr (h.live hs hc)) hn'
      rw [own_vector O hc s, harg] at hspec
      obtain ⟨hrep, hrel⟩ := h.of_callSpec hspec (by simp; omega) hnz
      refine ⟨ofVector res, af', ?_, hrep, hrel⟩
      simp [Crunch.shortenBy, hsz, hn, multi_eq_true.mpr hc, hn1, hrun, swear, bind, Except.bind]
  · have hc' : 0 ≤ c := Int.not_lt.mp hc
    have hlen : s.length ≤ 1 := by
      have := (h.canon.iff h.nonzero).2.2
      simp only [multi_eq_true] at this
      omega
    by_cases hall : n = s.length
    · refine ⟨0, af, ?_, ?_, Released.of_nonneg hc'⟩
      · simp [Crunch.shortenBy, hsz, multi_eq_false.mpr hc', hall, swear, bind, Except.bind,
          pure, Except.pure]
      · rw [hall, Nat.sub_self, List.take_zero]
        exact repr_empty (h.stores_of_nonneg hc')
    · -- nothing to remove from an item in place
      have hn0 : n = 0 := by omega
      refine ⟨c, af, ?_, by rwa [hn0, Nat.sub_zero, List.take_length], Released.of_nonneg hc'⟩
      simp [Crunch.shortenBy, hsz, hn, multi_eq_false.mpr hc', hall, swear, bind, Except.bind,
        pure, Except.pure]

theorem make_repr (hs : ∃ live, VectorFile.Stores L m af live O) {mk : Make}
    (hpre : mk.Pre L.szBits) :
    ∃ c af', make L m af mk = .ok (c, af') ∧ Repr L m af' O c mk.value := by
  cases mk with
  | empty => exact ⟨0, af, rfl, repr_empty hs⟩
  | span v =>
    obtain ⟨c, af', hrun, hrep, -⟩ := (repr_empty hs).ofSpan hm (Int.le_refl 0) hpre.1 hpre.2
    exact ⟨c, af', hrun, hrep⟩
  | item x => exact ⟨x, af, rfl, repr_item hs (hpre.1 x List.mem_cons_self)⟩

/-- Every call keeps the representation, of the sequence the same call makes of a list. -/
theorem step_repr (hm8 : m ≤ 8) (h : Repr L m af O c s) {op : Op} (hpre : op.Pre L.szBits s) :
    ∃ c' af', step L m af c op = .ok (c', af') ∧ Repr L m af' O c' (op.apply s) ∧
      Released L m c c' s af' := by
  cases op with
  | assign v => exact h.assign hm hpre.1 hpre.2
  | append v => exact h.append hm hpre.1 hpre.2
  | shortenBy n => exact h.shortenBy hm hm8 hpre
  | pop => exact h.pop

end Calls

/-! ## Runs -/

/-- The words and files that a construction and then calls make, on a file holding `O`, with the
sequence each represents. -/
inductive Reachable (L : ChunkSizes) (m : Nat) (O : Nat → List Nat) :
    File → Int → List Nat → Prop
  | init {af af' : File} {live : List Nat} {c : Int} (mk : Make) :
      VectorFile.Stores L m af live O → mk.Pre L.szBits → make L m af mk = .ok (c, af') →
      Reachable L m O af' c mk.value
  | call {af af' : File} {c c' : Int} {s : List Nat} {op : Op} :
      Reachable L m O af c s → op.Pre L.szBits s → step L m af c op = .ok (c', af') →
      Reachable L m O af' c' (op.apply s)

/-- Every word a run makes represents its sequence.  The induction is on the run, and
`step_repr` carries `Repr` over each call. -/
theorem Reachable.repr (hm : 0 < m) (hm8 : m ≤ 8) (hr : Reachable L m O af c s) :
    Repr L m af O c s := by
  induction hr with
  | init mk hs hpre hrun =>
    obtain ⟨c', af', hrun', hrep⟩ := make_repr hm ⟨_, hs⟩ hpre
    obtain ⟨rfl, rfl⟩ := Prod.mk.inj (Except.ok.inj (hrun.symm.trans hrun'))
    exact hrep
  | call _ hpre hrun ih =>
    obtain ⟨c', af', hrun', hrep, -⟩ := step_repr hm hm8 ih hpre
    obtain ⟨rfl, rfl⟩ := Prod.mk.inj (Except.ok.inj (hrun.symm.trans hrun'))
    exact hrep

theorem crunch_refines (hm : 0 < m) (hm8 : m ≤ 8) (hr : Reachable L m O af c s) (op : Op)
    (hpre : op.Pre L.szBits s) :
    (view af c = s ∧ (c = 0 ↔ s = []) ∧ (single c = true ↔ s.length = 1) ∧
      (multi c = true ↔ 2 ≤ s.length) ∧
      (multi c = true → VectorFile.view af (vector c) = s ∧ ∀ b, vector c ∉ af.freeList b) ∧
      ∀ j, O j ≠ [] → VectorFile.view af j = O j) ∧
    ∃ c' af', step L m af c op = .ok (c', af') ∧ view af' c' = op.apply s ∧
      (multi c = true → c' ≠ c → vector c ∈ af'.freeList (bucket m (L.sNItems s.length))) ∧
      Reachable L m O af' c' (op.apply s) := by
  have h := hr.repr hm hm8
  obtain ⟨hzero, hsingle, hmulti⟩ := h.canon.iff h.nonzero
  -- the word's own vector, when it has one
  have hown : multi c = true → VectorFile.view af (vector c) = s ∧ ∀ b, vector c ∉ af.freeList b := by
    intro hc
    rw [multi_eq_true] at hc
    obtain ⟨live, hs⟩ := h.stores
    exact ⟨by rw [hs.view_eq (h.live hs hc), own_vector O hc s], h.not_mem_freeList hc⟩
  obtain ⟨c', af', hrun, hrep, hrel⟩ := step_repr hm hm8 h hpre
  exact ⟨⟨h.view_eq, hzero, hsingle, hmulti, hown, fun j hj => h.view_others hj⟩,
    c', af', hrun, hrep.view_eq, fun hc => hrel (multi_eq_true.mp hc), .call hr hpre hrun⟩

theorem crunch_refines_append :
    ∃ c' af', step VectorFile.jobTgtsSizes 8 AllocFile.new 5 (.append [6, 7]) = .ok (c', af') ∧
      view af' c' = [5, 6, 7] := by
  obtain ⟨-, c', af', hrun, hview, -⟩ :=
    crunch_refines (L := VectorFile.jobTgtsSizes) (m := 8) (O := fun _ => []) (by decide) (by decide)
      (Reachable.init (.item 5) VectorFile.stores_new ⟨by simp [Make.value], by simp [Make.value, Fits]⟩
        rfl)
      (.append [6, 7])
      ⟨by simp [Op.apply, Make.value], by simp [Op.apply, Make.value, Fits, VectorFile.jobTgtsSizes]⟩
  exact ⟨c', af', hrun, hview⟩

end Crunch

end Vector

end Store
