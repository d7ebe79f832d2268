import Lmake.Store.Alloc

/-!
# The blocks of an `AllocFile`

`chk` (`store/alloc.hh`) checks that the blocks on the free lists lie inside the file and share
no slot.  The model keeps a block as its first slot and its number of slots; the blocks of the
free lists are `freeBlocks`, each with the size of its bucket, and the live blocks are the ones a
client holds, each with the size of the bucket of the size it last gave.

`BlocksApart m af live` is what `chk` checks, with the live blocks added: every block is inside
the file past the slot standing for no item, and no two blocks share a slot.  It depends on the
file only through its size and its blocks, in any order (`BlocksApart.of_perm`), and each
operation keeps it:

* `BlocksApart.emplace`: `_emplace` adds a live block of the size of its bucket, taken off a free
  list or at the end of the file;
* `BlocksApart.pop`: `_pop` gives a live block back to the free lists;
* `BlocksApart.shorten_ok`: `_shorten` cuts a live block to the block of its new size, freeing
  the rest piece by piece, and both of its checks pass, when `Mantissa` is `1` to `8`
  (`bucket` then picks the smallest bucket that fits a size).
-/

set_option autoImplicit false

namespace Store

open Lmake

/-- Two blocks, as their first slot and their number of slots, share no slot. -/
def Apart (p q : Nat × Nat) : Prop := p.1 + p.2 ≤ q.1 ∨ q.1 + q.2 ≤ p.1

theorem Apart.symm {p q : Nat × Nat} (h : Apart p q) : Apart q p := Or.symm h

/-- A block inside another is apart from what the other is apart from. -/
theorem Apart.of_sub {p q r : Nat × Nat} (h : Apart p r) (h₁ : p.1 ≤ q.1)
    (h₂ : q.1 + q.2 ≤ p.1 + p.2) : Apart q r := by
  unfold Apart at *
  omega

/-! ## The blocks of the free lists -/

/-- The blocks of free lists `ls`, the first one the free list of bucket `b`. -/
def blocksFrom (m : Nat) : Nat → List (List Nat) → List (Nat × Nat)
  | _, [] => []
  | b, l :: ls => l.map (fun i => (i, bucketSz m b)) ++ blocksFrom m (b + 1) ls

theorem blocksFrom_replicate (m b k : Nat) : blocksFrom m b (List.replicate k []) = [] := by
  induction k generalizing b with
  | zero => rfl
  | succ k ih => simp [List.replicate_succ, blocksFrom, ih]

theorem blocksFrom_append_replicate (m b k : Nat) (ls : List (List Nat)) :
    blocksFrom m b (ls ++ List.replicate k []) = blocksFrom m b ls := by
  induction ls generalizing b with
  | nil => exact blocksFrom_replicate m b k
  | cons l ls ih => simp [blocksFrom, ih]

/-- Replacing the free list of one bucket replaces its blocks. -/
theorem blocksFrom_set (m : Nat) (l : List Nat) :
    ∀ (b j : Nat) (ls : List (List Nat)), j < ls.length →
      (blocksFrom m b (ls.set j l) ++ (ls.getD j []).map (fun i => (i, bucketSz m (b + j)))).Perm
        (blocksFrom m b ls ++ l.map (fun i => (i, bucketSz m (b + j))))
  | _, _, [], h => absurd h (Nat.not_lt_zero _)
  | b, 0, l' :: ls, _ => by
    simp only [List.set_cons_zero, blocksFrom, List.getD_cons_zero, Nat.add_zero, List.append_assoc]
    rw [List.perm_iff_count]
    intro p
    simp only [List.count_append]
    omega
  | b, j + 1, l' :: ls, h => by
    have ih := blocksFrom_set m l (b + 1) j ls (by simpa using h)
    rw [show b + 1 + j = b + (j + 1) by omega] at ih
    simp only [List.set_cons_succ, blocksFrom, List.getD_cons_succ, List.append_assoc]
    exact ih.append_left _

theorem mem_blocksFrom (m i : Nat) : ∀ (b j : Nat) (ls : List (List Nat)), i ∈ ls.getD j [] →
    (i, bucketSz m (b + j)) ∈ blocksFrom m b ls
  | _, _, [], h => by simp at h
  | b, 0, l :: ls, h => by simp_all [blocksFrom]
  | b, j + 1, l :: ls, h => by
    have ih := mem_blocksFrom m i (b + 1) j ls (by simpa using h)
    rw [show b + 1 + j = b + (j + 1) by omega] at ih
    simp [blocksFrom, ih]

namespace AllocFile

variable {E : Type}

/-- The blocks on the free lists, as their first slot and their number of slots. -/
def freeBlocks (m : Nat) (af : AllocFile E) : List (Nat × Nat) := blocksFrom m 0 af.free

variable {m : Nat}

theorem mem_freeBlocks {af : AllocFile E} {b i : Nat} (h : i ∈ af.freeList b) :
    (i, bucketSz m b) ∈ af.freeBlocks m := by
  have h' := mem_blocksFrom m i 0 b af.free h
  rw [Nat.zero_add] at h'
  exact h'

@[simp] theorem freeBlocks_set [Inhabited E] (af : AllocFile E) (idx : Nat) (e : E) :
    (af.set idx e).freeBlocks m = af.freeBlocks m := rfl

@[simp] theorem freeBlocks_emplaceBack [Inhabited E] (af : AllocFile E) (n : Nat) (e : E) :
    (af.emplaceBack n e).2.freeBlocks m = af.freeBlocks m := rfl

/-- Replacing a free list replaces its blocks. -/
theorem freeBlocks_setFree (af : AllocFile E) (b : Nat) (l : List Nat) :
    ((af.setFree b l).freeBlocks m ++ (af.freeList b).map (fun i => (i, bucketSz m b))).Perm
      (af.freeBlocks m ++ l.map (fun i => (i, bucketSz m b))) := by
  have hlen : b < (af.free ++ List.replicate (b + 1 - af.free.length) []).length := by
    simp only [List.length_append, List.length_replicate]
    omega
  have hget :
      (af.free ++ List.replicate (b + 1 - af.free.length) []).getD b [] = af.freeList b := by
    simp only [freeList, List.getD_eq_getElem?_getD, List.getElem?_append, List.getElem?_replicate]
    split
    · rfl
    · rw [List.getElem?_eq_none (by omega)]
      split <;> rfl
  have h := blocksFrom_set m l 0 b _ hlen
  rw [hget, blocksFrom_append_replicate, Nat.zero_add] at h
  exact h

/-- `_dealloc` puts one block on the free lists. -/
theorem freeBlocks_dealloc (af : AllocFile E) (idx b : Nat) :
    ((af.dealloc idx b).freeBlocks m).Perm ((idx, bucketSz m b) :: af.freeBlocks m) := by
  have h := freeBlocks_setFree (m := m) af b (idx :: af.freeList b)
  rw [List.map_cons] at h
  exact (List.perm_append_right_iff _).mp (h.trans List.perm_middle)


/-- `_emplace` takes the head of a free list off the free lists. -/
theorem freeBlocks_setFree_of_cons {af : AllocFile E} {b res : Nat} {rest : List Nat}
    (hf : af.freeList b = res :: rest) :
    ((res, bucketSz m b) :: (af.setFree b rest).freeBlocks m).Perm (af.freeBlocks m) := by
  have h := freeBlocks_setFree (m := m) af b rest
  rw [hf, List.map_cons] at h
  exact (List.perm_append_right_iff _).mp (List.perm_middle.symm.trans h)

/-- The live blocks `live` and the blocks on the free lists lie inside the file, past the slot
standing for no item, each with at least one slot, and no two of them share a slot. -/
structure BlocksApart (m : Nat) (af : AllocFile E) (live : List (Nat × Nat)) : Prop where
  size_pos : 0 < af.size
  inside : ∀ p ∈ live ++ af.freeBlocks m, 0 < p.1 ∧ 0 < p.2 ∧ p.1 + p.2 ≤ af.size
  apart : (live ++ af.freeBlocks m).Pairwise Apart

variable {af : AllocFile E} {live : List (Nat × Nat)}

/-- The layout only depends on the size of the file and on its blocks, in any order. -/
theorem BlocksApart.of_perm {af' : AllocFile E} {live' : List (Nat × Nat)}
    (h : BlocksApart m af live)
    (hs : af'.size = af.size) (hp : (live' ++ af'.freeBlocks m).Perm (live ++ af.freeBlocks m)) :
    BlocksApart m af' live' where
  size_pos := hs ▸ h.size_pos
  inside p hp' := hs ▸ h.inside p (hp.subset hp')
  apart := (hp.pairwise_iff Apart.symm).mpr h.apart

theorem BlocksApart.wf (h : BlocksApart m af live) : af.Wf where
  size_pos := h.size_pos
  free_mem b i hi := by
    have := h.inside _ (List.mem_append_right _ (mem_freeBlocks (m := m) hi))
    exact ⟨this.1, by omega⟩

theorem BlocksApart.set [Inhabited E] (h : BlocksApart m af live) (idx : Nat) (e : E) :
    BlocksApart m (af.set idx e) live :=
  h.of_perm (size_set af idx e) (by rw [freeBlocks_set])

/-- A live block shares its first slot with no other live block. -/
theorem BlocksApart.fst_ne_of_mem {p q : Nat × Nat} (h : BlocksApart m af (p :: live))
    (hq : q ∈ live) : q.1 ≠ p.1 := by
  have hpq : Apart p q := (List.pairwise_cons.mp h.apart).1 q (List.mem_append_left _ hq)
  have hp := h.inside p (List.mem_append_left _ List.mem_cons_self)
  have hq' := h.inside q (List.mem_append_left _ (List.mem_cons_of_mem _ hq))
  unfold Apart at hpq
  omega

/-- A live block starts where no free block does. -/
theorem BlocksApart.fst_ne_of_free {p q : Nat × Nat} (h : BlocksApart m af live) (hp : p ∈ live)
    (hq : q ∈ af.freeBlocks m) : p.1 ≠ q.1 := by
  have hpq : Apart p q := (List.pairwise_append.mp h.apart).2.2 p hp q hq
  have hp' := h.inside p (List.mem_append_left _ hp)
  have hq' := h.inside q (List.mem_append_right _ hq)
  unfold Apart at hpq
  omega

/-- A block taken at the end of the file is apart from every other. -/
theorem BlocksApart.emplaceBack [Inhabited E] (h : BlocksApart m af live) {n : Nat} (hn : 0 < n)
    (e : E) :
    BlocksApart m (af.emplaceBack n e).2 ((af.size, n) :: live) where
  size_pos := by
    simp only [size_emplaceBack]
    omega
  inside p hp := by
    simp only [size_emplaceBack, freeBlocks_emplaceBack, List.cons_append, List.mem_cons] at hp ⊢
    rcases hp with rfl | hp
    · exact ⟨h.size_pos, hn, by omega⟩
    · have := h.inside p hp
      omega
  apart := by
    rw [freeBlocks_emplaceBack, List.cons_append, List.pairwise_cons]
    refine ⟨fun p hp => Or.inr ?_, h.apart⟩
    have := h.inside p hp
    omega

theorem BlocksApart.emplace [Inhabited E] (hm : 0 < m) (h : BlocksApart m af live) (sz : Nat)
    (e : E) :
    BlocksApart m (af.emplace m sz e).2
      (((af.emplace m sz e).1, bucketSz m (bucket m sz)) :: live) := by
  cases hf : af.freeList (bucket m sz) with
  | nil =>
    rw [emplace_of_freeList_nil hf, fst_emplaceBack]
    exact h.emplaceBack (bucketSz_pos hm _) e
  | cons res rest =>
    have he : af.emplace m sz e = (res, (af.setFree (bucket m sz) rest).set res e) := by
      simp [AllocFile.emplace, hf]
    rw [he]
    refine h.of_perm (by simp) ?_
    rw [freeBlocks_set, List.cons_append]
    exact List.perm_middle.symm.trans ((freeBlocks_setFree_of_cons hf).append_left live)

/-- `_pop` gives a live block back to the free lists. -/
theorem BlocksApart.pop {idx sz : Nat}
    (h : BlocksApart m af ((idx, bucketSz m (bucket m sz)) :: live)) :
    BlocksApart m (af.pop m idx sz) live := by
  have hidx : idx ≠ 0 := by
    have := h.inside _ (List.mem_append_left _ List.mem_cons_self)
    omega
  rw [AllocFile.pop, if_neg hidx]
  refine h.of_perm rfl ?_
  rw [List.cons_append]
  exact ((freeBlocks_dealloc af idx _).append_left live).trans List.perm_middle

/-- Freeing the tail of a live block keeps its head live. -/
theorem BlocksApart.dealloc_tail (hm : 0 < m) {idx a b : Nat}
    (h : BlocksApart m af ((idx, a + bucketSz m b) :: live)) (ha : 0 < a) :
    BlocksApart m (af.dealloc (idx + a) b) ((idx, a) :: live) := by
  have hidx := h.inside _ (List.mem_append_left _ List.mem_cons_self)
  have hb := bucketSz_pos hm b
  have hs : (af.dealloc (idx + a) b).size = af.size := rfl
  -- the two halves, then the other blocks as they were
  have hsplit : (((idx, a) :: live) ++ (af.dealloc (idx + a) b).freeBlocks m).Perm
      ((idx, a) :: (idx + a, bucketSz m b) :: (live ++ af.freeBlocks m)) :=
    ((freeBlocks_dealloc af (idx + a) b).append_left live).trans List.perm_middle |>.cons _
  have hrest := List.pairwise_cons.mp h.apart
  refine ⟨h.size_pos, fun p hp => ?_, (hsplit.pairwise_iff Apart.symm).mpr ?_⟩
  · rw [hs]
    rcases List.mem_cons.mp (hsplit.subset hp) with rfl | hp
    · dsimp only at hidx ⊢
      omega
    rcases List.mem_cons.mp hp with rfl | hp
    · dsimp only at hidx ⊢
      omega
    · exact h.inside p (List.mem_cons_of_mem _ hp)
  · refine List.Pairwise.cons ?_ (List.Pairwise.cons ?_ hrest.2)
    · intro q hq
      rcases List.mem_cons.mp hq with rfl | hq
      · exact Or.inl le_rfl
      · exact (hrest.1 q hq).of_sub le_rfl (by dsimp only; omega)
    · exact fun q hq => (hrest.1 q hq).of_sub (by dsimp only; omega) (by dsimp only; omega)


/-- The largest bucket whose blocks fit in `x` slots, as the loop of `_shorten` finds it. -/
def fitBucket (m x : Nat) : Nat :=
  if bucketSz m (bucket m x) > x then bucket m x - 1 else bucket m x

theorem bucketSz_fitBucket_le (hm : 0 < m) (hm8 : m ≤ 8) {x : Nat} (hx : 0 < x) :
    bucketSz m (fitBucket m x) ≤ x := by
  unfold fitBucket
  split
  · rename_i hgt
    -- the bucket of `x` is not the first one, whose blocks have a single slot
    have hb : 0 < bucket m x := by
      by_contra h0
      rw [Nat.eq_zero_of_not_pos h0, bucketSz_of_lt hm (Nat.two_pow_pos m)] at hgt
      omega
    exact Nat.le_of_lt (bucketSz_pred_bucket_lt hm hm8 hb)
  · omega

/-- One turn of the loop of `_shorten`: both of its checks pass. -/
theorem shortenLoop_succ_of_lt (hm : 0 < m) (hm8 : m ≤ 8) (af : AllocFile E)
    {idx newSz fuel oldSz : Nat}
    (hlt : newSz < oldSz) :
    shortenLoop m idx newSz (fuel + 1) oldSz af =
      shortenLoop m idx newSz fuel (oldSz - bucketSz m (fitBucket m (oldSz - newSz)))
        (af.dealloc (idx + (oldSz - bucketSz m (fitBucket m (oldSz - newSz))))
          (fitBucket m (oldSz - newSz))) := by
  have hx : 0 < oldSz - newSz := by omega
  have h₁ := le_bucketSz_bucket hm hm8 hx
  have h₂ := bucketSz_fitBucket_le hm hm8 hx
  simp only [fitBucket] at h₂ ⊢
  simp [shortenLoop, hlt, swear, h₁, h₂, bind, Except.bind]


@[simp] theorem slots_dealloc (af : AllocFile E) (idx b : Nat) :
    (af.dealloc idx b).slots = af.slots := rfl

/-- The loop of `_shorten` cuts a live block down to `newSz` slots and frees the rest, piece by
piece, leaving the slots as they are.  The induction is on the fuel, which bounds the slots still
to free. -/
theorem BlocksApart.shortenLoop_ok (hm : 0 < m) (hm8 : m ≤ 8) {idx newSz : Nat}
    (hnew : 0 < newSz) :
    ∀ (fuel oldSz : Nat) (af : AllocFile E), newSz ≤ oldSz → oldSz - newSz ≤ fuel →
      BlocksApart m af ((idx, oldSz) :: live) →
      ∃ af', AllocFile.shortenLoop m idx newSz fuel oldSz af = .ok af' ∧
        af'.slots = af.slots ∧
        BlocksApart m af' ((idx, newSz) :: live)
  | 0, oldSz, af, hle, hfuel, h => by
    obtain rfl : oldSz = newSz := by omega
    exact ⟨af, rfl, rfl, h⟩
  | fuel + 1, oldSz, af, hle, hfuel, h => by
    rcases Nat.lt_or_ge newSz oldSz with hlt | hge
    · have hx : 0 < oldSz - newSz := by omega
      have hpiece := bucketSz_fitBucket_le hm hm8 hx
      have hpos := bucketSz_pos hm (fitBucket m (oldSz - newSz))
      -- the piece freed first is the tail of the block
      have hsplit : oldSz = oldSz - bucketSz m (fitBucket m (oldSz - newSz)) +
          bucketSz m (fitBucket m (oldSz - newSz)) := by omega
      have hcut := (hsplit ▸ h).dealloc_tail hm
        (show 0 < oldSz - bucketSz m (fitBucket m (oldSz - newSz)) by omega)
      obtain ⟨af', hrun, hslots, hl⟩ :=
        BlocksApart.shortenLoop_ok hm hm8 hnew fuel _ _ (by omega) (by omega) hcut
      refine ⟨af', ?_, hslots, hl⟩
      rw [shortenLoop_succ_of_lt hm hm8 af hlt]
      exact hrun
    · obtain rfl : oldSz = newSz := by omega
      exact ⟨af, by simp [AllocFile.shortenLoop], rfl, h⟩


/-- `_shorten` cuts a live block to the block of its new size and leaves the slots as they are;
both of its checks pass. -/
theorem BlocksApart.shorten_ok (hm : 0 < m) (hm8 : m ≤ 8) {idx oldSz newSz : Nat}
    (h : BlocksApart m af ((idx, bucketSz m (bucket m oldSz)) :: live)) (hnew : 0 < newSz)
    (hle : newSz ≤ oldSz) :
    ∃ af', af.shorten m idx oldSz newSz = .ok af' ∧ af'.slots = af.slots ∧
      BlocksApart m af' ((idx, bucketSz m (bucket m newSz)) :: live) := by
  by_cases heq : newSz = oldSz
  · subst heq
    exact ⟨af, by simp [AllocFile.shorten, Nat.pos_iff_ne_zero.mp hnew], rfl, h⟩
  · have hb := bucket_mono hm hm8 hnew hle
    have hsz := bucketSz_mono hm hb
    obtain ⟨af', hrun, hslots, hl⟩ :=
      BlocksApart.shortenLoop_ok hm hm8 (bucketSz_pos hm _) (bucketSz m (bucket m oldSz)) _ af hsz
        (by omega) h
    refine ⟨af', ?_, hslots, hl⟩
    simp [AllocFile.shorten, Nat.pos_iff_ne_zero.mp hnew, heq, hle, hb, hrun, swear, bind, pure,
      Except.bind, Except.pure]

end AllocFile

end Store
