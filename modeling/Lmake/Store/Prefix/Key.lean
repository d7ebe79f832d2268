import Lmake.Store.Prefix.File

/-!
# Reading a key back

`_key`, `_psfx` and `_key_psfx` rebuild the key of an item by walking its `prev` links back to the
root, and each collects the chunks its own way: `_key` skips the last `psfx_sz` chars, or, when
there are none to skip, takes a fast path that only skips empty chunks; `_psfx` takes the last
chars of each chunk until it has `psfx_sz` of them; `_key_psfx` cuts the chunk that holds the
boundary at its own offset.  A `Reverse` file appends what it collects as it walks, the chunks
reversed; the others replay the walk from the root (`gather`).

Each walk is compared with one spec, the chars of the trie from the root to the item
(`trieChars`), put in the order of the key as it is given (`orient`, which reverses them in a
`Reverse` file): `_key` gives all but the last `psfx_sz` of them, `_psfx` the last `psfx_sz`.

## Main results

* `gather_keyPath`, `gather_keyFastPath`, `gather_psfxPath`, `gather_keyPsfxPath`: the four
  walks against `trieChars`, each by induction on the walk.
* `key_psfx_split`: `_psfx(idx,n)` is the `n` chars of the key farthest from the root, `_key(idx,n)`
  the rest, they put the key back together in the key's order, `_key_psfx` computes both, and the
  fast path of `_key` agrees with its general path.
-/

set_option autoImplicit false

namespace Store

namespace MultiPrefixFile

/-! ## The spec -/

section Spec

variable {C D : Type} [Inhabited C] [Inhabited D]

/-- The chars of the trie from the root to the end of the chunk of `idx`, in the trie's order. -/
def trieChars (f : PrefixFile C D) : Nat → Nat → List C
  | 0, _ => []
  | fuel + 1, idx =>
    if idx == 0 then [] else trieChars f fuel (f.item idx).prev ++ (f.item idx).chunkList

end Spec

section Chunk

variable {C D : Type} [Inhabited C]

@[simp]
theorem length_chunkList (it : Item C D) : it.chunkList.length = it.chunkSz := by
  simp [Item.chunkList]

/-- The first `n` chars of a chunk. -/
theorem map_chunk_range (it : Item C D) {n : Nat} (h : n ≤ it.chunkSz) :
    (List.range n).map it.chunk = it.chunkList.take n := by
  rw [Item.chunkList, ← List.map_take, List.take_range, Nat.min_eq_left h]

/-- The last `n` chars of a chunk. -/
theorem map_chunk_tail (it : Item C D) {n : Nat} (h : n ≤ it.chunkSz) :
    (List.range n).map (fun i => it.chunk (it.chunkSz - n + i)) =
      it.chunkList.drop (it.chunkSz - n) := by
  apply List.ext_getElem
  · simp
    omega
  · intro i h₁ h₂
    simp [Item.chunkList]

end Chunk

section Gather

variable {C : Type} (L : Layout C)

/-- Chars of the trie in the order of the key as it is given: a `Reverse` file stores keys from
their end. -/
def orient (l : List C) : List C := if L.reverse then l.reverse else l

theorem gather_singleton (c : List C) : gather L [orient L c] = orient L c := by
  simp [gather]

/-- What a walk collects at an item goes after what it collects back to the root. -/
theorem gather_cons {P : List (List C)} {X : List C} (h : gather L P = orient L X) (c : List C) :
    gather L (orient L c :: P) = orient L (X ++ c) := by
  unfold gather orient at *
  cases hr : L.reverse
  · -- replayed from the root
    simp only [hr, Bool.false_eq_true, if_false] at h ⊢
    simp [h]
  · -- appended while walking back, each chunk reversed
    simp only [hr, if_true] at h ⊢
    simp [h]

end Gather

/-! ## Cutting a list from its end -/

section Cut

variable {α : Type} {T c : List α} {p : Nat}

/-- A cut `p` from the end of `T ++ c` that falls in `T`. -/
theorem take_append_sub_of_le (h : c.length ≤ p) :
    (T ++ c).take ((T ++ c).length - p) = T.take (T.length - (p - c.length)) := by
  rw [List.length_append, List.take_append_of_le_length (by omega)]
  congr 1
  omega

/-- A cut `p` from the end of `T ++ c` that falls in `c`. -/
theorem take_append_sub_of_ge (h : p ≤ c.length) :
    (T ++ c).take ((T ++ c).length - p) = T ++ c.take (c.length - p) := by
  rw [List.length_append, List.take_append, List.take_of_length_le (by omega)]
  congr 2
  omega

theorem drop_append_sub_of_le (h : c.length ≤ p) :
    (T ++ c).drop ((T ++ c).length - p) = T.drop (T.length - (p - c.length)) ++ c := by
  rw [List.length_append, List.drop_append_of_le_length (by omega)]
  congr 2
  omega

theorem drop_append_sub_of_ge (h : p ≤ c.length) :
    (T ++ c).drop ((T ++ c).length - p) = c.drop (c.length - p) := by
  rw [List.length_append, List.drop_append, List.drop_of_length_le (by omega), List.nil_append]
  congr 1
  omega

end Cut

/-! ## The walks -/

section Walks

variable {C D : Type} [Inhabited C] [Inhabited D] (L : Layout C) (f : PrefixFile C D)

theorem trieChars_succ {fuel idx : Nat} (h : idx ≠ 0) :
    trieChars f (fuel + 1) idx = trieChars f fuel (f.item idx).prev ++ (f.item idx).chunkList := by
  simp [trieChars, h]

/-- `_key` without its fast path: all but the last `p` chars of the trie. -/
theorem gather_keyPath : ∀ fuel idx p, gather L (keyPath L f fuel idx p) =
    orient L ((trieChars f fuel idx).take ((trieChars f fuel idx).length - p))
  | 0, _, _ => by simp [keyPath, trieChars, gather, orient]
  | fuel + 1, idx, p => by
    by_cases h0 : idx = 0
    · simp [keyPath, trieChars, h0, gather, orient]
    rw [trieChars_succ f h0, keyPath, beq_false_of_ne h0, if_neg Bool.false_ne_true]
    by_cases hp : (f.item idx).chunkSz ≤ p
    · -- the cut is in a chunk further back
      rw [if_pos hp, take_append_sub_of_le (by simpa using hp), length_chunkList]
      exact gather_keyPath fuel _ _
    · -- the cut is in this chunk: the rest of the walk takes whole chunks
      have ih := gather_keyPath fuel (f.item idx).prev 0
      rw [Nat.sub_zero, List.take_length] at ih
      rw [if_neg hp, take_append_sub_of_ge (by simp; omega), length_chunkList,
        ← map_chunk_range _ (Nat.sub_le _ _)]
      exact gather_cons L ih _

/-- The fast path of `_key`: the whole trie. -/
theorem gather_keyFastPath : ∀ fuel idx, gather L (keyFastPath L f fuel idx) =
    orient L (trieChars f fuel idx)
  | 0, _ => by simp [keyFastPath, trieChars, gather, orient]
  | fuel + 1, idx => by
    by_cases h0 : idx = 0
    · simp [keyFastPath, trieChars, h0, gather, orient]
    rw [trieChars_succ f h0, keyFastPath, beq_false_of_ne h0, if_neg Bool.false_ne_true]
    by_cases hc : (f.item idx).chunkSz = 0
    · -- an empty chunk is skipped, and adds nothing to the trie
      have hnil : (f.item idx).chunkList = [] := List.eq_nil_of_length_eq_zero (by simpa using hc)
      rw [if_neg (not_not.mpr hc), hnil, List.append_nil]
      exact gather_keyFastPath fuel _
    · rw [if_pos hc]
      exact gather_cons L (gather_keyFastPath fuel _) _

/-- `_psfx`: the last `p` chars of the trie. -/
theorem gather_psfxPath : ∀ fuel idx p, gather L (psfxPath L f fuel idx p) =
    orient L ((trieChars f fuel idx).drop ((trieChars f fuel idx).length - p))
  | 0, _, _ => by simp [psfxPath, trieChars, gather, orient]
  | fuel + 1, idx, p => by
    by_cases h0 : idx = 0
    · simp [psfxPath, trieChars, h0, gather, orient]
    rw [trieChars_succ f h0, psfxPath, beq_false_of_ne h0, if_neg Bool.false_ne_true]
    dsimp only
    by_cases hp : (f.item idx).chunkSz < p
    · -- the whole chunk, and more from further back
      rw [if_pos hp, drop_append_sub_of_le (by simp; omega), length_chunkList,
        Nat.min_eq_left (Nat.le_of_lt hp), map_chunk_tail _ le_rfl, Nat.sub_self, List.drop_zero]
      exact gather_cons L (gather_psfxPath fuel _ _) _
    · -- the walk stops in this chunk
      have hle : p ≤ (f.item idx).chunkSz := Nat.le_of_not_lt hp
      rw [if_neg hp, drop_append_sub_of_ge (by simpa using hle), length_chunkList,
        Nat.min_eq_right hle, map_chunk_tail _ hle]
      exact gather_singleton L _

/-- The key side of `_key_psfx` is the walk of `_key` without its fast path. -/
theorem keyPsfxPath_fst : ∀ fuel idx p, (keyPsfxPath L f fuel idx p).1 = keyPath L f fuel idx p
  | 0, _, _ => rfl
  | fuel + 1, idx, p => by
    by_cases h0 : idx = 0
    · simp [keyPsfxPath, keyPath, h0]
    rw [keyPsfxPath, keyPath, beq_false_of_ne h0, if_neg Bool.false_ne_true, if_neg Bool.false_ne_true]
    dsimp only
    by_cases hp : (f.item idx).chunkSz ≤ p
    · rw [if_pos hp, if_pos hp]
      exact keyPsfxPath_fst fuel _ _
    · rw [if_neg hp, if_neg hp, keyPsfxPath_fst fuel]

/-- The suffix side of `_key_psfx`: the last `p` chars of the trie, as `_psfx` has them. -/
theorem gather_keyPsfxPath_snd : ∀ fuel idx p, gather L (keyPsfxPath L f fuel idx p).2 =
    orient L ((trieChars f fuel idx).drop ((trieChars f fuel idx).length - p))
  | 0, _, _ => by simp [keyPsfxPath, trieChars, gather, orient]
  | fuel + 1, idx, p => by
    by_cases h0 : idx = 0
    · simp [keyPsfxPath, trieChars, h0, gather, orient]
    rw [trieChars_succ f h0, keyPsfxPath, beq_false_of_ne h0, if_neg Bool.false_ne_true]
    dsimp only
    by_cases hp : (f.item idx).chunkSz ≤ p
    · -- the whole chunk is in the suffix
      rw [if_pos hp, drop_append_sub_of_le (by simpa using hp), length_chunkList]
      exact gather_cons L (gather_keyPsfxPath_snd fuel _ _) _
    · -- the suffix ends in this chunk: further back the walk only collects empty suffixes
      have ih := gather_keyPsfxPath_snd fuel (f.item idx).prev 0
      rw [Nat.sub_zero, List.drop_length] at ih
      rw [if_neg hp, drop_append_sub_of_ge (by simp; omega), length_chunkList]
      by_cases hp0 : p = 0
      · subst hp0
        have hd : (f.item idx).chunkList.drop (f.item idx).chunkSz = [] :=
          List.drop_of_length_le (by simp)
        simp [ih, hd, orient]
      · rw [if_pos hp0, List.singleton_append, ← map_chunk_tail _ (by omega)]
        exact gather_cons L ih _

end Walks

/-! ## The key and its suffix -/

section Key

variable {C D : Type} [Inhabited C] [Inhabited D] (L : Layout C) (f : PrefixFile C D)

/-- `_key(idx,p)`, fast path or not: all but the last `p` chars of the trie. -/
theorem key_eq (idx p : Nat) : key L f idx p = orient L
    ((trieChars f (f.alloc.size + 1) idx).take ((trieChars f (f.alloc.size + 1) idx).length - p)) := by
  unfold key
  split_ifs with hp
  · subst hp
    rw [gather_keyFastPath, Nat.sub_zero, List.take_length]
  · exact gather_keyPath L f _ _ _

theorem psfx_eq (idx p : Nat) : psfx L f idx p = orient L
    ((trieChars f (f.alloc.size + 1) idx).drop ((trieChars f (f.alloc.size + 1) idx).length - p)) :=
  gather_psfxPath L f _ _ _

theorem keyPsfx_eq (idx p : Nat) : keyPsfx L f idx p = (key L f idx p, psfx L f idx p) := by
  rw [keyPsfx, keyPsfxPath_fst, gather_keyPsfxPath_snd, gather_keyPath, key_eq, psfx_eq]

/-- The three walks split the key of an item at the same place: `_psfx(idx,n)` is the `n` chars
of `key(idx)` farthest from the root (its first ones in a `Reverse` file), `_key(idx,n)` the rest,
the two put `key(idx)` back together in the key's order, `_key_psfx` computes both, and the fast
path of `_key` gives what its general path gives. -/
theorem key_psfx_split (idx n : Nat) :
    psfx L f idx n = (if L.reverse then (key L f idx 0).take n
      else (key L f idx 0).drop ((key L f idx 0).length - n)) ∧
    key L f idx n = (if L.reverse then (key L f idx 0).drop n
      else (key L f idx 0).take ((key L f idx 0).length - n)) ∧
    (if L.reverse then psfx L f idx n ++ key L f idx n else key L f idx n ++ psfx L f idx n) =
      key L f idx 0 ∧
    keyPsfx L f idx n = (key L f idx n, psfx L f idx n) ∧
    gather L (keyFastPath L f (f.alloc.size + 1) idx) =
      gather L (keyPath L f (f.alloc.size + 1) idx 0) := by
  obtain ⟨T, hT⟩ : ∃ T, trieChars f (f.alloc.size + 1) idx = T := ⟨_, rfl⟩
  have hk : key L f idx 0 = orient L T := by
    rw [key_eq, hT, Nat.sub_zero, List.take_length]
  rw [hk]
  refine ⟨?_, ?_, ?_, keyPsfx_eq L f idx n, ?_⟩
  · -- the reversed trie read from its start is the trie's end read backwards
    rw [psfx_eq, hT]
    simp only [orient]
    cases L.reverse <;> simp [List.take_reverse]
  · rw [key_eq, hT]
    simp only [orient]
    cases L.reverse <;> simp [List.drop_reverse]
  · rw [key_eq, psfx_eq, hT]
    simp only [orient]
    cases L.reverse <;> simp [← List.reverse_append]
  · rw [gather_keyFastPath, gather_keyPath, Nat.sub_zero, List.take_length]

end Key

end MultiPrefixFile

end Store
