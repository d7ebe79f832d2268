import Lmake.Store.Prefix.Trie

/-!
# Searching the trie

`search(root,name,psfx)` walks the trie from the root with `DvgDigest`: in each item it matches
the chunk against the key, then goes on along the next link, or, after a `Split`, along the link
of the side the key's next char is on: the `is_eq` side when the char agrees with `cmp_val`
beyond bit `cmp_bit`.  It returns the item where the key ends, if that item is used.  On the way,
the walk records the last used item whose chunk the key went through: that is what `longest`
returns.

On a trie that `_chk` accepts, the walk stays in the trie and reads its chars (`trieChars`) from
the root (`WalkOk.cont`), so the item found has the key searched (`search_sound`).  Conversely the
walk goes down to every item whose chars begin the key (`dvgLoop_reaches`): below a `Split`, the
keys through each side have their next char on that side, which `_chk` checks only of the first
char of the next item, and which holds of every key below because agreeing on leading bits is an
ultrametric (`side_below`, `LeadBits`).  So every used item is found by its key, and inserting it
changes nothing (`search_complete`), and `longest` returns the longest used prefix of the key
(`longest_used_prefix`).  The one exception is an item with an empty chunk other than the root:
its key is that of the item before it, where the walk stops.

The key is read in the trie's order: the name then the suffix, each reversed in a `Reverse` file
(`orient`).
-/

set_option autoImplicit false

namespace Store

open LeadBits

/-! ## The bit tests of a `Split` -/

namespace Layout

variable {C : Type} (L : Layout C)

theorem sCmpBit_eq_leadAgree (a b : Nat) : L.sCmpBit a b = leadAgree L.nBits a b := by
  rw [Layout.sCmpBit, countlZero, leadAgree, size_eq_ite_log2]

end Layout

namespace Item

variable {C D : Type} (L : Layout C) (it : Item C D)

/-- `dvg_before(dvg_val)` holds when the char agrees with `cmp_val` on fewer than `cmp_bit`
leading bits. -/
theorem dvgBefore_iff (hw : L.nBits ≤ 64) (hb : it.cmpBit < L.nBits) (v : Nat) :
    it.dvgBefore L v = true ↔ leadAgree L.nBits it.cmpVal v < it.cmpBit := by
  have hx : (it.cmpVal ^^^ v) % 2 ^ L.nBits < 2 ^ 64 :=
    lt_of_lt_of_le (Nat.mod_lt _ (Nat.two_pow_pos _)) (Nat.pow_le_pow_right Nat.two_pos hw)
  have hmask : (msbMsk (L.nBits - 1 - it.cmpBit) <<< 1) % 2 ^ 64 =
      2 ^ 64 - 2 ^ (L.nBits - it.cmpBit) := by
    rw [msbMsk, shiftLeft_one_two_pow_sub_two_pow (by omega)]
    congr 2
    omega
  rw [dvgBefore, hmask, bne_iff_ne, ne_eq, and_two_pow_sub_two_pow_eq_zero_iff hx (by omega),
    ← le_leadAgree_iff (Nat.le_of_lt hb), Nat.not_le]

/-- Past `dvg_before`, `dvg_at(dvg_val)` holds when the char agrees with `cmp_val` on exactly
`cmp_bit` leading bits. -/
theorem dvgAt_iff (hb : it.cmpBit < L.nBits) {v : Nat}
    (hle : it.cmpBit ≤ leadAgree L.nBits it.cmpVal v) :
    it.dvgAt L v = true ↔ leadAgree L.nBits it.cmpVal v = it.cmpBit := by
  obtain ⟨b, hbdef⟩ : ∃ b, b = L.nBits - 1 - it.cmpBit := ⟨_, rfl⟩
  have hlt : (it.cmpVal ^^^ v) % 2 ^ L.nBits < 2 ^ (b + 1) := by
    rw [show b + 1 = L.nBits - it.cmpBit by omega]
    exact (le_leadAgree_iff (Nat.le_of_lt hb) _ _).1 hle
  have hbit : (1 <<< b) % 2 ^ L.nBits = 2 ^ b := by
    rw [Nat.one_shiftLeft, Nat.mod_eq_of_lt (Nat.pow_lt_pow_right Nat.one_lt_two (by omega))]
  have hnext := @le_leadAgree_iff L.nBits (it.cmpBit + 1) (by omega) it.cmpVal v
  rw [show L.nBits - (it.cmpBit + 1) = b by omega] at hnext
  rw [dvgAt, ← hbdef, hbit, Nat.and_two_pow, bne_iff_ne, ne_eq, Nat.mul_eq_zero, not_or,
    Bool.toNat_eq_zero, Bool.not_eq_false, testBit_iff_two_pow_le hlt]
  -- bit `b` is the bit `cmp_bit` from the top
  constructor
  · rintro ⟨h, -⟩
    have : ¬it.cmpBit + 1 ≤ leadAgree L.nBits it.cmpVal v :=
      fun h' => absurd (hnext.1 h') (Nat.not_lt.2 h)
    omega
  · intro h
    refine ⟨Nat.le_of_not_lt fun h' => ?_, (Nat.two_pow_pos b).ne'⟩
    have := hnext.2 h'
    omega

/-- A char on the side `is_eq` of a `Split`, as `_chk` puts the keys below it: no divergence
before `cmp_bit`, and `dvg_at` picks that side. -/
theorem dvg_of_side (hw : L.nBits ≤ 64) (hb : it.cmpBit < L.nBits) {v : Nat} {isEq : Bool}
    (hs : if isEq then it.cmpBit < leadAgree L.nBits it.cmpVal v
      else leadAgree L.nBits it.cmpVal v = it.cmpBit) :
    it.dvgBefore L v = false ∧ (!it.dvgAt L v) = isEq := by
  have hle : it.cmpBit ≤ leadAgree L.nBits it.cmpVal v := by
    cases isEq <;> simp at hs <;> omega
  refine ⟨Bool.eq_false_iff.2 fun h => absurd ((dvgBefore_iff L it hw hb v).1 h) (Nat.not_lt.2 hle),
    ?_⟩
  cases isEq
  · simp only [Bool.false_eq_true, if_false] at hs
    simp [(dvgAt_iff L it hb hle).2 hs]
  · simp only [if_true] at hs
    have hat : it.dvgAt L v = false := Bool.eq_false_iff.2 fun h => by
      have := (dvgAt_iff L it hb hle).1 h
      omega
    simp [hat]

end Item

/-! ## Matching a chunk -/

open MultiPrefixFile

@[simp] theorem MultiPrefixFile.length_orient {C : Type} (L : Layout C) (l : List C) :
    (orient L l).length = l.length := by
  unfold orient
  split <;> simp

namespace Layout

variable {C : Type} [Inhabited C] (L : Layout C)

/-- `char_at<Reverse>(name,psfx,pos)` is the char at `pos` of the key in the trie's order. -/
theorem charAt2_eq {name psfx : List C} {pos : Nat} (h : pos < name.length + psfx.length) :
    L.charAt2 name psfx pos = (orient L name ++ orient L psfx).getD pos default := by
  unfold charAt2 charAt orient
  by_cases hn : pos < name.length
  · have hb : name.length - 1 - pos < name.length := by omega
    cases L.reverse <;> simp [hn, hb, List.getD_eq_getElem?_getD, List.getElem?_append_left]
  · have hp : pos - name.length < psfx.length := by omega
    have hb : psfx.length - 1 - (pos - name.length) < psfx.length := by omega
    cases L.reverse <;>
      simp [hn, hp, hb, List.getD_eq_getElem?_getD, List.getElem?_append_right, Nat.le_of_not_lt hn]

end Layout

namespace Item

variable {C D : Type} [DecidableEq C] [Inhabited C] (L : Layout C) (it : Item C D)
  {name psfx : List C}

/-- The chunk matches from `cp` and the key from `np` on `n` chars. -/
theorem matchChunk_of_forall : ∀ {n cp np : Nat},
    (∀ i < n, L.charAt2 name psfx (np + i) = it.chunk (cp + i)) →
      it.matchChunk L name psfx n cp np = (true, cp + n, np + n)
  | 0, _, _, _ => rfl
  | n + 1, cp, np, h => by
    have h0 := h 0 (Nat.succ_pos n)
    rw [Nat.add_zero, Nat.add_zero] at h0
    rw [matchChunk, h0, bne_self_eq_false, if_neg Bool.false_ne_true,
      matchChunk_of_forall (fun i hi => by
        have := h (i + 1) (by omega)
        rwa [show np + (i + 1) = np + 1 + i by omega, show cp + (i + 1) = cp + 1 + i by omega]
          at this)]
    simp only [Prod.mk.injEq, true_and]
    omega

/-- A match reads `n` chars of the chunk and of the key, and they are the same. -/
theorem matchChunk_true : ∀ {n cp np a b : Nat}, it.matchChunk L name psfx n cp np = (true, a, b) →
    a = cp + n ∧ b = np + n ∧ ∀ i < n, L.charAt2 name psfx (np + i) = it.chunk (cp + i)
  | 0, _, _, _, _, h => by
    simp only [matchChunk, Prod.mk.injEq, true_and] at h
    exact ⟨h.1.symm, h.2.symm, fun i hi => absurd hi (Nat.not_lt_zero i)⟩
  | n + 1, cp, np, a, b, h => by
    rw [matchChunk] at h
    by_cases hc : L.charAt2 name psfx np = it.chunk cp
    · rw [hc, bne_self_eq_false, if_neg Bool.false_ne_true] at h
      obtain ⟨ha, hb, hall⟩ := matchChunk_true h
      refine ⟨by omega, by omega, fun i hi => ?_⟩
      cases i with
      | zero => exact hc
      | succ i =>
        rw [show np + (i + 1) = np + 1 + i by omega, show cp + (i + 1) = cp + 1 + i by omega]
        exact hall i (by omega)
    · simp [bne_iff_ne, hc] at h

/-- `find_dvg` from the start of the chunk, when the key goes on with the chunk and then `R`: the
chunk matches, and the status is that of the item or of its next char. -/
theorem findDvg_of_drop {x np : Nat} {R : List C}
    (hnp : np ≤ (orient L name ++ orient L psfx).length)
    (hK : (orient L name ++ orient L psfx).drop np = it.chunkList ++ R) :
    it.findDvg L x 0 np name psfx = match R with
      | [] => (if it.used then .Match else .Unused, x, it.chunkSz, np + it.chunkSz)
      | c :: _ => match it.kind with
        | .Terminal => (.Long, x, it.chunkSz, np + it.chunkSz)
        | .Prefix => (.Cont, it.nxtEq, it.chunkSz, np + it.chunkSz)
        | .Split =>
          if it.dvgBefore L (L.rep c) then (.Dvg, x, it.chunkSz, np + it.chunkSz)
          else (.Cont, it.nxtIf !(it.dvgAt L (L.rep c)), it.chunkSz, np + it.chunkSz) := by
  have hlen := congrArg List.length hK
  simp only [List.length_drop, List.length_append, MultiPrefixFile.length_chunkList,
    MultiPrefixFile.length_orient] at hlen hnp
  -- the chars of the key from `np` are those of the chunk
  have hchars : ∀ i < it.chunkSz, L.charAt2 name psfx (np + i) = it.chunk (0 + i) := by
    intro i hi
    rw [L.charAt2_eq (by omega), List.getD_eq_getElem?_getD, ← List.getElem?_drop, hK,
      List.getElem?_append_left (by simpa using hi)]
    simp [Item.chunkList, hi]
  unfold findDvg
  dsimp only
  rw [show min (name.length + psfx.length) (np + it.chunkSz - 0) - np = it.chunkSz by omega,
    matchChunk_of_forall L it hchars, Nat.zero_add]
  simp only [Nat.lt_irrefl, if_false]
  cases R with
  | nil => simp [show np + it.chunkSz = name.length + psfx.length by simp at hlen; omega]
  | cons c R =>
    have hne : np + it.chunkSz ≠ name.length + psfx.length := by simp at hlen; omega
    have hc : L.charAt2 name psfx (np + it.chunkSz) = c := by
      rw [L.charAt2_eq (by simp at hlen; omega), List.getD_eq_getElem?_getD, ← List.getElem?_drop,
        hK, List.getElem?_append_right (by simp)]
      simp
    -- the two sides are two copies of the match on the kind
    cases it.kind <;> simp only [hne, if_false, hc]

/-- A mismatch is found `i` chars on, within the chars compared. -/
theorem matchChunk_false : ∀ {n cp np a b : Nat},
    it.matchChunk L name psfx n cp np = (false, a, b) → ∃ i < n, a = cp + i ∧ b = np + i
  | 0, _, _, _, _, h => by simp [matchChunk] at h
  | n + 1, cp, np, a, b, h => by
    rw [matchChunk] at h
    by_cases hc : L.charAt2 name psfx np = it.chunk cp
    · rw [hc, bne_self_eq_false, if_neg Bool.false_ne_true] at h
      obtain ⟨i, hi, rfl, rfl⟩ := matchChunk_false h
      exact ⟨i + 1, by omega, by omega, by omega⟩
    · simp only [bne_iff_ne, ne_eq, hc, not_false_eq_true, if_true, Prod.mk.injEq] at h
      exact ⟨0, by omega, by omega, by omega⟩

/-- Once the key has gone through the whole chunk, `find_dvg` is at the end of the chunk, whatever
it returns. -/
theorem findDvg_pos_of_drop {x np : Nat} {R : List C}
    (hnp : np ≤ (orient L name ++ orient L psfx).length)
    (hK : (orient L name ++ orient L psfx).drop np = it.chunkList ++ R) :
    (it.findDvg L x 0 np name psfx).2.2 = (it.chunkSz, np + it.chunkSz) := by
  rw [findDvg_of_drop L it hnp hK]
  cases R with
  | nil => rfl
  | cons c R =>
    cases it.kind with
    | Split =>
      dsimp only
      split_ifs <;> rfl
    | _ => rfl

/-- `find_dvg` from the start of the chunk either reads the whole chunk in the key, or stops
inside the chunk, with `Dvg` or `Short`, not going back in the key. -/
theorem findDvg_cases {x np : Nat} (hnp : np ≤ name.length + psfx.length) :
    (∃ R, (orient L name ++ orient L psfx).drop np = it.chunkList ++ R) ∨
      ((it.findDvg L x 0 np name psfx).2.2.1 < it.chunkSz ∧
        ((it.findDvg L x 0 np name psfx).1 = .Dvg ∨ (it.findDvg L x 0 np name psfx).1 = .Short) ∧
        np ≤ (it.findDvg L x 0 np name psfx).2.2.2) := by
  unfold findDvg
  dsimp only
  obtain ⟨n, hn⟩ : ∃ n, n = min (name.length + psfx.length) (np + it.chunkSz - 0) - np :=
    ⟨_, rfl⟩
  rw [← hn]
  rcases hm : it.matchChunk L name psfx n 0 np with ⟨_ | _, a, b⟩
  · -- a char differs
    dsimp only
    obtain ⟨i, hi, rfl, rfl⟩ := matchChunk_false L it hm
    exact .inr ⟨by omega, .inl rfl, by omega⟩
  · dsimp only
    obtain ⟨rfl, rfl, hall⟩ := matchChunk_true L it hm
    rw [Nat.zero_add]
    by_cases hs : n < it.chunkSz
    · -- the key ends in the chunk
      rw [if_pos hs]
      exact .inr ⟨hs, .inr rfl, Nat.le_add_right np n⟩
    have hn' : n = it.chunkSz := by omega
    subst hn'
    refine .inl ⟨(orient L name ++ orient L psfx).drop (np + it.chunkSz), ?_⟩
    rw [← List.take_append_drop it.chunkSz ((orient L name ++ orient L psfx).drop np),
      List.drop_drop]
    congr 1
    apply List.ext_getElem
    · simp
      omega
    · intro i h₁ h₂
      have hi := hall i (by simpa using h₂)
      rw [L.charAt2_eq (by simp at h₁; omega), List.getD_eq_getElem?_getD,
        List.getElem?_eq_getElem (by simp at h₁ ⊢; omega), Option.getD_some, Nat.zero_add] at hi
      simp [Item.chunkList, hi]

/-- `find_dvg` from the start of the chunk goes on, or finds the key, only when the key goes on
with the whole chunk. -/
theorem drop_of_findDvg {x np : Nat} (hnp : np ≤ name.length + psfx.length)
    (h : (it.findDvg L x 0 np name psfx).1 = .Cont ∨ (it.findDvg L x 0 np name psfx).1 = .Match) :
    ∃ R, (orient L name ++ orient L psfx).drop np = it.chunkList ++ R := by
  rcases findDvg_cases L it (x := x) hnp with hR | ⟨-, hs, -⟩
  · exact hR
  · rcases h with h | h <;> rcases hs with hs | hs <;> rw [hs] at h <;> cases h

/-- When `find_dvg` goes on, the key goes on after the chunk, and so does the walk, along a next
link of the item. -/
theorem findDvg_cont {x np : Nat} {R : List C} (hnp : np ≤ (orient L name ++ orient L psfx).length)
    (hK : (orient L name ++ orient L psfx).drop np = it.chunkList ++ R)
    (h : (it.findDvg L x 0 np name psfx).1 = .Cont) :
    R ≠ [] ∧ (∃ isEq ∈ it.kind.nxts, (it.findDvg L x 0 np name psfx).2.1 = it.nxtIf isEq) ∧
      (it.findDvg L x 0 np name psfx).2.2.2 = np + it.chunkSz := by
  rw [findDvg_of_drop L it hnp hK] at h ⊢
  cases R with
  | nil => cases hu : it.used <;> simp [hu] at h
  | cons c R =>
    refine ⟨List.cons_ne_nil c R, ?_⟩
    cases hk : it.kind with
    | Terminal => simp [hk] at h
    | Prefix => exact ⟨⟨true, by simp [ItemKind.nxts], rfl⟩, rfl⟩
    | Split =>
      -- the side is the one `dvg_at` gives
      by_cases hb : it.dvgBefore L (L.rep c)
      · simp [hk, hb] at h
      · refine ⟨⟨!(it.dvgAt L (L.rep c)), by cases it.dvgAt L (L.rep c) <;> simp [ItemKind.nxts],
          ?_⟩, ?_⟩ <;> simp [hb]

/-- When `find_dvg` finds the key, the key ends with the chunk of a used item. -/
theorem findDvg_match {x np : Nat} {R : List C} (hnp : np ≤ (orient L name ++ orient L psfx).length)
    (hK : (orient L name ++ orient L psfx).drop np = it.chunkList ++ R)
    (h : (it.findDvg L x 0 np name psfx).1 = .Match) :
    R = [] ∧ it.used = true ∧ (it.findDvg L x 0 np name psfx).2.1 = x := by
  rw [findDvg_of_drop L it hnp hK] at h ⊢
  cases R with
  | nil =>
    cases hu : it.used
    · simp [hu] at h
    · exact ⟨rfl, rfl, rfl⟩
  | cons c R =>
    exfalso
    cases hk : it.kind with
    | Terminal => simp [hk] at h
    | Prefix => simp [hk] at h
    | Split => by_cases hb : it.dvgBefore L (L.rep c) <;> simp [hk, hb] at h

end Item

/-! ## The walk of `DvgDigest` -/

namespace MultiPrefixFile

section Walk

variable {C D : Type} [DecidableEq C] [Inhabited C] [Inhabited D] (L : Layout C)
  (f : PrefixFile C D) {name psfx : List C} {sep : Option C}

/-- Once the walk of `DvgDigest` has stopped, it stays where it is. -/
theorem dvgLoop_stop {fuel cp : Nat} {d : DvgDigest} (h : d.dvg ≠ .Cont) :
    dvgLoop L f name psfx sep fuel cp d = d := by
  cases fuel <;> simp [dvgLoop, h]

/-- One step of the walk of `DvgDigest`: `find_dvg` in the current item, and the item recorded
as the longest used prefix when the key has gone through all of its chunk, at a separator if
there is one. -/
theorem dvgLoop_cont {fuel cp : Nat} {d : DvgDigest} (h : d.dvg = .Cont) :
    ∃ d' : DvgDigest, dvgLoop L f name psfx sep (fuel + 1) cp d = dvgLoop L f name psfx sep fuel 0 d' ∧
      (d'.dvg, d'.idx, d'.chunkPos, d'.namePos) =
        (f.item d.idx).findDvg L d.idx cp d.namePos name psfx ∧
      (d'.usedIdx, d'.usedPos) =
        if (f.item d.idx).used && d'.chunkPos == (f.item d.idx).chunkSz &&
            (match sep with
              | none => true
              | some sep => d'.namePos == name.length + psfx.length || L.charAt2 name psfx d'.namePos == sep)
        then (d.idx, d'.namePos) else (d.usedIdx, d.usedPos) := by
  rcases hf : (f.item d.idx).findDvg L d.idx cp d.namePos name psfx with
    ⟨dvg, idx, chunkPos, namePos⟩
  simp only [dvgLoop, h, bne_self_eq_false, Bool.false_eq_true, if_false, hf]
  refine ⟨_, rfl, ?_, ?_⟩
  · split_ifs <;> rfl
  · -- the separator test of the source and of the statement are two copies of one match
    cases sep <;> split_ifs <;> simp_all

end Walk

/-! ## The chars of the trie below a root -/

section Chars

variable {C D : Type} [Inhabited C] [Inhabited D] (L : Layout C) (f : PrefixFile C D)

@[simp] theorem trieChars_null : ∀ fuel, trieChars f fuel 0 = []
  | 0 => rfl
  | _ + 1 => by simp [trieChars]

/-- Below the root, the chars of the trie do not depend on the fuel beyond the depth. -/
theorem trieChars_stable {root : Nat} (hc : ChkOk L f (f.alloc.size + 1) root)
    (hr : (f.item root).prev = 0) :
    ∀ {y e : Nat}, Below f root y e → ∀ m, trieChars f (e + 1 + m) y = trieChars f (e + 1) y
  | y, 0, hb, m => by
    cases hb
    have h0 := hc.itemOk.ne_zero
    rw [Nat.zero_add, Nat.add_comm, trieChars_succ f h0, trieChars_succ f h0, hr,
      trieChars_null, trieChars_null]
  | y, e + 1, hb, m => by
    obtain ⟨z, -, hz, -, -, hprev, -⟩ := hc.parent hb
    have h0 := (hc.itemOk_below hb).ne_zero
    rw [show e + 1 + 1 + m = e + 1 + m + 1 by omega, trieChars_succ f h0, trieChars_succ f h0,
      hprev, trieChars_stable hc hr hz m]

/-- The chars of the trie down to an item are those down to the item before it, then its
chunk. -/
theorem trieChars_eq_prev {root : Nat} (hc : ChkOk L f (f.alloc.size + 1) root)
    (hr : (f.item root).prev = 0) {y e : Nat} (hb : Below f root y e) :
    trieChars f (f.alloc.size + 1) y =
      trieChars f (f.alloc.size + 1) (f.item y).prev ++ (f.item y).chunkList := by
  rw [trieChars_succ f (hc.itemOk_below hb).ne_zero]
  congr 1
  cases e with
  | zero =>
    cases hb
    rw [hr, trieChars_null, trieChars_null]
  | succ e =>
    -- the item before is one level up, where the fuel of the file is more than enough
    obtain ⟨z, -, hz, -, -, hprev, -⟩ := hc.parent hb
    have hd := (hc.below hb).1
    have h₁ := trieChars_stable L f hc hr hz (f.alloc.size - e - 1)
    have h₂ := trieChars_stable L f hc hr hz (f.alloc.size - e)
    rw [show e + 1 + (f.alloc.size - e - 1) = f.alloc.size by omega] at h₁
    rw [show e + 1 + (f.alloc.size - e) = f.alloc.size + 1 by omega] at h₂
    rw [hprev, h₁, h₂]

/-- The chars of the trie down to an item below `x` go on from those down to `x`, by the chunks
of the items in between. -/
theorem trieChars_below {root : Nat} (hc : ChkOk L f (f.alloc.size + 1) root)
    (hr : (f.item root).prev = 0) {x e₀ : Nat} (hx : Below f root x e₀) :
    ∀ {y e : Nat}, Below f x y e →
      ∃ T, trieChars f (f.alloc.size + 1) y = trieChars f (f.alloc.size + 1) x ++ T
  | y, 0, hb => by
    cases hb
    exact ⟨[], by rw [List.append_nil]⟩
  | y, e + 1, hb => by
    obtain ⟨z, isEq, hxz, hk, rfl⟩ := hb.last
    obtain ⟨T, hT⟩ := trieChars_below hc hr hx hxz
    have hl := (hc.link_below (hx.trans hxz) hk).2.2
    refine ⟨T ++ (f.item ((f.item z).nxtIf isEq)).chunkList, ?_⟩
    rw [trieChars_eq_prev L f hc hr (hx.trans hb), hl.prev, hT, List.append_assoc]

/-- An item strictly below `x`, with a chunk, has more chars than `x`. -/
theorem length_trieChars_lt {root : Nat} (hc : ChkOk L f (f.alloc.size + 1) root)
    (hr : (f.item root).prev = 0) {x e₀ y e : Nat} (hx : Below f root x e₀)
    (hb : Below f x y (e + 1)) (h0 : (f.item y).chunkSz ≠ 0) :
    (trieChars f (f.alloc.size + 1) x).length < (trieChars f (f.alloc.size + 1) y).length := by
  obtain ⟨z, isEq, hxz, hk, rfl⟩ := hb.last
  obtain ⟨T, hT⟩ := trieChars_below L f hc hr hx hxz
  have hl := (hc.link_below (hx.trans hxz) hk).2.2
  rw [trieChars_eq_prev L f hc hr (hx.trans hb), hl.prev, hT]
  simp only [List.length_append, length_chunkList]
  omega

end Chars

/-! ## The side of a key at a `Split` -/

section Side

variable {C D : Type} [Inhabited C] [Inhabited D] (L : Layout C) (f : PrefixFile C D)

/-- A key through an item with a chunk goes on with the first char of the chunk. -/
theorem chunk_zero_of_below {root : Nat} (hc : ChkOk L f (f.alloc.size + 1) root)
    (hr : (f.item root).prev = 0) {p e₀ y e : Nat} {isEq : Bool} {ch : C} {T : List C}
    (hp : Below f root p e₀) (hk : isEq ∈ (f.item p).kind.nxts)
    (hy : Below f ((f.item p).nxtIf isEq) y e) (h0 : (f.item ((f.item p).nxtIf isEq)).chunkSz ≠ 0)
    (hT : trieChars f (f.alloc.size + 1) y = trieChars f (f.alloc.size + 1) p ++ ch :: T) :
    (f.item ((f.item p).nxtIf isEq)).chunk 0 = ch := by
  have hcb : Below f root ((f.item p).nxtIf isEq) (e₀ + 1) := hp.trans (.step isEq hk (.refl _))
  have hchars := trieChars_eq_prev L f hc hr hcb
  rw [(hc.link_below hp hk).2.2.prev] at hchars
  obtain ⟨T', hT'⟩ := trieChars_below L f hc hr hcb hy
  obtain ⟨m, hm⟩ : ∃ m, (f.item ((f.item p).nxtIf isEq)).chunkSz = m + 1 := ⟨_, (Nat.succ_pred_eq_of_ne_zero h0).symm⟩
  rw [hT', hchars, Item.chunkList, hm, List.range_succ_eq_map, List.map_cons, List.append_assoc,
    List.cons_append] at hT
  exact (List.cons.inj (List.append_cancel_left hT)).1

/-- **The next char of a key through a next link**: take a key through an item `y` below the item
`c` after a link of `p`, and its char right after the chars down to `p`.  If `c` has a chunk, that
char is its first; if not, `c` is a `Split`, and the char agrees with its `cmp_val` on at least
`cmp_bit` leading bits.  The induction goes down the `Split`s with an empty chunk, whose
`cmp_bit` grow, so that the agreement each one has with the next carries over. -/
theorem next_char_below {root : Nat} (hc : ChkOk L f (f.alloc.size + 1) root)
    (hr : (f.item root).prev = 0) (e : Nat) :
    ∀ {p e₀ y : Nat} {isEq : Bool} {ch : C} {T : List C}, Below f root p e₀ →
      isEq ∈ (f.item p).kind.nxts → Below f ((f.item p).nxtIf isEq) y e →
      (f.item y).chunkSz ≠ 0 →
      trieChars f (f.alloc.size + 1) y = trieChars f (f.alloc.size + 1) p ++ ch :: T →
      if (f.item ((f.item p).nxtIf isEq)).chunkSz = 0 then
        (f.item ((f.item p).nxtIf isEq)).kind = .Split ∧
          (f.item ((f.item p).nxtIf isEq)).cmpBit ≤
            leadAgree L.nBits (f.item ((f.item p).nxtIf isEq)).cmpVal (L.rep ch)
      else (f.item ((f.item p).nxtIf isEq)).chunk 0 = ch := by
  induction e with
  | zero =>
    intro p e₀ y isEq ch T hp hk hy hy0 hT
    cases hy
    rw [if_neg hy0]
    exact chunk_zero_of_below L f hc hr hp hk (.refl _) hy0 hT
  | succ e ih =>
    intro p e₀ y isEq ch T hp hk hy hy0 hT
    split_ifs with h0
    swap
    · exact chunk_zero_of_below L f hc hr hp hk hy h0 hT
    -- no chunk: a `Split`, and the key goes on below it
    have hcb : Below f root ((f.item p).nxtIf isEq) (e₀ + 1) := hp.trans (.step isEq hk (.refl _))
    have hl := (hc.link_below hp hk).2.2
    have hsplit := kind_of_chkPrev L f ((hc.itemOk_below hcb).prev
      (by rw [hl.prev]; exact (hc.itemOk_below hp).ne_zero)) h0
    refine ⟨hsplit, ?_⟩
    cases hy with
    | step isEq' hk' hy' =>
      have hchars := trieChars_eq_prev L f hc hr hcb
      have hnil : (f.item ((f.item p).nxtIf isEq)).chunkList = [] :=
        List.eq_nil_of_length_eq_zero (by rw [length_chunkList, h0])
      rw [hl.prev, hnil, List.append_nil] at hchars
      have ih := ih hcb hk' hy' hy0 (hchars ▸ hT)
      have hl' := (hc.link_below hcb hk').2.2
      have hside := hl'.side hsplit
      -- what `_chk` checks of the next link: at least `cmp_bit` bits with its first char
      have hfirst : (f.item ((f.item p).nxtIf isEq)).cmpBit ≤ leadAgree L.nBits
          (f.item ((f.item p).nxtIf isEq)).cmpVal (firstRep L (f.item
            ((f.item ((f.item p).nxtIf isEq)).nxtIf isEq'))) := by
        rw [← L.sCmpBit_eq_leadAgree]
        cases isEq' <;> simp at hside <;> omega
      split_ifs at ih with h0'
      · rw [firstRep_of_split L ih.1 h0'] at hfirst
        have hlt := hl'.cmpBit_lt hsplit ih.1 h0'
        have := min_le_leadAgree L.nBits (f.item ((f.item p).nxtIf isEq)).cmpVal
          (f.item ((f.item ((f.item p).nxtIf isEq)).nxtIf isEq')).cmpVal (L.rep ch)
        omega
      · rwa [firstRep_of_chunkSz_ne_zero L h0', ih] at hfirst

/-- **A key below a link of a `Split` is on the side of the link**: its char after the chars
down to the `Split` agrees with `cmp_val` beyond `cmp_bit` on the `is_eq` side, and on exactly
`cmp_bit` leading bits on the other side.  `_chk` checks this of the first char below the link
only. -/
theorem side_below {root : Nat} (hc : ChkOk L f (f.alloc.size + 1) root)
    (hr : (f.item root).prev = 0) {p e₀ y e : Nat} {isEq : Bool} {ch : C} {T : List C}
    (hp : Below f root p e₀) (hk : isEq ∈ (f.item p).kind.nxts) (hs : (f.item p).kind = .Split)
    (hy : Below f ((f.item p).nxtIf isEq) y e) (hy0 : (f.item y).chunkSz ≠ 0)
    (hT : trieChars f (f.alloc.size + 1) y = trieChars f (f.alloc.size + 1) p ++ ch :: T) :
    if isEq then (f.item p).cmpBit < leadAgree L.nBits (f.item p).cmpVal (L.rep ch)
    else leadAgree L.nBits (f.item p).cmpVal (L.rep ch) = (f.item p).cmpBit := by
  have hl := (hc.link_below hp hk).2.2
  have hside := hl.side hs
  rw [L.sCmpBit_eq_leadAgree] at hside
  have hn := next_char_below L f hc hr e hp hk hy hy0 hT
  split_ifs at hn with h0
  · -- an empty chunk: the char is on the side of the next `Split`'s value, which agrees with it
    -- beyond a deeper bit
    rw [firstRep_of_split L hn.1 h0] at hside
    have hlt := hl.cmpBit_lt hs hn.1 h0
    cases isEq
    · simp only [Bool.false_eq_true, if_false] at hside ⊢
      rw [@leadAgree_eq_of_lt L.nBits (f.item p).cmpVal (f.item ((f.item p).nxtIf false)).cmpVal
        (L.rep ch) (by omega), hside]
    · simp only [if_true] at hside ⊢
      have := min_le_leadAgree L.nBits (f.item p).cmpVal (f.item ((f.item p).nxtIf true)).cmpVal
        (L.rep ch)
      omega
  · rwa [firstRep_of_chunkSz_ne_zero L h0, hn] at hside

end Side

end MultiPrefixFile

namespace MultiPrefixFile

/-! ## `search` -/

section Search

variable {C D : Type} [DecidableEq C] [Inhabited C] [Inhabited D] (L : Layout C)
  (f : PrefixFile C D) {name psfx : List C}

omit [DecidableEq C] [Inhabited C] in
/-- The key put back in the order it is given, from the trie's order. -/
theorem orient_key (name psfx : List C) :
    orient L (orient L name ++ orient L psfx) = if L.reverse then psfx ++ name else name ++ psfx := by
  unfold orient
  cases L.reverse <;> simp

omit [DecidableEq C] [Inhabited C] in
theorem orient_orient (l : List C) : orient L (orient L l) = l := by
  unfold orient
  cases L.reverse <;> simp

omit [DecidableEq C] in
/-- The key of an item is the chars of the trie down to it, in the key's order. -/
theorem key_zero (idx : Nat) : key L f idx 0 = orient L (trieChars f (f.alloc.size + 1) idx) := by
  rw [key_eq, Nat.sub_zero, List.take_length]

/-- Where the walk of `DvgDigest` stands in the trie below the root: at an item below the root,
with the key read up to the chars of the trie before the item. -/
def WalkOk (root : Nat) (K : List C) (d : DvgDigest) : Prop :=
  (∃ e, Below f root d.idx e) ∧ d.namePos ≤ K.length ∧
    K.take d.namePos = trieChars f (f.alloc.size + 1) (f.item d.idx).prev

/-- A step of the walk that goes on stays in the trie: it has read the whole chunk of the item,
and goes down one of its links, which points back. -/
theorem WalkOk.cont {root : Nat} (hc : ChkOk L f (f.alloc.size + 1) root)
    (hr : (f.item root).prev = 0) {d d' : DvgDigest}
    (hd : WalkOk f root (orient L name ++ orient L psfx) d)
    (hfd : (d'.dvg, d'.idx, d'.chunkPos, d'.namePos) =
      (f.item d.idx).findDvg L d.idx 0 d.namePos name psfx)
    (hcont : d'.dvg = .Cont) : WalkOk f root (orient L name ++ orient L psfx) d' := by
  obtain ⟨⟨e, hb⟩, hnp, hpre⟩ := hd
  have hnp' : d.namePos ≤ name.length + psfx.length := by simpa using hnp
  have hdvg : ((f.item d.idx).findDvg L d.idx 0 d.namePos name psfx).1 = .Cont := by
    rw [← hfd, hcont]
  obtain ⟨R, hK⟩ := Item.drop_of_findDvg L _ hnp' (.inl hdvg)
  obtain ⟨-, ⟨isEq, hk, hnxt⟩, hnp₂⟩ := Item.findDvg_cont L _ hnp hK hdvg
  rw [← hfd] at hnxt hnp₂
  dsimp only at hnxt hnp₂
  have hlen := congrArg List.length hK
  simp only [List.length_drop, List.length_append, length_chunkList, length_orient] at hlen
  refine ⟨⟨e + 1, hnxt ▸ hb.trans (.step isEq hk (.refl _))⟩, by simp at hnp₂ ⊢; omega, ?_⟩
  rw [hnxt, (hc.link_below hb hk).2.2.prev, trieChars_eq_prev L f hc hr hb, hnp₂, List.take_add,
    hpre, hK, List.take_left' (length_chunkList _)]

/-- **The walk of `search` reads the trie**: from where the walk stands in the trie, it finds the
key only at a used item below the root whose chars are the key.  The induction is on the walk;
each step that goes on stays in the trie (`WalkOk.cont`). -/
theorem dvgLoop_sound {root : Nat} (hc : ChkOk L f (f.alloc.size + 1) root)
    (hr : (f.item root).prev = 0) :
    ∀ (fuel : Nat) (d : DvgDigest), d.dvg = .Cont →
      WalkOk f root (orient L name ++ orient L psfx) d →
      (dvgLoop L f name psfx none fuel 0 d).dvg = .Match →
      (∃ e', Below f root (dvgLoop L f name psfx none fuel 0 d).idx e') ∧
        (f.item (dvgLoop L f name psfx none fuel 0 d).idx).used = true ∧
        trieChars f (f.alloc.size + 1) (dvgLoop L f name psfx none fuel 0 d).idx =
          orient L name ++ orient L psfx
  | 0, d, hd, _, hm => by simp [dvgLoop, hd] at hm
  | fuel + 1, d, hd, hw, hm => by
    obtain ⟨d', hstep, hfd, -⟩ := @dvgLoop_cont C D _ _ _ L f name psfx none fuel 0 d hd
    rw [hstep] at hm ⊢
    by_cases hcont : d'.dvg = .Cont
    · exact dvgLoop_sound hc hr fuel d' hcont (hw.cont L f hc hr hfd hcont) hm
    · -- the walk stops here: at the key, or elsewhere than a match
      rw [@dvgLoop_stop C D _ _ _ L f name psfx none fuel 0 d' hcont] at hm ⊢
      obtain ⟨⟨e, hb⟩, hnp, hpre⟩ := hw
      have hdvg : ((f.item d.idx).findDvg L d.idx 0 d.namePos name psfx).1 = .Match := by
        rw [← hfd, hm]
      obtain ⟨R, hK⟩ := Item.drop_of_findDvg L _ (by simpa using hnp) (.inr hdvg)
      obtain ⟨rfl, hu, hx'⟩ := Item.findDvg_match L _ hnp hK hdvg
      rw [← hfd] at hx'
      dsimp only at hx'
      rw [hx']
      refine ⟨⟨e, hb⟩, hu, ?_⟩
      rw [trieChars_eq_prev L f hc hr hb, ← hpre, ← List.append_nil (f.item d.idx).chunkList, ← hK,
        List.take_append_drop]

/-- **`search` is sound**: on a trie that `_chk` accepts from a root with no item before it, an
item that `search` returns is listed by `lst`, and its key is the key searched, the suffix after
the name (before it in a `Reverse` file). -/
theorem search_sound {root n idx : Nat} (hc : chk L f root = .ok n) (h0 : root ≠ 0)
    (hr : (f.item root).prev = 0) (hs : search L f root name psfx = idx) (hi : idx ≠ 0) :
    idx ∈ lst f root ∧ key L f idx 0 = if L.reverse then psfx ++ name else name ++ psfx := by
  have hck := chkOk_of_chk L f hc h0
  unfold search dvgDigest at hs
  dsimp only at hs
  split at hs
  · -- the walk from the root, with nothing of the key read yet
    rename_i hm
    obtain ⟨⟨e, hb⟩, hu, hchars⟩ := dvgLoop_sound L f hck hr _ ⟨.Cont, 0, root, 0, 0, 0⟩ rfl
      ⟨⟨0, .refl root⟩, Nat.zero_le _, by simp [hr]⟩ (by simpa using hm)
    subst hs
    exact ⟨(mem_lst_iff f L hc h0).2 ⟨⟨e, hb⟩, hu⟩, by rw [key_zero, hchars, orient_key]⟩
  · exact absurd hs.symm hi

theorem search_sound_sampleTrie : search nodeNameLayout sampleTrie 1 ['a', 'c'] [] = 5 ∧
    5 ∈ lst sampleTrie 1 ∧ key nodeNameLayout sampleTrie 5 0 =
      if nodeNameLayout.reverse then [] ++ ['a', 'c'] else ['a', 'c'] ++ [] := by
  have hs : search nodeNameLayout sampleTrie 1 ['a', 'c'] [] = 5 := by decide +kernel
  exact ⟨hs, search_sound nodeNameLayout sampleTrie
    (show chk nodeNameLayout sampleTrie 1 = .ok 3 by decide +kernel) (by decide)
    (by decide +kernel) hs (by decide)⟩

/-- At an item strictly above `y`, with the key read up to the chars before the item and going on
with the chars of `y`, `find_dvg` goes on along the link below which `y` is: after a `Split`,
the key's next char is on the side of that link (`side_below`). -/
theorem findDvg_toward {root x y e e' : Nat} {isEq : Bool} {rest : List C}
    (hc : ChkOk L f (f.alloc.size + 1) root) (hr : (f.item root).prev = 0) (hw : L.nBits ≤ 64)
    (hb : Below f root x e) (hk : isEq ∈ (f.item x).kind.nxts)
    (hby : Below f ((f.item x).nxtIf isEq) y e') (hy0 : (f.item y).chunkSz ≠ 0)
    (hK : orient L name ++ orient L psfx = trieChars f (f.alloc.size + 1) y ++ rest) :
    (f.item x).findDvg L x 0 (trieChars f (f.alloc.size + 1) (f.item x).prev).length name psfx =
      (.Cont, (f.item x).nxtIf isEq, (f.item x).chunkSz,
        (trieChars f (f.alloc.size + 1) (f.item x).prev).length + (f.item x).chunkSz) := by
  obtain ⟨T, hT⟩ := trieChars_below L f hc hr hb (.step isEq hk hby)
  have hx := trieChars_eq_prev L f hc hr hb
  -- `y` has more chars than `x`: the key goes on after the chunk of `x`
  obtain ⟨ch, T, rfl⟩ : ∃ ch T', T = ch :: T' := by
    have hlt := length_trieChars_lt L f hc hr hb (.step isEq hk hby) hy0
    cases T with
    | nil => simp [hT] at hlt
    | cons ch T' => exact ⟨ch, T', rfl⟩
  have hdrop : (orient L name ++ orient L psfx).drop (trieChars f (f.alloc.size + 1)
      (f.item x).prev).length = (f.item x).chunkList ++ ch :: (T ++ rest) := by
    rw [hK, hT, hx]
    simp
  have hnp : (trieChars f (f.alloc.size + 1) (f.item x).prev).length ≤
      (orient L name ++ orient L psfx).length := by
    rw [hK, hT, hx]
    simp
  rw [Item.findDvg_of_drop L _ hnp hdrop]
  cases hkind : (f.item x).kind with
  | Terminal => simp [hkind, ItemKind.nxts] at hk
  | Prefix =>
    simp only [hkind, ItemKind.nxts, List.mem_singleton] at hk
    subst hk
    rfl
  | Split =>
    have hside := side_below L f hc hr hb hk hkind hby hy0 (by rw [hT])
    -- the `is_eq` side of a `Split` is checked to agree beyond `cmp_bit`, so there is one
    have hbits : (f.item x).cmpBit < L.nBits := by
      have h := (hc.link_below hb (show true ∈ (f.item x).kind.nxts by
        simp [hkind, ItemKind.nxts])).2.2.side hkind
      rw [if_pos rfl, L.sCmpBit_eq_leadAgree] at h
      exact lt_of_lt_of_le h (leadAgree_le _ _ _)
    obtain ⟨hbef, hat⟩ := Item.dvg_of_side L _ hw hbits hside
    simp only [hbef, Bool.false_eq_true, if_false, hat]

/-- **The walk goes down to every item whose chars begin the key**: from an item above `y`, with
the key read up to the chars before the item, the walk comes to `y` after as many steps as `y` is
below the item, unless `y` is an item with an empty chunk below the root, whose chars are those of
the item before it.  The induction is on the depth of `y` below the item (`findDvg_toward`). -/
theorem dvgLoop_reaches {root y : Nat} (hc : ChkOk L f (f.alloc.size + 1) root)
    (hr : (f.item root).prev = 0) (hw : L.nBits ≤ 64) (hy : y = root ∨ (f.item y).chunkSz ≠ 0)
    {rest : List C} (hK : orient L name ++ orient L psfx = trieChars f (f.alloc.size + 1) y ++ rest) :
    ∀ (e' fuel : Nat) (d : DvgDigest) {e : Nat}, d.dvg = .Cont → Below f root d.idx e →
      Below f d.idx y e' → e' ≤ fuel →
      d.namePos = (trieChars f (f.alloc.size + 1) (f.item d.idx).prev).length →
      ∃ d' : DvgDigest, d'.dvg = .Cont ∧ d'.idx = y ∧
        d'.namePos = (trieChars f (f.alloc.size + 1) (f.item y).prev).length ∧
        dvgLoop L f name psfx none fuel 0 d = dvgLoop L f name psfx none (fuel - e') 0 d'
  | 0, fuel, d, _, hd, _, hby, _, hnp => by
    cases hby
    exact ⟨d, hd, rfl, hnp, by rw [Nat.sub_zero]⟩
  | _ + 1, 0, _, _, _, _, _, hfuel, _ => absurd hfuel (Nat.not_succ_le_zero _)
  | e' + 1, fuel + 1, d, e, hd, hb, hby, hfuel, hnp => by
    cases hby with
    | step isEq hk hby' =>
      -- the root is not below the item, so `y` has a chunk
      have hy0 : (f.item y).chunkSz ≠ 0 := by
        refine hy.resolve_left ?_
        rintro rfl
        have hloop := (Below.step isEq hk hby').trans hb
        rw [Nat.add_right_comm] at hloop
        exact not_below_self L f hc hb hloop
      obtain ⟨d₁, hstep, hfd, -⟩ := @dvgLoop_cont C D _ _ _ L f name psfx none fuel 0 d hd
      rw [hnp, findDvg_toward L f hc hr hw hb hk hby' hy0 hK, Prod.mk.injEq, Prod.mk.injEq,
        Prod.mk.injEq] at hfd
      obtain ⟨hcont, hidx, -, hpos⟩ := hfd
      obtain ⟨d', h₁, h₂, h₃, h₄⟩ := dvgLoop_reaches hc hr hw hy hK e' fuel d₁ hcont
        (hidx ▸ hb.trans (.step isEq hk (.refl _))) (hidx ▸ hby') (by omega)
        (by rw [hidx, (hc.link_below hb hk).2.2.prev, hpos, trieChars_eq_prev L f hc hr hb]; simp)
      refine ⟨d', h₁, h₂, h₃, ?_⟩
      rw [hstep, h₄, Nat.add_sub_add_right]

omit [DecidableEq C] in
/-- Where the key has gone through an item `y` of the trie: it goes on after its chars. -/
theorem drop_key_of_below {root y e : Nat} (hc : ChkOk L f (f.alloc.size + 1) root)
    (hr : (f.item root).prev = 0) (hb : Below f root y e) {rest : List C}
    (hK : orient L name ++ orient L psfx = trieChars f (f.alloc.size + 1) y ++ rest) :
    (trieChars f (f.alloc.size + 1) (f.item y).prev).length ≤ (orient L name ++ orient L psfx).length ∧
      (orient L name ++ orient L psfx).drop (trieChars f (f.alloc.size + 1) (f.item y).prev).length =
        (f.item y).chunkList ++ rest := by
  rw [hK, trieChars_eq_prev L f hc hr hb]
  simp

/-- The walk of `DvgDigest` from the root stops with `Match` at each used item of the trie whose
key it walks, but an item with an empty chunk below the root: it comes to the item
(`dvgLoop_reaches`), where the key ends with the chunk. -/
theorem dvgDigest_of_mem {root n y : Nat} (hc : chk L f root = .ok n) (h0 : root ≠ 0)
    (hr : (f.item root).prev = 0) (hw : L.charUintSize ≤ 8) (hy : y ∈ lst f root)
    (hne : y = root ∨ (f.item y).chunkSz ≠ 0)
    (hK : key L f y 0 = if L.reverse then psfx ++ name else name ++ psfx) :
    (dvgDigest L f root 0 name psfx 0 none).dvg = .Match ∧
      (dvgDigest L f root 0 name psfx 0 none).idx = y := by
  have hck := chkOk_of_chk L f hc h0
  obtain ⟨⟨e, hb⟩, hu⟩ := (mem_lst_iff f L hc h0).1 hy
  -- the chars of the trie down to `y` are the key in the trie's order
  have hchars : orient L name ++ orient L psfx = trieChars f (f.alloc.size + 1) y ++ [] := by
    rw [key_zero, ← orient_key] at hK
    rw [List.append_nil, ← orient_orient L (trieChars f _ y), hK, orient_orient]
  obtain ⟨d, hd, hidx, hpos, heq⟩ := dvgLoop_reaches L f hck hr (by unfold Layout.nBits; omega) hne
    hchars e (f.alloc.size + 1) ⟨.Cont, 0, root, 0, 0, 0⟩ rfl (.refl root) hb
    (Nat.le_of_lt (hck.below hb).1) (by simp [hr])
  obtain ⟨k, hk⟩ : ∃ k, f.alloc.size + 1 - e = k + 1 := ⟨f.alloc.size - e, by
    have := (hck.below hb).1
    omega⟩
  obtain ⟨d', hstep, hfd, -⟩ := @dvgLoop_cont C D _ _ _ L f name psfx none k 0 d hd
  obtain ⟨hnp, hdrop⟩ := drop_key_of_below L f hck hr hb hchars
  rw [hidx, hpos, Item.findDvg_of_drop L _ hnp hdrop] at hfd
  simp only [hu, if_true, Prod.mk.injEq] at hfd
  unfold dvgDigest
  rw [heq, hk, hstep, dvgLoop_stop L f (by rw [hfd.1]; decide)]
  exact ⟨hfd.1, hfd.2.1⟩

/-- **`search` is complete, and `insert` finds what is there**: on a trie that `_chk` accepts
from a root with no item before it, every item that `lst` lists is found by its key, but an item
with an empty chunk below the root, whose key is that of the item before it; and inserting that
key returns the item, as not new, and leaves the file as it is. -/
theorem search_complete [DecidableEq D] {root n y : Nat} (hc : chk L f root = .ok n) (h0 : root ≠ 0)
    (hr : (f.item root).prev = 0) (hw : L.charUintSize ≤ 8) (hy : y ∈ lst f root)
    (hne : y = root ∨ (f.item y).chunkSz ≠ 0)
    (hK : key L f y 0 = if L.reverse then psfx ++ name else name ++ psfx) :
    search L f root name psfx = y ∧ (insert L root name psfx).run f = .ok ((y, false), f) := by
  obtain ⟨hm, hi⟩ := dvgDigest_of_mem L f hc h0 hr hw hy hne hK
  constructor
  · simp [search, hm, hi]
  · simp [insert, hm, hi]
    rfl

theorem search_complete_sampleTrie : 5 ∈ lst sampleTrie 1 ∧
    search nodeNameLayout sampleTrie 1 ['a', 'c'] [] = 5 ∧
      (insert nodeNameLayout 1 ['a', 'c'] []).run sampleTrie = .ok ((5, false), sampleTrie) := by
  have hy : 5 ∈ lst sampleTrie 1 := by decide +kernel
  exact ⟨hy, search_complete nodeNameLayout sampleTrie
    (show chk nodeNameLayout sampleTrie 1 = .ok 3 by decide +kernel) (by decide)
    (by decide +kernel) (by decide) hy (.inr (by decide +kernel)) (by decide +kernel)⟩

/-! ## `longest` -/

/-- What the walk records as the longest used prefix of the key: no further than the walk has
read, and, once it records an item, a used item below the root whose chars are the key up to the
recorded position. -/
def UsedOk (root : Nat) (K : List C) (d : DvgDigest) : Prop :=
  d.usedPos ≤ d.namePos ∧ (d.usedIdx ≠ 0 → (∃ e, Below f root d.usedIdx e) ∧
    (f.item d.usedIdx).used = true ∧ trieChars f (f.alloc.size + 1) d.usedIdx = K.take d.usedPos)

/-- A step of the walk keeps its record right, moves it no back in the key, and keeps an item
recorded: an item is recorded only when the key has gone through all of its chunk, so that its
chars are the key up to there. -/
theorem UsedOk.step {root : Nat} (hc : ChkOk L f (f.alloc.size + 1) root)
    (hr : (f.item root).prev = 0) {d d' : DvgDigest}
    (hw : WalkOk f root (orient L name ++ orient L psfx) d)
    (hu : UsedOk f root (orient L name ++ orient L psfx) d)
    (hfd : (d'.dvg, d'.idx, d'.chunkPos, d'.namePos) =
      (f.item d.idx).findDvg L d.idx 0 d.namePos name psfx)
    (hrec : (d'.usedIdx, d'.usedPos) =
      if (f.item d.idx).used && d'.chunkPos == (f.item d.idx).chunkSz then (d.idx, d'.namePos)
      else (d.usedIdx, d.usedPos)) :
    UsedOk f root (orient L name ++ orient L psfx) d' ∧ d.usedPos ≤ d'.usedPos ∧
      (d.usedIdx ≠ 0 → d'.usedIdx ≠ 0) := by
  obtain ⟨⟨e, hb⟩, hnp, hpre⟩ := hw
  have hnp' : d.namePos ≤ name.length + psfx.length := by simpa using hnp
  -- the walk does not go back in the key
  have hmono : d.namePos ≤ d'.namePos := by
    rcases Item.findDvg_cases L (f.item d.idx) (x := d.idx) hnp' with ⟨R, hK⟩ | ⟨-, -, hle⟩
    · have hpos := Item.findDvg_pos_of_drop L _ (x := d.idx) hnp hK
      rw [← hfd, Prod.mk.injEq] at hpos
      omega
    · rwa [← hfd] at hle
  split_ifs at hrec with hcond
  · -- the item is recorded: the key has gone through all of its chunk
    rw [Prod.mk.injEq] at hrec
    obtain ⟨hidx, hpos⟩ := hrec
    rw [Bool.and_eq_true, beq_iff_eq] at hcond
    obtain ⟨hused, hcp⟩ := hcond
    obtain ⟨R, hK⟩ : ∃ R, (orient L name ++ orient L psfx).drop d.namePos =
        (f.item d.idx).chunkList ++ R := by
      rcases Item.findDvg_cases L (f.item d.idx) (x := d.idx) hnp' with hR | ⟨hlt, -, -⟩
      · exact hR
      · rw [← hfd] at hlt
        exact absurd hcp (Nat.ne_of_lt hlt)
    have hend := Item.findDvg_pos_of_drop L _ (x := d.idx) hnp hK
    rw [← hfd, Prod.mk.injEq] at hend
    refine ⟨⟨by omega, fun _ => ⟨⟨e, hidx ▸ hb⟩, hidx ▸ hused, ?_⟩⟩, by have := hu.1; omega,
      fun _ => hidx ▸ (hc.itemOk_below hb).ne_zero⟩
    rw [hidx, hpos, hend.2, trieChars_eq_prev L f hc hr hb, List.take_add, hpre, hK,
      List.take_left' (length_chunkList _)]
  · rw [Prod.mk.injEq] at hrec
    obtain ⟨hidx, hpos⟩ := hrec
    refine ⟨⟨by have := hu.1; omega, by rw [hidx, hpos]; exact hu.2⟩, Nat.le_of_eq hpos.symm,
      fun h => hidx ▸ h⟩

/-- **The record of the walk**: from where the walk stands in the trie, with its record right, it
ends with its record right, no back in the key, and with an item recorded if one was.  The
induction is on the walk (`UsedOk.step`, `WalkOk.cont`). -/
theorem dvgLoop_used {root : Nat} (hc : ChkOk L f (f.alloc.size + 1) root)
    (hr : (f.item root).prev = 0) :
    ∀ (fuel : Nat) (d : DvgDigest),
      (d.dvg = .Cont → WalkOk f root (orient L name ++ orient L psfx) d) →
      UsedOk f root (orient L name ++ orient L psfx) d →
      UsedOk f root (orient L name ++ orient L psfx) (dvgLoop L f name psfx none fuel 0 d) ∧
        d.usedPos ≤ (dvgLoop L f name psfx none fuel 0 d).usedPos ∧
        (d.usedIdx ≠ 0 → (dvgLoop L f name psfx none fuel 0 d).usedIdx ≠ 0)
  | 0, _, _, hu => ⟨hu, Nat.le_refl _, id⟩
  | fuel + 1, d, hw, hu => by
    by_cases hd : d.dvg = .Cont
    · obtain ⟨d', hstep, hfd, hrec⟩ := @dvgLoop_cont C D _ _ _ L f name psfx none fuel 0 d hd
      rw [Bool.and_true] at hrec
      obtain ⟨hu', hpos, hidx⟩ := UsedOk.step L f hc hr (hw hd) hu hfd hrec
      obtain ⟨h₁, h₂, h₃⟩ := dvgLoop_used hc hr fuel d' (fun h => (hw hd).cont L f hc hr hfd h) hu'
      rw [hstep]
      exact ⟨h₁, Nat.le_trans hpos h₂, fun h => h₃ (hidx h)⟩
    · rw [dvgLoop_stop L f hd]
      exact ⟨hu, Nat.le_refl _, id⟩

/-- The item `longest` returns, if any, is listed by `lst`, and its key is the key searched up to
the returned length, in the trie's order. -/
theorem longest_sound {root n i p : Nat} (hc : chk L f root = .ok n) (h0 : root ≠ 0)
    (hr : (f.item root).prev = 0) (hl : longest L f root name psfx = (i, p)) (hi : i ≠ 0) :
    i ∈ lst f root ∧ orient L (key L f i 0) = (orient L name ++ orient L psfx).take p := by
  have hck := chkOk_of_chk L f hc h0
  unfold longest dvgDigest at hl
  rw [Prod.mk.injEq] at hl
  obtain ⟨rfl, rfl⟩ := hl
  -- the walk from the root, with nothing recorded
  have hstart : WalkOk f root (orient L name ++ orient L psfx) ⟨.Cont, 0, root, 0, 0, 0⟩ :=
    ⟨⟨0, .refl root⟩, Nat.zero_le _, by simp [hr]⟩
  have hrec := dvgLoop_used L f hck hr (f.alloc.size + 1) ⟨.Cont, 0, root, 0, 0, 0⟩
    (fun _ => hstart) ⟨Nat.le_refl 0, fun h => absurd rfl h⟩
  obtain ⟨⟨e, hb⟩, hu, hchars⟩ := hrec.1.2 hi
  exact ⟨(mem_lst_iff f L hc h0).2 ⟨⟨e, hb⟩, hu⟩, by rw [key_zero, orient_orient, hchars]⟩

/-- Every item that `lst` lists whose key begins the key searched, but an item with an empty chunk
below the root, makes `longest` return an item, with a length at least that of its key. -/
theorem longest_complete {root n i p : Nat} (hc : chk L f root = .ok n) (h0 : root ≠ 0)
    (hr : (f.item root).prev = 0) (hw : L.charUintSize ≤ 8)
    (hl : longest L f root name psfx = (i, p)) :
    ∀ y ∈ lst f root, (y = root ∨ (f.item y).chunkSz ≠ 0) →
      orient L (key L f y 0) <+: orient L name ++ orient L psfx →
      i ≠ 0 ∧ (key L f y 0).length ≤ p := by
  have hck := chkOk_of_chk L f hc h0
  unfold longest dvgDigest at hl
  rw [Prod.mk.injEq] at hl
  obtain ⟨rfl, rfl⟩ := hl
  rintro y hy hne ⟨rest, hK⟩
  obtain ⟨⟨e, hb⟩, hu⟩ := (mem_lst_iff f L hc h0).1 hy
  rw [key_zero, orient_orient] at hK
  -- the walk comes to `y`
  obtain ⟨d, hd, hidx, hpos, heq⟩ := dvgLoop_reaches L f hck hr (by unfold Layout.nBits; omega)
    hne hK.symm e (f.alloc.size + 1) ⟨.Cont, 0, root, 0, 0, 0⟩ rfl (.refl root) hb
    (Nat.le_of_lt (hck.below hb).1) (by simp [hr])
  obtain ⟨k, hk⟩ : ∃ k, f.alloc.size + 1 - e = k + 1 := ⟨f.alloc.size - e, by
    have := (hck.below hb).1
    omega⟩
  rw [heq, hk]
  obtain ⟨d', hstep, hfd, hrec'⟩ := @dvgLoop_cont C D _ _ _ L f name psfx none k 0 d hd
  rw [hstep]
  -- at `y` the key goes through all of its chunk, so the walk records `y`
  subst hidx
  obtain ⟨hnp, hdrop⟩ := drop_key_of_below L f hck hr hb hK.symm
  have hend := Item.findDvg_pos_of_drop L _ (x := d.idx) hnp hdrop
  rw [← hpos, ← hfd, Prod.mk.injEq] at hend
  rw [Bool.and_true, hu, hend.1, beq_self_eq_true, Bool.and_self, if_pos rfl,
    Prod.mk.injEq] at hrec'
  have hlen : d'.namePos = (trieChars f (f.alloc.size + 1) d.idx).length := by
    rw [hend.2, hpos, trieChars_eq_prev L f hck hr hb]
    simp
  have hwd : WalkOk f root (orient L name ++ orient L psfx) d :=
    ⟨⟨e, hb⟩, hpos ▸ hnp, by rw [hpos, ← hK, trieChars_eq_prev L f hck hr hb]; simp⟩
  have hu' : UsedOk f root (orient L name ++ orient L psfx) d' :=
    ⟨Nat.le_of_eq hrec'.2, fun _ => ⟨⟨e, hrec'.1 ▸ hb⟩, hrec'.1 ▸ hu, by
      rw [hrec'.1, hrec'.2, hlen, ← hK, List.take_left]⟩⟩
  obtain ⟨-, h₂, h₃⟩ := dvgLoop_used L f hck hr k d' (fun h => hwd.cont L f hck hr hfd h) hu'
  refine ⟨h₃ (by rw [hrec'.1]; exact (hck.itemOk_below hb).ne_zero), ?_⟩
  rw [key_zero, length_orient, ← hlen, ← hrec'.2]
  exact h₂

/-- **`longest` finds the longest used prefix of the key**: on a trie that `_chk` accepts from a
root with no item before it, the item that `longest` returns, if any, is listed by `lst`, and its
key is the key searched up to the returned length, in the trie's order; and every item that `lst`
lists whose key begins the key searched, but an item with an empty chunk below the root, makes
`longest` return an item, with a length at least that of its key. -/
theorem longest_used_prefix {root n i p : Nat} (hc : chk L f root = .ok n) (h0 : root ≠ 0)
    (hr : (f.item root).prev = 0) (hw : L.charUintSize ≤ 8)
    (hl : longest L f root name psfx = (i, p)) :
    (i ≠ 0 → i ∈ lst f root ∧ orient L (key L f i 0) = (orient L name ++ orient L psfx).take p) ∧
      ∀ y ∈ lst f root, (y = root ∨ (f.item y).chunkSz ≠ 0) →
        orient L (key L f y 0) <+: orient L name ++ orient L psfx →
        i ≠ 0 ∧ (key L f y 0).length ≤ p :=
  ⟨longest_sound L f hc h0 hr hl, longest_complete L f hc h0 hr hw hl⟩

theorem longest_used_prefix_sampleTrie :
    longest nodeNameLayout sampleTrie 1 ['a', 'b', 'c'] [] = (3, 2) ∧
      (3 ≠ 0 → 3 ∈ lst sampleTrie 1 ∧ orient nodeNameLayout (key nodeNameLayout sampleTrie 3 0) =
        (orient nodeNameLayout ['a', 'b', 'c'] ++ orient nodeNameLayout []).take 2) ∧
      ∀ y ∈ lst sampleTrie 1, (y = 1 ∨ (sampleTrie.item y).chunkSz ≠ 0) →
        orient nodeNameLayout (key nodeNameLayout sampleTrie y 0) <+:
          orient nodeNameLayout ['a', 'b', 'c'] ++ orient nodeNameLayout [] →
        3 ≠ 0 ∧ (key nodeNameLayout sampleTrie y 0).length ≤ 2 := by
  have hl : longest nodeNameLayout sampleTrie 1 ['a', 'b', 'c'] [] = (3, 2) := by decide +kernel
  exact ⟨hl, longest_used_prefix nodeNameLayout sampleTrie
    (show chk nodeNameLayout sampleTrie 1 = .ok 3 by decide +kernel) (by decide)
    (by decide +kernel) (by decide) hl⟩

/-! ## What a trie holds -/

/-- Two items that `lst` lists, each the root or with a non-empty chunk, have different keys:
searching the key finds each of them. -/
theorem key_injective {root n y₁ y₂ : Nat} (hc : chk L f root = .ok n) (h0 : root ≠ 0)
    (hr : (f.item root).prev = 0) (hw : L.charUintSize ≤ 8) (hy₁ : y₁ ∈ lst f root)
    (hy₂ : y₂ ∈ lst f root) (hne₁ : y₁ = root ∨ (f.item y₁).chunkSz ≠ 0)
    (hne₂ : y₂ = root ∨ (f.item y₂).chunkSz ≠ 0) (hk : key L f y₁ 0 = key L f y₂ 0) : y₁ = y₂ := by
  have hK₁ : key L f y₁ 0 = if L.reverse then [] ++ key L f y₁ 0 else key L f y₁ 0 ++ [] := by
    split <;> simp
  have hK₂ : key L f y₂ 0 = if L.reverse then [] ++ key L f y₁ 0 else key L f y₁ 0 ++ [] := by
    rw [← hk]
    exact hK₁
  exact (dvgDigest_of_mem L f hc h0 hr hw hy₁ hne₁ hK₁).2.symm.trans
    (dvgDigest_of_mem L f hc h0 hr hw hy₂ hne₂ hK₂).2

/-- A trie that `search` and `longest` are right on: `_chk` accepts it from a root with no item
before it, its chars are compared on at most 64 bits, and every used item below the root has a
non-empty chunk. -/
structure Checked (root : Nat) : Prop where
  chk_ok : ∃ n, chk L f root = .ok n
  root_ne : root ≠ 0
  root_prev : (f.item root).prev = 0
  narrow : L.charUintSize ≤ 8
  chunks : ∀ y ∈ lst f root, y = root ∨ (f.item y).chunkSz ≠ 0

/-- What a trie holds from a root: the key and the data of each item that `lst` lists. -/
def content (root : Nat) : List (List C × D) :=
  (lst f root).map fun y => (key L f y 0, (f.item y).data)

end Search

end MultiPrefixFile

end Store
