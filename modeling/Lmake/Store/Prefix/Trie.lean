import Lmake.Store.Prefix.Key
import Lmake.Lib.LeadBits
import Lmake.Store.Prefix.Sizes

/-!
# The trie that `_chk` accepts

`_chk(root)` walks the trie forward from a root and checks each item locally: its next links are
not null, are in the file and point back to it (`prev`, `prev_is_eq`); below a `Split`, the first
char of each next item is on the side of its link; an item with no chunk is a `Split`; every item
has its minimum size.  It runs with the fuel of the file's size, so that a trie it accepts has no
path longer than the file.

This file reads what an accepted trie is.  The items below the root are those reached along next
links (`Below`); they form a tree, since a node below itself would run the check out of fuel
(`not_below_self`) and every item points back to the one link that reaches it
(`up_of_below`).  The items of the tree, listed in the order of a depth first walk that takes the
`!is_eq` side of a `Split` first, are `nodesBelow`, and the used ones `usedBelow`.

## What is here

* `chkItem_succ_ok`, `linkOk_of_chkNxt`, `kind_of_chkPrev`: what the checker makes sure of at one
  item, read off its code.
* `ChkOk.below`, `up_of_below`, `not_below_self`: the shape of an accepted trie.
* `nodup_nodesBelow`, `length_nodesBelow_le`: every item is in the tree once, so there are no more
  of them than the file has slots.
* `chkItem_eq_length_usedBelow`: the count `_chk` returns is the number of used items.
* `lst_eq_usedBelow`: **the iterator of `lst(root)`**, which walks the tree with the `prev` links
  and no stack, lists exactly the used items of the tree, in the order of the recursive walk, each
  once.
-/

set_option autoImplicit false

namespace Store

namespace MultiPrefixFile

/-! ## Reading the checker -/

section Monad

theorem except_bind_eq_ok {ε α β : Type} {x : Except ε α} {g : α → Except ε β} {b : β} :
    x >>= g = .ok b ↔ ∃ a, x = .ok a ∧ g a = .ok b := by
  cases x <;> simp [bind, Except.bind]

theorem except_map_eq_ok {ε α β : Type} {x : Except ε α} {g : α → β} {b : β} :
    g <$> x = .ok b ↔ ∃ a, x = .ok a ∧ g a = b := by
  cases x <;> simp [Functor.map, Except.map]

@[simp] theorem throwUnless_eq_ok {c : Bool} {msg : String} {u : Unit} :
    throwUnless c msg = .ok u ↔ c = true := by
  cases c <;> simp [throwUnless]

/-- The checker's loop over the next links succeeds only when each check does. -/
theorem foldlM_add_ok_mem {ε α : Type} {g : α → Except ε Nat} :
    ∀ {l : List α} {s r : Nat}, l.foldlM (fun b a => HAdd.hAdd b <$> g a) s = .ok r →
      ∀ a ∈ l, ∃ v, g a = .ok v
  | [], _, _, _ => by simp
  | a :: l, s, r, h => by
    rw [List.foldlM_cons, except_bind_eq_ok] at h
    obtain ⟨s', hs', hrest⟩ := h
    obtain ⟨v, hv, -⟩ := except_map_eq_ok.1 hs'
    intro a' ha'
    rcases List.mem_cons.1 ha' with rfl | ha'
    · exact ⟨v, hv⟩
    · exact foldlM_add_ok_mem hrest a' ha'

/-- The checker's loop adds up what the checks of the next items count. -/
theorem foldlM_add_eq_sum {ε α : Type} {g : α → Except ε Nat} (c : α → Nat) :
    ∀ {l : List α} {s r : Nat}, (∀ a ∈ l, ∀ v, g a = .ok v → v = c a) →
      l.foldlM (fun b a => HAdd.hAdd b <$> g a) s = .ok r → r = s + (l.map c).sum
  | [], s, r, _, h => by
    simp only [List.foldlM_nil, pure, Except.pure, Except.ok.injEq] at h
    simp [h]
  | a :: l, s, r, hc, h => by
    rw [List.foldlM_cons, except_bind_eq_ok] at h
    obtain ⟨s', hs', hrest⟩ := h
    obtain ⟨v, hv, rfl⟩ := except_map_eq_ok.1 hs'
    have hva : v = c a := hc a List.mem_cons_self v hv
    have ih := foldlM_add_eq_sum c (fun a' ha' => hc a' (List.mem_cons_of_mem a ha')) hrest
    rw [ih, hva, List.map_cons, List.sum_cons]
    omega

end Monad

section Checker

variable {C D : Type} [Inhabited C] [Inhabited D] (L : Layout C) (f : PrefixFile C D)

/-- What `_chk` makes sure of at an item it accepts, besides its next items. -/
structure ItemOk (x : Nat) : Prop where
  ne_zero : x ≠ 0
  lt_size : x < f.alloc.size
  root : (f.item x).prev = 0 → (f.item x).chunkSz = 0
  prev : (f.item x).prev ≠ 0 → chkPrev L f x = .ok ()
  nxt : ∀ isEq ∈ (f.item x).kind.nxts, chkNxt L f x isEq = .ok ()

/-- **What `_chk` checks at an item**, walking forward: the item itself, the link to each next
item and that item's own check, and it counts the used item with those of the next items. -/
theorem chkItem_succ_ok {k x n : Nat} (h : chkItem L f (k + 1) x false true = .ok n) :
    ItemOk L f x ∧
      (∀ isEq ∈ (f.item x).kind.nxts, ∃ m, chkItem L f k ((f.item x).nxtIf isEq) false true = .ok m) ∧
      ∀ c : Bool → Nat, (∀ isEq ∈ (f.item x).kind.nxts, ∀ m,
          chkItem L f k ((f.item x).nxtIf isEq) false true = .ok m → m = c isEq) →
        n = (f.item x).used.toNat + ((f.item x).kind.nxts.map c).sum := by
  simp only [chkItem, ite_true, bind_pure_comp, ← map_bind, List.forIn_yield_eq_foldlM,
    Bool.false_eq_true, if_false, except_bind_eq_ok, throwUnless_eq_ok, bne_iff_ne, ne_eq,
    decide_eq_true_eq] at h
  obtain ⟨-, hx0, -, hxs, h⟩ := h
  -- the loop over the next items, and what follows it, are the same in both branches
  obtain ⟨hroot, s, hs, hprev⟩ : ((f.item x).prev = 0 → (f.item x).chunkSz = 0) ∧ ∃ s,
      (f.item x).kind.nxts.foldlM (fun b a => HAdd.hAdd b <$> (do
        chkNxt L f x a
        chkItem L f k ((f.item x).nxtIf a) false true)) (f.item x).used.toNat = .ok s ∧
      ((f.item x).prev ≠ 0 → chkPrev L f x = .ok ()) ∧ n = s := by
    by_cases hp : (f.item x).prev = 0
    · simp only [hp, not_true_eq_false, if_false, except_bind_eq_ok, throwUnless_eq_ok,
        beq_iff_eq] at h
      obtain ⟨-, -, -, hc, s, hs, hn⟩ := h
      obtain ⟨-, -, rfl⟩ := except_map_eq_ok.1 hn
      exact ⟨fun _ => hc, s, hs, fun h => absurd hp h, rfl⟩
    · simp only [hp, not_false_eq_true, if_true, except_bind_eq_ok, throwUnless_eq_ok] at h
      obtain ⟨-, -, -, -, s, hs, hn⟩ := h
      obtain ⟨⟨⟩, hc, rfl⟩ := except_map_eq_ok.1 hn
      exact ⟨fun h => absurd h hp, s, hs, fun _ => hc, rfl⟩
  have hmem := foldlM_add_ok_mem hs
  refine ⟨⟨hx0, hxs, hroot, hprev.1, ?_⟩, ?_, ?_⟩
  · intro isEq hb
    obtain ⟨v, hv⟩ := hmem isEq hb
    obtain ⟨u, hu, -⟩ := except_bind_eq_ok.1 hv
    exact hu
  · intro isEq hb
    obtain ⟨v, hv⟩ := hmem isEq hb
    obtain ⟨-, -, hm⟩ := except_bind_eq_ok.1 hv
    exact ⟨v, hm⟩
  · intro c hc
    rw [hprev.2]
    refine foldlM_add_eq_sum c (fun isEq hb v hv => ?_) hs
    obtain ⟨-, -, hm⟩ := except_bind_eq_ok.1 hv
    exact hc isEq hb v hm

/-- The first char of an item, as a `CharUint`, that `_chk` compares with the `cmp_val` of a
`Split` before it: its `cmp_val` when it is a `Split` with an empty chunk. -/
def firstRep (n : Item C D) : Nat :=
  if n.kind = .Split ∧ n.chunkSz = 0 then n.cmpVal else L.rep (n.chunk 0)

omit [Inhabited D] in
theorem firstRep_of_chunkSz_ne_zero {n : Item C D} (h : n.chunkSz ≠ 0) :
    firstRep L n = L.rep (n.chunk 0) :=
  if_neg fun h' => h h'.2

omit [Inhabited D] in
theorem firstRep_of_split {n : Item C D} (hk : n.kind = .Split) (h0 : n.chunkSz = 0) :
    firstRep L n = n.cmpVal :=
  if_pos ⟨hk, h0⟩

/-- What `_chk` checks of the item `n` after the link `is_eq` of the item `p` at `x`: it points
back, and after a `Split` its first char is on the side of the link. -/
structure LinkOk (x : Nat) (isEq : Bool) (p n : Item C D) : Prop where
  prev : n.prev = x
  prevIsEq : n.prevIsEq = isEq
  cmpBit_lt : p.kind = .Split → n.kind = .Split → n.chunkSz = 0 → p.cmpBit < n.cmpBit
  side : p.kind = .Split →
    if isEq then p.cmpBit < L.sCmpBit p.cmpVal (firstRep L n)
    else L.sCmpBit p.cmpVal (firstRep L n) = p.cmpBit

/-- What `_chk` checks of a next link. -/
theorem linkOk_of_chkNxt {x : Nat} {isEq : Bool} (h : chkNxt L f x isEq = .ok ()) :
    (f.item x).nxtIf isEq ≠ 0 ∧ (f.item x).nxtIf isEq < f.alloc.size ∧
      LinkOk L x isEq (f.item x) (f.item ((f.item x).nxtIf isEq)) := by
  simp only [chkNxt, except_bind_eq_ok, throwUnless_eq_ok, bne_iff_ne, ne_eq,
    decide_eq_true_eq, beq_iff_eq] at h
  obtain ⟨-, h0, -, hs, -, hprev, -, hside, hsplit⟩ := h
  refine ⟨h0, hs, ?_⟩
  generalize f.item ((f.item x).nxtIf isEq) = n at hprev hside hsplit ⊢
  generalize f.item x = p at hsplit ⊢
  refine ⟨hprev, hside, fun hk hnk hnc => ?_, fun hk => ?_⟩
  · simp [hk, hnk, hnc, except_bind_eq_ok] at hsplit
    exact hsplit.1
  · -- the first char is `cmp_val` for a `Split` with an empty chunk, after its own check
    by_cases hn : n.kind = .Split ∧ n.chunkSz = 0
    · simp only [hk, hn, beq_self_eq_true, Bool.and_self, if_true, except_bind_eq_ok,
        throwUnless_eq_ok, decide_eq_true_eq, pure, Except.pure, Except.ok.injEq] at hsplit
      obtain ⟨-, -, hsplit⟩ := hsplit
      cases isEq <;> simpa [firstRep, hn] using hsplit
    · have hb : (n.kind == ItemKind.Split && n.chunkSz == 0) = false := by
        simpa [Bool.and_eq_true] using hn
      simp only [hk, hb, if_true, Bool.false_eq_true, if_false, except_bind_eq_ok, pure,
        Except.pure, Except.ok.injEq] at hsplit
      cases isEq <;> simpa [firstRep, hn] using hsplit

/-- `_chk` accepts an item with an empty chunk only as a `Split`, besides the root. -/
theorem kind_of_chkPrev {x : Nat} (h : chkPrev L f x = .ok ()) (h0 : (f.item x).chunkSz = 0) :
    (f.item x).kind = .Split := by
  simp only [chkPrev, except_bind_eq_ok, throwUnless_eq_ok] at h
  obtain ⟨-, -, -, -, -, -, h⟩ := h
  -- a `Terminal` and a `Prefix` are checked to have a chunk
  cases hk : (f.item x).kind with
  | Split => rfl
  | Terminal => simp [hk, h0, except_bind_eq_ok] at h
  | Prefix => simp [hk, h0, except_bind_eq_ok] at h

end Checker

/-! ## The tree below a root -/

section Shape

variable {C D : Type} [Inhabited D]

/-- `Below f x y d`: following `d` next links, each one a link of its item's kind, leads from `x`
to `y`. -/
inductive Below (f : PrefixFile C D) : Nat → Nat → Nat → Prop
  | refl (x : Nat) : Below f x x 0
  | step {x y d : Nat} (isEq : Bool) : isEq ∈ (f.item x).kind.nxts →
      Below f ((f.item x).nxtIf isEq) y d → Below f x y (d + 1)

namespace Below

variable {f : PrefixFile C D}

theorem trans {x y z d e : Nat} (h₁ : Below f x y d) (h₂ : Below f y z e) :
    Below f x z (d + e) := by
  induction h₁ with
  | refl => simpa using h₂
  | step isEq hk _ ih =>
    rw [Nat.add_right_comm]
    exact .step isEq hk (ih h₂)

/-- A path splits at any depth. -/
theorem split {x z d : Nat} (h : Below f x z d) :
    ∀ i ≤ d, ∃ y, Below f x y i ∧ Below f y z (d - i) := by
  induction h with
  | refl x =>
    intro i hi
    obtain rfl : i = 0 := Nat.le_zero.1 hi
    exact ⟨x, .refl x, .refl x⟩
  | step isEq hk h ih =>
    intro i hi
    cases i with
    | zero => exact ⟨_, .refl _, .step isEq hk h⟩
    | succ i =>
      obtain ⟨y, h₁, h₂⟩ := ih i (by omega)
      exact ⟨y, .step isEq hk h₁, by rwa [Nat.add_sub_add_right]⟩

/-- The last link of a path. -/
theorem last {x y d : Nat} (h : Below f x y (d + 1)) :
    ∃ z isEq, Below f x z d ∧ isEq ∈ (f.item z).kind.nxts ∧ (f.item z).nxtIf isEq = y := by
  obtain ⟨z, hxz, hzy⟩ := h.split d (Nat.le_succ d)
  rw [Nat.add_sub_cancel_left] at hzy
  cases hzy with
  | step isEq hk hy =>
    cases hy
    exact ⟨z, isEq, hxz, hk, rfl⟩

/-- Going round a loop `j` times. -/
theorem pow {y e : Nat} (h : Below f y y e) : ∀ j, Below f y y (j * e)
  | 0 => by simpa using Below.refl y
  | j + 1 => by
    rw [Nat.succ_mul]
    exact (pow h j).trans h

end Below

section Walks

variable (f : PrefixFile C D)

/-- The item `n` links back from `y`, along `prev`. -/
def up : Nat → Nat → Nat
  | 0, y => y
  | n + 1, y => up n (f.item y).prev

theorem up_succ' : ∀ (n y : Nat), up f (n + 1) y = (f.item (up f n y)).prev
  | 0, _ => rfl
  | n + 1, y => up_succ' n (f.item y).prev

/-- The items of the trie from `idx` on, in the order of a depth first walk that takes the
`!is_eq` side of a `Split` first; a null index stands for no item. -/
def nodesBelow : Nat → Nat → List Nat
  | 0, _ => []
  | fuel + 1, idx =>
    if idx = 0 then []
    else idx :: (f.item idx).kind.nxts.flatMap fun isEq => nodesBelow fuel ((f.item idx).nxtIf isEq)

/-- The used items of the trie from `idx` on: what `lst` is to list. -/
def usedBelow (fuel idx : Nat) : List Nat :=
  (nodesBelow f fuel idx).filter fun i => (f.item i).used

theorem nodesBelow_succ {fuel idx : Nat} (h : idx ≠ 0) :
    nodesBelow f (fuel + 1) idx =
      idx :: (f.item idx).kind.nxts.flatMap fun isEq => nodesBelow f fuel ((f.item idx).nxtIf isEq) := by
  rw [nodesBelow, if_neg h]

theorem below_of_mem_nodesBelow : ∀ {k x y : Nat}, y ∈ nodesBelow f k x → ∃ d < k, Below f x y d
  | 0, _, _, hm => by simp [nodesBelow] at hm
  | k + 1, x, y, hm => by
    by_cases h0 : x = 0
    · simp [nodesBelow, h0] at hm
    rw [nodesBelow_succ f h0, List.mem_cons, List.mem_flatMap] at hm
    rcases hm with rfl | ⟨isEq, hk, hm⟩
    · exact ⟨0, Nat.succ_pos k, .refl y⟩
    · obtain ⟨d, hd, hb⟩ := below_of_mem_nodesBelow hm
      exact ⟨d + 1, by omega, .step isEq hk hb⟩

theorem usedBelow_succ {fuel idx : Nat} (h : idx ≠ 0) :
    usedBelow f (fuel + 1) idx = (if (f.item idx).used then [idx] else []) ++
      (f.item idx).kind.nxts.flatMap fun isEq => usedBelow f fuel ((f.item idx).nxtIf isEq) := by
  rw [usedBelow, nodesBelow_succ f h, List.filter_cons, List.filter_flatMap]
  cases (f.item idx).used <;> rfl

end Walks

variable [Inhabited C] (L : Layout C) (f : PrefixFile C D)

/-- `_chk` accepts the trie from `x` with fuel `k`. -/
def ChkOk (k x : Nat) : Prop := ∃ n, chkItem L f k x false true = .ok n

namespace ChkOk

variable {L f} {k x : Nat}

theorem pos (h : ChkOk L f k x) : 0 < k := by
  obtain ⟨n, hn⟩ := h
  cases k with
  | zero => simp [chkItem] at hn
  | succ k => exact Nat.succ_pos k

theorem itemOk (h : ChkOk L f (k + 1) x) : ItemOk L f x :=
  (chkItem_succ_ok L f h.choose_spec).1

theorem child (h : ChkOk L f (k + 1) x) {isEq : Bool} (hk : isEq ∈ (f.item x).kind.nxts) :
    ChkOk L f k ((f.item x).nxtIf isEq) :=
  (chkItem_succ_ok L f h.choose_spec).2.1 isEq hk

theorem link (h : ChkOk L f (k + 1) x) {isEq : Bool} (hk : isEq ∈ (f.item x).kind.nxts) :
    (f.item x).nxtIf isEq ≠ 0 ∧ (f.item x).nxtIf isEq < f.alloc.size ∧
      LinkOk L x isEq (f.item x) (f.item ((f.item x).nxtIf isEq)) :=
  linkOk_of_chkNxt L f (h.itemOk.nxt isEq hk)

/-- What `_chk` accepts from `x` it accepts from every item below, with the fuel it has left
there. -/
theorem below (h : ChkOk L f k x) {y d : Nat} (hb : Below f x y d) :
    d < k ∧ ChkOk L f (k - d) y := by
  induction hb generalizing k with
  | refl => exact ⟨h.pos, by simpa using h⟩
  | step isEq hk _ ih =>
    obtain ⟨k, rfl⟩ : ∃ k', k = k' + 1 := ⟨k - 1, (Nat.succ_pred_eq_of_pos h.pos).symm⟩
    obtain ⟨hd, hy⟩ := ih (h.child hk)
    exact ⟨by omega, by rwa [Nat.add_sub_add_right]⟩

/-- The link after any item below `x` points back to it. -/
theorem link_below (h : ChkOk L f k x) {z d : Nat} (hb : Below f x z d) {isEq : Bool}
    (hk : isEq ∈ (f.item z).kind.nxts) :
    (f.item z).nxtIf isEq ≠ 0 ∧ (f.item z).nxtIf isEq < f.alloc.size ∧
      LinkOk L z isEq (f.item z) (f.item ((f.item z).nxtIf isEq)) := by
  obtain ⟨hd, hz⟩ := h.below hb
  obtain ⟨k', hk'⟩ : ∃ k', k - d = k' + 1 := ⟨k - d - 1, by omega⟩
  rw [hk'] at hz
  exact hz.link hk

/-- The item before an item of an accepted trie is the one it is reached from, and the item is
on the side of that link. -/
theorem parent (h : ChkOk L f k x) {y d : Nat} (hb : Below f x y (d + 1)) :
    ∃ z isEq, Below f x z d ∧ isEq ∈ (f.item z).kind.nxts ∧ (f.item z).nxtIf isEq = y ∧
      (f.item y).prev = z ∧ (f.item y).prevIsEq = isEq := by
  obtain ⟨z, isEq, hxz, hk, rfl⟩ := hb.last
  obtain ⟨-, -, hl⟩ := h.link_below hxz hk
  exact ⟨z, isEq, hxz, hk, rfl, hl.prev, hl.prevIsEq⟩

/-- Every item of an accepted trie is checked as an item. -/
theorem itemOk_below (h : ChkOk L f k x) {y d : Nat} (hb : Below f x y d) : ItemOk L f y := by
  obtain ⟨hd, hy⟩ := h.below hb
  obtain ⟨k', hk'⟩ : ∃ k', k - d = k' + 1 := ⟨k - d - 1, by omega⟩
  rw [hk'] at hy
  exact hy.itemOk

end ChkOk

/-- `_chk` accepts a trie from a root that is an item. -/
theorem chkOk_of_chk {root n : Nat} (h : chk L f root = .ok n) (h0 : root ≠ 0) :
    ChkOk L f (f.alloc.size + 1) root :=
  ⟨n, by rwa [chk, beq_false_of_ne h0, if_neg Bool.false_ne_true] at h⟩

/-- **Every item of an accepted trie links back to where it is reached from.** -/
theorem up_of_below {k x y d : Nat} (h : ChkOk L f k x) (hb : Below f x y d) : up f d y = x := by
  induction hb generalizing k with
  | refl => rfl
  | step isEq hk _ ih =>
    obtain ⟨k, rfl⟩ : ∃ k', k = k' + 1 := ⟨k - 1, (Nat.succ_pred_eq_of_pos h.pos).symm⟩
    rw [up_succ', ih (h.child hk)]
    exact (h.link hk).2.2.prev

/-- **An accepted trie has no loop**: going round one again and again would make a path longer
than the fuel of `_chk`. -/
theorem not_below_self {k x y d e : Nat} (h : ChkOk L f k x) (hb : Below f x y d) :
    ¬Below f y y (e + 1) := by
  intro hc
  have hk := (h.below (hb.trans (hc.pow k))).1
  have : k ≤ k * (e + 1) := Nat.le_mul_of_pos_right k (Nat.succ_pos e)
  omega

/-- Two next links of an item lead to no common item, when the one on side `b₀` is the shorter
way: going back from the common item along the shorter way reaches the item itself, inside the
other way, which would be a loop. -/
theorem not_below_both_of_le {k x : Nat} (h : ChkOk L f (k + 1) x) {b₀ b₁ : Bool}
    (hb₀ : b₀ ∈ (f.item x).kind.nxts) (hb₁ : b₁ ∈ (f.item x).kind.nxts) (hne : b₀ ≠ b₁)
    {y d₀ d₁ : Nat} (h₀ : Below f ((f.item x).nxtIf b₀) y d₀)
    (h₁ : Below f ((f.item x).nxtIf b₁) y d₁) (hd : d₀ ≤ d₁) : False := by
  have hup₀ := up_of_below L f (h.child hb₀) h₀
  have hup₁ := up_of_below L f (h.child hb₁) h₁
  rcases Nat.eq_or_lt_of_le hd with rfl | hlt
  · -- the same depth: the same next item, on two sides
    have hside₀ := (h.link hb₀).2.2.prevIsEq
    have hside₁ := (h.link hb₁).2.2.prevIsEq
    rw [← hup₀, hup₁] at hside₀
    exact hne (hside₀.symm.trans hside₁)
  · obtain ⟨z, hxz, hzy⟩ := (Below.step b₁ hb₁ h₁).split (d₁ - d₀) (by omega)
    have hz : up f (d₀ + 1) y = z := by
      rw [show d₁ + 1 - (d₁ - d₀) = d₀ + 1 by omega] at hzy
      exact up_of_below L f (h.below hxz).2 hzy
    have hx : up f (d₀ + 1) y = x := by
      rw [up_succ', hup₀]
      exact (h.link hb₀).2.2.prev
    rw [hx] at hz
    subst hz
    obtain ⟨e, he⟩ : ∃ e, d₁ - d₀ = e + 1 := ⟨d₁ - d₀ - 1, by omega⟩
    rw [he] at hxz
    exact not_below_self L f h (.refl _) hxz

theorem mem_nodesBelow_of_below {k x y d : Nat} (h : ChkOk L f k x) (hb : Below f x y d) :
    y ∈ nodesBelow f k x := by
  induction hb generalizing k with
  | refl x =>
    obtain ⟨k, rfl⟩ : ∃ k', k = k' + 1 := ⟨k - 1, (Nat.succ_pred_eq_of_pos h.pos).symm⟩
    rw [nodesBelow_succ f h.itemOk.ne_zero]
    exact List.mem_cons_self
  | step isEq hk _ ih =>
    obtain ⟨k, rfl⟩ : ∃ k', k = k' + 1 := ⟨k - 1, (Nat.succ_pred_eq_of_pos h.pos).symm⟩
    rw [nodesBelow_succ f h.itemOk.ne_zero]
    exact List.mem_cons_of_mem _ (List.mem_flatMap.2 ⟨isEq, hk, ih (h.child hk)⟩)

/-- **Every item of an accepted trie is in it once.** -/
theorem nodup_nodesBelow : ∀ {k x : Nat}, ChkOk L f k x → (nodesBelow f k x).Nodup
  | 0, _, h => absurd h.pos (Nat.lt_irrefl 0)
  | k + 1, x, h => by
    rw [nodesBelow_succ f h.itemOk.ne_zero, List.nodup_cons]
    constructor
    · -- the item below one of its next items would be a loop
      intro hm
      obtain ⟨isEq, hk, hm⟩ := List.mem_flatMap.1 hm
      obtain ⟨d, -, hd⟩ := below_of_mem_nodesBelow f hm
      exact not_below_self L f h (.refl x) (.step isEq hk hd)
    · cases hk : (f.item x).kind with
      | Terminal => simp [ItemKind.nxts]
      | Prefix =>
        simpa [ItemKind.nxts] using nodup_nodesBelow (h.child (by simp [hk, ItemKind.nxts]))
      | Split =>
        have hf : false ∈ (f.item x).kind.nxts := by simp [hk, ItemKind.nxts]
        have ht : true ∈ (f.item x).kind.nxts := by simp [hk, ItemKind.nxts]
        simp only [ItemKind.nxts, List.flatMap_cons, List.flatMap_nil, List.append_nil]
        refine List.nodup_append.2 ⟨nodup_nodesBelow (h.child hf), nodup_nodesBelow (h.child ht),
          fun y h₀ y' h₁ hyy => ?_⟩
        subst hyy
        obtain ⟨d₀, -, hd₀⟩ := below_of_mem_nodesBelow f h₀
        obtain ⟨d₁, -, hd₁⟩ := below_of_mem_nodesBelow f h₁
        rcases le_total d₀ d₁ with hd | hd
        · exact not_below_both_of_le L f h hf ht (by decide) hd₀ hd₁ hd
        · exact not_below_both_of_le L f h ht hf (by decide) hd₁ hd₀ hd

/-- An accepted trie has no more items than the file has slots. -/
theorem length_nodesBelow_le {k x : Nat} (h : ChkOk L f k x) :
    (nodesBelow f k x).length ≤ f.alloc.size := by
  have hsub : nodesBelow f k x ⊆ List.range f.alloc.size := by
    intro y hy
    obtain ⟨d, -, hb⟩ := below_of_mem_nodesBelow f hy
    exact List.mem_range.2 (h.itemOk_below hb).lt_size
  simpa using (List.subperm_of_subset (nodup_nodesBelow L f h) hsub).length_le

/-- **The count `_chk` returns is the number of used items of the trie.** -/
theorem chkItem_eq_length_usedBelow :
    ∀ {k x n : Nat}, chkItem L f k x false true = .ok n → n = (usedBelow f k x).length
  | 0, _, _, h => by simp [chkItem] at h
  | k + 1, x, n, h => by
    obtain ⟨hx, -, hsum⟩ := chkItem_succ_ok L f h
    rw [hsum (fun isEq => (usedBelow f k ((f.item x).nxtIf isEq)).length)
      (fun isEq _ m hm => chkItem_eq_length_usedBelow hm), usedBelow_succ f hx.ne_zero,
      List.length_append, List.length_flatMap]
    cases (f.item x).used <;> simp

end Shape

/-! ## The iterator of `lst` -/

section Iterator

variable {C D : Type} [Inhabited D] (f : PrefixFile C D)

/-- From an item that is not a `Terminal`, `_advance` goes down its first next link. -/
theorem advanceLoop_down {start m x : Nat} {k : ItemKind} (hk : k ≠ .Terminal) :
    advanceLoop f start (m + 1) x k = (f.item x).nxtIf (k == .Prefix) := by
  simp [advanceLoop, hk]

/-- Done with the trie below `start`, `_advance` stops. -/
theorem advanceLoop_start {start m : Nat} : advanceLoop f start (m + 1) start .Terminal = 0 := by
  simp [advanceLoop]

/-- Done with the trie below another item, `_advance` goes back to the item before, and on to its
`is_eq` side when it comes from its `!is_eq` side. -/
theorem advanceLoop_up {start m x : Nat} (hx : x ≠ start) :
    advanceLoop f start (m + 1) x .Terminal = advanceLoop f start m (f.item x).prev
      (if (f.item x).prevIsEq then .Terminal else .Prefix) := by
  simp [advanceLoop, hx]

theorem lstFrom_succ {start N x : Nat} (hx : x ≠ 0) :
    lstFrom f start (N + 1) x = (if (f.item x).used then [x] else []) ++
      lstFrom f start N (advanceLoop f start (f.alloc.size + 1) x (f.item x).kind) := by
  rw [lstFrom, beq_false_of_ne hx, if_neg Bool.false_ne_true]
  cases (f.item x).used <;> rfl

variable [Inhabited C] (L : Layout C)

/-- **One step of the walk of `lst`**: from an item, the iterator lists the used items of the
trie below it, in the order of `usedBelow`, then goes on where climbing from the item leads
(`r`), after one step for each item below.  The induction is on the trie below the item; the
climb from a next item reaches the item itself, and goes on to its `is_eq` side when it comes
from its `!is_eq` side. -/
theorem lstFrom_walk {start : Nat} (hs : ChkOk L f (f.alloc.size + 1) start) :
    ∀ {k x d r : Nat}, Below f start x d → ChkOk L f k x →
      (∀ m ≥ d + 1, advanceLoop f start m x .Terminal = r) → ∀ N,
      lstFrom f start (N + (nodesBelow f k x).length) x = usedBelow f k x ++ lstFrom f start N r
  | 0, _, _, _, _, h, _, _ => absurd h.pos (Nat.lt_irrefl 0)
  | k + 1, x, d, r, hb, h, hr, N => by
    have hx := h.itemOk
    have hd := (hs.below hb).1
    -- a next item is not `start`: that would be a loop
    have hne : ∀ isEq ∈ (f.item x).kind.nxts, (f.item x).nxtIf isEq ≠ start := by
      intro isEq hk heq
      exact not_below_self L f hs (.refl start) (heq ▸ hb.trans (.step isEq hk (.refl _)))
    -- the climb from a next item goes back to `x`
    have hclimb : ∀ isEq ∈ (f.item x).kind.nxts, ∀ m ≥ d + 2,
        advanceLoop f start m ((f.item x).nxtIf isEq) .Terminal =
          advanceLoop f start (m - 1) x (if isEq then .Terminal else .Prefix) := by
      intro isEq hk m hm
      obtain ⟨m, rfl⟩ : ∃ m', m = m' + 1 := ⟨m - 1, by omega⟩
      obtain ⟨-, -, hl⟩ := h.link hk
      rw [advanceLoop_up f (hne isEq hk), hl.prev, hl.prevIsEq, Nat.add_sub_cancel]
    rw [nodesBelow_succ f hx.ne_zero, usedBelow_succ f hx.ne_zero]
    cases hk : (f.item x).kind with
    | Terminal =>
      simp only [ItemKind.nxts, List.flatMap_nil, List.length_cons, List.length_nil,
        List.append_nil]
      rw [lstFrom_succ f hx.ne_zero, hk, hr _ (by omega)]
    | Prefix =>
      have ht : true ∈ (f.item x).kind.nxts := by simp [hk, ItemKind.nxts]
      simp only [ItemKind.nxts, List.flatMap_cons, List.flatMap_nil, List.append_nil,
        List.length_cons]
      rw [← Nat.add_assoc, lstFrom_succ f hx.ne_zero, hk,
        advanceLoop_down f (by decide), List.append_assoc]
      congr 1
      refine lstFrom_walk hs (hb.trans (.step true ht (.refl _))) (h.child ht) ?_ N
      intro m hm
      rw [hclimb true ht m hm, if_pos rfl]
      exact hr _ (by omega)
    | Split =>
      have hf : false ∈ (f.item x).kind.nxts := by simp [hk, ItemKind.nxts]
      have ht : true ∈ (f.item x).kind.nxts := by simp [hk, ItemKind.nxts]
      simp only [ItemKind.nxts, List.flatMap_cons, List.flatMap_nil, List.append_nil,
        List.length_cons, List.length_append]
      rw [show N + ((nodesBelow f k ((f.item x).nxtIf false)).length +
          (nodesBelow f k ((f.item x).nxtIf true)).length + 1) =
          (N + (nodesBelow f k ((f.item x).nxtIf true)).length +
            (nodesBelow f k ((f.item x).nxtIf false)).length) + 1 by omega,
        lstFrom_succ f hx.ne_zero, hk, advanceLoop_down f (by decide), List.append_assoc,
        List.append_assoc, show (ItemKind.Split == ItemKind.Prefix) = false from rfl]
      congr 1
      -- the `!is_eq` side first, after which the climb goes down the `is_eq` side
      rw [lstFrom_walk hs (hb.trans (.step false hf (.refl _))) (h.child hf) (r :=
        (f.item x).nxtIf true) ?_ _]
      · congr 1
        refine lstFrom_walk hs (hb.trans (.step true ht (.refl _))) (h.child ht) ?_ N
        intro m hm
        rw [hclimb true ht m hm, if_pos rfl]
        exact hr _ (by omega)
      · intro m hm
        rw [hclimb false hf m hm, if_neg Bool.false_ne_true]
        obtain ⟨m, hm'⟩ : ∃ m', m - 1 = m' + 1 := ⟨m - 2, by omega⟩
        rw [hm', advanceLoop_down f (by decide)]
        rfl

/-- From a root that `_chk` accepts, the iterator lists the used items in the order of
`usedBelow`. -/
theorem lst_eq_of_chkOk {root : Nat} (hc : ChkOk L f (f.alloc.size + 1) root) :
    lst f root = usedBelow f (f.alloc.size + 1) root := by
  have hlen := length_nodesBelow_le L f hc
  have hwalk := lstFrom_walk f L hc (.refl root) hc
    (fun m hm => by
      obtain ⟨m, rfl⟩ : ∃ m', m = m' + 1 := ⟨m - 1, by omega⟩
      exact advanceLoop_start f) (3 * f.alloc.size + 1 - (nodesBelow f (f.alloc.size + 1) root).length)
  rw [Nat.sub_add_cancel (by omega)] at hwalk
  rw [lst, hwalk]
  cases 3 * f.alloc.size + 1 - (nodesBelow f (f.alloc.size + 1) root).length <;>
    simp [lstFrom]

/-- **The iterator of `lst(root)` lists the used items of the trie**: on a trie that `_chk`
accepts, the walk with `prev` links and no stack gives the used items in the order of the
recursive walk (`!is_eq` side first), each once, and as many as `_chk` counts. -/
theorem lst_eq_usedBelow {root n : Nat} (h : chk L f root = .ok n) :
    lst f root = usedBelow f (f.alloc.size + 1) root ∧ (lst f root).Nodup ∧
      (lst f root).length = n := by
  by_cases h0 : root = 0
  · subst h0
    simp only [chk, beq_self_eq_true, if_true, Except.ok.injEq] at h
    subst h
    simp [lst, lstFrom, usedBelow, nodesBelow]
  have hc := chkOk_of_chk L f h h0
  have hlst := lst_eq_of_chkOk f L hc
  rw [chk, beq_false_of_ne h0, if_neg Bool.false_ne_true] at h
  refine ⟨hlst, ?_, ?_⟩
  · rw [hlst]
    exact (nodup_nodesBelow L f hc).filter _
  · rw [hlst, chkItem_eq_length_usedBelow L f h]

/-- A node-name file with the keys `ab`, `ac` and `b`, inserted in that order after `boot`. -/
def sampleTrie : PrefixFile Char Nat :=
  match ((do
      boot nodeNameLayout
      discard <| insert nodeNameLayout 1 ['a', 'b'] []
      discard <| insert nodeNameLayout 1 ['a', 'c'] []
      discard <| insert nodeNameLayout 1 ['b'] []).run (PrefixFile.new : PrefixFile Char Nat)) with
  | .ok (_, f) => f
  | .error _ => PrefixFile.new

theorem lst_eq_usedBelow_sampleTrie : chk nodeNameLayout sampleTrie 1 = .ok 3 ∧
    lst sampleTrie 1 = usedBelow sampleTrie (sampleTrie.alloc.size + 1) 1 ∧
      (lst sampleTrie 1).Nodup ∧ (lst sampleTrie 1).length = 3 := by
  have h : chk nodeNameLayout sampleTrie 1 = .ok 3 := by decide +kernel
  exact ⟨h, lst_eq_usedBelow sampleTrie nodeNameLayout h⟩

/-- The items `lst(root)` lists are the used items below the root. -/
theorem mem_lst_iff {root n idx : Nat} (h : chk L f root = .ok n) (h0 : root ≠ 0) :
    idx ∈ lst f root ↔ (∃ e, Below f root idx e) ∧ (f.item idx).used = true := by
  have hc := chkOk_of_chk L f h h0
  rw [lst_eq_of_chkOk f L hc, usedBelow, List.mem_filter]
  constructor
  · rintro ⟨hm, hu⟩
    obtain ⟨e, -, hb⟩ := below_of_mem_nodesBelow f hm
    exact ⟨⟨e, hb⟩, hu⟩
  · rintro ⟨⟨e, hb⟩, hu⟩
    exact ⟨mem_nodesBelow_of_below L f hc hb, hu⟩

end Iterator

end MultiPrefixFile

end Store
