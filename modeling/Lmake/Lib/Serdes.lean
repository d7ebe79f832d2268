import Mathlib.Data.Vector.Basic

/-!
# Readers of byte streams, and framing

A writer turns a value into a list of items (bytes, in the instances) or fails; a reader
consumes the front of a stream and returns what it read with the rest of the stream, or
throws.  The property a serialization format needs of each of its readers is `Framed d bs y`:

* `d` reads `y` from `bs` followed by anything, and leaves exactly what follows, and
* `d` throws on every proper prefix of `bs`: it never returns on a truncated stream.

The lemmas below compose it: a reader that reads a fixed number of items, a sequence of
framed readers (`Framed.bind`), and a reader repeated a number of times that an earlier item
gave (`Framed.foldN`, `Framed.vector`).  They are the whole toolkit a proof of a round trip
needs, by induction on the type of what is serialized.

Sizes are written as fixed-width little-endian numbers; `leBytes` and `ofLeBytes` are that
code, with its round trip `ofLeBytes_leBytes`.
-/

namespace Serdes

variable {β α γ : Type}

/-- A reader of a stream of `β`: it returns the value read and the rest of the stream. -/
abbrev Reader (β α : Type) := StateT (List β) (Except String) α

namespace Reader

/-- Read the next `n` items, throwing `msg` on a stream that holds fewer. -/
def take (n : Nat) (msg : String) : Reader β (List β) := fun is =>
  if n ≤ is.length then .ok (is.take n, is.drop n) else .error msg

/-- Read `n` items with `d`, folding each into `acc` with `f` as it comes. -/
def foldN (d : Reader β α) (f : γ → α → γ) : γ → Nat → Reader β γ
  | acc, 0 => pure acc
  | acc, n + 1 => do
    let x ← d
    foldN d f (f acc x) n

/-- Read `n` items with `d`, in order, into a vector. -/
def vector (d : Reader β α) : (n : Nat) → Reader β (List.Vector α n)
  | 0 => pure .nil
  | n + 1 => do
    let x ← d
    let xs ← vector d n
    pure (x ::ᵥ xs)

end Reader

/-- Write every item of a list, one after the other. -/
def writeAll (w : α → Except String (List β)) : List α → Except String (List β)
  | [] => pure []
  | x :: xs => do
    let b ← w x
    let bs ← writeAll w xs
    pure (b ++ bs)

/-! ## Framed readers -/

/-- `d` reads `y` from `bs` and from nothing shorter. -/
structure Framed (d : Reader β α) (bs : List β) (y : α) : Prop where
  reads : ∀ r, d.run (bs ++ r) = .ok (y, r)
  short : ∀ p q, p ++ q = bs → q ≠ [] → ∃ e, d.run p = .error e

/-- The writer `w` writes `x` as bytes from which `d` reads `y`. -/
def Encodes (w : α → Except String (List β)) (d : Reader β γ) (x : α) (y : γ) : Prop :=
  ∃ bs, w x = .ok bs ∧ Framed d bs y

theorem framed_take (bs : List β) (msg : String) : Framed (Reader.take bs.length msg) bs bs where
  reads r := by simp [StateT.run, Reader.take]
  short p q hpq hq := by
    refine ⟨msg, ?_⟩
    have hlen : p.length < bs.length := by
      have := congrArg List.length hpq
      have : 0 < q.length := List.length_pos_iff.mpr hq
      simp only [List.length_append] at *
      omega
    simp [StateT.run, Reader.take, Nat.not_le.mpr hlen]

theorem framed_pure (y : α) : Framed (pure y : Reader β α) [] y where
  reads _ := rfl
  short _ _ hpq hq := absurd (List.append_eq_nil_iff.mp hpq).2 hq

theorem bind_run_ok {d : Reader β α} {f : α → Reader β γ} {s s' : List β} {a : α}
    (h : d.run s = .ok (a, s')) : (d >>= f).run s = (f a).run s' := by
  rw [StateT.run_bind, h]
  rfl

theorem bind_run_error {d : Reader β α} {f : α → Reader β γ} {s : List β} {e : String}
    (h : d.run s = .error e) : (d >>= f).run s = .error e := by
  rw [StateT.run_bind, h]
  rfl

/-- Two framed readers in sequence are framed on the concatenation of their inputs. -/
theorem Framed.bind {d : Reader β α} {f : α → Reader β γ} {b₁ b₂ : List β} {a : α} {z : γ}
    (h₁ : Framed d b₁ a) (h₂ : Framed (f a) b₂ z) : Framed (d >>= f) (b₁ ++ b₂) z where
  reads r := by
    rw [bind_run_ok (by rw [List.append_assoc]; exact h₁.reads (b₂ ++ r))]
    exact h₂.reads r
  short p q hpq hq := by
    rcases List.append_eq_append_iff.mp hpq with ⟨m, rfl, rfl⟩ | ⟨c, rfl, rfl⟩
    · -- the stream stops inside the first reader's input, or right after it
      cases m with
      | nil =>
        obtain ⟨e, he⟩ := h₂.short [] b₂ rfl hq
        have h : d.run p = .ok (a, []) := by simpa using h₁.reads []
        exact ⟨e, by rw [bind_run_ok h]; exact he⟩
      | cons x m =>
        obtain ⟨e, he⟩ := h₁.short p (x :: m) rfl (List.cons_ne_nil x m)
        exact ⟨e, bind_run_error he⟩
    · -- the stream stops inside the second reader's input
      obtain ⟨e, he⟩ := h₂.short c q rfl hq
      exact ⟨e, by rw [bind_run_ok (h₁.reads c)]; exact he⟩

/-- A framed reader followed by a pure computation on what it read. -/
theorem Framed.bind_pure {d : Reader β α} {g : α → γ} {bs : List β} {a : α}
    (h : Framed d bs a) : Framed (d >>= fun x => pure (g x)) bs (g a) := by
  simpa using @Framed.bind β α γ d (fun x => pure (g x)) bs [] a (g a) h (framed_pure (g a))

theorem Framed.foldN {d : Reader β α} (f : γ → α → γ) {bss : List (List β)} {ys : List α}
    (h : List.Forall₂ (fun b y => Framed d b y) bss ys) (acc : γ) :
    Framed (Reader.foldN d f acc ys.length) bss.flatten (ys.foldl f acc) := by
  induction h generalizing acc with
  | nil => exact framed_pure acc
  | cons hy _ ih =>
    simp only [List.length_cons, Reader.foldN, List.flatten_cons, List.foldl_cons]
    exact hy.bind (ih _)

theorem Framed.vector {d : Reader β α} {n : Nat} {bss : List (List β)} {ys : List.Vector α n}
    (h : List.Forall₂ (fun b y => Framed d b y) bss ys.toList) :
    Framed (Reader.vector d n) bss.flatten ys := by
  induction n generalizing bss with
  | zero =>
    obtain rfl : ys = .nil := List.Vector.eq_nil ys
    obtain rfl : bss = [] := List.forall₂_nil_right_iff.mp h
    exact framed_pure _
  | succ n ih =>
    obtain ⟨y, ys', rfl⟩ : ∃ y ys', ys = y ::ᵥ ys' := ⟨ys.head, ys.tail, (List.Vector.cons_head_tail ys).symm⟩
    rw [List.Vector.toList_cons] at h
    obtain ⟨b, bss', hb, hrest, rfl⟩ := List.forall₂_cons_right_iff.mp h
    simp only [Reader.vector, List.flatten_cons]
    exact hb.bind ((ih hrest).bind_pure)

/-! ## Writing lists -/

theorem encodes_writeAll {w : α → Except String (List β)} {d : Reader β γ} {g : α → γ}
    {xs : List α} (h : ∀ x ∈ xs, Encodes w d x (g x)) :
    ∃ bss, writeAll w xs = .ok bss.flatten ∧
      List.Forall₂ (fun b y => Framed d b y) bss (xs.map g) := by
  induction xs with
  | nil => exact ⟨[], rfl, .nil⟩
  | cons x xs ih =>
    obtain ⟨b, hw, hb⟩ := h x (List.mem_cons_self ..)
    obtain ⟨bss, hws, hbss⟩ := ih fun y hy => h y (List.mem_cons_of_mem x hy)
    refine ⟨b :: bss, ?_, .cons hb hbss⟩
    simp [writeAll, hw, hws, bind, Except.bind, pure, Except.pure]

/-! ## Little-endian numbers -/

/-- The `n` bytes of the low `8 * n` bits of `v`, least significant first. -/
def leBytes : Nat → Nat → List UInt8
  | 0, _ => []
  | n + 1, v => (v % 256).toUInt8 :: leBytes n (v / 256)

/-- The number whose little-endian bytes are `bs`. -/
def ofLeBytes : List UInt8 → Nat
  | [] => 0
  | b :: bs => b.toNat + 256 * ofLeBytes bs

@[simp] theorem length_leBytes (n v : Nat) : (leBytes n v).length = n := by
  induction n generalizing v with
  | zero => rfl
  | succ n ih => simp [leBytes, ih]

theorem ofLeBytes_leBytes (n v : Nat) : ofLeBytes (leBytes n v) = v % 2 ^ (8 * n) := by
  induction n generalizing v with
  | zero => simp [leBytes, ofLeBytes, Nat.mod_one]
  | succ n ih =>
    have hpow : 2 ^ (8 * (n + 1)) = 256 * 2 ^ (8 * n) := by
      rw [Nat.mul_succ, Nat.pow_add, Nat.mul_comm]
    simp only [leBytes, ofLeBytes, ih, hpow, Nat.mod_mul]
    simp [Nat.toUInt8]

/-! ## Numbers in place -/

/-- `encode_int(&s[i],x)`: the `n` bytes of `x` copied over those of `s` from `i` on. -/
def encodeAt (n : Nat) (s : List UInt8) (i x : Nat) : List UInt8 :=
  s.take i ++ leBytes n x ++ s.drop (i + n)

/-- `decode_int(&s[i])`: the number held in the `n` bytes of `s` from `i` on. -/
def decodeAt (n : Nat) (s : List UInt8) (i : Nat) : Nat := ofLeBytes ((s.drop i).take n)

/-- Writing right after `A` replaces the first `n` bytes of what follows it. -/
theorem encodeAt_append (n : Nat) (A B : List UInt8) (x : Nat) :
    encodeAt n (A ++ B) A.length x = A ++ leBytes n x ++ B.drop n := by
  rw [encodeAt, List.take_left, List.drop_append, List.drop_of_length_le (by omega)]
  simp

/-- What was written right after `A` reads back, cut to its `n` bytes. -/
theorem decodeAt_append (n : Nat) (A B : List UInt8) (x : Nat) :
    decodeAt n (A ++ leBytes n x ++ B) A.length = x % 2 ^ (8 * n) := by
  rw [decodeAt, List.append_assoc, List.drop_left, List.take_left' (length_leBytes n x),
    ofLeBytes_leBytes]

/-- Writing `n` bytes at `i` leaves the bytes from `i + n` on as they were. -/
theorem decodeAt_encodeAt_of_le (n m : Nat) (s : List UInt8) {i j : Nat} (x : Nat)
    (hi : i ≤ s.length) (hj : i + n ≤ j) : decodeAt m (encodeAt n s i x) j = decodeAt m s j := by
  have hlen : (s.take i ++ leBytes n x).length = i + n := by simp [hi]
  rw [decodeAt, encodeAt, List.drop_append, List.drop_eq_nil_of_le (by omega), hlen,
    List.nil_append, List.drop_drop, Nat.add_sub_cancel' hj, decodeAt]

end Serdes
