import Mathlib.Data.List.Basic

/-!
# Escaped byte strings

Text formats that must avoid some bytes write each byte of a string as a chunk of its own: the
byte itself, or an escape sequence such as `\n` or `\x1b`.  Such an encoder is a `flatMap`, and
its decoder reads one chunk at a time.

* `ascii`: the bytes of an ASCII string literal, so that escape sequences can be written legibly.
* `forall_uint8`: a fact about every byte from its check on the 256 values.
* `decode_flatMap`: the induction rule of every round trip of this kind.  A decoder that reads
  the chunk of each symbol and then goes on with whatever follows reads the whole encoding,
  whatever follows it.  The decoder may run in any lawful monad (failure with `Option` or
  `Except`), and what it makes of a chunk (`push`) need not be the symbol itself.
-/

set_option autoImplicit false

namespace Escape

/-- The bytes of an ASCII string. -/
def ascii (s : String) : List UInt8 := s.toList.map Char.toUInt8

/-- A property of every byte follows from its check on the 256 values. -/
theorem forall_uint8 {P : UInt8 → Prop} (h : ∀ n, n < 256 → P (UInt8.ofNat n)) :
    ∀ c, P c := by
  intro c
  have hc := h c.toNat c.toNat_lt
  rwa [UInt8.ofNat_toNat] at hc

section Decode

variable {α β γ : Type} {m : Type → Type} [Monad m] [LawfulMonad m]

/-- Reading a chunked encoding chunk by chunk.  The chunk of each symbol of `s` must read back
whatever follows it. -/
theorem decode_flatMap {enc : α → List β} {dec : List β → m γ} {push : α → γ → γ} :
    ∀ (s : List α), (∀ c ∈ s, ∀ t, dec (enc c ++ t) = push c <$> dec t) →
      ∀ t, dec (s.flatMap enc ++ t) = (fun g => s.foldr push g) <$> dec t
  | [], _, t => by simp
  | c :: s, h, t => by
    have hs := decode_flatMap s (fun c' hc' => h c' (List.mem_cons_of_mem c hc')) t
    rw [List.flatMap_cons, List.append_assoc, h c List.mem_cons_self, hs, Functor.map_map]
    rfl

theorem foldr_append_eq_flatMap {read : α → List γ} (s : List α) (g : List γ) :
    s.foldr (fun c g => read c ++ g) g = s.flatMap read ++ g := by
  induction s with
  | nil => rfl
  | cons c s ih => simp [ih]

/-- The common case of `decode_flatMap`: each chunk reads as a text, and the texts are joined. -/
theorem decode_flatMap_text {enc : α → List β} {dec : List β → m (List γ)} {read : α → List γ}
    (s : List α) (h : ∀ c ∈ s, ∀ t, dec (enc c ++ t) = (read c ++ ·) <$> dec t) (t : List β) :
    dec (s.flatMap enc ++ t) = (s.flatMap read ++ ·) <$> dec t := by
  rw [decode_flatMap s h t]
  congr 1
  funext g
  exact foldr_append_eq_flatMap s g

end Decode

section Identity

variable {α : Type}

theorem length_le_length_flatMap {f : α → List α} (hf : ∀ c, f c ≠ []) (s : List α) :
    s.length ≤ (s.flatMap f).length := by
  induction s with
  | nil => simp
  | cons c s ih =>
    have hc : 0 < (f c).length := List.length_pos_iff.mpr (hf c)
    simp only [List.flatMap_cons, List.length_append, List.length_cons]
    omega

/-- An encoding whose chunks are never empty leaves a text as it is exactly when the chunk of
each of its symbols is the symbol itself. -/
theorem flatMap_eq_self_iff {f : α → List α} (hf : ∀ c, f c ≠ []) :
    ∀ s : List α, s.flatMap f = s ↔ ∀ c ∈ s, f c = [c]
  | [] => by simp
  | c :: s => by
    rw [List.flatMap_cons, List.forall_mem_cons, ← flatMap_eq_self_iff hf s]
    constructor
    · intro h
      obtain ⟨x, xs, hx⟩ := List.exists_cons_of_ne_nil (hf c)
      rw [hx, List.cons_append, List.cons.injEq] at h
      obtain ⟨rfl, hxs⟩ := h
      have hlen := congrArg List.length hxs
      have hle := length_le_length_flatMap hf s
      have hnil : xs = [] := by
        rw [List.length_append] at hlen
        exact List.eq_nil_of_length_eq_zero (by omega)
      subst hnil
      exact ⟨hx, hxs⟩
    · rintro ⟨hc, hs⟩
      rw [hc, hs, List.singleton_append]

end Identity

end Escape
