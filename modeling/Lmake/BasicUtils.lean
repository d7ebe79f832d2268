import Mathlib.Algebra.Group.Int.Defs
import Mathlib.Algebra.Group.Nat.Defs
import Mathlib.Data.List.AList

/-!
# What the models share of the program's basic utilities

Assertions (`SWEAR`) and unordered maps (`umap`) are used throughout the program.  A failed
assertion stops the program; a model returns it as the `.error` of an `Except`, with the text of
the asserted condition.  An unordered map is an association list (`AList`), whose order stands
for the map's unspecified iteration order.
-/

set_option autoImplicit false

namespace Lmake

/-- `Map K V`: the source's `umap<K,V>`. -/
abbrev Map (K V : Type) := AList (fun _ : K => V)

/-- `umap::at`, which throws on a missing key. -/
def at? {K V : Type} [DecidableEq K] (m : Map K V) (k : K) : Except String V :=
  match m.lookup k with
  | some v => .ok v
  | none => .error "out_of_range"

@[simp] theorem at?_eq_ok {K V : Type} [DecidableEq K] {m : Map K V} {k : K} {v : V} :
    at? m k = .ok v ↔ m.lookup k = some v := by
  unfold at?
  split <;> simp_all

/-- `Bool3`: a boolean with a third value between false and true. -/
inductive Bool3 where
  | No
  | Maybe
  | Yes
  deriving DecidableEq, Repr

/-- `SWEAR(cond)`. -/
def swear (cond : Bool) (msg : String) : Except String Unit :=
  if cond then .ok () else .error msg

/-- `throw_unless(cond,msg)`: a failed check throws `msg`. -/
def throwUnless (cond : Bool) (msg : String) : Except String Unit :=
  if cond then .ok () else .error msg

/-- `widen(s,sz,right,fill)`: `s` padded with `fill` to `sz` characters, on the left when `right`;
a string of `sz` characters or more is left as it is. -/
def widen (s : List Char) (sz : Nat) (right : Bool) (fill : Char) : List Char :=
  if s.length ≥ sz then s
  else if right then List.replicate (sz - s.length) fill ++ s
  else s ++ List.replicate (sz - s.length) fill

/-- Right-aligned, the padding is whatever is missing up to `sz`, none when nothing is. -/
theorem widen_right (s : List Char) (sz : Nat) (fill : Char) :
    widen s sz true fill = List.replicate (sz - s.length) fill ++ s := by
  unfold widen
  split
  · rename_i h
    rw [Nat.sub_eq_zero_of_le h, List.replicate_zero, List.nil_append]
  · rfl

/-- A right-aligned field in which the fill character does not show was not padded. -/
theorem widen_right_eq_of_not_mem {s : List Char} {sz : Nat} {fill : Char}
    (h : fill ∉ widen s sz true fill) : widen s sz true fill = s := by
  rw [widen_right] at h ⊢
  have hpad : sz - s.length = 0 := by
    by_contra hne
    exact h (List.mem_append_left s (List.mem_replicate.mpr ⟨hne, rfl⟩))
  rw [hpad, List.replicate_zero, List.nil_append]

/-- A computation that succeeds went through each of its steps. -/
theorem bind_eq_ok {ε α β : Type} {x : Except ε α} {f : α → Except ε β} {b : β}
    (h : (x >>= f) = .ok b) : ∃ a, x = .ok a ∧ f a = .ok b := by
  cases x with
  | error e => cases h
  | ok a => exact ⟨a, rfl, h⟩

/-- A computation that fails failed at one of its steps. -/
theorem bind_eq_error {ε α β : Type} {x : Except ε α} {f : α → Except ε β} {e : ε}
    (h : (x >>= f) = .error e) : x = .error e ∨ ∃ a, x = .ok a ∧ f a = .error e := by
  cases x with
  | error e' =>
    have h' : (Except.error e' : Except ε β) = .error e := h
    cases h'
    exact .inl rfl
  | ok a => exact .inr ⟨a, rfl, h⟩

theorem ok_bind {ε α β : Type} (a : α) (f : α → Except ε β) : (Except.ok a >>= f) = f a := rfl

theorem error_bind {ε α β : Type} (e : ε) (f : α → Except ε β) :
    (Except.error e >>= f) = .error e := rfl

/-- A loop whose every iteration succeeds and goes on succeeds. -/
theorem forIn_eq_ok {ε α : Type} {l : List α} {f : α → Unit → Except ε (ForInStep Unit)}
    (h : ∀ a ∈ l, f a () = .ok (.yield ())) : forIn l () f = .ok () := by
  induction l with
  | nil => rfl
  | cons a l ih =>
    rw [List.forIn_cons, h a List.mem_cons_self, ok_bind]
    exact ih fun b hb => h b (List.mem_cons_of_mem _ hb)

theorem pure_eq_ok {ε α : Type} {a b : α} : (pure a : Except ε α) = .ok b ↔ a = b := by
  simp only [pure, Except.pure, Except.ok.injEq]

@[simp] theorem swear_eq_ok {cond : Bool} {msg : String} {u : Unit} :
    swear cond msg = .ok u ↔ cond = true := by
  cases cond <;> simp [swear]

theorem swear_eq_error {cond : Bool} {msg m : String} :
    swear cond msg = .error m ↔ cond = false ∧ m = msg := by
  cases cond <;> simp [swear, eq_comm]

end Lmake
