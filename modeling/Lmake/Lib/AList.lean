import Mathlib.Data.List.AList

/-!
# Association lists: replacing a value, erasing a list of keys, counting entries

What `replace` does to each lookup (`lookup_replace`), what erasing the keys of a list one after
the other leaves (`lookup_foldl_erase`), and how many entries of an `AList` satisfy a predicate as
the list is changed at one key: inserting at a new key adds the new entry's count,
erasing a key takes the old entry's away, and inserting at a key that is there trades one for the
other (`countP_insert`).  Two lists whose entries agree on the predicate key by key have the same
count (`countP_entries_congr`), whatever their order.
-/

namespace AList

variable {α : Type*} [DecidableEq α]

/-- `replace` changes the value at its key, if the key is there, and nothing else. -/
theorem lookup_replace {γ : Type*} (s : AList fun _ : α => γ) (a r : α) (b : γ) :
    (s.replace a b).lookup r = if r = a then (s.lookup a).map fun _ => b else s.lookup r := by
  obtain ⟨l, hl⟩ := s
  show List.dlookup r (List.kreplace a b l) = if r = a then (l.dlookup a).map _ else l.dlookup r
  clear hl
  induction l with
  | nil => split <;> rfl
  | cons e l ih =>
    obtain ⟨k, v⟩ := e
    by_cases hk : a = k
    · subst hk
      simp only [List.kreplace, List.lookmap_cons, ↓reduceIte]
      by_cases hr : r = a
      · subst hr
        simp
      · simp [hr]
    · simp only [List.kreplace, List.lookmap_cons, hk, ↓reduceIte]
      by_cases hr : r = k
      · subst hr
        have hne : r ≠ a := fun h => hk h.symm
        simp [hne]
      · have hd : ∀ x, x ≠ k → ∀ l' : List ((_ : α) × γ), (⟨k, v⟩ :: l').dlookup x = l'.dlookup x :=
          fun x hx l' => List.dlookup_cons_ne l' ⟨k, v⟩ hx
        rw [hd r hr, hd r hr, hd a hk]
        exact ih

variable {β : α → Type*}

/-- Erasing the keys of `l` one after the other leaves the other keys as they were. -/
theorem lookup_foldl_erase (l : List α) (s : AList β) (a : α) :
    (l.foldl (fun s k => s.erase k) s).lookup a = if a ∈ l then none else s.lookup a := by
  induction l generalizing s with
  | nil => simp
  | cons k l ih =>
    rw [List.foldl_cons, ih]
    by_cases ha : a = k
    · subst ha
      simp [lookup_erase]
    · simp [ha, lookup_erase_ne ha]

/-- Erasing a key takes its entry out of the count. -/
theorem countP_erase {s : AList β} {a : α} {b : β a} (h : s.lookup a = some b)
    (p : Sigma β → Bool) :
    (s.erase a).entries.countP p + (if p ⟨a, b⟩ then 1 else 0) = s.entries.countP p := by
  have hmem : a ∈ s.entries.keys := mem_keys.mp (lookup_isSome.mp (by simp [h]))
  obtain ⟨b', l₁, l₂, hl₁, hs, hk⟩ := List.exists_of_kerase hmem
  -- the entry at `a` is the one `lookup` finds
  have hb : b' = b := by
    have hl : s.entries.dlookup a = some b' := by
      rw [hs, List.dlookup_append]
      simp [List.dlookup_eq_none.mpr hl₁]
    exact Option.some.inj (hl.symm.trans h)
  subst hb
  show (s.entries.kerase a).countP p + _ = _
  rw [hk, hs, List.countP_append, List.countP_append, List.countP_cons]
  omega

/-- Erasing a key that is not there changes nothing. -/
theorem erase_of_notMem {s : AList β} {a : α} (h : a ∉ s) : s.erase a = s :=
  ext (List.kerase_of_notMem_keys h)

/-- Inserting at a new key adds the new entry to the count. -/
theorem countP_insert_of_notMem {s : AList β} {a : α} (h : a ∉ s) (b : β a)
    (p : Sigma β → Bool) :
    (s.insert a b).entries.countP p = s.entries.countP p + (if p ⟨a, b⟩ then 1 else 0) := by
  rw [entries_insert_of_notMem h, List.countP_cons]

/-- Inserting at a key that is there trades the old entry's count for the new one's. -/
theorem countP_insert {s : AList β} {a : α} {b' : β a} (h : s.lookup a = some b') (b : β a)
    (p : Sigma β → Bool) :
    (s.insert a b).entries.countP p + (if p ⟨a, b'⟩ then 1 else 0) =
      s.entries.countP p + (if p ⟨a, b⟩ then 1 else 0) := by
  have he := countP_erase h p
  rw [entries_insert, List.countP_cons]
  show ((s.erase a).entries.countP p + _) + _ = _
  omega

/-- Two lists whose entries agree on `p` key by key have as many entries satisfying `p`. -/
theorem countP_entries_congr {s t : AList β} (p : Sigma β → Bool)
    (h : ∀ a, (t.lookup a).map (fun b => p ⟨a, b⟩) = (s.lookup a).map (fun b => p ⟨a, b⟩)) :
    t.entries.countP p = s.entries.countP p := by
  -- forget the values but for `p`, in a list of the same keys
  let g : (a : α) → β a → (fun _ : α => Bool) a := fun a b => p ⟨a, b⟩
  let m : Sigma β → (_ : α) × Bool := Sigma.map id g
  have hcount : ∀ l : List (Sigma β), l.countP p = (l.map m).countP fun e => e.2 := by
    intro l
    rw [List.countP_map]
    rfl
  have hperm : List.Perm (t.entries.map m) (s.entries.map m) := by
    refine List.lookup_ext (t.nodupKeys.map₂ g) (s.nodupKeys.map₂ g) fun x y => ?_
    rw [List.dlookup_map₂, List.dlookup_map₂]
    exact Iff.of_eq (congrArg (y ∈ ·) (h x))
  rw [hcount, hcount, hperm.countP_eq]

end AList
