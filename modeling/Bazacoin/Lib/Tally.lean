import Mathlib

/-!
# Totals over finite maps, and counters

Bookkeeping code keeps a count beside a map: so many entries of each owner
are held, so many are allowed. Saying that the count is right means
comparing it with a total over the map's values.

- `AList.tally w m`: the sum of the weights `w v` of the values of `m`.
  Inserting a key adds its value's weight to the total without the key
  (`tally_insert`), and erasing a key takes its value's weight off
  (`tally_erase`). These two lemmas carry every argument about the total.
- `decrAll key c xs`: a counter `c` decremented once for each element of
  `xs`, at the element's key; it is `c` less the number of elements with
  that key (`decrAll_apply`). A map of counts from which entries at zero are
  deleted reads zero at a deleted key, so it is a function with default
  zero.
-/

namespace AList

variable {α β : Type*}

/-- The sum of the weights of the values of a map. -/
def tally (w : β → Nat) (m : AList fun _ : α => β) : Nat :=
  (m.entries.map fun s => w s.2).sum

variable (w : β → Nat)

@[simp] theorem tally_empty : tally w (∅ : AList fun _ : α => β) = 0 := rfl

variable [DecidableEq α]

/-- Erasing a key takes its value's weight off the total. -/
theorem tally_erase (m : AList fun _ : α => β) (k : α) :
    tally w m = tally w (m.erase k) + ((m.lookup k).map w).getD 0 := by
  by_cases hk : k ∈ m.keys
  · obtain ⟨b, l₁, l₂, hl₁, hm, herase⟩ := List.exists_of_kerase hk
    have hlookup : m.lookup k = some b := by
      rw [AList.lookup, hm, List.dlookup_append, List.dlookup_eq_none.2 hl₁, List.dlookup_cons_eq]
      rfl
    have hentries : (m.erase k).entries = l₁ ++ l₂ := herase
    simp only [tally, hentries, hlookup, hm, List.map_append, List.map_cons, List.sum_append,
      List.sum_cons, Option.map_some, Option.getD_some]
    omega
  · have hlookup : m.lookup k = none := AList.lookup_eq_none.2 (AList.mem_keys.not.2 hk)
    have hentries : (m.erase k).entries = m.entries := List.kerase_of_notMem_keys hk
    simp [tally, hentries, hlookup]

/-- Inserting a key adds its value's weight to the total without the key. -/
theorem tally_insert (m : AList fun _ : α => β) (k : α) (v : β) :
    tally w (m.insert k v) = tally w (m.erase k) + w v := by
  have hentries : (m.erase k).entries = m.entries.kerase k := rfl
  simp only [tally, AList.entries_insert, List.map_cons, List.sum_cons, hentries]
  omega

/-- Inserting a key that is absent adds its value's weight. -/
theorem tally_insert_of_lookup_eq_none {m : AList fun _ : α => β} {k : α}
    (hk : m.lookup k = none) (v : β) :
    tally w (m.insert k v) = tally w m + w v := by
  rw [tally_insert, tally_erase w m k, hk]
  simp

/-- Replacing a value by one of the same weight keeps the total. -/
theorem tally_insert_of_lookup_eq_some {m : AList fun _ : α => β} {k : α} {v₀ : β}
    (hk : m.lookup k = some v₀) (v : β) (hw : w v = w v₀) :
    tally w (m.insert k v) = tally w m := by
  rw [tally_insert, tally_erase w m k, hk, hw]
  simp

end AList

/-! ## Counters -/

section Counter

variable {α κ : Type*} [DecidableEq κ] (key : α → κ)

/-- Decrement the counter `c` once for each element of `xs`, at its key. -/
def decrAll (c : κ → Int) (xs : List α) : κ → Int :=
  xs.foldl (fun c x => Function.update c (key x) (c (key x) - 1)) c

theorem decrAll_apply (c : κ → Int) (xs : List α) (q : κ) :
    decrAll key c xs q = c q - xs.countP (fun x => key x = q) := by
  induction xs generalizing c with
  | nil => simp [decrAll]
  | cons x xs ih =>
    rw [decrAll, List.foldl_cons, ← decrAll, ih, List.countP_cons]
    by_cases hx : key x = q
    · subst hx
      simp
      omega
    · simp [Function.update_of_ne (Ne.symm hx), hx]

end Counter
