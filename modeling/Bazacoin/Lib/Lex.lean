import Mathlib.Data.List.Lex

/-!
# Lexicographic order and prefixes

The order of byte strings that `bytes.Compare` decides is the lexicographic
order on lists, `List.lt`. A walk of a prefix tree in pre-order meets the
paths in that order because of three facts proved here:

- `lt_append_of_ne_nil`: a path is below each of its proper extensions;
- `append_cons_lt_append_cons`: what lies under a lower branch is below what
  lies under a higher one;
- `lt_of_extends_of_lt`: a path below `key` that is not a prefix of `key`
  has all its extensions below `key`, so a search for `key` may skip them.
-/

namespace List

variable {α : Type*} [LT α]

theorem lt_append_of_ne_nil (p : List α) {r : List α} (hr : r ≠ []) : p < p ++ r := by
  obtain ⟨a, r, rfl⟩ := List.exists_cons_of_ne_nil hr
  have h : p ++ [] < p ++ a :: r := List.append_left_lt (List.nil_lt_cons a r)
  simpa using h

theorem append_cons_lt_append_cons (p : List α) {a b : α} (h : a < b) (s t : List α) :
    p ++ a :: s < p ++ b :: t :=
  List.append_left_lt (List.cons_lt_cons_iff.mpr (Or.inl h))

/-- Below `key` and off its prefixes, a whole subtree lies below `key`. -/
theorem lt_of_extends_of_lt {c key q : List α} (hlt : c < key) (hoff : ¬ c <+: key)
    (hq : c <+: q) : q < key := by
  induction c generalizing key q with
  | nil => exact absurd (List.nil_prefix) hoff
  | cons a c ih =>
    cases key with
    | nil => exact absurd hlt (List.not_lt_nil _)
    | cons b key =>
      obtain ⟨q', rfl⟩ : ∃ q', q = a :: q' := by
        obtain ⟨r, rfl⟩ := hq
        exact ⟨c ++ r, rfl⟩
      have hq' : c <+: q' := (List.cons_prefix_cons.mp hq).2
      rcases List.cons_lt_cons_iff.mp hlt with hab | ⟨rfl, hc⟩
      · exact List.cons_lt_cons_iff.mpr (Or.inl hab)
      · -- the first symbols agree, so the rest of `c` is off the rest of `key`
        have hoff' : ¬ c <+: key := fun h => hoff (List.cons_prefix_cons.mpr ⟨rfl, h⟩)
        exact List.cons_lt_cons_iff.mpr (Or.inr ⟨rfl, ih hc hoff' hq'⟩)

end List
