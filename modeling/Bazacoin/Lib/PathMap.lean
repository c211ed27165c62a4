import Mathlib.Logic.Function.Basic
import Mathlib.Data.List.Infix

/-!
# Maps on paths

A prefix tree stores a partial map from paths (lists of symbols) to values.
Its nodes are built from four maps:

- `PathMap.empty`: no path has a value;
- `PathMap.leaf v`: only the empty path has a value, `v`;
- `PathMap.shift p f`: the paths `p ++ q` have the values `f q`, and no other
  path has one (the map of a node under the edge labelled `p`);
- `PathMap.branch g`: the paths `b :: q` have the values `g b q` (the map of a
  node whose children are selected by the first symbol).

Updating a path is `Function.update`. The lemmas say how an update passes
through `shift` and `branch` (`shift_update`, `branch_update`), so that the
effect of an insertion deep inside a tree is computed one node at a time.
-/

/-- A partial map from paths of symbols `β` to values `α`. -/
abbrev PathMap (β α : Type*) := List β → Option α

namespace PathMap

variable {β α : Type*}

/-- The map with no values. -/
def empty : PathMap β α := fun _ => none

/-- The value `v` at the empty path, nothing elsewhere. -/
def leaf (v : α) : PathMap β α
  | [] => some v
  | _ :: _ => none

/-- The map that reads `g b` after a first symbol `b`. -/
def branch (g : β → PathMap β α) : PathMap β α
  | [] => none
  | b :: q => g b q

@[simp] theorem empty_apply (q : List β) : (empty : PathMap β α) q = none := rfl

@[simp] theorem leaf_nil (v : α) : (leaf v : PathMap β α) [] = some v := rfl

@[simp] theorem leaf_cons (v : α) (b : β) (q : List β) : (leaf v : PathMap β α) (b :: q) = none := rfl

@[simp] theorem branch_nil (g : β → PathMap β α) : branch g [] = none := rfl

@[simp] theorem branch_cons (g : β → PathMap β α) (b : β) (q : List β) :
    branch g (b :: q) = g b q := rfl

variable [DecidableEq β]

/-- The map `f` moved under the path `p`. -/
def shift (p : List β) (f : PathMap β α) : PathMap β α :=
  fun q => if p <+: q then f (q.drop p.length) else none

@[simp] theorem shift_nil (f : PathMap β α) : shift [] f = f := by
  funext q
  simp [shift]

@[simp] theorem shift_empty (p : List β) : shift p (empty : PathMap β α) = empty := by
  funext q
  simp [shift]

theorem shift_apply_append (p q : List β) (f : PathMap β α) : shift p f (p ++ q) = f q := by
  simp [shift]

theorem shift_apply_outside {p q : List β} (h : ¬ p <+: q) (f : PathMap β α) :
    shift p f q = none := by
  simp [shift, h]

/-- A shift by a longer path is two shifts. -/
theorem shift_append (p p' : List β) (f : PathMap β α) :
    shift (p ++ p') f = shift p (shift p' f) := by
  funext q
  by_cases hp : p <+: q
  · obtain ⟨r, rfl⟩ := hp
    rw [shift_apply_append]
    by_cases hr : p' <+: r
    · obtain ⟨s, rfl⟩ := hr
      rw [shift_apply_append, ← List.append_assoc, shift_apply_append]
    · rw [shift_apply_outside hr, shift_apply_outside]
      rwa [List.prefix_append_right_inj]
  · rw [shift_apply_outside hp]
    exact shift_apply_outside (fun h => hp ((List.prefix_append p p').trans h)) f

/-- A shift by one symbol is a branch with one non-empty child. -/
theorem shift_cons (b : β) (p : List β) (f : PathMap β α) :
    shift (b :: p) f = branch (Function.update (fun _ => empty) b (shift p f)) := by
  funext q
  cases q with
  | nil => simp [shift]
  | cons x q =>
    by_cases hx : x = b
    · subst hx
      simp [shift]
    · have hb : b ≠ x := fun h => hx h.symm
      simp [shift, hx, hb]

/-- The value `v` at path `p` alone. -/
theorem shift_leaf (p : List β) (v : α) : shift p (leaf v) = Function.update empty p (some v) := by
  funext q
  by_cases hp : p <+: q
  · obtain ⟨r, rfl⟩ := hp
    cases r with
    | nil => simp [shift, leaf]
    | cons x r => simp [shift, leaf]
  · have hq : q ≠ p := fun h => hp (h ▸ List.prefix_refl q)
    simp [shift_apply_outside hp, Function.update, hq]

/-- Updating under a shift is updating the shifted path. -/
theorem shift_update (p k : List β) (f : PathMap β α) (v : Option α) :
    shift p (Function.update f k v) = Function.update (shift p f) (p ++ k) v := by
  funext q
  by_cases hp : p <+: q
  · obtain ⟨r, rfl⟩ := hp
    simp only [shift_apply_append, Function.update, List.append_cancel_left_eq]
    split <;> rename_i h
    · subst h
      rfl
    · rfl
  · rw [shift_apply_outside hp, Function.update_of_ne]
    · exact (shift_apply_outside hp f).symm
    · intro h
      exact hp (h ▸ List.prefix_append p k)

/-- Updating the path `b :: k` is updating child `b` at `k`. -/
theorem branch_update (g : β → PathMap β α) (b : β) (k : List β) (v : Option α) :
    Function.update (branch g) (b :: k) v = branch (Function.update g b (Function.update (g b) k v)) := by
  funext q
  cases q with
  | nil => simp
  | cons x q =>
    by_cases hx : x = b
    · subst hx
      simp [Function.update]
    · simp [Function.update, hx]

end PathMap
