import Bazacoin.Trie.Tree
import Bazacoin.Lib.Lex

/-!
# The nodes of a tree in pre-order

`Tree.preorder T p` lists the nodes of `T`, placed at path `p`, with their
paths: a node, then the subtrees of its children in order, nil children left
out. It is the order in which a node iterator visits a trie.

- `prefix_of_mem_preorder`: every node lies under `p`.
- `sorted_preorder`: when no short node has an empty key, the paths strictly
  increase (`List.lt`, the order of `bytes.Compare`): a node comes before its
  descendants, a child slot before the next.
- `placed_of_mem_preorder`: in a tree that stores hex paths (`Inner`), a node
  is either an inner node at a run of nibbles or a value at a hex path.
- `value_mem_preorder_iff`: the values met are exactly the entries of the
  map the tree stores.
-/

namespace Bazacoin

namespace Trie

namespace Tree

/-- `n == nil`. -/
def isNil : Tree → Bool
  | .nil => true
  | _ => false

/-- The path symbol of child slot `i`, `byte(i)`. -/
def slot (i : Fin 17) : UInt8 := UInt8.ofNat i.val

/-- The nodes under the child slots `is` of a full node, in order, with the
nodes under slot `i` given by `sub i`; nil children are left out. -/
def childrenOf (sub : Fin 17 → List (Bytes × Tree)) (cs : Fin 17 → Tree) :
    List (Fin 17) → List (Bytes × Tree)
  | [] => []
  | i :: is => (if (cs i).isNil then [] else sub i) ++ childrenOf sub cs is

/-- The nodes of a tree placed at path `p`, in pre-order, with their paths. -/
def preorder : Tree → Bytes → List (Bytes × Tree)
  | .full cs, p =>
    (p, .full cs) :: childrenOf (fun i => (cs i).preorder (p ++ [slot i])) cs (List.finRange 17)
  | .short k c, p => (p, .short k c) :: c.preorder (p ++ k)
  | t, p => [(p, t)]

/-- What the pre-order visits after the node itself. -/
def descendants : Tree → Bytes → List (Bytes × Tree)
  | .full cs, p => childrenOf (fun i => (cs i).preorder (p ++ [slot i])) cs (List.finRange 17)
  | .short k c, p => c.preorder (p ++ k)
  | _, _ => []

theorem preorder_eq_cons (T : Tree) (p : Bytes) : T.preorder p = (p, T) :: T.descendants p := by
  cases T <;> rfl

theorem toNat_slot (i : Fin 17) : (slot i).toNat = i.val :=
  UInt8.toNat_ofNat_of_lt' (by have := i.isLt; omega : i.val < 2 ^ 8)

theorem slot_lt_slot {i j : Fin 17} (h : i < j) : slot i < slot j := by
  rw [UInt8.lt_iff_toNat_lt, toNat_slot, toNat_slot]
  exact h

theorem mem_childrenOf {sub : Fin 17 → List (Bytes × Tree)} {cs : Fin 17 → Tree}
    {is : List (Fin 17)} {x : Bytes × Tree} :
    x ∈ childrenOf sub cs is ↔ ∃ i ∈ is, (cs i).isNil = false ∧ x ∈ sub i := by
  induction is with
  | nil => simp [childrenOf]
  | cons i is ih =>
    cases hnil : (cs i).isNil <;> simp [childrenOf, hnil, ih]

/-! ## Where the nodes lie -/

theorem prefix_of_mem_preorder (T : Tree) (p : Bytes) {x : Bytes × Tree}
    (hx : x ∈ T.preorder p) : p <+: x.1 := by
  induction T generalizing p with
  | full cs ih =>
    rcases List.mem_cons.mp hx with rfl | hx
    · exact List.prefix_refl _
    · obtain ⟨i, -, -, hi⟩ := mem_childrenOf.mp hx
      exact (List.prefix_append p _).trans (ih i _ hi)
  | short k c ih =>
    rcases List.mem_cons.mp hx with rfl | hx
    · exact List.prefix_refl _
    · exact (List.prefix_append p k).trans (ih _ hx)
  | nil | value _ =>
    rw [List.mem_singleton.mp hx]

/-- No short node of the tree has an empty key. -/
def KeysNonempty : Tree → Prop
  | .full cs => ∀ i, (cs i).KeysNonempty
  | .short k c => k ≠ [] ∧ c.KeysNonempty
  | _ => True

theorem keysNonempty_of_leaf {t : Tree} (h : t.Leaf) : t.KeysNonempty := by
  cases t <;> simp_all [Leaf, KeysNonempty]

theorem keysNonempty_of_inner {t : Tree} (h : t.Inner) : t.KeysNonempty := by
  induction t with
  | full cs ih =>
    intro i
    by_cases hi : i.val < 16
    · exact ih i (h.1 i hi)
    · have h16 : i = 16 := Fin.ext (by have := i.isLt; simp; omega)
      exact h16 ▸ keysNonempty_of_leaf h.2
  | short k c ih =>
    rcases h with ⟨hk, v, -, rfl⟩ | ⟨hk, -, hc⟩
    · exact ⟨hk.ne_nil, trivial⟩
    · exact ⟨hk, ih hc⟩
  | nil | value _ => trivial

/-- The nodes under increasing child slots come in increasing order. -/
theorem sorted_childrenOf (p : Bytes) {sub : Fin 17 → List (Bytes × Tree)} {cs : Fin 17 → Tree}
    {is : List (Fin 17)} (hsorted : is.Pairwise (· < ·))
    (hsub : ∀ i, (sub i).Pairwise (fun x y => x.1 < y.1))
    (hunder : ∀ i, ∀ x ∈ sub i, p ++ [slot i] <+: x.1) :
    (childrenOf sub cs is).Pairwise (fun x y => x.1 < y.1) := by
  induction is with
  | nil => exact List.Pairwise.nil
  | cons i is ih =>
    rw [List.pairwise_cons] at hsorted
    rw [childrenOf, List.pairwise_append]
    refine ⟨?_, ih hsorted.2, ?_⟩
    · split
      · exact List.Pairwise.nil
      · exact hsub i
    · -- slot `i` is before every later slot, so its subtree is below theirs
      intro x hx y hy
      have hx' : x ∈ sub i := by split at hx <;> simp_all
      obtain ⟨j, hj, -, hy'⟩ := mem_childrenOf.mp hy
      obtain ⟨s, hs⟩ := hunder i x hx'
      obtain ⟨t, ht⟩ := hunder j y hy'
      rw [← hs, ← ht, List.append_assoc, List.append_assoc, List.singleton_append,
        List.singleton_append]
      exact List.append_cons_lt_append_cons p (slot_lt_slot (hsorted.1 j hj)) s t

theorem sorted_preorder (T : Tree) (hT : T.KeysNonempty) (p : Bytes) :
    (T.preorder p).Pairwise (fun x y => x.1 < y.1) := by
  induction T generalizing p with
  | full cs ih =>
    have hchildren : (childrenOf (fun i => (cs i).preorder (p ++ [slot i])) cs
        (List.finRange 17)).Pairwise (fun x y => x.1 < y.1) :=
      sorted_childrenOf p (List.pairwise_lt_finRange 17) (fun i => ih i (hT i) _)
        (fun i x hx => prefix_of_mem_preorder _ _ hx)
    refine List.pairwise_cons.mpr ⟨?_, hchildren⟩
    -- the node is below its proper descendants
    intro x hx
    obtain ⟨i, -, -, hi⟩ := mem_childrenOf.mp hx
    obtain ⟨s, hs⟩ := prefix_of_mem_preorder _ _ hi
    rw [← hs, List.append_assoc]
    exact List.lt_append_of_ne_nil p (by simp)
  | short k c ih =>
    refine List.pairwise_cons.mpr ⟨?_, ih hT.2 _⟩
    intro x hx
    obtain ⟨s, hs⟩ := prefix_of_mem_preorder _ _ hx
    rw [← hs, List.append_assoc]
    exact List.lt_append_of_ne_nil p (by simp [hT.1])
  | nil | value _ => exact List.pairwise_singleton _ _

/-! ## What the nodes are -/

/-- In a tree that stores hex paths, placed at a run of nibbles, every node
is an inner node at a run of nibbles or a value at a hex path. -/
theorem placed_of_mem_preorder {T : Tree} (hT : T.Inner) {p : Bytes} (hp : Nibbles p)
    {x : Bytes × Tree} (hx : x ∈ T.preorder p) :
    (Nibbles x.1 ∧ x.2.Inner) ∨ (HexPath x.1 ∧ ∃ v, x.2 = .value v) := by
  induction T generalizing p with
  | full cs ih =>
    rcases List.mem_cons.mp hx with rfl | hx
    · exact .inl ⟨hp, hT⟩
    obtain ⟨i, -, hnil, hi⟩ := mem_childrenOf.mp hx
    by_cases hlt : i.val < 16
    · have hslot : Nibbles (p ++ [slot i]) := by
        intro b hb
        rcases List.mem_append.mp hb with hb | hb
        · exact hp b hb
        · rw [List.mem_singleton.mp hb, UInt8.lt_iff_toNat_lt, toNat_slot]
          exact hlt
      exact ih i (hT.1 i hlt) hslot hi
    · -- the value slot: a non-nil leaf is a value, at the terminator
      have h16 : i = 16 := Fin.ext (by have := i.isLt; simp; omega)
      subst h16
      have hleaf := hT.2
      cases hc : cs 16 with
      | nil => simp [hc, isNil] at hnil
      | value v =>
        rw [hc] at hi
        rw [List.mem_singleton.mp hi]
        exact .inr ⟨⟨p, hp, rfl⟩, v, rfl⟩
      | short _ _ | full _ => simp [hc, Leaf] at hleaf
  | short k c ih =>
    rcases List.mem_cons.mp hx with rfl | hx
    · exact .inl ⟨hp, hT⟩
    rcases hT with ⟨hk, v, -, rfl⟩ | ⟨-, hk, hc⟩
    · rw [List.mem_singleton.mp hx]
      obtain ⟨ns, hns, rfl⟩ := hk
      refine .inr ⟨⟨p ++ ns, ?_, by rw [List.append_assoc]⟩, v, rfl⟩
      intro b hb
      rcases List.mem_append.mp hb with hb | hb
      · exact hp b hb
      · exact hns b hb
    · refine ih hc ?_ hx
      intro b hb
      rcases List.mem_append.mp hb with hb | hb
      · exact hp b hb
      · exact hk b hb
  | nil => exact .inl ⟨by rw [List.mem_singleton.mp hx]; exact hp, by rw [List.mem_singleton.mp hx]; trivial⟩
  | value v => exact absurd hT (by simp [Inner])

/-- The values the pre-order meets are the entries of the stored map. -/
theorem value_mem_preorder_iff (T : Tree) (p : Bytes) (q v : Bytes) :
    (q, .value v) ∈ T.preorder p ↔ ∃ r, q = p ++ r ∧ T.toMap r = some v := by
  induction T generalizing p q with
  | full cs ih =>
    simp only [preorder, List.mem_cons, Prod.mk.injEq, reduceCtorEq, and_false, false_or,
      mem_childrenOf, List.mem_finRange, true_and, toMap_full]
    constructor
    · rintro ⟨i, -, hi⟩
      obtain ⟨r, rfl, hr⟩ := (ih i _ _).mp hi
      refine ⟨slot i :: r, by simp, ?_⟩
      simp [PathMap.branch, childMaps, toNat_slot, hr]
    · rintro ⟨r, rfl, hr⟩
      cases r with
      | nil => simp [PathMap.branch] at hr
      | cons b r =>
        simp only [PathMap.branch, childMaps] at hr
        split at hr
        case isFalse => simp at hr
        case isTrue hb =>
          -- the first symbol picks the child slot
          have hslot : slot ⟨b.toNat, hb⟩ = b := by
            simp [slot, UInt8.ofNat_toNat]
          have hnil : (cs ⟨b.toNat, hb⟩).isNil = false := by
            cases hc : cs ⟨b.toNat, hb⟩ <;> simp_all [isNil]
          refine ⟨⟨b.toNat, hb⟩, hnil, (ih _ _ _).mpr ⟨r, ?_, hr⟩⟩
          rw [hslot]
          simp
  | short k c ih =>
    simp only [preorder, List.mem_cons, Prod.mk.injEq, reduceCtorEq, and_false, false_or,
      toMap_short]
    rw [ih]
    constructor
    · rintro ⟨r, rfl, hr⟩
      exact ⟨k ++ r, by simp, by rw [PathMap.shift_apply_append, hr]⟩
    · rintro ⟨r, rfl, hr⟩
      by_cases hk : k <+: r
      · obtain ⟨s, rfl⟩ := hk
        exact ⟨s, by simp, by rwa [PathMap.shift_apply_append] at hr⟩
      · rw [PathMap.shift_apply_outside hk] at hr
        cases hr
  | nil =>
    simp [preorder]
  | value w =>
    simp only [preorder, List.mem_singleton, Prod.mk.injEq, Tree.value.injEq, toMap_value]
    constructor
    · rintro ⟨rfl, rfl⟩
      exact ⟨[], by simp, rfl⟩
    · rintro ⟨r, rfl, hr⟩
      cases r with
      | nil => simpa [eq_comm] using hr
      | cons _ _ => simp at hr

end Tree

end Trie

end Bazacoin
