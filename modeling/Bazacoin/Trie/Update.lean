import Bazacoin.Trie.Iterator

/-!
# Updates refine the loaded tree (`trie/trie.go`)

`insert` and `delete` of `trie.go` work on nodes and load hash nodes from
the database on the way. `Tree.insert` and `Tree.delete` are the same
functions on the loaded tree. Wherever the node functions return, they
compute the tree functions through `Loads`: the new node loads to the
updated tree, and the change flag is the tree's (`insert_loads`,
`delete_loads`). With the tree-level results this gives the effect of
`TryUpdate` and `TryDelete` on the map a trie stores (`TryUpdate_loads`,
`TryDelete_loads`).
-/

set_option linter.dupNamespace false

namespace Bazacoin

namespace Trie

open Rlp

namespace Loads

variable {db : Bytes → Option Bytes} {gen : UInt16}

/-- A hash node loads to what its encoding decodes to. -/
theorem hash_inv {h : Bytes} {T : Tree} (hl : Loads db gen (.hash h) T) :
    ∃ enc n, db h = some enc ∧ decodeNode (some h) enc gen = .ok n ∧ Loads db gen n T := by
  cases hl with
  | hash hdb hdec hn => exact ⟨_, _, hdb, hdec, hn⟩

/-- A short or full node does not load to a value. -/
theorem not_value_of_isInner {n : Node} {v : Bytes} (hl : Loads db gen n (.value v))
    (hn : n.isInner = true) : False := by
  cases hl <;> simp [Node.isInner] at hn

/-- Only a value node loads to a value: a hash node loads to the tree of a
short or full node. -/
theorem eq_of_value {n : Node} {v : Bytes} (hl : Loads db gen n (.value v)) : n = .value v := by
  cases hl with
  | value => rfl
  | hash _ hdec hn => exact (hn.not_value_of_isInner (decodeNode_ok_isInner hdec)).elim

/-- Nil loads to nil. -/
theorem nil_tree {T : Tree} (hl : Loads db gen .nil T) : T = .nil := by
  cases hl
  rfl

/-- A value loads to itself. -/
theorem value_tree {v : Bytes} {T : Tree} (hl : Loads db gen (.value v) T) : T = .value v := by
  cases hl
  rfl

/-- Setting a child of loaded children loads to setting the child of the trees. -/
theorem setChild {cs : Fin 17 → Node} {Ts : Fin 17 → Tree} (hcs : ∀ i, Loads db gen (cs i) (Ts i))
    {c : Node} {T : Tree} (hc : Loads db gen c T) (b : UInt8) :
    ∀ i, Loads db gen (Trie.setChild cs b c i) (Tree.setChild Ts b T i) := by
  intro i
  unfold Trie.setChild Tree.setChild
  split
  · exact hc
  · exact hcs i

end Loads

namespace Tree

/-- Inserting at the end of the key replaces the tree, unless a value is
replaced by a value. -/
theorem insert_empty {T V : Tree} (h : ∀ w v, T = .value w → V ≠ .value v) : T.insert [] V = (true, V) := by
  cases T with
  | value w =>
    cases V with
    | value v => exact absurd rfl (h w v rfl)
    | _ => rfl
  | _ => rfl

/-- `insert` into nil builds the path to the node. -/
theorem insert_nil (key : Bytes) (V : Tree) : Tree.nil.insert key V = (true, leafAt key V) := by
  by_cases hk : key = []
  · subst hk
    rw [insert_empty (by simp), leafAt, if_pos rfl]
  · rw [insert_nil_cons key hk, leafAt, if_neg hk]

end Tree

/-- No hash node and no cached hash anywhere in the node: what `insert` and
`delete` build in memory. -/
def Node.Fresh : Node → Prop
  | .full cs f => f.hash = none ∧ ∀ i, (cs i).Fresh
  | .short _ c f => f.hash = none ∧ c.Fresh
  | .hash _ => False
  | .value _ => True
  | .nil => True

theorem Node.fresh_nil : Node.nil.Fresh := trivial

theorem Node.fresh_value (v : Bytes) : (Node.value v).Fresh := trivial

namespace Trie

variable (t : Trie)

/-- A child read that returns is of a slot below 17. -/
theorem child_eq_ok {ε : Type} {cs : Fin 17 → Node} {b : UInt8} {c : Node}
    (h : (child cs b : Outcome ε Node) = .ok c) : ∃ hb : b.toNat < 17, c = cs ⟨b.toNat, hb⟩ := by
  unfold child at h
  split at h
  · cases h
    exact ⟨‹_›, rfl⟩
  · cases h

/-- A hash node that loads resolves to the node its encoding decodes to. -/
theorem resolveHash_of_loads {h : Bytes} {T : Tree} (hl : Loads t.db t.cachegen (.hash h) T) (pfx : Bytes) :
    ∃ n, t.resolveHash h pfx = .ok n ∧ Loads t.db t.cachegen n T := by
  obtain ⟨enc, n, hdb, hdec, hn⟩ := hl.hash_inv
  refine ⟨n, ?_, hn⟩
  rw [resolveHash, hdb]
  simp only [hdec]

/-- `insert` with `fuel` refines `Tree.insert`: wherever it returns, the new
node loads to the tree `Tree.insert` makes, and the change flag is the
tree function's. -/
def InsertLoads (fuel : Nat) : Prop :=
  ∀ {n : Node} {T : Tree} {pfx key : Bytes} {value : Node} {V : Tree} {d : Bool} {n' : Node},
    Loads t.db t.cachegen n T → Loads t.db t.cachegen value V →
    t.insert fuel n pfx key value = .ok (d, n') →
    (T.insert key V).1 = d ∧ Loads t.db t.cachegen n' (T.insert key V).2

section InsertStep

variable {t} {fuel : Nat} (ih : t.InsertLoads fuel) {pfx key : Bytes} (hk : key ≠ []) {value : Node}
  {V : Tree} (hval : Loads t.db t.cachegen value V) {d : Bool} {n' : Node}
include ih hk hval

/-- A short node on the way to the key: the rest of the key goes into its
child, or the node is split into a branch where the keys part. -/
theorem insert_short_loads {k : Bytes} {c : Node} {f : NodeFlag} {T : Tree}
    (hload : Loads t.db t.cachegen (.short k c f) T)
    (h : t.insert (fuel + 1) (.short k c f) pfx key value = .ok (d, n')) :
    (T.insert key V).1 = d ∧ Loads t.db t.cachegen n' (T.insert key V).2 := by
  obtain ⟨Tc, rfl, hc⟩ := hload.short_inv
  rw [insert.eq_def] at h
  dsimp only at h
  rw [if_neg (by simpa using hk)] at h
  by_cases hm : prefixLen key k = k.length
  · -- the whole short key matches: insert into the child
    rw [if_pos hm] at h
    obtain ⟨⟨d', c'⟩, hins, heq⟩ := Outcome.map_eq_ok.mp h
    obtain ⟨hd', hc'⟩ := ih hc hval hins
    rw [Tree.insert_short_through Tc V hk hm, ← hm, hd']
    cases d'
    · simp only [Bool.false_eq_true, ↓reduceIte, Prod.mk.injEq] at heq
      obtain ⟨rfl, rfl⟩ := heq
      exact ⟨rfl, hload⟩
    · simp only [↓reduceIte, Prod.mk.injEq] at heq
      obtain ⟨rfl, rfl⟩ := heq
      exact ⟨rfl, .short hc'⟩
  · -- the keys part at `prefixLen key k`: a branch with both leaves
    rw [if_neg hm] at h
    split at h
    · rename_i kb b hkb hb
      obtain ⟨⟨x₁, c₁⟩, hins₁, h⟩ := Outcome.bind_eq_ok.mp h
      obtain ⟨_, h₂, h⟩ := Outcome.bind_eq_ok.mp h
      obtain ⟨⟨x₂, c₂⟩, hins₂, h⟩ := Outcome.bind_eq_ok.mp h
      obtain ⟨_, h₄, h⟩ := Outcome.bind_eq_ok.mp h
      obtain ⟨hkb17, -⟩ := child_eq_ok h₂
      obtain ⟨hb17, -⟩ := child_eq_ok h₄
      have hc₁ := (ih .nil hc hins₁).2
      have hc₂ := (ih .nil hval hins₂).2
      rw [Tree.insert_nil] at hc₁ hc₂
      have hbranch := Loads.setChild (Loads.setChild (fun _ => Loads.nil) hc₁ kb) hc₂ b
      rw [Tree.insert_short_split Tc V hk hm hkb hb ⟨hkb17, hb17⟩]
      split at h
      · cases h
        rw [if_pos ‹_›]
        exact ⟨rfl, .full hbranch⟩
      · cases h
        rw [if_neg ‹_›]
        exact ⟨rfl, .short (.full hbranch)⟩
    · cases h

/-- A full node: the rest of the key goes into the child its first nibble
selects. -/
theorem insert_full_loads {cs : Fin 17 → Node} {f : NodeFlag} {T : Tree}
    (hload : Loads t.db t.cachegen (.full cs f) T)
    (h : t.insert (fuel + 1) (.full cs f) pfx key value = .ok (d, n')) :
    (T.insert key V).1 = d ∧ Loads t.db t.cachegen n' (T.insert key V).2 := by
  obtain ⟨Ts, rfl, hcs⟩ := hload.full_inv
  obtain ⟨b, rest, rfl⟩ := List.exists_cons_of_ne_nil hk
  rw [insert.eq_def] at h
  dsimp only at h
  rw [if_neg (by simp)] at h
  simp only [List.getElem?_cons_zero, List.drop_succ_cons, List.drop_zero] at h
  obtain ⟨c, hchild, h⟩ := Outcome.bind_eq_ok.mp h
  obtain ⟨hb, rfl⟩ := child_eq_ok hchild
  obtain ⟨⟨d', c'⟩, hins, heq⟩ := Outcome.map_eq_ok.mp h
  obtain ⟨hd', hc'⟩ := ih (hcs _) hval hins
  rw [Tree.insert_full Ts hb rest V, hd']
  cases d'
  · simp only [Bool.false_eq_true, ↓reduceIte, Prod.mk.injEq] at heq
    obtain ⟨rfl, rfl⟩ := heq
    exact ⟨rfl, hload⟩
  · simp only [↓reduceIte, Prod.mk.injEq] at heq
    obtain ⟨rfl, rfl⟩ := heq
    exact ⟨rfl, .full (Loads.setChild hcs hc' b)⟩

/-- A hash node: the node is loaded and the key inserted into it; with no
change the loaded node takes its place. -/
theorem insert_hash_loads {hh : Bytes} {T : Tree} (hload : Loads t.db t.cachegen (.hash hh) T)
    (h : t.insert (fuel + 1) (.hash hh) pfx key value = .ok (d, n')) :
    (T.insert key V).1 = d ∧ Loads t.db t.cachegen n' (T.insert key V).2 := by
  obtain ⟨rn, hres, hrn⟩ := resolveHash_of_loads t hload pfx
  rw [insert.eq_def] at h
  dsimp only at h
  rw [if_neg (by simpa using hk), hres, Outcome.bind_ok] at h
  obtain ⟨⟨d', nn⟩, hins, heq⟩ := Outcome.map_eq_ok.mp h
  obtain ⟨hd', hnn⟩ := ih hrn hval hins
  cases d'
  · simp only [Bool.false_eq_true, ↓reduceIte, Prod.mk.injEq] at heq
    obtain ⟨rfl, rfl⟩ := heq
    rw [Tree.insert_unchanged hd']
    exact ⟨hd', hrn⟩
  · simp only [↓reduceIte, Prod.mk.injEq] at heq
    obtain ⟨rfl, rfl⟩ := heq
    exact ⟨hd', hnn⟩

end InsertStep

/-- **`insert` refines `Tree.insert`**: wherever it returns, the node
`insert` makes loads to the tree `Tree.insert` makes, and it reports a
change exactly when the tree function does. The induction is on the fuel,
following `insert`'s own recursion. -/
theorem insert_loads : ∀ fuel, t.InsertLoads fuel
  | 0, _, _, _, _, _, _, _, _, _, _, h => by rw [insert_zero] at h; cases h
  | fuel + 1, n, T, pfx, key, value, V, d, n', hload, hval, h => by
    by_cases hk : key.length = 0
    · -- the key has run out: the value replaces the node
      rw [insert.eq_def] at h
      dsimp only at h
      rw [if_pos hk] at h
      obtain rfl := List.eq_nil_of_length_eq_zero hk
      cases n with
      | value w =>
        obtain rfl : T = .value w := by cases hload; rfl
        cases value with
        | value v' =>
          obtain rfl : V = .value v' := by cases hval; rfl
          simp only [Outcome.ok.injEq, Prod.mk.injEq] at h
          obtain ⟨rfl, rfl⟩ := h
          rw [Tree.insert_value_nil]
          exact ⟨rfl, .value v'⟩
        | _ => cases h
      | _ =>
        -- any other node is replaced by the value
        simp only [Outcome.ok.injEq, Prod.mk.injEq] at h
        obtain ⟨rfl, rfl⟩ := h
        have hT : ∀ w v, T = .value w → V ≠ .value v := by
          rintro w v rfl
          exact absurd hload.eq_of_value (by simp)
        rw [Tree.insert_empty hT]
        exact ⟨rfl, hval⟩
    · have hk' : key ≠ [] := fun he => hk (by rw [he]; rfl)
      cases n with
      | short k c f => exact insert_short_loads (insert_loads fuel) hk' hval hload h
      | full cs f => exact insert_full_loads (insert_loads fuel) hk' hval hload h
      | hash hh => exact insert_hash_loads (insert_loads fuel) hk' hval hload h
      | nil =>
        -- a new short node with the whole key
        cases hload
        rw [insert.eq_def] at h
        dsimp only at h
        rw [if_neg hk] at h
        simp only [Outcome.ok.injEq, Prod.mk.injEq] at h
        obtain ⟨rfl, rfl⟩ := h
        rw [Tree.insert_nil_cons key hk' V]
        exact ⟨rfl, .short hval⟩
      | value w =>
        rw [insert.eq_def] at h
        dsimp only at h
        rw [if_neg hk] at h
        cases h

/-! ## `delete` -/

/-- `resolve` of a node that loads: a node that is not a hash node, loading
to the same tree. -/
theorem resolve_of_loads {n : Node} {T : Tree} (hl : Loads t.db t.cachegen n T) (pfx : Bytes) :
    ∃ rn, t.resolve n pfx = .ok rn ∧ Loads t.db t.cachegen rn T ∧ rn.isHash = false := by
  cases n with
  | hash hh =>
    obtain ⟨enc, rn, hdb, hdec, hrn⟩ := hl.hash_inv
    refine ⟨rn, ?_, hrn, ?_⟩
    · rw [resolve, resolveHash, hdb]
      simp only [hdec]
    · have hinner := decodeNode_ok_isInner hdec
      cases rn <;> simp_all [Node.isInner, Node.isHash]
  | _ => exact ⟨_, rfl, hl, rfl⟩

/-- Children that load have their only child where their trees do. -/
theorem onlyChild_of_loads {cs : Fin 17 → Node} {Ts : Fin 17 → Tree}
    (hcs : ∀ i, Loads t.db t.cachegen (cs i) (Ts i)) : onlyChild cs = Tree.onlyChild Ts := by
  -- both select by the nil test, which the children and their trees share
  have hf : (List.finRange 17).filter (fun i => !(cs i).isNil) =
      (List.finRange 17).filter (fun i => !(Ts i).isNil) := by
    simp only [fun i => (hcs i).isNil_eq]
  unfold onlyChild Tree.onlyChild
  -- the definitions test `matches .nil`, which is `isNil` unfolded
  erw [hf]
  rfl

/-- `delete` with `fuel` refines `Tree.delete`: wherever it returns, the new
node loads to the tree `Tree.delete` makes, the change flag is the tree
function's, and a changed node is never a hash node. -/
def DeleteLoads (fuel : Nat) : Prop :=
  ∀ {n : Node} {T : Tree} {pfx key : Bytes} {d : Bool} {n' : Node},
    Loads t.db t.cachegen n T → t.delete fuel n pfx key = .ok (d, n') →
    (T.delete key).1 = d ∧ Loads t.db t.cachegen n' (T.delete key).2 ∧ (d = true → n'.isHash = false)

section DeleteStep

variable {t} {fuel : Nat} (ih : t.DeleteLoads fuel) {pfx key : Bytes} {d : Bool} {n' : Node}
include ih

/-- A short node: a mismatch leaves it, a whole match removes it, and a
longer key deletes below it and merges a short child into it. -/
theorem delete_short_loads {k : Bytes} {c : Node} {f : NodeFlag} {T : Tree}
    (hload : Loads t.db t.cachegen (.short k c f) T)
    (h : t.delete (fuel + 1) (.short k c f) pfx key = .ok (d, n')) :
    (T.delete key).1 = d ∧ Loads t.db t.cachegen n' (T.delete key).2 ∧ (d = true → n'.isHash = false) := by
  obtain ⟨Tc, rfl, hc⟩ := hload.short_inv
  rw [delete.eq_def] at h
  dsimp only at h
  by_cases hlt : prefixLen key k < k.length
  · rw [if_pos hlt] at h
    cases h
    rw [Tree.delete_short_mismatch Tc hlt]
    exact ⟨rfl, hload, by simp⟩
  rw [if_neg hlt] at h
  by_cases hl : prefixLen key k = key.length
  · rw [if_pos hl] at h
    cases h
    rw [Tree.delete_short_whole Tc hlt hl]
    exact ⟨rfl, .nil, fun _ => rfl⟩
  rw [if_neg hl] at h
  -- the key goes on below the node
  obtain ⟨⟨d', c'⟩, hdel, heq⟩ := Outcome.map_eq_ok.mp h
  obtain ⟨hd', hc', hhash⟩ := ih hc hdel
  rw [Tree.delete_short_below Tc hlt hl, hd']
  cases d'
  · simp only [Bool.false_eq_true, ↓reduceIte, Prod.mk.injEq] at heq
    obtain ⟨rfl, rfl⟩ := heq
    exact ⟨rfl, hload, by simp⟩
  · simp only [↓reduceIte] at heq
    obtain rfl : d = true := by
      cases c' <;> (simp only [Prod.mk.injEq] at heq; exact heq.1.symm)
    refine ⟨rfl, ?_, ?_⟩
    · -- a short child is merged into the node, as `mergeShort` does on trees
      cases c' with
      | short ck cv cf =>
        obtain ⟨Tcv, hTc, hcv⟩ := hc'.short_inv
        cases heq
        rw [hTc]
        exact .short hcv
      | hash hh => exact absurd (hhash rfl) (by simp [Node.isHash])
      | nil =>
        cases heq
        rw [hc'.nil_tree]
        exact .short .nil
      | value v =>
        cases heq
        rw [hc'.value_tree]
        exact .short (.value v)
      | full ccs cf =>
        cases heq
        obtain ⟨Ts, hTs, hccs⟩ := hc'.full_inv
        rw [hTs]
        exact .short (.full hccs)
    · intro _
      cases c' <;> cases heq <;> rfl

/-- A full node: the rest of the key is deleted below the child its first
nibble selects, and a node left with one child becomes a short node. -/
theorem delete_full_loads {cs : Fin 17 → Node} {f : NodeFlag} {T : Tree}
    (hload : Loads t.db t.cachegen (.full cs f) T)
    (h : t.delete (fuel + 1) (.full cs f) pfx key = .ok (d, n')) :
    (T.delete key).1 = d ∧ Loads t.db t.cachegen n' (T.delete key).2 ∧ (d = true → n'.isHash = false) := by
  obtain ⟨Ts, rfl, hcs⟩ := hload.full_inv
  rw [delete.eq_def] at h
  dsimp only at h
  cases key with
  | nil => cases h
  | cons b rest =>
    simp only [List.getElem?_cons_zero, List.drop_succ_cons, List.drop_zero] at h
    obtain ⟨c, hchild, h⟩ := Outcome.bind_eq_ok.mp h
    obtain ⟨hb, rfl⟩ := child_eq_ok hchild
    obtain ⟨⟨d', nn⟩, hdel, h⟩ := Outcome.bind_eq_ok.mp h
    obtain ⟨hd', hnn, -⟩ := ih (hcs _) hdel
    rw [Tree.delete_full Ts hb rest, hd']
    cases d'
    · simp only [Bool.not_false, ↓reduceIte, Outcome.ok.injEq, Prod.mk.injEq] at h
      obtain ⟨rfl, rfl⟩ := h
      exact ⟨rfl, hload, by simp⟩
    · have hset := Loads.setChild hcs hnn b
      simp only [Bool.not_true, Bool.false_eq_true, ↓reduceIte] at h
      simp only [↓reduceIte, Tree.reduceFull, ← onlyChild_of_loads t hset]
      generalize Tree.setChild Ts b ((Ts ⟨b.toNat, hb⟩).delete rest).2 = Ts' at hset ⊢
      generalize setChild cs b nn = cs' at hset h ⊢
      cases honly : onlyChild cs' with
      | none =>
        rw [honly] at h
        cases h
        exact ⟨rfl, .full hset, fun _ => rfl⟩
      | some pos =>
        rw [honly] at h
        simp only at h ⊢
        by_cases h16 : (pos : Nat) ≠ 16
        · -- the only child is resolved to see whether it is a short node to merge
          rw [if_pos h16] at h ⊢
          obtain ⟨rn, hres, hrn, hrnh⟩ := resolve_of_loads t (hset pos) pfx
          rw [hres, Outcome.map_ok] at h
          cases rn with
          | short ck cv cf =>
            obtain ⟨Tcv, hT, hcv⟩ := hrn.short_inv
            rw [hT]
            cases h
            exact ⟨rfl, .short hcv, fun _ => rfl⟩
          | hash _ => simp [Node.isHash] at hrnh
          | nil =>
            have hT := hrn.nil_tree
            rw [hT]
            cases h
            exact ⟨rfl, .short (hT ▸ hset pos), fun _ => rfl⟩
          | value v =>
            have hT := hrn.value_tree
            rw [hT]
            cases h
            exact ⟨rfl, .short (hT ▸ hset pos), fun _ => rfl⟩
          | full ccs cf =>
            obtain ⟨Ts'', hT, -⟩ := hrn.full_inv
            rw [hT]
            cases h
            exact ⟨rfl, .short (hT ▸ hset pos), fun _ => rfl⟩
        · -- the value slot is left: a short node with the terminator
          rw [if_neg h16] at h ⊢
          cases h
          exact ⟨rfl, .short (hset pos), fun _ => rfl⟩

/-- A hash node: the node is loaded and the key deleted from it; with no
change the loaded node takes its place. -/
theorem delete_hash_loads {hh : Bytes} {T : Tree} (hload : Loads t.db t.cachegen (.hash hh) T)
    (h : t.delete (fuel + 1) (.hash hh) pfx key = .ok (d, n')) :
    (T.delete key).1 = d ∧ Loads t.db t.cachegen n' (T.delete key).2 ∧ (d = true → n'.isHash = false) := by
  obtain ⟨rn, hres, hrn⟩ := resolveHash_of_loads t hload pfx
  rw [delete.eq_def] at h
  dsimp only at h
  rw [hres, Outcome.bind_ok] at h
  obtain ⟨⟨d', nn⟩, hdel, heq⟩ := Outcome.map_eq_ok.mp h
  obtain ⟨hd', hnn, hhash⟩ := ih hrn hdel
  cases d'
  · simp only [Bool.false_eq_true, ↓reduceIte, Prod.mk.injEq] at heq
    obtain ⟨rfl, rfl⟩ := heq
    rw [Tree.delete_unchanged hd']
    exact ⟨hd', hrn, by simp⟩
  · simp only [↓reduceIte, Prod.mk.injEq] at heq
    obtain ⟨rfl, rfl⟩ := heq
    exact ⟨hd', hnn, hhash⟩

end DeleteStep

/-- **`delete` refines `Tree.delete`**: wherever it returns, the node
`delete` makes loads to the tree `Tree.delete` makes, and it reports a
change exactly when the tree function does. The induction is on the fuel,
following `delete`'s own recursion. -/
theorem delete_loads : ∀ fuel, t.DeleteLoads fuel
  | 0, _, _, _, _, _, _, _, h => by rw [delete_zero] at h; cases h
  | fuel + 1, n, T, pfx, key, d, n', hload, h => by
    cases n with
    | short k c f => exact delete_short_loads (delete_loads fuel) hload h
    | full cs f => exact delete_full_loads (delete_loads fuel) hload h
    | hash hh => exact delete_hash_loads (delete_loads fuel) hload h
    | value w =>
      -- the value at the end of the key is removed
      rw [delete.eq_def] at h
      cases h
      rw [hload.value_tree]
      exact ⟨rfl, .nil, fun _ => rfl⟩
    | nil =>
      rw [delete.eq_def] at h
      cases h
      rw [hload.nil_tree]
      exact ⟨rfl, .nil, fun _ => rfl⟩

/-! ## The map a trie stores after an update -/

/-- **`TryUpdate` sets one key of the stored map**: on a trie that loads to
a tree of the shape `Inner`, wherever `TryUpdate` returns, the new trie loads
to a tree of that shape whose map is the old one with the key's hex path set
to the value, or cleared for an empty value. -/
theorem TryUpdate_loads {T : Tree} (hload : Loads t.db t.cachegen t.root T) (hT : T.Inner)
    {fuel : Nat} {key value : Bytes} {t' : Trie} (h : t.TryUpdate fuel key value = .ok t') :
    t'.db = t.db ∧ t'.cachegen = t.cachegen ∧ ∃ T', Loads t'.db t'.cachegen t'.root T' ∧ T'.Inner ∧
      T'.toMap = Function.update T.toMap (keybytesToHex key) (if value = [] then none else some value) := by
  unfold TryUpdate at h
  split_ifs at h with hv
  · -- a non-empty value is inserted
    obtain ⟨⟨d, n⟩, hins, rfl⟩ := Outcome.map_eq_ok.mp h
    have hne : value ≠ [] := fun he => hv (by rw [he]; rfl)
    obtain ⟨hI, hmap⟩ := Tree.insert_inner T hT (hexPath_keybytesToHex key) hne
    refine ⟨rfl, rfl, _, (insert_loads t fuel hload (.value value) hins).2, hI, ?_⟩
    rw [hmap, if_neg hne]
  · -- an empty one deletes
    obtain ⟨⟨d, n⟩, hdel, rfl⟩ := Outcome.map_eq_ok.mp h
    have he : value = [] := List.eq_nil_of_length_eq_zero (by simpa using hv)
    obtain ⟨hI, hmap⟩ := Tree.delete_inner T hT (hexPath_keybytesToHex key)
    refine ⟨rfl, rfl, _, (delete_loads t fuel hload hdel).2.1, hI, ?_⟩
    rw [hmap, if_pos he]

/-- **`TryDelete` clears one key of the stored map.** -/
theorem TryDelete_loads {T : Tree} (hload : Loads t.db t.cachegen t.root T) (hT : T.Inner)
    {fuel : Nat} {key : Bytes} {t' : Trie} (h : t.TryDelete fuel key = .ok t') :
    t'.db = t.db ∧ t'.cachegen = t.cachegen ∧ ∃ T', Loads t'.db t'.cachegen t'.root T' ∧ T'.Inner ∧
      T'.toMap = Function.update T.toMap (keybytesToHex key) none := by
  unfold TryDelete at h
  obtain ⟨⟨d, n⟩, hdel, rfl⟩ := Outcome.map_eq_ok.mp h
  obtain ⟨hI, hmap⟩ := Tree.delete_inner T hT (hexPath_keybytesToHex key)
  exact ⟨rfl, rfl, _, (delete_loads t fuel hload hdel).2.1, hI, hmap⟩

/-! ## Tries built in memory

A trie that starts empty and is only updated has no hash nodes, and every
node `insert` and `delete` build carries `newFlag`, with no hash cached. -/

/-- Children with a fresh child set in their place stay fresh. -/
theorem fresh_setChild {cs : Fin 17 → Node} (hcs : ∀ i, (cs i).Fresh) {c : Node} (hc : c.Fresh) (b : UInt8) :
    ∀ i, (setChild cs b c i).Fresh := by
  intro i
  unfold setChild
  split
  · exact hc
  · exact hcs i

/-- `insert` of a fresh value into a fresh node builds a fresh node. The
induction is on the fuel, with one case for each kind of node. -/
theorem insert_fresh : ∀ (fuel : Nat) {n : Node} {pfx key : Bytes} {value : Node} {d : Bool} {n' : Node},
    n.Fresh → value.Fresh → t.insert fuel n pfx key value = .ok (d, n') → n'.Fresh
  | 0, _, _, _, _, _, _, _, _, h => by rw [insert_zero] at h; cases h
  | fuel + 1, n, pfx, key, value, d, n', hn, hval, h => by
    rw [insert.eq_def] at h
    dsimp only at h
    by_cases hk : key.length = 0
    · -- the value replaces the node
      rw [if_pos hk] at h
      split at h <;> cases h <;> exact hval
    rw [if_neg hk] at h
    cases n with
    | short k c f =>
      dsimp only at h
      by_cases hm : prefixLen key k = k.length
      · rw [if_pos hm] at h
        obtain ⟨⟨d', nn⟩, hins, heq⟩ := Outcome.map_eq_ok.mp h
        have hnn := insert_fresh fuel hn.2 hval hins
        cases d' <;> simp only [Bool.false_eq_true, ↓reduceIte, Prod.mk.injEq] at heq <;>
          obtain ⟨rfl, rfl⟩ := heq
        · exact hn
        · exact ⟨rfl, hnn⟩
      · rw [if_neg hm] at h
        split at h
        · rename_i kb b _ _
          obtain ⟨⟨x₁, c₁⟩, hins₁, h⟩ := Outcome.bind_eq_ok.mp h
          obtain ⟨_, -, h⟩ := Outcome.bind_eq_ok.mp h
          obtain ⟨⟨x₂, c₂⟩, hins₂, h⟩ := Outcome.bind_eq_ok.mp h
          obtain ⟨_, -, h⟩ := Outcome.bind_eq_ok.mp h
          have hbranch := fresh_setChild (fresh_setChild (fun _ => Node.fresh_nil)
            (insert_fresh fuel Node.fresh_nil hn.2 hins₁) kb) (insert_fresh fuel Node.fresh_nil hval hins₂) b
          split at h <;> cases h
          · exact ⟨rfl, hbranch⟩
          · exact ⟨rfl, rfl, hbranch⟩
        · cases h
    | full cs f =>
      have hne : key ≠ [] := fun he => hk (by rw [he]; rfl)
      obtain ⟨b, rest, rfl⟩ := List.exists_cons_of_ne_nil hne
      simp only [List.getElem?_cons_zero] at h
      obtain ⟨c, hchild, h⟩ := Outcome.bind_eq_ok.mp h
      obtain ⟨hb, rfl⟩ := child_eq_ok hchild
      obtain ⟨⟨d', nn⟩, hins, heq⟩ := Outcome.map_eq_ok.mp h
      have hnn := insert_fresh fuel (hn.2 _) hval hins
      cases d' <;> simp only [Bool.false_eq_true, ↓reduceIte, Prod.mk.injEq] at heq <;>
        obtain ⟨rfl, rfl⟩ := heq
      · exact hn
      · exact ⟨rfl, fresh_setChild hn.2 hnn b⟩
    | nil =>
      cases h
      exact ⟨rfl, hval⟩
    | hash _ => exact hn.elim
    | value _ => cases h

/-- `delete` in a fresh node builds a fresh node. -/
theorem delete_fresh : ∀ (fuel : Nat) {n : Node} {pfx key : Bytes} {d : Bool} {n' : Node},
    n.Fresh → t.delete fuel n pfx key = .ok (d, n') → n'.Fresh
  | 0, _, _, _, _, _, _, h => by rw [delete_zero] at h; cases h
  | fuel + 1, n, pfx, key, d, n', hn, h => by
    rw [delete.eq_def] at h
    dsimp only at h
    cases n with
    | short k c f =>
      dsimp only at h
      by_cases hlt : prefixLen key k < k.length
      · rw [if_pos hlt] at h
        cases h
        exact hn
      rw [if_neg hlt] at h
      by_cases hl : prefixLen key k = key.length
      · rw [if_pos hl] at h
        cases h
        exact Node.fresh_nil
      rw [if_neg hl] at h
      obtain ⟨⟨d', c'⟩, hdel, heq⟩ := Outcome.map_eq_ok.mp h
      have hc' := delete_fresh fuel hn.2 hdel
      cases d'
      · simp only [Bool.false_eq_true, ↓reduceIte, Prod.mk.injEq] at heq
        obtain ⟨rfl, rfl⟩ := heq
        exact hn
      · -- a merged short child keeps its fresh child
        simp only [↓reduceIte] at heq
        split at heq <;> cases heq
        · exact ⟨rfl, hc'.2⟩
        · exact ⟨rfl, hc'⟩
    | full cs f =>
      cases key with
      | nil => cases h
      | cons b rest =>
        simp only [List.getElem?_cons_zero, List.drop_succ_cons, List.drop_zero] at h
        obtain ⟨c, hchild, h⟩ := Outcome.bind_eq_ok.mp h
        obtain ⟨hb, rfl⟩ := child_eq_ok hchild
        obtain ⟨⟨d', nn⟩, hdel, h⟩ := Outcome.bind_eq_ok.mp h
        have hset := fresh_setChild hn.2 (delete_fresh fuel (hn.2 _) hdel) b
        cases d'
        · cases h
          exact hn
        simp only [Bool.not_true, Bool.false_eq_true, ↓reduceIte] at h
        generalize setChild cs b nn = cs' at hset h
        cases honly : onlyChild cs' with
        | none =>
          rw [honly] at h
          cases h
          exact ⟨rfl, hset⟩
        | some pos =>
          rw [honly] at h
          simp only at h
          by_cases h16 : (pos : Nat) ≠ 16
          · -- a fresh node resolves to itself
            rw [if_pos h16] at h
            have hpos := hset pos
            have hres : t.resolve (cs' pos) pfx = .ok (cs' pos) := by
              revert hpos
              cases cs' pos <;> first | (intro hpos; exact hpos.elim) | (intro; rfl)
            rw [hres, Outcome.map_ok] at h
            split at h
            · next _ ck cv flags heq =>
              cases h
              rw [heq] at hpos
              exact ⟨rfl, hpos.2⟩
            · cases h
              exact ⟨rfl, hpos⟩
          · rw [if_neg h16] at h
            cases h
            exact ⟨rfl, hset pos⟩
    | value _ =>
      cases h
      exact Node.fresh_nil
    | nil =>
      cases h
      exact Node.fresh_nil
    | hash _ => exact hn.elim

/-- A trie built from an empty one by updates and deletions. -/
inductive Built : Trie → Prop
  | empty {t : Trie} : t.root = .nil → Built t
  | update {t t' : Trie} {fuel : Nat} {key value : Bytes} :
      Built t → t.TryUpdate fuel key value = .ok t' → Built t'
  | delete {t t' : Trie} {fuel : Nat} {key : Bytes} :
      Built t → t.TryDelete fuel key = .ok t' → Built t'

/-- **A built trie stays in shape**: its root is fresh and loads to a tree
of the shape `Inner`. The induction is on the updates that built it. -/
theorem Built.inner {t : Trie} (hb : Built t) :
    t.root.Fresh ∧ ∃ T, Loads t.db t.cachegen t.root T ∧ T.Inner := by
  induction hb with
  | empty hroot =>
    rw [hroot]
    exact ⟨Node.fresh_nil, .nil, .nil, trivial⟩
  | @update t t' fuel key value _ h ih =>
    obtain ⟨hfresh, T, hload, hT⟩ := ih
    refine ⟨?_, (TryUpdate_loads t hload hT h).2.2.imp fun T' h' => ⟨h'.1, h'.2.1⟩⟩
    unfold TryUpdate at h
    split_ifs at h <;> obtain ⟨⟨d, n⟩, hupd, rfl⟩ := Outcome.map_eq_ok.mp h
    · exact insert_fresh t fuel hfresh (Node.fresh_value value) hupd
    · exact delete_fresh t fuel hfresh hupd
  | @delete t t' fuel key _ h ih =>
    obtain ⟨hfresh, T, hload, hT⟩ := ih
    refine ⟨?_, (TryDelete_loads t hload hT h).2.2.imp fun T' h' => ⟨h'.1, h'.2.1⟩⟩
    unfold TryDelete at h
    obtain ⟨⟨d, n⟩, hdel, rfl⟩ := Outcome.map_eq_ok.mp h
    exact delete_fresh t fuel hfresh hdel

end Trie

end Trie

end Bazacoin
