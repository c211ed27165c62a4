import Bazacoin.Trie.Update
import Bazacoin.Lib.Refine

/-!
# The trie answers as a finite map (`trie/trie.go`)

`TryUpdate_loads` and `TryDelete_loads` say what a trie stores after a call that
returned. This module adds that the calls return, and that `TryGet` reads what
is stored, so that a trie can not be told apart from a map from keys to values
by the answers of its calls.

A walk down a tree of the shape `Inner` along the rest of a hex path stands
at an inner node with a hex path ahead, or at a leaf with the path used up
(`Tree.Ahead`). Where the walk goes on from a short or a full node, it goes on
in that form (`Ahead.short`, `Ahead.full`).

- `tryGet_reads`: on a node that loads to a tree, `tryGet` returns the tree's
  value at the rest of the key, and a node that loads to the same tree.
- `insert_returns`, `delete_returns`: `insert` and `delete` return.

Each needs stack for the nodes on the key's way: twice the length of the rest
of the key, and one more for a node, two for a hash node (which loads to a
node that is not one). For a whole key this is `4 * len(key) + 4` calls.

`calls_answer_as_map` puts them together: from a trie that loads to a tree of
the shape `Inner`, over every sequence of `TryUpdate`, `TryDelete`, `TryGet`
and `Hash` calls (the steps `opUpdate`, `opDelete`, `opGet` and `opHash` of
`runRandTest`), every call returns and every `TryGet` answers what a map
updated by the same calls holds at its key.
-/

set_option linter.dupNamespace false

namespace Bazacoin

namespace Trie

open PathMap

namespace Tree

/-- Where a walk down a tree stands on the rest of its path: at an inner node
with a hex path still ahead, or at a leaf with the path used up. -/
def Ahead (T : Tree) (p : Bytes) : Prop := (T.Inner ∧ HexPath p) ∨ (T.Leaf ∧ p = [])

/-- A value is reached only where the path has ended. -/
theorem Ahead.value_nil {v p : Bytes} (h : (Tree.value v).Ahead p) : p = [] := by
  rcases h with ⟨h, -⟩ | ⟨-, h⟩
  · exact h.elim
  · exact h

/-- Below a short node whose key starts the path, the walk goes on with the
rest of the path; the key is not empty. -/
theorem Ahead.short {k p : Bytes} {c : Tree} (h : (Tree.short k c).Ahead p) (hk : k <+: p) :
    k ≠ [] ∧ c.Ahead (p.drop k.length) := by
  rcases h with ⟨hT, hp⟩ | ⟨hT, -⟩
  · rcases hT with ⟨hkp, v, hv, rfl⟩ | ⟨hk0, hkn, hc⟩
    · -- the key is the whole path, and a value ends it
      obtain rfl := hkp.prefix_eq hp hk
      exact ⟨hkp.ne_nil, .inr ⟨hv, by simp⟩⟩
    · exact ⟨hk0, .inl ⟨hc, hp.prefix_drop hkn hk⟩⟩
  · exact hT.elim

/-- Below a full node the walk goes on in the child that the next symbol
selects. -/
theorem Ahead.full {cs : Fin 17 → Tree} {p : Bytes} (h : (Tree.full cs).Ahead p) :
    ∃ b rest, p = b :: rest ∧ ∃ hb : b.toNat < 17, (cs ⟨b.toNat, hb⟩).Ahead rest := by
  rcases h with ⟨hT, hp⟩ | ⟨hT, -⟩
  · obtain ⟨b, rest, rfl⟩ := List.exists_cons_of_ne_nil hp.ne_nil
    have hb17 : b.toNat < 17 := hp.toNat_lt (by simp)
    have hd := hp.drop_succ (m := 0) (b := b) rfl
    simp only [zero_add, List.drop_one, List.tail_cons] at hd
    refine ⟨b, rest, rfl, hb17, ?_⟩
    by_cases hb : b < 16
    · -- a nibble: an inner child with the rest of the hex path
      have hb16 : b.toNat < 16 := by simpa using UInt8.lt_iff_toNat_lt.mp hb
      exact .inl ⟨hT.1 _ hb16, hd.1 hb⟩
    · -- the terminator: the value slot, with the path used up
      have hb16 : b.toNat = 16 := by
        have := UInt8.lt_iff_toNat_lt.not.mp hb
        simp only [UInt8.toNat_ofNat] at this
        omega
      have h16 : (⟨b.toNat, hb17⟩ : Fin 17) = 16 := Fin.ext (by simp [hb16])
      rw [h16]
      exact .inr ⟨hT.2, hd.2 hb⟩
  · exact hT.elim

/-- Where a hex path leaves the key of an inner short node, both go on, with
symbols below 17. -/
theorem Ahead.short_split {k key : Bytes} {c : Tree} (h : (Tree.short k c).Ahead key)
    (hm : prefixLen key k ≠ k.length) :
    ∃ kb b, k[prefixLen key k]? = some kb ∧ key[prefixLen key k]? = some b ∧
      kb.toNat < 17 ∧ b.toNat < 17 := by
  rcases h with ⟨hT, hkey⟩ | ⟨hT, -⟩
  · have hmk : prefixLen key k < k.length := lt_of_le_of_ne (prefixLen_le_length key k) hm
    have hmkey : prefixLen key k < key.length := by
      refine lt_of_le_of_ne (prefixLen_le_left key k) fun heq => ?_
      -- otherwise the hex path would be a prefix of the short key
      have hkk : key <+: k := by
        have := take_prefixLen key k
        rw [heq, List.take_length] at this
        exact this ▸ List.take_prefix _ _
      rcases hT with ⟨hk, -⟩ | ⟨-, hk, -⟩
      · exact hm (heq.trans (congrArg List.length (HexPath.prefix_eq hkey hk hkk)))
      · exact hkey.not_prefix_nibbles hk hkk
    have hkb : k[prefixLen key k]? = some k[prefixLen key k] := List.getElem?_eq_getElem hmk
    have hb : key[prefixLen key k]? = some key[prefixLen key k] := List.getElem?_eq_getElem hmkey
    refine ⟨_, _, hkb, hb, ?_, hkey.toNat_lt (List.mem_of_getElem? hb)⟩
    rcases hT with ⟨hk, -⟩ | ⟨-, hk, -⟩
    · exact hk.toNat_lt (List.mem_of_getElem? hkb)
    · have := UInt8.lt_iff_toNat_lt.mp (hk _ (List.mem_of_getElem? hkb))
      simp only [UInt8.toNat_ofNat] at this
      omega
  · exact hT.elim

/-- Setting a child to itself changes nothing. -/
theorem setChild_self (cs : Fin 17 → Tree) {b : UInt8} (hb : b.toNat < 17) :
    setChild cs b (cs ⟨b.toNat, hb⟩) = cs := by
  funext i
  unfold setChild
  split
  · rename_i hi
    exact congrArg cs (Fin.ext hi.symm)
  · rfl

end Tree

/-- `tryGet`'s test for a short node: its key does not start the rest of the
key. -/
theorem short_miss_iff {k p : Bytes} : (p.length < k.length ∨ k ≠ p.take k.length) ↔ ¬ k <+: p := by
  rw [List.prefix_iff_eq_take]
  constructor
  · rintro (hlen | hne) he
    · have := congrArg List.length he
      simp only [List.length_take] at this
      omega
    · exact hne he
  · exact Or.inr

theorem length_keybytesToHex (k : Bytes) : (keybytesToHex k).length = 2 * k.length + 1 := by
  obtain ⟨ns, -, hns⟩ := keybytesToHex_eq k
  have hd := length_dropLast_keybytesToHex k
  rw [hns, List.dropLast_concat] at hd
  rw [hns, List.length_append, hd, List.length_singleton]

namespace Trie

variable (t : Trie)

/-! ## `tryGet` reads the stored map -/

/-- `tryGet` with `fuel` reads the map of the tree below a node: given stack
for the nodes on the key's way, it returns the tree's value at the rest of the
key and a node that loads to the same tree. -/
def GetReads (fuel : Nat) : Prop :=
  ∀ {n : Node} {T : Tree} {key : Bytes} {pos : Nat}, Loads t.db t.cachegen n T →
    T.Ahead (key.drop pos) → 2 * (key.length - pos) + (if n.isHash then 2 else 1) ≤ fuel →
    ∃ n' d, t.tryGet fuel n key pos = .ok (T.toMap (key.drop pos), n', d) ∧ Loads t.db t.cachegen n' T

section GetStep

variable {t} {fuel : Nat} (ih : t.GetReads fuel) {key : Bytes} {pos : Nat}
include ih

/-- A short node: a key that does not start the rest of the key answers
nothing, one that does is read through. -/
theorem tryGet_short_reads {k : Bytes} {c : Node} {f : NodeFlag} {T : Tree}
    (hload : Loads t.db t.cachegen (.short k c f) T) (hT : T.Ahead (key.drop pos))
    (hfuel : 2 * (key.length - pos) + 1 ≤ fuel + 1) :
    ∃ n' d, t.tryGet (fuel + 1) (.short k c f) key pos = .ok (T.toMap (key.drop pos), n', d) ∧
      Loads t.db t.cachegen n' T := by
  obtain ⟨Tc, rfl, hc⟩ := hload.short_inv
  rw [tryGet, ← List.length_drop]
  by_cases hk : k <+: key.drop pos
  · -- the short key starts the rest of the key: read on below it
    rw [if_neg (short_miss_iff.not.mpr (not_not.mpr hk))]
    obtain ⟨hk0, hTc⟩ := hT.short hk
    have hdrop : key.drop (pos + k.length) = (key.drop pos).drop k.length := by
      rw [List.drop_drop]
    have hlen : k.length ≤ key.length - pos := by simpa using hk.length_le
    have hk1 : 0 < k.length := List.length_pos_of_ne_nil hk0
    obtain ⟨n', d, hget, hn'⟩ := ih hc (hdrop ▸ hTc) (by split <;> omega)
    have hval : Tc.toMap (key.drop (pos + k.length)) = (Tree.short k Tc).toMap (key.drop pos) := by
      obtain ⟨r, hr⟩ := hk
      rw [hdrop, ← hr, Tree.toMap_short, shift_apply_append, List.drop_left]
    rw [hget, Outcome.map_ok, hval]
    cases d
    · exact ⟨_, _, rfl, hload⟩
    · exact ⟨_, _, rfl, .short hn'⟩
  · -- key not found in trie
    rw [if_pos (short_miss_iff.mpr hk)]
    exact ⟨_, _, by rw [Tree.toMap_short, shift_apply_outside hk], hload⟩

/-- A full node: the next symbol of the key selects the child read through. -/
theorem tryGet_full_reads {cs : Fin 17 → Node} {f : NodeFlag} {T : Tree}
    (hload : Loads t.db t.cachegen (.full cs f) T) (hT : T.Ahead (key.drop pos))
    (hfuel : 2 * (key.length - pos) + 1 ≤ fuel + 1) :
    ∃ n' d, t.tryGet (fuel + 1) (.full cs f) key pos = .ok (T.toMap (key.drop pos), n', d) ∧
      Loads t.db t.cachegen n' T := by
  obtain ⟨Ts, rfl, hcs⟩ := hload.full_inv
  obtain ⟨b, rest, hp, hb, hTb⟩ := hT.full
  have hkey : key[pos]? = some b := by
    have := congrArg (·[0]?) hp
    simpa [List.getElem?_drop] using this
  have hrest : key.drop (pos + 1) = rest := by
    rw [← List.drop_drop, hp, List.drop_one, List.tail_cons]
  have hlen : rest.length + 1 = key.length - pos := by
    rw [← List.length_drop, hp, List.length_cons]
  obtain ⟨n', d, hget, hn'⟩ := ih (hcs _) (hrest ▸ hTb) (by split <;> omega)
  have hval : (Ts ⟨b.toNat, hb⟩).toMap (key.drop (pos + 1)) = (Tree.full Ts).toMap (key.drop pos) := by
    rw [hrest, hp, Tree.toMap_full, branch_cons, Tree.childMaps_apply Ts hb]
  rw [tryGet, hkey]
  simp only [child, dif_pos hb, Outcome.bind_ok]
  rw [hget, Outcome.map_ok, hval]
  cases d
  · exact ⟨_, _, rfl, hload⟩
  · refine ⟨_, _, rfl, .full ?_⟩
    -- the child read through is put back in its own place
    have hset := Loads.setChild hcs hn' b
    rwa [Tree.setChild_self Ts hb] at hset

/-- A hash node: the node is loaded and read; it takes the hash node's place. -/
theorem tryGet_hash_reads {hh : Bytes} {T : Tree} (hload : Loads t.db t.cachegen (.hash hh) T)
    (hT : T.Ahead (key.drop pos)) (hfuel : 2 * (key.length - pos) + 2 ≤ fuel + 1) :
    ∃ n' d, t.tryGet (fuel + 1) (.hash hh) key pos = .ok (T.toMap (key.drop pos), n', d) ∧
      Loads t.db t.cachegen n' T := by
  obtain ⟨rn, hres, hrn, hrnh⟩ := resolve_of_loads t hload (key.take pos)
  rw [resolve] at hres
  obtain ⟨n', d, hget, hn'⟩ := ih hrn hT (by rw [hrnh]; simpa using hfuel)
  rw [tryGet, hres, Outcome.bind_ok, hget, Outcome.map_ok]
  exact ⟨_, _, rfl, hn'⟩

end GetStep

/-- **`tryGet` reads the stored map**: on a node that loads to a tree where the
rest of the key fits, with stack for the nodes on the way, it returns the
tree's value at the rest of the key, and a node that loads to the same tree.
The induction is on the fuel, following `tryGet`'s own recursion. -/
theorem tryGet_reads : ∀ fuel, t.GetReads fuel
  | 0, _, _, _, _, _, _, hfuel => by split at hfuel <;> omega
  | fuel + 1, n, T, key, pos, hload, hT, hfuel => by
    cases n with
    | short k c f => exact tryGet_short_reads (tryGet_reads fuel) hload hT (by simpa [Node.isHash] using hfuel)
    | full cs f => exact tryGet_full_reads (tryGet_reads fuel) hload hT (by simpa [Node.isHash] using hfuel)
    | hash hh => exact tryGet_hash_reads (tryGet_reads fuel) hload hT (by simpa [Node.isHash] using hfuel)
    | nil =>
      rw [hload.nil_tree]
      exact ⟨.nil, false, rfl, .nil⟩
    | value v =>
      -- a value ends the path
      obtain rfl := hload.value_tree
      rw [hT.value_nil]
      exact ⟨.value v, false, rfl, .value v⟩

/-! ## `insert` and `delete` return -/

/-- Into nil, `insert` makes a node at once. -/
theorem insert_nil_returns {fuel : Nat} (hfuel : 0 < fuel) (pfx key : Bytes) (value : Node) :
    ∃ r, t.insert fuel .nil pfx key value = .ok r := by
  cases fuel with
  | zero => omega
  | succ fuel =>
    rw [insert.eq_def]
    dsimp only
    split_ifs
    · exact ⟨_, rfl⟩
    · exact ⟨_, rfl⟩

/-- `insert` with `fuel` returns on a node that loads to a tree where the key
fits, given stack for the nodes on the key's way. -/
def InsertReturns (fuel : Nat) : Prop :=
  ∀ {n : Node} {T : Tree} {pfx key v : Bytes}, Loads t.db t.cachegen n T → T.Ahead key →
    2 * key.length + (if n.isHash then 2 else 1) ≤ fuel →
    ∃ r, t.insert fuel n pfx key (.value v) = .ok r

section InsertStep

variable {t} {fuel : Nat} (ih : t.InsertReturns fuel) {pfx key v : Bytes} (hk : key ≠ [])
include ih hk

/-- A short node: the key goes on into its child, or the node splits into a
branch whose two leaves are made in nil. -/
theorem insert_short_returns {k : Bytes} {c : Node} {f : NodeFlag} {T : Tree}
    (hload : Loads t.db t.cachegen (.short k c f) T) (hT : T.Ahead key)
    (hfuel : 2 * key.length + 1 ≤ fuel + 1) :
    ∃ r, t.insert (fuel + 1) (.short k c f) pfx key (.value v) = .ok r := by
  obtain ⟨Tc, rfl, hc⟩ := hload.short_inv
  rw [insert.eq_def]
  dsimp only
  rw [if_neg (by simpa using hk)]
  by_cases hm : prefixLen key k = k.length
  · -- the whole short key matches: insert into the child
    rw [if_pos hm]
    have hpre := prefixLen_eq_length_iff.mp hm
    obtain ⟨hk0, hTc⟩ := hT.short hpre
    have hlen : k.length ≤ key.length := hpre.length_le
    have hk1 : 0 < k.length := List.length_pos_of_ne_nil hk0
    obtain ⟨r, hr⟩ := ih hc (hm ▸ hTc) (by rw [hm, List.length_drop]; split <;> omega)
    rw [hr, Outcome.map_ok]
    exact ⟨_, rfl⟩
  · -- the keys part: a branch with a leaf for each
    rw [if_neg hm]
    obtain ⟨kb, b, hkb, hb, hkb17, hb17⟩ := hT.short_split hm
    have hlen : 0 < key.length := List.length_pos_of_ne_nil hk
    obtain ⟨⟨d₁, c₁⟩, h₁⟩ := insert_nil_returns t (by omega : 0 < fuel)
      (pfx ++ k.take (prefixLen key k + 1)) (k.drop (prefixLen key k + 1)) c
    obtain ⟨⟨d₂, c₂⟩, h₂⟩ := insert_nil_returns t (by omega : 0 < fuel)
      (pfx ++ key.take (prefixLen key k + 1)) (key.drop (prefixLen key k + 1)) (.value v)
    rw [hkb, hb]
    simp only [h₁, h₂, child, hkb17, hb17, dite_true, Outcome.bind_ok]
    split
    · exact ⟨_, rfl⟩
    · exact ⟨_, rfl⟩

/-- A full node: the key goes on into the child its first symbol selects. -/
theorem insert_full_returns {cs : Fin 17 → Node} {f : NodeFlag} {T : Tree}
    (hload : Loads t.db t.cachegen (.full cs f) T) (hT : T.Ahead key)
    (hfuel : 2 * key.length + 1 ≤ fuel + 1) :
    ∃ r, t.insert (fuel + 1) (.full cs f) pfx key (.value v) = .ok r := by
  obtain ⟨Ts, rfl, hcs⟩ := hload.full_inv
  obtain ⟨b, rest, rfl, hb, hTb⟩ := hT.full
  simp only [List.length_cons] at hfuel
  obtain ⟨r, hr⟩ := ih (hcs _) hTb (by split <;> omega)
  rw [insert.eq_def]
  dsimp only
  rw [if_neg (by simp)]
  simp only [List.getElem?_cons_zero, List.drop_succ_cons, List.drop_zero, child, dif_pos hb,
    Outcome.bind_ok]
  rw [hr, Outcome.map_ok]
  exact ⟨_, rfl⟩

/-- A hash node: the node it loads to takes the key, with the same stack
less one. -/
theorem insert_hash_returns {hh : Bytes} {T : Tree} (hload : Loads t.db t.cachegen (.hash hh) T)
    (hT : T.Ahead key) (hfuel : 2 * key.length + 2 ≤ fuel + 1) :
    ∃ r, t.insert (fuel + 1) (.hash hh) pfx key (.value v) = .ok r := by
  obtain ⟨rn, hres, hrn, hrnh⟩ := resolve_of_loads t hload pfx
  rw [resolve] at hres
  obtain ⟨r, hr⟩ := ih hrn hT (by rw [hrnh]; simpa using hfuel)
  rw [insert.eq_def]
  dsimp only
  rw [if_neg (by simpa using hk), hres, Outcome.bind_ok, hr, Outcome.map_ok]
  exact ⟨_, rfl⟩

end InsertStep

/-- **`insert` returns** on a node that loads to a tree where the key fits,
given stack for the nodes on the key's way: it neither panics nor misses a
node. The induction is on the fuel, following `insert`'s own recursion. -/
theorem insert_returns : ∀ fuel, t.InsertReturns fuel
  | 0, _, _, _, _, _, _, _, hfuel => by split at hfuel <;> omega
  | fuel + 1, n, T, pfx, key, v, hload, hT, hfuel => by
    by_cases hk : key = []
    · -- the key has run out: the value replaces the node
      subst hk
      cases n <;> exact ⟨_, rfl⟩
    · cases n with
      | short k c f =>
        exact insert_short_returns (insert_returns fuel) hk hload hT (by simpa [Node.isHash] using hfuel)
      | full cs f =>
        exact insert_full_returns (insert_returns fuel) hk hload hT (by simpa [Node.isHash] using hfuel)
      | hash hh =>
        exact insert_hash_returns (insert_returns fuel) hk hload hT (by simpa [Node.isHash] using hfuel)
      | nil => exact insert_nil_returns t (by omega) pfx key (.value v)
      | value w =>
        -- a value stands where the path has ended
        obtain rfl := hload.value_tree
        exact absurd hT.value_nil hk

/-- `delete` with `fuel` returns on a node that loads to a tree where the key
fits, given stack for the nodes on the key's way. -/
def DeleteReturns (fuel : Nat) : Prop :=
  ∀ {n : Node} {T : Tree} {pfx key : Bytes}, Loads t.db t.cachegen n T → T.Ahead key →
    2 * key.length + (if n.isHash then 2 else 1) ≤ fuel → ∃ r, t.delete fuel n pfx key = .ok r

section DeleteStep

variable {t} {fuel : Nat} (ih : t.DeleteReturns fuel) {pfx key : Bytes}
include ih

/-- A short node: a mismatch or a whole match returns at once, a longer key
goes on into the child. -/
theorem delete_short_returns {k : Bytes} {c : Node} {f : NodeFlag} {T : Tree}
    (hload : Loads t.db t.cachegen (.short k c f) T) (hT : T.Ahead key)
    (hfuel : 2 * key.length + 1 ≤ fuel + 1) :
    ∃ r, t.delete (fuel + 1) (.short k c f) pfx key = .ok r := by
  obtain ⟨Tc, rfl, hc⟩ := hload.short_inv
  rw [delete.eq_def]
  dsimp only
  by_cases hlt : prefixLen key k < k.length
  · rw [if_pos hlt]
    exact ⟨_, rfl⟩
  rw [if_neg hlt]
  by_cases hl : prefixLen key k = key.length
  · rw [if_pos hl]
    exact ⟨_, rfl⟩
  rw [if_neg hl]
  -- the key goes on below the node
  have hpre : k <+: key :=
    prefixLen_eq_length_iff.mp (le_antisymm (prefixLen_le_length key k) (Nat.not_lt.mp hlt))
  obtain ⟨hk0, hTc⟩ := hT.short hpre
  have hk1 : 0 < k.length := List.length_pos_of_ne_nil hk0
  have hlen : k.length ≤ key.length := hpre.length_le
  obtain ⟨r, hr⟩ := ih hc hTc (by rw [List.length_drop]; split <;> omega)
  rw [hr, Outcome.map_ok]
  exact ⟨_, rfl⟩

/-- A full node: the key goes on into the child its first symbol selects; an
only child left is resolved, and it loads, so it resolves. -/
theorem delete_full_returns {cs : Fin 17 → Node} {f : NodeFlag} {T : Tree}
    (hload : Loads t.db t.cachegen (.full cs f) T) (hT : T.Ahead key)
    (hfuel : 2 * key.length + 1 ≤ fuel + 1) :
    ∃ r, t.delete (fuel + 1) (.full cs f) pfx key = .ok r := by
  obtain ⟨Ts, rfl, hcs⟩ := hload.full_inv
  obtain ⟨b, rest, rfl, hb, hTb⟩ := hT.full
  simp only [List.length_cons] at hfuel
  obtain ⟨⟨d, nn⟩, hr⟩ := ih (hcs _) hTb (by split <;> omega)
  rw [delete.eq_def]
  dsimp only
  simp only [List.getElem?_cons_zero, List.drop_succ_cons, List.drop_zero, child, dif_pos hb,
    Outcome.bind_ok]
  rw [hr, Outcome.bind_ok]
  cases d
  · exact ⟨_, rfl⟩
  · have hset := Loads.setChild hcs (delete_loads t fuel (hcs _) hr).2.1 b
    simp only [Bool.not_true, Bool.false_eq_true, ↓reduceIte]
    generalize setChild cs b nn = cs' at hset ⊢
    cases onlyChild cs' with
    | none => exact ⟨_, rfl⟩
    | some pos =>
      dsimp only
      split_ifs
      · obtain ⟨rn, hres, -, -⟩ := resolve_of_loads t (hset pos) pfx
        rw [hres, Outcome.map_ok]
        exact ⟨_, rfl⟩
      · exact ⟨_, rfl⟩

/-- A hash node: the node it loads to has the key deleted, with the same
stack less one. -/
theorem delete_hash_returns {hh : Bytes} {T : Tree} (hload : Loads t.db t.cachegen (.hash hh) T)
    (hT : T.Ahead key) (hfuel : 2 * key.length + 2 ≤ fuel + 1) :
    ∃ r, t.delete (fuel + 1) (.hash hh) pfx key = .ok r := by
  obtain ⟨rn, hres, hrn, hrnh⟩ := resolve_of_loads t hload pfx
  rw [resolve] at hres
  obtain ⟨r, hr⟩ := ih hrn hT (by rw [hrnh]; simpa using hfuel)
  rw [delete.eq_def]
  dsimp only
  rw [hres, Outcome.bind_ok, hr, Outcome.map_ok]
  exact ⟨_, rfl⟩

end DeleteStep

/-- **`delete` returns** on a node that loads to a tree where the key fits,
given stack for the nodes on the key's way. The induction is on the fuel,
following `delete`'s own recursion. -/
theorem delete_returns : ∀ fuel, t.DeleteReturns fuel
  | 0, _, _, _, _, _, _, hfuel => by split at hfuel <;> omega
  | fuel + 1, n, T, pfx, key, hload, hT, hfuel => by
    cases n with
    | short k c f =>
      exact delete_short_returns (delete_returns fuel) hload hT (by simpa [Node.isHash] using hfuel)
    | full cs f =>
      exact delete_full_returns (delete_returns fuel) hload hT (by simpa [Node.isHash] using hfuel)
    | hash hh =>
      exact delete_hash_returns (delete_returns fuel) hload hT (by simpa [Node.isHash] using hfuel)
    | value w => exact ⟨_, rfl⟩
    | nil => exact ⟨_, rfl⟩

/-! ## The calls on a trie -/

/-- The stack a call on `key` needs from the root: `4 * len(key) + 4` is
enough for every root. -/
theorem root_fuel {n : Node} {fuel : Nat} {key : Bytes} (hfuel : 4 * key.length + 4 ≤ fuel) :
    2 * (keybytesToHex key).length + (if n.isHash then 2 else 1) ≤ fuel := by
  rw [length_keybytesToHex]
  split <;> omega

section Calls

variable {t} {T : Tree} (hload : Loads t.db t.cachegen t.root T) (hT : T.Inner) {fuel : Nat}
  {key : Bytes} (hfuel : 4 * key.length + 4 ≤ fuel)
include hload hT hfuel

/-- **`TryGet` reads the stored map**: with stack for the key, it returns the
value the tree stores at the key's hex path, and a trie that loads to the same
tree. -/
theorem TryGet_reads :
    ∃ t', t.TryGet fuel key = .ok (T.toMap (keybytesToHex key), t') ∧
      t'.db = t.db ∧ t'.cachegen = t.cachegen ∧ Loads t'.db t'.cachegen t'.root T := by
  have hA : T.Ahead ((keybytesToHex key).drop 0) := .inl ⟨hT, hexPath_keybytesToHex key⟩
  obtain ⟨n', d, hget, hn'⟩ := tryGet_reads t fuel hload hA (by simpa using root_fuel hfuel)
  rw [TryGet, hget, Outcome.map_ok]
  cases d
  · exact ⟨t, rfl, rfl, rfl, hload⟩
  · exact ⟨_, rfl, rfl, rfl, hn'⟩

/-- `TryUpdate` returns, with stack for the key. -/
theorem TryUpdate_returns (value : Bytes) : ∃ t', t.TryUpdate fuel key value = .ok t' := by
  have hA : T.Ahead (keybytesToHex key) := .inl ⟨hT, hexPath_keybytesToHex key⟩
  unfold TryUpdate
  dsimp only
  split_ifs
  · obtain ⟨r, hr⟩ := insert_returns t fuel hload hA (root_fuel hfuel)
    rw [hr, Outcome.map_ok]
    exact ⟨_, rfl⟩
  · obtain ⟨r, hr⟩ := delete_returns t fuel hload hA (root_fuel hfuel)
    rw [hr, Outcome.map_ok]
    exact ⟨_, rfl⟩

/-- `TryDelete` returns, with stack for the key. -/
theorem TryDelete_returns : ∃ t', t.TryDelete fuel key = .ok t' := by
  obtain ⟨r, hr⟩ := delete_returns t fuel hload (.inl ⟨hT, hexPath_keybytesToHex key⟩)
    (root_fuel hfuel)
  rw [TryDelete, hr, Outcome.map_ok]
  exact ⟨_, rfl⟩

end Calls

end Trie

/-! ## A trie answers as a map -/

/-- The calls on a trie that the map semantics covers, as the steps
`opUpdate`, `opDelete`, `opGet` and `opHash` of `runRandTest` make them. -/
inductive Op where
  | update (key value : Bytes)
  | delete (key : Bytes)
  | get (key : Bytes)
  | hash
  deriving DecidableEq, Repr

namespace Op

/-- The call on the trie, with the stack `fuel` every call gets. `TryGet`
answers the value it read; the other calls answer nothing here (the root hash
`Hash` returns is not compared). -/
def call (keccak : Bytes → Digest) (fuel : Nat) : Op → Trie → Outcome TrieError (Option Bytes × Trie)
  | .update key value, t => (t.TryUpdate fuel key value).map ((none, ·))
  | .delete key, t => (t.TryDelete fuel key).map ((none, ·))
  | .get key, t => t.TryGet fuel key
  | .hash, t => ((t.Hash keccak).handle PEmpty.elim).map fun (_, t') => (none, t')

/-- The same calls on a map from keys to values (`values` in `runRandTest`);
an update with an empty value deletes, as `TryUpdate` does. -/
def record : Op → (Bytes → Option Bytes) → (Bytes → Option Bytes)
  | .update key value, m => Function.update m key (if value = [] then none else some value)
  | .delete key, m => Function.update m key none
  | .get _, m => m
  | .hash, m => m

/-- What the map answers: a `get` reads its key. -/
def answer : Op → (Bytes → Option Bytes) → Option Bytes
  | .get key, m => m key
  | _, _ => none

/-- The call's key leaves stack for its walk. -/
def Fits (fuel : Nat) : Op → Prop
  | .update key _ => 4 * key.length + 4 ≤ fuel
  | .delete key => 4 * key.length + 4 ≤ fuel
  | .get key => 4 * key.length + 4 ≤ fuel
  | .hash => True

end Op

/-- The trie stores the map `m`: its root loads to a tree of the shape `Inner`
whose map reads `m` at the hex path of every key. -/
def Stores (t : Trie) (m : Bytes → Option Bytes) : Prop :=
  ∃ T, Loads t.db t.cachegen t.root T ∧ T.Inner ∧ ∀ k, T.toMap (keybytesToHex k) = m k

/-- Setting a key of the map sets its hex path in the tree's map: distinct
keys have distinct hex paths. -/
theorem update_keybytesToHex {f : PathMap UInt8 Bytes} {m : Bytes → Option Bytes}
    (h : ∀ k, f (keybytesToHex k) = m k) (key : Bytes) (v : Option Bytes) (k : Bytes) :
    Function.update f (keybytesToHex key) v (keybytesToHex k) = Function.update m key v k := by
  by_cases hk : k = key
  · subst hk
    simp
  · rw [Function.update_of_ne (fun he => hk (keybytesToHex_inj he)), Function.update_of_ne hk, h]

/-- Each call keeps the trie storing the map, updated as the map is, and
answers as the map does: the trie refines the map in lockstep. -/
theorem calls_lockstep (keccak : Bytes → Digest) (fuel : Nat) :
    Refine.Lockstep (Op.call keccak fuel) Op.record Op.answer (Op.Fits fuel) Stores := by
  rintro op t m hfit ⟨T, hload, hT, hmap⟩
  cases op with
  | update key value =>
    obtain ⟨t', ht'⟩ := Trie.TryUpdate_returns hload hT hfit value
    obtain ⟨-, -, T', hload', hT', hmap'⟩ := Trie.TryUpdate_loads t hload hT ht'
    refine ⟨t', by rw [Op.call, ht', Outcome.map_ok]; rfl, T', hload', hT', fun k => ?_⟩
    rw [hmap', Op.record, update_keybytesToHex hmap]
  | delete key =>
    obtain ⟨t', ht'⟩ := Trie.TryDelete_returns hload hT hfit
    obtain ⟨-, -, T', hload', hT', hmap'⟩ := Trie.TryDelete_loads t hload hT ht'
    refine ⟨t', by rw [Op.call, ht', Outcome.map_ok]; rfl, T', hload', hT', fun k => ?_⟩
    rw [hmap', Op.record, update_keybytesToHex hmap]
  | get key =>
    obtain ⟨t', ht', -, -, hload'⟩ := Trie.TryGet_reads hload hT hfit
    refine ⟨t', ?_, T, hload', hT, hmap⟩
    rw [Op.call, ht', hmap, Op.answer]
  | hash =>
    obtain ⟨d, t', ht', hdb, hgen, hload'⟩ := Hash_loads keccak hload
    refine ⟨t', by rw [Op.call, ht', Outcome.handle_ok, Outcome.map_ok]; rfl, T, ?_, hT, hmap⟩
    rwa [hdb, hgen]

/-- **A trie answers as a finite map.** From a trie that loads to a tree of
the shape `Inner`, every sequence of `TryUpdate`, `TryDelete`, `TryGet` and
`Hash` calls whose keys leave stack for their walks returns. Its `TryGet`
calls answer what a map answers that starts as what the trie stores and is
updated by the same calls: the value last written to the key, unless it was
deleted since. The trie stores that map afterwards. -/
theorem calls_answer_as_map (keccak : Bytes → Digest) {t : Trie} {T : Tree}
    (hload : Loads t.db t.cachegen t.root T) (hT : T.Inner) {fuel : Nat} {ops : List Op}
    (hfuel : ∀ op ∈ ops, op.Fits fuel) :
    ∃ t', Refine.exec (Op.call keccak fuel) ops t =
        .ok (Refine.answers Op.record Op.answer ops (fun k => T.toMap (keybytesToHex k)), t') ∧
      Stores t' (Refine.after Op.record ops (fun k => T.toMap (keybytesToHex k))) :=
  Refine.exec_lockstep (calls_lockstep keccak fuel) hfuel ⟨T, hload, hT, fun _ => rfl⟩

/-- From the empty trie, a key written, read, deleted and read again answers
the value and then nothing. -/
theorem calls_answer_as_map_from_empty :
    ∃ t', Refine.exec (Op.call (fun _ => zeroHash) 8) [.update [1] [2], .get [1], .delete [1], .get [1]]
        ⟨.nil, fun _ => none, [], 0, 0⟩ = .ok ([none, some [2], none, none], t') := by
  have hfits : ∀ op ∈ [Op.update [1] [2], .get [1], .delete [1], .get [1]], op.Fits 8 := by
    simp [Op.Fits]
  obtain ⟨t', h, -⟩ := calls_answer_as_map (fun _ => zeroHash) (t := ⟨.nil, fun _ => none, [], 0, 0⟩)
    Loads.nil trivial hfits
  exact ⟨t', h⟩

end Trie

end Bazacoin
