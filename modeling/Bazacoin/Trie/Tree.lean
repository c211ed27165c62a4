import Bazacoin.Lib.PathMap
import Bazacoin.Trie.Encoding

/-!
# Loaded tries and the maps they store

A `Tree` is a trie with every node loaded and no caching metadata: what a
`Node` stands for once its hash nodes are resolved through the database. It
stores a map from hex paths to values (`Tree.toMap`): a short node moves the
map of its child under its key, a full node selects a child by the next
nibble, and a value sits at the end of its path.

`Tree.insert` and `Tree.delete` are `insert` and `delete` of `trie.go` on
loaded trees, branch for branch: the tree-level counterparts that the node
functions are shown to refine. On a tree whose shape fits hex paths
(`Tree.Inner`) they update the stored map at one path and nothing else
(`toMap_insert`, `toMap_delete`), and keep the shape.

A hex path (`HexPath`) is a run of nibbles followed by the terminator 16,
the form `keybytesToHex` gives every key. No hex path is a proper prefix of
another, so keys that are prefixes of each other as byte strings are stored
apart.
-/

namespace Bazacoin

namespace Trie

open PathMap

/-- A run of nibbles ended by the terminator: the hex form of a key. -/
def HexPath (p : Bytes) : Prop := ∃ ns, Nibbles ns ∧ p = ns ++ [16]

/-- A trie with every node loaded. -/
inductive Tree where
  | nil
  | value (v : Bytes)
  | short (key : Bytes) (child : Tree)
  | full (children : Fin 17 → Tree)

/-! ## Hex paths -/

theorem hexPath_keybytesToHex (k : Bytes) : HexPath (keybytesToHex k) := keybytesToHex_eq k

theorem HexPath.ne_nil {p : Bytes} (h : HexPath p) : p ≠ [] := by
  obtain ⟨ns, -, rfl⟩ := h
  simp

/-- Every symbol of a hex path is a nibble or the terminator. -/
theorem HexPath.toNat_lt {p : Bytes} (h : HexPath p) {x : UInt8} (hx : x ∈ p) : x.toNat < 17 := by
  obtain ⟨ns, hns, rfl⟩ := h
  rcases List.mem_append.mp hx with hx | hx
  · have := UInt8.lt_iff_toNat_lt.mp (hns x hx)
    simp only [UInt8.toNat_ofNat] at this
    omega
  · simp only [List.mem_singleton] at hx
    subst hx
    decide

/-- The terminator is not a nibble. -/
theorem nibbles_not_mem_16 {ns : Bytes} (h : Nibbles ns) : (16 : UInt8) ∉ ns :=
  fun hm => absurd (h 16 hm) (by decide)

/-- No hex path is a proper prefix of another. -/
theorem HexPath.prefix_eq {a b : Bytes} (ha : HexPath a) (hb : HexPath b) (h : a <+: b) : a = b := by
  obtain ⟨ns, hns, rfl⟩ := ha
  obtain ⟨ms, hms, rfl⟩ := hb
  obtain ⟨r, hr⟩ := h
  cases r with
  | nil => simpa using hr
  | cons x r =>
    -- the terminator of `a` would stand among the nibbles of `b`
    exfalso
    have hmem : (16 : UInt8) ∈ ms ++ [16] := by
      rw [← hr]
      simp
    have hlen : (ns ++ [16]).length < (ms ++ [16]).length := by
      rw [← hr]
      simp
    have h16 : ms[ns.length]? = some 16 := by
      have := congrArg (fun l => l[ns.length]?) hr
      simp only [List.append_assoc, List.cons_append, List.nil_append] at this
      rw [List.getElem?_append_right (le_refl _), Nat.sub_self] at this
      rw [← List.getElem?_append_left (by simp at hlen; omega)]
      exact this.symm
    exact nibbles_not_mem_16 hms (List.mem_of_getElem? h16)

/-- A run of nibbles that starts a hex path leaves a hex path behind it. -/
theorem HexPath.prefix_drop {k p : Bytes} (hk : Nibbles k) (hp : HexPath p) (h : k <+: p) :
    HexPath (p.drop k.length) := by
  obtain ⟨ns, hns, rfl⟩ := hp
  obtain ⟨r, hr⟩ := h
  have hle : k.length ≤ ns.length := by
    by_contra hgt
    -- otherwise the terminator would be one of the nibbles of `k`
    have h16 : k[ns.length]? = some 16 := by
      have := congrArg (fun l => l[ns.length]?) hr
      rw [List.getElem?_append_left (by omega)] at this
      rw [this, List.getElem?_append_right (le_refl _), Nat.sub_self]
      rfl
    exact nibbles_not_mem_16 hk (List.mem_of_getElem? h16)
  refine ⟨ns.drop k.length, fun x hx => hns x (List.mem_of_mem_drop hx), ?_⟩
  rw [List.drop_append_of_le_length hle]

/-- A hex path is not a prefix of a run of nibbles. -/
theorem HexPath.not_prefix_nibbles {p k : Bytes} (hp : HexPath p) (hk : Nibbles k) : ¬ p <+: k := by
  rintro ⟨r, rfl⟩
  obtain ⟨ns, -, rfl⟩ := hp
  exact nibbles_not_mem_16 hk (by simp)

/-- The common prefix is the whole of `k` exactly when `k` is a prefix. -/
theorem prefixLen_eq_length_iff {key k : Bytes} : prefixLen key k = k.length ↔ k <+: key := by
  constructor
  · intro h
    have := take_prefixLen key k
    rw [h, List.take_length] at this
    exact this ▸ List.take_prefix _ _
  · rintro ⟨r, rfl⟩
    induction k with
    | nil => simp [prefixLen]
    | cons x k ih => simp [prefixLen, ih]

theorem prefixLen_le_length (key k : Bytes) : prefixLen key k ≤ k.length := prefixLen_le_right key k

theorem Nibbles.take {ns : Bytes} (h : Nibbles ns) (n : Nat) : Nibbles (ns.take n) :=
  fun x hx => h x (List.mem_of_mem_take hx)

theorem Nibbles.drop {ns : Bytes} (h : Nibbles ns) (n : Nat) : Nibbles (ns.drop n) :=
  fun x hx => h x (List.mem_of_mem_drop hx)

/-- The symbols of a hex path before its end are nibbles. -/
theorem HexPath.nibbles_take {p : Bytes} (hp : HexPath p) {m : Nat} (hm : m < p.length) :
    Nibbles (p.take m) := by
  obtain ⟨ns, hns, rfl⟩ := hp
  simp only [List.length_append, List.length_singleton] at hm
  rw [List.take_append_of_le_length (by omega)]
  exact hns.take m

/-- What follows a nibble of a hex path is a hex path; nothing follows the
terminator. -/
theorem HexPath.drop_succ {p : Bytes} (hp : HexPath p) {m : Nat} {b : UInt8} (hb : p[m]? = some b) :
    (b < 16 → HexPath (p.drop (m + 1))) ∧ (¬ b < 16 → p.drop (m + 1) = []) := by
  obtain ⟨ns, hns, rfl⟩ := hp
  have hm := (List.getElem?_eq_some_iff.mp hb).1
  simp only [List.length_append, List.length_singleton] at hm
  by_cases hlt : m < ns.length
  · -- a nibble: the terminator is still ahead
    have hbm : ns[m]? = some b := by rwa [List.getElem?_append_left hlt] at hb
    refine ⟨fun _ => ⟨ns.drop (m + 1), hns.drop _, ?_⟩, fun h => absurd (hns b (List.mem_of_getElem? hbm)) h⟩
    rw [List.drop_append_of_le_length (by omega)]
  · -- the terminator
    have hme : m = ns.length := by omega
    subst hme
    rw [List.getElem?_append_right (le_refl _), Nat.sub_self] at hb
    simp only [List.getElem?_cons_zero, Option.some.injEq] at hb
    subst hb
    refine ⟨fun h => absurd h (by decide), fun _ => ?_⟩
    simp

namespace Tree

/-- The map a tree stores, from hex paths to values. -/
def toMap : Tree → PathMap UInt8 Bytes
  | .nil => empty
  | .value v => leaf v
  | .short k c => shift k c.toMap
  | .full cs => branch fun b => if h : b.toNat < 17 then (cs ⟨b.toNat, h⟩).toMap else empty

/-- The maps of the children of a full node, by path symbol. -/
def childMaps (cs : Fin 17 → Tree) : UInt8 → PathMap UInt8 Bytes :=
  fun b => if h : b.toNat < 17 then (cs ⟨b.toNat, h⟩).toMap else empty

@[simp] theorem toMap_nil : Tree.nil.toMap = empty := rfl

@[simp] theorem toMap_value (v : Bytes) : (Tree.value v).toMap = leaf v := rfl

@[simp] theorem toMap_short (k : Bytes) (c : Tree) : (Tree.short k c).toMap = shift k c.toMap := rfl

@[simp] theorem toMap_full (cs : Fin 17 → Tree) : (Tree.full cs).toMap = branch (childMaps cs) := rfl

/-- Replace the child of a full node at a nibble (`n.Children[i] = c`). -/
def setChild (cs : Fin 17 → Tree) (b : UInt8) (c : Tree) : Fin 17 → Tree :=
  fun i => if i.val = b.toNat then c else cs i

/-- What `insert` into `nil` makes of a node under the rest of a key: the node
itself when the key has run out, a short node leading to it otherwise. -/
def leafAt (key : Bytes) (c : Tree) : Tree :=
  if key = [] then c else .short key c

/-- `insert` on a loaded tree: put the node `val` at the end of `key`;
whether anything changed, and the new tree. The cases where `trie.go` panics
leave the tree as it is; they do not arise on trees of the shape `Inner`. -/
def insert : Tree → Bytes → Tree → Bool × Tree
  | .value v, [], .value v' => (v ≠ v', .value v')
  | _, [], val => (true, val)
  | .short k c, key, val =>
    let m := prefixLen key k
    if m = k.length then
      let (d, c') := c.insert (key.drop m) val
      if d then (true, .short k c') else (false, .short k c)
    else
      -- branch out at the index where the keys differ
      match k[m]?, key[m]? with
      | some kb, some b =>
        if kb.toNat < 17 ∧ b.toNat < 17 then
          let branch : Tree := .full (setChild (setChild (fun _ => .nil) kb (leafAt (k.drop (m + 1)) c))
            b (leafAt (key.drop (m + 1)) val))
          (true, if m = 0 then branch else .short (key.take m) branch)
        else (false, .short k c)
      | _, _ => (false, .short k c)
  | .full cs, b :: rest, val =>
    if h : b.toNat < 17 then
      let (d, c') := (cs ⟨b.toNat, h⟩).insert rest val
      if d then (true, .full (setChild cs b c')) else (false, .full cs)
    else (false, .full cs)
  | .nil, key, val => (true, .short key val)
  | t, _, _ => (false, t)

/-- The index of the only non-nil child of a full node, if there is exactly one. -/
def onlyChild (cs : Fin 17 → Tree) : Option (Fin 17) :=
  match (List.finRange 17).filter (fun i => !(cs i matches .nil)) with
  | [i] => some i
  | _ => none

/-- What `delete` makes of a short node whose child changed: a short child is
merged into it. -/
def mergeShort (k : Bytes) (c : Tree) : Tree :=
  match c with
  | .short ck cv => .short (k ++ ck) cv
  | c => .short k c

/-- What `delete` makes of a full node whose child changed: with one child
left it becomes a short node, merged with that child when the child is a
short node under a nibble. -/
def reduceFull (cs : Fin 17 → Tree) : Tree :=
  match onlyChild cs with
  | some pos =>
    if pos.val ≠ 16 then
      match cs pos with
      | .short ck cv => .short (UInt8.ofNat pos.val :: ck) cv
      | _ => .short [UInt8.ofNat pos.val] (cs pos)
    else .short [UInt8.ofNat pos.val] (cs pos)
  | none => .full cs

/-- `delete` on a loaded tree: remove the value at the end of `key`, reducing
the tree to minimal form on the way up. -/
def delete : Tree → Bytes → Bool × Tree
  | .short k c, key =>
    let m := prefixLen key k
    if m < k.length then (false, .short k c)
    else if m = key.length then (true, .nil)
    else
      let (d, c') := c.delete (key.drop k.length)
      if d then (true, mergeShort k c') else (false, .short k c)
  | .full cs, b :: rest =>
    if h : b.toNat < 17 then
      let (d, nn) := (cs ⟨b.toNat, h⟩).delete rest
      if !d then (false, .full cs) else (true, reduceFull (setChild cs b nn))
    else (false, .full cs)
  | .full cs, [] => (false, .full cs)
  | .value _, _ => (true, .nil)
  | .nil, _ => (false, .nil)

/-! ## The maps of the node constructors -/

theorem toMap_leafAt (key : Bytes) (c : Tree) : (leafAt key c).toMap = shift key c.toMap := by
  unfold leafAt
  split
  · rename_i h
    subst h
    simp
  · rfl

@[simp] theorem childMaps_nil : childMaps (fun _ => Tree.nil) = fun _ => empty := by
  funext b
  simp [childMaps]

/-- Setting a child updates the map of its branch. -/
theorem childMaps_setChild (cs : Fin 17 → Tree) {b : UInt8} (hb : b.toNat < 17) (c : Tree) :
    childMaps (setChild cs b c) = Function.update (childMaps cs) b c.toMap := by
  funext x
  by_cases hx : x = b
  · subst hx
    simp [childMaps, setChild, hb]
  · have hne : x.toNat ≠ b.toNat := fun h => hx (UInt8.toNat_inj.mp h)
    simp [childMaps, setChild, hne, Function.update, hx]

/-! ## Unchanged trees

When `insert` or `delete` reports no change, the tree is the one it was given;
the node functions return their argument in that case. -/

theorem insert_unchanged {T : Tree} {key : Bytes} {val : Tree} (h : (T.insert key val).1 = false) :
    (T.insert key val).2 = T := by
  fun_cases Tree.insert T key val <;> simp_all +zetaDelta [Tree.insert]

theorem delete_unchanged {T : Tree} {key : Bytes} (h : (T.delete key).1 = false) :
    (T.delete key).2 = T := by
  fun_cases Tree.delete T key <;> simp_all +zetaDelta [Tree.delete]
  -- a whole match removes the node, which is a change
  rename_i hle _
  simp [Nat.not_lt.mpr hle] at h

/-! ## The shape of a tree that stores hex paths -/

/-- A tree where a path has ended: nil, or a non-empty value. -/
def Leaf : Tree → Prop
  | .nil => True
  | .value v => v ≠ []
  | _ => False

/-- A tree where a hex path still has its terminator ahead: no value, short
keys that are non-empty runs of nibbles or end in the terminator just before
a value, and full nodes whose value slot is a `Leaf`. -/
def Inner : Tree → Prop
  | .nil => True
  | .value _ => False
  | .short k c => (HexPath k ∧ ∃ v, v ≠ [] ∧ c = .value v) ∨ (k ≠ [] ∧ Nibbles k ∧ c.Inner)
  | .full cs => (∀ i : Fin 17, i.val < 16 → (cs i).Inner) ∧ (cs 16).Leaf

/-! ## Insertion updates one path -/

/-- The parts of `k` around the first index where `key` differs from it. -/
theorem eq_take_append_cons {k key : Bytes} {kb : UInt8} (h : k[prefixLen key k]? = some kb) :
    k = key.take (prefixLen key k) ++ kb :: k.drop (prefixLen key k + 1) := by
  rw [take_prefixLen key k]
  conv_lhs => rw [← List.take_append_drop (prefixLen key k) k]
  congr 1
  rw [List.drop_eq_getElem_cons (List.getElem?_eq_some_iff.mp h).1]
  simp [(List.getElem?_eq_some_iff.mp h).2]

theorem eq_take_append_cons' {k key : Bytes} {b : UInt8} (h : key[prefixLen key k]? = some b) :
    key = key.take (prefixLen key k) ++ b :: key.drop (prefixLen key k + 1) := by
  conv_lhs => rw [← List.take_append_drop (prefixLen key k) key]
  congr 1
  rw [List.drop_eq_getElem_cons (List.getElem?_eq_some_iff.mp h).1]
  simp [(List.getElem?_eq_some_iff.mp h).2]

/-- The map of the branch `insert` builds where `key` parts from the key `k`
of a short node: the short node's map, and `v` at `key`. -/
theorem toMap_split {k key : Bytes} {c : Tree} {v : Bytes} {kb b : UInt8}
    (hkb : k[prefixLen key k]? = some kb) (hb : key[prefixLen key k]? = some b)
    (hkb17 : kb.toNat < 17) (hb17 : b.toNat < 17) :
    (if prefixLen key k = 0 then
        Tree.full (setChild (setChild (fun _ => .nil) kb (leafAt (k.drop (prefixLen key k + 1)) c)) b
          (leafAt (key.drop (prefixLen key k + 1)) (.value v)))
      else .short (key.take (prefixLen key k))
        (.full (setChild (setChild (fun _ => .nil) kb (leafAt (k.drop (prefixLen key k + 1)) c)) b
          (leafAt (key.drop (prefixLen key k + 1)) (.value v))))).toMap =
      Function.update (shift k c.toMap) key (some v) := by
  have hk := eq_take_append_cons hkb
  have hkey := eq_take_append_cons' hb
  have hne : kb ≠ b := by
    have hk' := List.getElem?_eq_some_iff.mp hkb
    have hkey' := List.getElem?_eq_some_iff.mp hb
    rw [← hk'.2, ← hkey'.2]
    exact (getElem_prefixLen_ne hkey'.1 hk'.1).symm
  set m := prefixLen key k
  set P := key.take m
  set rk := k.drop (m + 1)
  set rkey := key.drop (m + 1)
  -- both sides are the branch below the common prefix
  have hbr : (Tree.full (setChild (setChild (fun _ => .nil) kb (leafAt rk c)) b
        (leafAt rkey (.value v)))).toMap =
      branch (Function.update (Function.update (fun _ => empty) kb (shift rk c.toMap)) b
        (Function.update empty rkey (some v))) := by
    rw [toMap_full, childMaps_setChild _ hb17, childMaps_setChild _ hkb17, childMaps_nil,
      toMap_leafAt, toMap_leafAt, toMap_value, shift_leaf]
  have hleft : (if m = 0 then
        Tree.full (setChild (setChild (fun _ => .nil) kb (leafAt rk c)) b (leafAt rkey (.value v)))
      else .short P
        (.full (setChild (setChild (fun _ => .nil) kb (leafAt rk c)) b (leafAt rkey (.value v))))).toMap =
      shift P (branch (Function.update (Function.update (fun _ => empty) kb (shift rk c.toMap)) b
        (Function.update empty rkey (some v)))) := by
    split
    · rename_i h0
      rw [hbr, show P = [] by simp [P, h0], shift_nil]
    · rw [toMap_short, hbr]
  rw [hleft]
  conv_rhs => rw [hk, hkey]
  rw [shift_append, shift_cons, ← shift_update, branch_update, Function.update_of_ne hne.symm]

/-! ### One equation per branch of `insert` -/

theorem insert_nil_cons (key : Bytes) (hk : key ≠ []) (val : Tree) :
    Tree.nil.insert key val = (true, .short key val) := by
  obtain ⟨x, xs, rfl⟩ := List.exists_cons_of_ne_nil hk
  rfl

theorem insert_value_nil (w v : Bytes) :
    (Tree.value w).insert [] (.value v) = (decide (w ≠ v), Tree.value v) := rfl

theorem insert_short_through {k key : Bytes} (c val : Tree) (hk : key ≠ []) (hm : prefixLen key k = k.length) :
    (Tree.short k c).insert key val =
      if (c.insert (key.drop k.length) val).1 then (true, .short k (c.insert (key.drop k.length) val).2)
      else (false, .short k c) := by
  obtain ⟨x, xs, rfl⟩ := List.exists_cons_of_ne_nil hk
  simp only [insert, hm, if_true]

theorem insert_short_split {k key : Bytes} (c val : Tree) (hk : key ≠ []) (hm : prefixLen key k ≠ k.length)
    {kb b : UInt8} (hkb : k[prefixLen key k]? = some kb) (hb : key[prefixLen key k]? = some b)
    (h17 : kb.toNat < 17 ∧ b.toNat < 17) :
    (Tree.short k c).insert key val =
      (true, if prefixLen key k = 0 then
          Tree.full (setChild (setChild (fun _ => .nil) kb (leafAt (k.drop (prefixLen key k + 1)) c)) b
            (leafAt (key.drop (prefixLen key k + 1)) val))
        else .short (key.take (prefixLen key k))
          (.full (setChild (setChild (fun _ => .nil) kb (leafAt (k.drop (prefixLen key k + 1)) c)) b
            (leafAt (key.drop (prefixLen key k + 1)) val)))) := by
  obtain ⟨x, xs, rfl⟩ := List.exists_cons_of_ne_nil hk
  simp only [insert, hm, if_false, hkb, hb, h17, and_self, if_true]

theorem insert_full (cs : Fin 17 → Tree) {b : UInt8} (hb : b.toNat < 17) (rest : Bytes) (val : Tree) :
    (Tree.full cs).insert (b :: rest) val =
      if ((cs ⟨b.toNat, hb⟩).insert rest val).1 then
        (true, .full (setChild cs b ((cs ⟨b.toNat, hb⟩).insert rest val).2))
      else (false, .full cs) := by
  simp only [insert, hb, dite_true]

/-! ### The shape after an insertion -/

/-- A value under a hex path: a short node of the shape `Inner`. -/
theorem inner_leafAt_value {p : Bytes} (hp : HexPath p) {w : Bytes} (hw : w ≠ []) :
    (leafAt p (.value w)).Inner := by
  rw [leafAt, if_neg hp.ne_nil]
  exact .inl ⟨hp, w, hw, rfl⟩

/-- The child a full node needs at a slot: `Inner` under a nibble, `Leaf`
under the terminator. -/
def SlotShape (b : UInt8) (t : Tree) : Prop := if b.toNat < 16 then t.Inner else t.Leaf

/-- A full node with two children, each of the shape its slot needs. -/
theorem inner_full_two {kb b : UInt8} {A B : Tree} (hne : kb ≠ b) (hA : SlotShape kb A) (hB : SlotShape b B) :
    (Tree.full (setChild (setChild (fun _ => .nil) kb A) b B)).Inner := by
  have hne' : kb.toNat ≠ b.toNat := fun h => hne (UInt8.toNat_inj.mp h)
  refine ⟨fun i hi => ?_, ?_⟩
  · simp only [setChild]
    split_ifs with h₁ h₂
    · rw [SlotShape, if_pos (by omega)] at hB
      exact hB
    · rw [SlotShape, if_pos (by omega)] at hA
      exact hA
    · trivial
  · simp only [setChild]
    split_ifs with h₁ h₂
    · rw [SlotShape, if_neg (by omega)] at hB
      exact hB
    · rw [SlotShape, if_neg (by omega)] at hA
      exact hA
    · trivial

/-- The new value's slot of a split. -/
theorem slotShape_value {p : Bytes} (hp : HexPath p) {m : Nat} {b : UInt8} (hb : p[m]? = some b)
    {v : Bytes} (hv : v ≠ []) : SlotShape b (leafAt (p.drop (m + 1)) (.value v)) := by
  have hd := hp.drop_succ hb
  have hb17 := hp.toNat_lt (List.mem_of_getElem? hb)
  unfold SlotShape
  split
  · rename_i hlt
    exact inner_leafAt_value (hd.1 (UInt8.lt_iff_toNat_lt.mpr (by simpa using hlt))) hv
  · rename_i hge
    rw [hd.2 (fun h => hge (by simpa using UInt8.lt_iff_toNat_lt.mp h)), leafAt, if_pos rfl]
    exact hv

/-- The old child's slot of a split. -/
theorem slotShape_old {k key : Bytes} {c : Tree} (hT : (Tree.short k c).Inner) {kb : UInt8}
    (hkb : k[prefixLen key k]? = some kb) : SlotShape kb (leafAt (k.drop (prefixLen key k + 1)) c) := by
  rcases hT with ⟨hk, w, hw, rfl⟩ | ⟨-, hk, hc⟩
  · exact slotShape_value hk hkb hw
  · -- a run of nibbles: `kb` is a nibble and the rest is one too
    have hlt : kb < 16 := hk kb (List.mem_of_getElem? hkb)
    rw [SlotShape, if_pos (by simpa using UInt8.lt_iff_toNat_lt.mp hlt)]
    unfold leafAt
    split
    · exact hc
    · rename_i hne
      exact .inr ⟨hne, hk.drop _, hc⟩

/-- The common prefix of a split, when there is one, is a run of nibbles. -/
theorem inner_split {k key : Bytes} {c : Tree} (hT : (Tree.short k c).Inner) (hkey : HexPath key)
    {kb b : UInt8} (hkb : k[prefixLen key k]? = some kb) (hb : key[prefixLen key k]? = some b)
    (hne : kb ≠ b) {v : Bytes} (hv : v ≠ []) :
    (if prefixLen key k = 0 then
        Tree.full (setChild (setChild (fun _ => .nil) kb (leafAt (k.drop (prefixLen key k + 1)) c)) b
          (leafAt (key.drop (prefixLen key k + 1)) (.value v)))
      else .short (key.take (prefixLen key k))
        (.full (setChild (setChild (fun _ => .nil) kb (leafAt (k.drop (prefixLen key k + 1)) c)) b
          (leafAt (key.drop (prefixLen key k + 1)) (.value v))))).Inner := by
  have hkb17 : kb.toNat < 17 := by
    rcases hT with ⟨hk, -⟩ | ⟨-, hk, -⟩
    · exact hk.toNat_lt (List.mem_of_getElem? hkb)
    · have := UInt8.lt_iff_toNat_lt.mp (hk kb (List.mem_of_getElem? hkb))
      simp only [UInt8.toNat_ofNat] at this
      omega
  have hbr := inner_full_two hne (slotShape_old hT hkb) (slotShape_value hkey hb hv)
  split
  · exact hbr
  · rename_i h0
    have hm := (List.getElem?_eq_some_iff.mp hb).1
    refine .inr ⟨fun h => ?_, hkey.nibbles_take hm, hbr⟩
    rcases List.take_eq_nil_iff.mp h with h | h
    · exact h0 h
    · exact hkey.ne_nil h

/-- Replacing a child of a full node by one of the shape its slot needs. -/
theorem inner_full_setChild {cs : Fin 17 → Tree} (hT : (Tree.full cs).Inner) {b : UInt8} {c : Tree}
    (hc : SlotShape b c) : (Tree.full (setChild cs b c)).Inner := by
  refine ⟨fun i hi => ?_, ?_⟩
  · simp only [setChild]
    split_ifs with h
    · rw [SlotShape, if_pos (by omega)] at hc
      exact hc
    · exact hT.1 i hi
  · simp only [setChild]
    split_ifs with h
    · rw [SlotShape, if_neg (by simp at h; omega)] at hc
      exact hc
    · exact hT.2

/-- The map of a full node's child at a symbol below 17. -/
theorem childMaps_apply (cs : Fin 17 → Tree) {b : UInt8} (hb : b.toNat < 17) :
    childMaps cs b = (cs ⟨b.toNat, hb⟩).toMap := by
  simp [childMaps, hb]

/-- A value written where a path ends replaces whatever `Leaf` was there. -/
theorem update_nil_of_leaf {t : Tree} (ht : t.Leaf) (v : Bytes) :
    Function.update t.toMap [] (some v) = leaf v := by
  funext q
  cases t with
  | nil => cases q <;> simp [Function.update]
  | value w => cases q <;> simp [Function.update]
  | short => exact ht.elim
  | full => exact ht.elim

/-- **Insertion updates one path.** Inserting a non-empty value at a hex path
into a tree of the shape `Inner` keeps the shape and sets that path's value,
leaving every other path as it was. -/
theorem insert_inner (T : Tree) (hT : T.Inner) {key : Bytes} (hkey : HexPath key) {v : Bytes}
    (hv : v ≠ []) :
    (T.insert key (.value v)).2.Inner ∧
      (T.insert key (.value v)).2.toMap = Function.update T.toMap key (some v) := by
  induction T generalizing key with
  | nil =>
    rw [insert_nil_cons key hkey.ne_nil]
    exact ⟨.inl ⟨hkey, v, hv, rfl⟩, by simp [shift_leaf]⟩
  | value w => exact hT.elim
  | short k c ih =>
    by_cases hm : prefixLen key k = k.length
    · -- the key runs through the short node
      have hpre := prefixLen_eq_length_iff.mp hm
      rw [insert_short_through c _ hkey.ne_nil hm]
      rcases hT with ⟨hk, w, hw, rfl⟩ | ⟨hkne, hk, hc⟩
      · -- the short node ends in the terminator: its key is `key`
        obtain rfl := HexPath.prefix_eq hk hkey hpre
        rw [List.drop_length, insert_value_nil]
        have hself : shift k (leaf w) k = some w := by simpa using shift_apply_append k [] (leaf w)
        by_cases hwv : w = v
        · subst hwv
          simp only [ne_eq, not_true_eq_false, decide_false, Bool.false_eq_true, if_false]
          exact ⟨.inl ⟨hk, w, hw, rfl⟩, (Function.update_eq_self_iff.mpr hself.symm).symm⟩
        · simp only [ne_eq, hwv, not_false_eq_true, decide_true, if_true]
          refine ⟨.inl ⟨hk, v, hv, rfl⟩, ?_⟩
          simp only [toMap_short, toMap_value, shift_leaf, Function.update_idem]
      · obtain ⟨hc', hmap⟩ := ih hc (HexPath.prefix_drop hk hkey hpre)
        obtain ⟨r, rfl⟩ := hpre
        simp only [List.drop_left] at hc' hmap ⊢
        split
        · exact ⟨.inr ⟨hkne, hk, hc'⟩, by rw [toMap_short, hmap, shift_update]; rfl⟩
        · rename_i hd
          rw [insert_unchanged (by simpa using hd)] at hmap
          refine ⟨.inr ⟨hkne, hk, hc⟩, ?_⟩
          rw [toMap_short, ← shift_update, ← hmap]
    · -- the keys part inside the short node
      have hmk : prefixLen key k < k.length := lt_of_le_of_ne (prefixLen_le_length key k) hm
      have hmkey : prefixLen key k < key.length := by
        refine lt_of_le_of_ne (prefixLen_le_left key k) fun heq => ?_
        -- otherwise `key` would be a prefix of `k`
        have hkk : key <+: k := by
          have := take_prefixLen key k
          rw [heq, List.take_length] at this
          exact this ▸ List.take_prefix _ _
        rcases hT with ⟨hk, -⟩ | ⟨-, hk, -⟩
        · exact hm (heq.trans (congrArg List.length (HexPath.prefix_eq hkey hk hkk)))
        · exact hkey.not_prefix_nibbles hk hkk
      obtain ⟨kb, hkb⟩ : ∃ kb, k[prefixLen key k]? = some kb := ⟨_, List.getElem?_eq_getElem hmk⟩
      obtain ⟨b, hb⟩ : ∃ b, key[prefixLen key k]? = some b := ⟨_, List.getElem?_eq_getElem hmkey⟩
      have hne : kb ≠ b := by
        rw [List.getElem?_eq_getElem hmk, Option.some.injEq] at hkb
        rw [List.getElem?_eq_getElem hmkey, Option.some.injEq] at hb
        rw [← hkb, ← hb]
        exact (getElem_prefixLen_ne hmkey hmk).symm
      have hkb17 : kb.toNat < 17 := by
        rcases hT with ⟨hk, -⟩ | ⟨-, hk, -⟩
        · exact hk.toNat_lt (List.mem_of_getElem? hkb)
        · have := UInt8.lt_iff_toNat_lt.mp (hk kb (List.mem_of_getElem? hkb))
          simp only [UInt8.toNat_ofNat] at this
          omega
      have hb17 := hkey.toNat_lt (List.mem_of_getElem? hb)
      rw [insert_short_split c _ hkey.ne_nil hm hkb hb ⟨hkb17, hb17⟩]
      exact ⟨inner_split hT hkey hkb hb hne hv, toMap_split hkb hb hkb17 hb17⟩
  | full cs ih =>
    obtain ⟨x, xs, rfl⟩ := List.exists_cons_of_ne_nil hkey.ne_nil
    have hx17 : x.toNat < 17 := hkey.toNat_lt (by simp)
    have hd := hkey.drop_succ (m := 0) (b := x) rfl
    simp only [zero_add, List.drop_one, List.tail_cons] at hd
    rw [insert_full cs hx17, toMap_full, branch_update, childMaps_apply cs hx17]
    by_cases hx : x < 16
    · -- a nibble: the child is an inner node
      have hx16 : x.toNat < 16 := by simpa using UInt8.lt_iff_toNat_lt.mp hx
      obtain ⟨hc', hmap⟩ := ih ⟨x.toNat, hx17⟩ (hT.1 _ hx16) (hd.1 hx)
      split
      · refine ⟨inner_full_setChild hT (by rw [SlotShape, if_pos hx16]; exact hc'), ?_⟩
        rw [toMap_full, childMaps_setChild _ hx17, hmap]
      · rename_i hnd
        rw [insert_unchanged (by simpa using hnd)] at hmap
        refine ⟨hT, ?_⟩
        rw [← hmap, ← childMaps_apply cs hx17, Function.update_eq_self, toMap_full]
    · -- the terminator: the key ends at the value slot
      have hx16 : x.toNat = 16 := by
        have := UInt8.lt_iff_toNat_lt.not.mp hx
        simp only [UInt8.toNat_ofNat] at this
        omega
      obtain rfl := hd.2 hx
      have hleaf : (cs ⟨x.toNat, hx17⟩).Leaf := by
        have h16 : (⟨x.toNat, hx17⟩ : Fin 17) = 16 := Fin.ext (by simp [hx16])
        rw [h16]
        exact hT.2
      have hslot : SlotShape x (Tree.value v) := by
        rw [SlotShape, if_neg (by omega)]
        exact hv
      have hnew : ((cs ⟨x.toNat, hx17⟩).insert [] (.value v)).2 = .value v := by
        cases cs ⟨x.toNat, hx17⟩ <;> rfl
      rw [update_nil_of_leaf hleaf]
      split
      · refine ⟨inner_full_setChild hT (by rw [hnew]; exact hslot), ?_⟩
        rw [hnew, toMap_full, childMaps_setChild _ hx17]
        rfl
      · rename_i hnd
        have hsame := insert_unchanged (by simpa using hnd)
        rw [hnew] at hsame
        refine ⟨hT, ?_⟩
        rw [← toMap_value, hsame, ← childMaps_apply cs hx17, Function.update_eq_self, toMap_full]

/-! ## Deletion clears one path -/

theorem delete_short_mismatch {k key : Bytes} (c : Tree) (hm : prefixLen key k < k.length) :
    (Tree.short k c).delete key = (false, .short k c) := by
  simp [delete, hm]

theorem delete_short_whole {k key : Bytes} (c : Tree) (hm : ¬ prefixLen key k < k.length)
    (hl : prefixLen key k = key.length) : (Tree.short k c).delete key = (true, .nil) := by
  rw [hl] at hm
  simp only [delete, hl, hm, if_false, if_true]

theorem delete_short_below {k key : Bytes} (c : Tree) (hm : ¬ prefixLen key k < k.length)
    (hl : prefixLen key k ≠ key.length) :
    (Tree.short k c).delete key =
      if (c.delete (key.drop k.length)).1 then (true, mergeShort k (c.delete (key.drop k.length)).2)
      else (false, .short k c) := by
  simp only [delete, hm, hl, if_false]

theorem delete_full (cs : Fin 17 → Tree) {b : UInt8} (hb : b.toNat < 17) (rest : Bytes) :
    (Tree.full cs).delete (b :: rest) =
      if ((cs ⟨b.toNat, hb⟩).delete rest).1 then
        (true, reduceFull (setChild cs b ((cs ⟨b.toNat, hb⟩).delete rest).2))
      else (false, .full cs) := by
  simp only [delete, hb, dite_true]
  split <;> simp_all

theorem toMap_mergeShort (k : Bytes) (c : Tree) : (mergeShort k c).toMap = shift k c.toMap := by
  cases c <;> simp [mergeShort, shift_append]

theorem inner_mergeShort {k : Bytes} (hk : k ≠ []) (hkn : Nibbles k) {c : Tree} (hc : c.Inner) :
    (mergeShort k c).Inner := by
  cases c with
  | short ck cv =>
    rcases hc with ⟨⟨ns, hns, rfl⟩, v, hv, rfl⟩ | ⟨-, hckn, hcv⟩
    · -- the child ends in the terminator, and so does the merged key
      refine .inl ⟨⟨k ++ ns, fun x hx => ?_, by simp⟩, v, hv, rfl⟩
      rcases List.mem_append.mp hx with hx | hx
      · exact hkn x hx
      · exact hns x hx
    · refine .inr ⟨by simp [hk], fun x hx => ?_, hcv⟩
      rcases List.mem_append.mp hx with hx | hx
      · exact hkn x hx
      · exact hckn x hx
  | nil => exact .inr ⟨hk, hkn, hc⟩
  | value => exact hc.elim
  | full => exact .inr ⟨hk, hkn, hc⟩

/-- `onlyChild` finds the one child that is not nil. -/
theorem onlyChild_eq_some {cs : Fin 17 → Tree} {pos : Fin 17} (h : onlyChild cs = some pos) :
    cs pos ≠ .nil ∧ ∀ i, i ≠ pos → cs i = .nil := by
  unfold onlyChild at h
  split at h
  · rename_i i hf
    obtain rfl := Option.some.inj h
    have hmem : ∀ j, (!(cs j matches .nil)) = true ↔ j = i := by
      intro j
      have := congrArg (j ∈ ·) hf
      simpa using this
    refine ⟨fun h0 => ?_, fun j hj => ?_⟩
    · have := (hmem i).mpr rfl
      simp [h0] at this
    · have hn := mt (hmem j).mp hj
      cases hcj : cs j <;> simp_all
  · cases h

/-- With one child left, a full node stores that child's map under its nibble. -/
theorem childMaps_onlyChild {cs : Fin 17 → Tree} {pos : Fin 17} (h : onlyChild cs = some pos) :
    childMaps cs = Function.update (fun _ => empty) (UInt8.ofNat pos.val) (cs pos).toMap := by
  have hother := (onlyChild_eq_some h).2
  have hpos : (UInt8.ofNat pos.val).toNat = pos.val := by
    rw [UInt8.toNat_ofNat']
    omega
  funext x
  by_cases hx : x = UInt8.ofNat pos.val
  · subst hx
    simp only [childMaps, hpos, pos.isLt, dite_true, Function.update_self]
  · rw [Function.update_of_ne hx]
    simp only [childMaps]
    split_ifs with hx17
    · rw [hother _ fun h => hx ?_]
      · rfl
      · apply UInt8.toNat_inj.mp
        rw [hpos, ← h]
    · rfl

/-- The reduction of a full node keeps its map. -/
theorem toMap_reduceFull (cs : Fin 17 → Tree) : (reduceFull cs).toMap = (Tree.full cs).toMap := by
  unfold reduceFull
  split
  · rename_i pos h
    rw [toMap_full, childMaps_onlyChild h]
    -- each form of the reduced node is a shift by the child's nibble
    split
    · split
      · rename_i ck cv hc
        rw [toMap_short, shift_cons, hc, toMap_short]
      · rw [toMap_short, shift_cons, shift_nil]
    · rw [toMap_short, shift_cons, shift_nil]
  · rfl

/-- The reduction of a full node keeps the shape `Inner`. -/
theorem inner_reduceFull {cs : Fin 17 → Tree} (hT : (Tree.full cs).Inner) : (reduceFull cs).Inner := by
  unfold reduceFull
  split
  · rename_i pos h
    have hpos : (UInt8.ofNat pos.val) < 16 ↔ pos.val < 16 := by
      rw [UInt8.lt_iff_toNat_lt, UInt8.toNat_ofNat']
      simp only [UInt8.toNat_ofNat]
      omega
    split
    · rename_i h16
      have hlt : pos.val < 16 := by omega
      have hin := hT.1 pos hlt
      have hnib : Nibbles [UInt8.ofNat pos.val] := fun y hy => by
        rw [List.mem_singleton.mp hy]
        exact hpos.mpr hlt
      split
      · rename_i ck cv hc
        rw [hc] at hin
        exact inner_mergeShort (by simp) hnib hin
      · exact .inr ⟨by simp, hnib, hin⟩
    · -- the value slot is left: a non-empty value under the terminator
      rename_i h16
      have hp : pos = 16 := Fin.ext (by simpa using h16)
      subst hp
      have hne := (onlyChild_eq_some h).1
      have hleaf := hT.2
      cases hc : cs 16 with
      | value v =>
        rw [hc] at hleaf
        exact .inl ⟨⟨[], fun _ h => absurd h List.not_mem_nil, rfl⟩, v, hleaf, rfl⟩
      | nil => exact absurd hc hne
      | short => rw [hc] at hleaf; exact hleaf.elim
      | full => rw [hc] at hleaf; exact hleaf.elim
  · exact hT

/-- Clearing where a path ends leaves nothing of a `Leaf`. -/
theorem update_nil_none_of_leaf {t : Tree} (ht : t.Leaf) : Function.update t.toMap [] none = empty := by
  funext q
  cases t with
  | nil => cases q <;> simp [Function.update]
  | value w => cases q <;> simp [Function.update]
  | short => exact ht.elim
  | full => exact ht.elim

/-- Deleting the empty path from a `Leaf` leaves nil. -/
theorem delete_leaf {t : Tree} (ht : t.Leaf) : (t.delete []).2 = .nil := by
  cases t with
  | nil => rfl
  | value => rfl
  | short => exact ht.elim
  | full => exact ht.elim

/-- **Deletion clears one path.** Deleting a hex path from a tree of the
shape `Inner` keeps the shape and removes that path's value, leaving every
other path as it was. -/
theorem delete_inner (T : Tree) (hT : T.Inner) {key : Bytes} (hkey : HexPath key) :
    (T.delete key).2.Inner ∧ (T.delete key).2.toMap = Function.update T.toMap key none := by
  induction T generalizing key with
  | nil => exact ⟨trivial, (Function.update_eq_self_iff.mpr rfl).symm⟩
  | value w => exact hT.elim
  | short k c ih =>
    by_cases hlt : prefixLen key k < k.length
    · -- the key leaves the short key: nothing to delete
      have hnp : ¬ k <+: key := fun h => by
        rw [← prefixLen_eq_length_iff] at h
        omega
      rw [delete_short_mismatch c hlt]
      refine ⟨hT, ?_⟩
      rw [eq_comm, Function.update_eq_self_iff]
      exact (shift_apply_outside hnp _).symm
    · have hpre : k <+: key :=
        prefixLen_eq_length_iff.mp (le_antisymm (prefixLen_le_length _ _) (Nat.not_lt.mp hlt))
      rcases hT with ⟨hk, v, hv, rfl⟩ | ⟨hk0, hkn, hc⟩
      · -- the short key is a whole hex path: it is the key, and the node goes
        obtain rfl := hk.prefix_eq hkey hpre
        rw [delete_short_whole _ hlt (prefixLen_eq_length_iff.mpr (List.prefix_refl k))]
        refine ⟨trivial, ?_⟩
        rw [toMap_short, toMap_value, shift_leaf, Function.update_idem]
        exact (Function.update_eq_self_iff.mpr rfl).symm
      · -- a run of nibbles: the key goes on below it
        have hlong : prefixLen key k ≠ key.length := fun h => by
          have hlen := prefixLen_eq_length_iff.mpr hpre
          exact hkey.not_prefix_nibbles hkn (hpre.eq_of_length (by omega) ▸ List.prefix_refl k)
        obtain ⟨hc', hmap⟩ := ih hc (hkey.prefix_drop hkn hpre)
        rw [delete_short_below c hlt hlong]
        obtain ⟨r, rfl⟩ := hpre
        simp only [List.drop_left] at hc' hmap ⊢
        split
        · refine ⟨inner_mergeShort hk0 hkn hc', ?_⟩
          rw [toMap_mergeShort, hmap, toMap_short, shift_update]
        · rename_i hd
          rw [delete_unchanged (by simpa using hd)] at hmap
          refine ⟨.inr ⟨hk0, hkn, hc⟩, ?_⟩
          rw [toMap_short, ← shift_update, ← hmap]
  | full cs ih =>
    obtain ⟨x, xs, rfl⟩ := List.exists_cons_of_ne_nil hkey.ne_nil
    have hx17 : x.toNat < 17 := hkey.toNat_lt (by simp)
    have hd := hkey.drop_succ (m := 0) (b := x) rfl
    simp only [zero_add, List.drop_one, List.tail_cons] at hd
    -- the child the key leads into: an inner node under a nibble, a leaf
    -- under the terminator
    have hchild : SlotShape x ((cs ⟨x.toNat, hx17⟩).delete xs).2 ∧
        ((cs ⟨x.toNat, hx17⟩).delete xs).2.toMap = Function.update (childMaps cs x) xs none := by
      rw [childMaps_apply cs hx17]
      by_cases hx : x < 16
      · have hx16 : x.toNat < 16 := by simpa using UInt8.lt_iff_toNat_lt.mp hx
        obtain ⟨h₁, h₂⟩ := ih ⟨x.toNat, hx17⟩ (hT.1 _ hx16) (hd.1 hx)
        exact ⟨by rw [SlotShape, if_pos hx16]; exact h₁, h₂⟩
      · obtain rfl := hd.2 hx
        have hx16 : x.toNat = 16 := by
          have := UInt8.lt_iff_toNat_lt.not.mp hx
          simp only [UInt8.toNat_ofNat] at this
          omega
        have hleaf : (cs ⟨x.toNat, hx17⟩).Leaf := by
          have h16 : (⟨x.toNat, hx17⟩ : Fin 17) = 16 := Fin.ext (by simp [hx16])
          rw [h16]
          exact hT.2
        rw [delete_leaf hleaf, update_nil_none_of_leaf hleaf, SlotShape, if_neg (by omega)]
        exact ⟨trivial, rfl⟩
    rw [delete_full cs hx17, toMap_full, branch_update]
    split
    · refine ⟨inner_reduceFull (inner_full_setChild hT hchild.1), ?_⟩
      rw [toMap_reduceFull, toMap_full, childMaps_setChild _ hx17, hchild.2]
    · rename_i hnd
      have hmap := hchild.2
      rw [delete_unchanged (by simpa using hnd), ← childMaps_apply cs hx17] at hmap
      refine ⟨hT, ?_⟩
      rw [← hmap, Function.update_eq_self, toMap_full]

end Tree

end Trie

end Bazacoin
