import Bazacoin.Trie.Stored
import Bazacoin.Trie.Map

/-!
# A committed trie opens again from its root (`trie/trie.go`, `trie/hasher.go`)

`Commit` hashes the root with a database writer: every node whose encoding
is not shorter than a hash, and the root in any case, is written under the
Keccak hash of its encoding. `New(root, db)` opens a trie at a root hash and
resolves nodes from the database as `TryGet` walks them.

This module proves the round trip over the whole trie: on every trie built by
updates and deletes, `Commit` returns, and both the trie it leaves in memory
and the trie `New` opens at the returned hash in the written database load
to the tree the trie loaded to before (`commit_loads`). By `Trie.Map` they
then answer every `TryGet` alike (`committed_tries_answer_alike`).

- `loads_decoded`: the decoded form of a fresh node loads to the node's tree
  from any database holding what `hash` writes for it. A stored child is a
  hash node there, which resolves to the decoded child (`Stored`).
- `Writes.Sound`: what the database must do with the writes. No key is
  written with two different encodings, which Keccak gives unless it
  collides on the trie's nodes, and the root hash is not one of the two that
  `New` opens as the empty trie.
-/

set_option linter.dupNamespace false

namespace Bazacoin

namespace Trie

open Rlp

/-! ## Loading without the database -/

namespace Loads

variable {db db' : Bytes → Option Bytes} {g g' : UInt16}

/-- A fresh node holds no hash node, so it loads the same from any database. -/
theorem of_fresh {n : Node} {T : Tree} (hl : Loads db g n T) (hf : n.Fresh) : Loads db' g' n T := by
  induction hl with
  | nil => exact .nil
  | value v => exact .value v
  | short _ ih => exact .short (ih hf.2)
  | full _ ih => exact .full fun i => ih i (hf.2 i)
  | hash => exact hf.elim

/-- The hash in the flags plays no part in loading. -/
theorem withHash {n : Node} {T : Tree} (hl : Loads db g n T) (hash : Option Bytes) :
    Loads db g (n.withHash hash) T := by
  cases hl with
  | nil => exact .nil
  | value v => exact .value v
  | short hc => exact .short hc
  | full hcs => exact .full hcs
  | hash hdb hdec hT => exact .hash hdb hdec hT

end Loads

section Writes

variable (keccak : Bytes → Digest) (h : Hasher)

/-! ## What `hash` writes for a fresh node -/

/-- `store` of the collapsed form of a fresh short or full node: kept in its
parent when its encoding is shorter than a hash and nothing forces it out,
and otherwise the hash node of its encoding, written under that hash. -/
theorem store_collapse_inner {n : Node} (hf : n.Fresh) (hi : n.isInner = true) (commit force : Bool) :
    Hasher.store keccak (n.collapse keccak) commit force =
      if (n.collapse keccak).encode.length < 32 ∧ !force then (n.collapse keccak, [])
      else (.hash (keccak (n.collapse keccak).encode).val,
        if commit then [((keccak (n.collapse keccak).encode).val, (n.collapse keccak).encode)] else []) := by
  cases n with
  | short k c f => simp [Node.collapse, Hasher.store, Node.cache, hf.1]
  | full cs f => simp [Node.collapse, Hasher.store, Node.cache, hf.1]
  | _ => simp [Node.isInner] at hi

/-- On a fresh node `hash` writes what `hashChildren` writes for the
children, then what `store` writes for the collapsed node. -/
theorem hash_writes {n : Node} (hf : n.Fresh) (commit force : Bool) :
    (h.hash keccak n commit force).2.2 =
      (h.hashChildren keccak n commit).2.2 ++ (Hasher.store keccak (n.collapse keccak) commit force).2 := by
  rw [Hasher.hash_eq, cacheHit_fresh h hf, ← (hash_fresh keccak h commit hf).2]

/-- A stored node is written: a fresh short or full node whose encoding is
not shorter than a hash, or any when forced. -/
theorem mem_hash_writes_self {n : Node} (hf : n.Fresh) (hi : n.isInner = true) {force : Bool}
    (hlen : 32 ≤ (n.collapse keccak).encode.length ∨ force = true) :
    ((keccak (n.collapse keccak).encode).val, (n.collapse keccak).encode) ∈ (h.hash keccak n true force).2.2 := by
  rw [hash_writes keccak h hf, store_collapse_inner keccak hf hi, if_neg]
  · simp
  · rintro ⟨hlt, hforce⟩
    rcases hlen with hle | rfl
    · omega
    · simp at hforce

/-- What `hash` writes for the child of a short node it writes for the node. -/
theorem mem_hash_writes_short {k : Bytes} {c : Node} {f : NodeFlag} (hf : (Node.short k c f).Fresh)
    (hc : ∀ v, c ≠ .value v) {commit force : Bool} {x : Bytes × Bytes}
    (hx : x ∈ (h.hash keccak c commit false).2.2) : x ∈ (h.hash keccak (.short k c f) commit force).2.2 := by
  rw [hash_writes keccak h hf]
  refine List.mem_append_left _ ?_
  cases c with
  | value v => exact (hc v rfl).elim
  | _ => exact hx

/-- What `hash` writes for a nibble child of a full node it writes for the
node. -/
theorem mem_hash_writes_full {cs : Fin 17 → Node} {f : NodeFlag} (hf : (Node.full cs f).Fresh)
    {i : Fin 17} (hi : i.val < 16) {commit force : Bool} {x : Bytes × Bytes}
    (hx : x ∈ (h.hash keccak (cs i) commit false).2.2) : x ∈ (h.hash keccak (.full cs f) commit force).2.2 := by
  rw [hash_writes keccak h hf]
  refine List.mem_append_left _ ?_
  have hne : i.val ≠ 16 := by omega
  -- a nil child writes nothing; any other is hashed
  have hnil : (cs i).isNil = false := by
    cases hci : cs i with
    | nil => rw [hci, Hasher.hash_eq] at hx; simp [Hasher.cacheHit, Node.cache, Hasher.hashChildren,
        Hasher.store] at hx
    | _ => rfl
  simp only [Hasher.hashChildren, Hasher.collapseFull, List.mem_flatten, List.mem_map, List.mem_finRange,
    true_and]
  refine ⟨_, ⟨⟨i.val, hi⟩, rfl⟩, ?_⟩
  have hcast : (Fin.castSucc ⟨i.val, hi⟩ : Fin 17) = i := Fin.ext rfl
  rw [hcast, if_neg hne]
  cases hci : cs i with
  | nil => simp [hci, Node.isNil] at hnil
  | _ => simpa [hci] using hx

end Writes

/-! ## The decoded nodes load from the written database -/

/-- `db` holds every write of `w`, and each is a Go byte slice. -/
def HeldBy (w : Writes) (db : Bytes → Option Bytes) : Prop :=
  ∀ k e, (k, e) ∈ w → db k = some e ∧ e.length < 2 ^ 63

section Decoded

variable (keccak : Bytes → Digest) (h : Hasher) {db db' : Bytes → Option Bytes} {g gen : UInt16}

/-- A child slot of a decoded node loads to the child's tree: the hash node of
a child whose encoding is written reads back from the database, and any other
child is decoded in place. -/
theorem loads_decoded_slot {c : Node} {Tc : Tree} (hl : Loads db g c Tc) (hT : Tc.Inner ∨ Tc.Leaf)
    (hf : c.Fresh) (hw : HeldBy (h.hash keccak c true false).2.2 db')
    (ih : Loads db' gen (c.decoded keccak gen) Tc) :
    Loads db' gen (if c.isInner ∧ 32 ≤ (c.collapse keccak).encode.length then
      .hash (keccak (c.collapse keccak).encode).val else c.decoded keccak gen) Tc := by
  split_ifs with hbig
  · obtain ⟨hi, hlen⟩ := hbig
    have hTi : Tc.Inner := hT.resolve_right (hl.not_leaf_of_isInner hi)
    obtain ⟨hdb, hfit⟩ := hw _ _ (mem_hash_writes_self keccak h hf hi (.inl hlen))
    have hdec : decodeNode (some (keccak (c.collapse keccak).encode).val) ((c.collapse keccak).encode ++ []) gen =
        .ok ((c.decoded keccak gen).withHash (some (keccak (c.collapse keccak).encode).val)) :=
      decodeNode_collapse c hl hTi hf hi (lt_of_lt_of_le hfit (by norm_num)) _ []
    rw [List.append_nil] at hdec
    exact .hash hdb hdec (ih.withHash _)
  · exact ih

/-- **The decoded form of a fresh node loads to the node's tree** from a
database that holds what `hash` writes for the node. The induction is on the
node; each child slot is `loads_decoded_slot`, except a short node's value and
a full node's value slot, which are decoded as they are. -/
theorem loads_decoded : ∀ (n : Node) {T : Tree} {force : Bool}, Loads db g n T → T.Inner ∨ T.Leaf →
    n.Fresh → HeldBy (h.hash keccak n true force).2.2 db' → Loads db' gen (n.decoded keccak gen) T := by
  intro n
  induction n with
  | nil =>
    intro T _ hl _ _ _
    rw [hl.nil_tree]
    exact .nil
  | value v =>
    intro T _ hl _ _ _
    rw [hl.value_tree]
    exact .value v
  | hash _ =>
    intro _ _ _ _ hf
    exact hf.elim
  | short k c f ihc =>
    intro T force hl hT hf hw
    cases hl with
    | @short _ _ _ Tc hc =>
      -- under a short node: the value of a leaf, or an inner child
      have hTc : Tc.Inner ∨ Tc.Leaf := by
        rcases hT with (⟨-, v, hv, rfl⟩ | ⟨-, -, hTc⟩) | hleaf
        · exact .inr hv
        · exact .inl hTc
        · exact hleaf.elim
      rw [Node.decoded]
      refine .short ?_
      by_cases hv : ∃ v, c = .value v
      · obtain ⟨v, rfl⟩ := hv
        simpa [Node.isInner, Node.decoded] using (hc.of_fresh trivial : Loads db' gen (.value v) Tc)
      · simp only [not_exists] at hv
        have hwc : HeldBy (h.hash keccak c true false).2.2 db' :=
          fun k e hx => hw k e (mem_hash_writes_short keccak h hf hv hx)
        exact loads_decoded_slot keccak h hc hTc hf.2 hwc (ihc hc hTc hf.2 hwc)
  | full cs f ihcs =>
    intro T force hl hT hf hw
    cases hl with
    | @full _ _ Ts hcs =>
      obtain ⟨hin, hleaf⟩ : (∀ i : Fin 17, i.val < 16 → (Ts i).Inner) ∧ (Ts 16).Leaf := by
        rcases hT with hT | hT
        · exact hT
        · exact hT.elim
      rw [Node.decoded]
      refine .full fun i => ?_
      by_cases hi : i.val < 16
      · have hwc : HeldBy (h.hash keccak (cs i) true false).2.2 db' :=
          fun k e hx => hw k e (mem_hash_writes_full keccak h hf hi hx)
        exact loads_decoded_slot keccak h (hcs i) (.inl (hin i hi)) (hf.2 i) hwc
          (ihcs i (hcs i) (.inl (hin i hi)) (hf.2 i) hwc)
      · -- the value slot holds nil or a value, decoded as it is
        obtain rfl : i = 16 := Fin.ext (by have := i.isLt; simp; omega)
        obtain ⟨-, -, -, hinner16⟩ := value_slot (hcs 16) hleaf (hf.2 16)
        rw [if_neg (by simp [hinner16]), Node.decoded_of_not_isInner keccak gen hinner16]
        exact (hcs 16).of_fresh (hf.2 16)

end Decoded


/-! ## The database after a commit -/

namespace Trie

@[simp] theorem putAll_nil (db : Bytes → Option Bytes) : putAll db [] = db := rfl

@[simp] theorem putAll_cons (db : Bytes → Option Bytes) (k e : Bytes) (w : Writes) :
    putAll db ((k, e) :: w) = putAll (Function.update db k (some e)) w := rfl

/-- A key the writes do not name keeps what the database held. -/
theorem putAll_of_not_mem {w : Writes} {k : Bytes} (hk : ∀ e, (k, e) ∉ w) (db : Bytes → Option Bytes) :
    putAll db w k = db k := by
  induction w generalizing db with
  | nil => rfl
  | cons x w ih =>
    obtain ⟨k', e'⟩ := x
    have hne : k ≠ k' := by
      rintro rfl
      exact hk e' List.mem_cons_self
    rw [putAll_cons, ih (fun e he => hk e (List.mem_cons_of_mem _ he)), Function.update_of_ne hne]

/-- After writes that never give a key two different encodings, the database
holds each of them. The induction is on the writes: a key written again later
holds the later write, which is the same. -/
theorem putAll_of_mem {w : Writes} (hw : ∀ k e₁ e₂, (k, e₁) ∈ w → (k, e₂) ∈ w → e₁ = e₂)
    (db : Bytes → Option Bytes) {k e : Bytes} (hke : (k, e) ∈ w) : putAll db w k = some e := by
  induction w generalizing db with
  | nil => simp at hke
  | cons x w ih =>
    obtain ⟨k', e'⟩ := x
    have hw' : ∀ k e₁ e₂, (k, e₁) ∈ w → (k, e₂) ∈ w → e₁ = e₂ :=
      fun k e₁ e₂ h₁ h₂ => hw k e₁ e₂ (List.mem_cons_of_mem _ h₁) (List.mem_cons_of_mem _ h₂)
    rw [putAll_cons]
    by_cases hlater : ∃ e'', (k, e'') ∈ w
    · obtain ⟨e'', he''⟩ := hlater
      obtain rfl := hw k e'' e (List.mem_cons_of_mem _ he'') hke
      exact ih hw' _ he''
    · -- the first write is the only one of this key
      simp only [not_exists] at hlater
      rw [putAll_of_not_mem hlater]
      rcases List.mem_cons.mp hke with hfirst | hrest
      · obtain ⟨rfl, rfl⟩ := Prod.mk.inj hfirst
        simp
      · exact (hlater e hrest).elim

end Trie

/-- Writes a database holds as they are: no key is written with two different
encodings, every encoding is a Go byte slice, and no key is one of the two
hashes `New` opens as the empty trie. Keccak gives the nodes of a trie such
keys unless it collides on them. -/
structure Writes.Sound (w : Writes) : Prop where
  functional : ∀ k e₁ e₂, (k, e₁) ∈ w → (k, e₂) ∈ w → e₁ = e₂
  fits : ∀ k e, (k, e) ∈ w → e.length < 2 ^ 63
  notEmpty : ∀ k e, (k, e) ∈ w → k ≠ List.replicate 32 0 ∧ k ≠ emptyRoot.val

theorem Writes.Sound.heldBy {w : Writes} (hw : w.Sound) (db : Bytes → Option Bytes) :
    HeldBy w (Trie.putAll db w) :=
  fun _ _ hke => ⟨Trie.putAll_of_mem hw.functional db hke, hw.fits _ _ hke⟩

section Commit

variable (keccak : Bytes → Digest) (h : Hasher) {db : Bytes → Option Bytes} {g : UInt16}

/-- The node `hash` keeps in place of a fresh node loads to the same tree: it
only records hashes in the flags. The induction is on the loading. -/
theorem loads_hash_cached_fresh {n : Node} {T : Tree} (hl : Loads db g n T) (hf : n.Fresh) (commit force : Bool) :
    Loads db g (h.hash keccak n commit force).2.1 T := by
  induction hl generalizing force with
  | nil => rw [Hasher.hash_eq]; exact .nil
  | value v => rw [Hasher.hash_eq]; exact .value v
  | hash => exact hf.elim
  | @short k c f Tc hc ih =>
    rw [Hasher.hash_eq, cacheHit_fresh h hf]
    simp only [Hasher.hashChildren, Hasher.collapseShort]
    split
    · exact .short hc
    · exact .short (ih hf.2 false)
  | @full cs f Ts hcs ih =>
    rw [Hasher.hash_eq, cacheHit_fresh h hf]
    simp only [Hasher.hashChildren, Hasher.collapseFull]
    refine .full fun i => ?_
    -- the value slot is kept, nil slots stay nil, the others are hashed
    split
    · exact hcs i
    · split
      · rename_i hnil
        have hci : cs i = .nil := by
          revert hnil
          cases cs i <;> simp
        show Loads db g .nil (Ts i)
        rw [← hci]
        exact hcs i
      · exact ih i (hf.2 i) false

/-- Forced, `hash` gives a fresh short or full node the hash node of its
collapsed encoding. -/
theorem hash_force_fresh {n : Node} (hf : n.Fresh) (hi : n.isInner = true) (commit : Bool) :
    (h.hash keccak n commit true).1 = .hash (keccak (n.collapse keccak).encode).val := by
  rw [Hasher.hash_eq, cacheHit_fresh h hf]
  dsimp only
  rw [(hash_fresh keccak h commit hf).2, store_collapse_inner keccak hf hi, if_neg (by simp)]

end Commit


/-! ## Commit, then open the root again -/

section Reopen

variable (keccak : Bytes → Digest)

/-- A short or full root is hashed by `hashRoot`, forced. -/
theorem hashRoot_of_isInner {t : Trie} {n : Node} (hroot : t.root = n) (hi : n.isInner = true) (commit : Bool) :
    t.hashRoot keccak commit = (Hasher.mk t.cachegen t.cachelimit).hash keccak n commit true := by
  cases n <;> simp_all [Trie.hashRoot, Node.isInner]

/-- `Commit` of a fresh short or full root, and `New` at the hash it returns:
the committed trie keeps the nodes with their hashes recorded, and the trie
`New` opens is the decoded root, read back from the database the commit wrote
to. Both load to the tree the root loads to. -/
theorem commit_loads_inner {t : Trie} {n : Node} (hroot : t.root = n) (hi : n.isInner = true) (hf : n.Fresh)
    {T : Tree} (hl : Loads t.db t.cachegen n T) (hT : T.Inner)
    (hw : ((Hasher.mk t.cachegen t.cachelimit).hash keccak n true true).2.2.Sound) :
    ∃ d t' t'', t.Commit keccak = .ok (d, t') ∧ Trie.New d t'.db = .ok t'' ∧
      Loads t'.db t'.cachegen t'.root T ∧ Loads t''.db t''.cachegen t''.root T := by
  obtain ⟨H, hH⟩ : ∃ H : Hasher, H = ⟨t.cachegen, t.cachelimit⟩ := ⟨_, rfl⟩
  rw [← hH] at hw
  obtain ⟨enc, henc⟩ : ∃ enc, enc = (n.collapse keccak).encode := ⟨_, rfl⟩
  have hmem : ((keccak enc).val, enc) ∈ (H.hash keccak n true true).2.2 := by
    rw [henc]
    exact mem_hash_writes_self keccak H hf hi (.inr rfl)
  have hheld := hw.heldBy t.db
  obtain ⟨hdb, hfit⟩ := hheld _ _ hmem
  obtain ⟨hzero, hempty⟩ := hw.notEmpty _ _ hmem
  -- the database answers the root hash with the root's encoding, which reads back
  have hdec : decodeNode (some (keccak enc).val) (enc ++ []) 0 =
      .ok ((n.decoded keccak 0).withHash (some (keccak enc).val)) := by
    rw [henc]
    exact decodeNode_collapse n hl hT hf hi (lt_of_lt_of_le (henc ▸ hfit) (by norm_num)) _ []
  rw [List.append_nil] at hdec
  obtain ⟨db', hdb'⟩ : ∃ db', db' = Trie.putAll t.db (H.hash keccak n true true).2.2 := ⟨_, rfl⟩
  rw [← hdb'] at hdb
  refine ⟨keccak enc,
    { t with root := (H.hash keccak n true true).2.1, db := db', cachegen := t.cachegen + 1 },
    ⟨(n.decoded keccak 0).withHash (some (keccak enc).val), db', (keccak enc).val, 0, 0⟩, ?_, ?_, ?_, ?_⟩
  · -- `Commit` returns the hash of the root's encoding
    have hhashed := hash_force_fresh keccak H hf hi true
    rw [Trie.Commit, hashRoot_of_isInner keccak hroot hi, ← hH, hdb']
    rcases hr : H.hash keccak n true true with ⟨hashed, cached, w⟩
    rw [hr] at hhashed
    dsimp only at hhashed
    simp [hhashed, Trie.rootDigest, henc]
  · -- `New` finds a hash that is neither zero nor the empty root, and resolves it
    have hne : keccak enc ≠ emptyRoot := fun h => hempty (congrArg Subtype.val h)
    rw [Trie.New, if_pos ⟨hzero, hne⟩]
    simp [Trie.resolveHash, hdb, hdec]
  · exact loads_hash_cached_fresh keccak H (hl.of_fresh hf) hf true true
  · show Loads db' 0 _ T
    rw [hdb']
    exact (loads_decoded keccak H n hl (.inl hT) hf hheld).withHash _

/-- `Commit` of a fresh root loading to a tree of the shape `Inner`, and `New`
at the hash it returns: both tries load to the same tree. The empty trie
commits to `emptyRoot`, which `New` opens as an empty trie. -/
theorem commit_loads {t : Trie} (hf : t.root.Fresh) {T : Tree} (hl : Loads t.db t.cachegen t.root T)
    (hT : T.Inner) (hw : (t.hashRoot keccak true).2.2.Sound) :
    ∃ d t' t'', t.Commit keccak = .ok (d, t') ∧ Trie.New d t'.db = .ok t'' ∧
      Loads t'.db t'.cachegen t'.root T ∧ Loads t''.db t''.cachegen t''.root T := by
  cases hroot : t.root with
  | nil =>
    rw [hroot] at hl
    rw [hl.nil_tree]
    refine ⟨emptyRoot, { t with root := .nil, cachegen := t.cachegen + 1 }, ⟨.nil, t.db, emptyRoot.val, 0, 0⟩,
      ?_, ?_, .nil, .nil⟩
    · simp [Trie.Commit, Trie.hashRoot, hroot, Trie.rootDigest]
    · simp [Trie.New]
  | value v =>
    rw [hroot] at hl
    rw [hl.value_tree] at hT
    exact hT.elim
  | hash _ =>
    rw [hroot] at hf
    exact hf.elim
  | short k c f =>
    rw [hroot] at hf hl
    rw [hashRoot_of_isInner keccak hroot rfl] at hw
    exact commit_loads_inner keccak hroot rfl hf hl hT hw
  | full cs f =>
    rw [hroot] at hf hl
    rw [hashRoot_of_isInner keccak hroot rfl] at hw
    exact commit_loads_inner keccak hroot rfl hf hl hT hw

/-- **After `Commit`, the trie in memory and the trie `New` opens at the
returned root answer every `TryGet` as the trie did before.** This holds for
every trie built by updates and deletes, given the stack each call needs and
writes the database holds as they are. -/
theorem committed_tries_answer_alike {t : Trie} (hb : t.Built) (hw : (t.hashRoot keccak true).2.2.Sound) :
    ∃ d t', t.Commit keccak = .ok (d, t') ∧ ∃ t'', Trie.New d t'.db = .ok t'' ∧
      ∀ (fuel : Nat) (key : Bytes), 4 * key.length + 4 ≤ fuel →
        ∃ v u u' u'', t.TryGet fuel key = .ok (v, u) ∧ t'.TryGet fuel key = .ok (v, u') ∧
          t''.TryGet fuel key = .ok (v, u'') := by
  obtain ⟨hfresh, T, hload, hT⟩ := hb.inner
  obtain ⟨d, t', t'', hc, hnew, hl', hl''⟩ := commit_loads keccak hfresh hload hT hw
  refine ⟨d, t', hc, t'', hnew, fun fuel key hfuel => ?_⟩
  -- all three load to the same tree, so they all answer its map at the key
  obtain ⟨u, hu, -⟩ := Trie.TryGet_reads hload hT hfuel
  obtain ⟨u', hu', -⟩ := Trie.TryGet_reads hl' hT hfuel
  obtain ⟨u'', hu'', -⟩ := Trie.TryGet_reads hl'' hT hfuel
  exact ⟨_, u, u', u'', hu, hu', hu''⟩


/-- The trie of the keys `[1]` and `[2]` writes one node, its root, and
answers as before from memory and from the database. -/
theorem committed_tries_answer_alike_two_keys :
    ∃ d t', twoKeyTrie.Commit bytesToHash = .ok (d, t') ∧ ∃ t'', Trie.New d t'.db = .ok t'' ∧
      ∀ (fuel : Nat) (key : Bytes), 4 * key.length + 4 ≤ fuel →
        ∃ v u u' u'', twoKeyTrie.TryGet fuel key = .ok (v, u) ∧ t'.TryGet fuel key = .ok (v, u') ∧
          t''.TryGet fuel key = .ok (v, u'') :=
  committed_tries_answer_alike bytesToHash built_twoKeyTrie (by
    have hw : (twoKeyTrie.hashRoot bytesToHash true).2.2 =
        [(List.replicate 8 0 ++ [215, 16, 213, 128, 194, 32, 5, 194, 32, 6] ++ List.replicate 14 128,
          [215, 16, 213, 128, 194, 32, 5, 194, 32, 6] ++ List.replicate 14 128)] := by decide
    rw [hw]
    refine ⟨?_, ?_, ?_⟩
    · intro k e₁ e₂ h₁ h₂
      simp only [List.mem_singleton, Prod.mk.injEq] at h₁ h₂
      rw [h₁.2, h₂.2]
    · intro k e he
      simp only [List.mem_singleton, Prod.mk.injEq] at he
      rw [he.2]
      decide
    · intro k e he
      simp only [List.mem_singleton, Prod.mk.injEq] at he
      rw [he.1]
      decide)

end Reopen

end Trie

end Bazacoin
