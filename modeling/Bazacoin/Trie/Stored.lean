import Bazacoin.Trie.Update
import Bazacoin.Trie.Walk

/-!
# What the hasher stores reads back (`trie/hasher.go`, `trie/node.go`)

On a node with no cached hash `hashChildren` computes `Node.collapse`: the
short key in compact form, a nil child as an empty string, the value slot as
it is, and each other child its reference `Node.refOf`. The reference is the
collapsed child itself when its encoding is shorter than a hash, and the hash
node of that encoding otherwise (`hash_fresh`).

`Node.decoded` is what the database form of a node stands for: the node with
its hex keys and its values, each child the collapsed node embeds decoded in
turn, and each other child the hash node of that child's encoding.
`decodeNode` reads it back from the encoding of the collapsed node
(`decodeNode_collapse`). The proof is assembled from one read-back lemma
for each part of the encoding: the key string, a reference and the value
slot. On the nodes of a trie built by updates from an empty one, `decodeNode`
of the encoding `hashChildren` collapses the node to gives `Node.decoded`
(`decodeNode_hashChildren_built`).

Go's byte slices are shorter than `2^63` bytes. The model's byte strings
are not bounded, so the encoding of the stored node is assumed to be a Go
slice.
-/

set_option linter.dupNamespace false

namespace Bazacoin

namespace Trie

open Rlp

namespace Node

variable (keccak : Bytes → Digest)

/-- What `store` makes of a child `c` whose collapsed form is `cc`: nil and
hash nodes stay, a node whose encoding is shorter than a hash stays
embedded, and any other becomes the hash node of its encoding. -/
def refOf (c cc : Node) : Node :=
  match c with
  | .nil => .nil
  | .hash h => .hash h
  | _ => if cc.encode.length < 32 then cc else .hash (keccak cc.encode).val

/-- The collapsed form `hashChildren` makes of a node with no cached hash:
the short key in compact form, a short node's value and the value slot as
they are, a nil child as the empty string, and every other child its
reference `refOf` to its own collapsed form. -/
def collapse : Node → Node
  | .short k c f =>
    .short (hexToCompact k)
      (match c with
      | .value v => .value v
      | _ => if c.isNil then .value [] else refOf keccak c (collapse c)) f
  | .full cs f =>
    .full (fun i =>
      if i.val = 16 then (if (cs i).isNil then .value [] else cs i)
      else if (cs i).isNil then .value [] else refOf keccak (cs i) (collapse (cs i))) f
  | n => n

/-- The node the database form of `n` stands for, decoded at cache
generation `gen`: the hex keys and values of `n`, each child whose collapsed
encoding is shorter than a hash decoded in turn, and each other short or full
child the hash node of its encoding. Decoding caches no hash and marks the
nodes clean. -/
def decoded (gen : UInt16) : Node → Node
  | .short k c _ =>
    .short k
      (if c.isInner ∧ 32 ≤ (collapse keccak c).encode.length then .hash (keccak (collapse keccak c).encode).val
      else decoded gen c) ⟨none, gen, false⟩
  | .full cs _ =>
    .full (fun i =>
      if (cs i).isInner ∧ 32 ≤ (collapse keccak (cs i)).encode.length then
        .hash (keccak (collapse keccak (cs i)).encode).val
      else decoded gen (cs i)) ⟨none, gen, false⟩
  | n => n

end Node

/-! ## The hasher on fresh nodes -/

section Hashing

variable (keccak : Bytes → Digest) (h : Hasher)

/-- A fresh node has no cached hash for `hash` to answer with. -/
theorem cacheHit_fresh {n : Node} (hn : n.Fresh) (commit : Bool) : h.cacheHit n commit = none := by
  cases n with
  | short k c f => simp [Hasher.cacheHit, Node.cache, hn.1]
  | full cs f => simp [Hasher.cacheHit, Node.cache, hn.1]
  | _ => rfl

/-- `store` of a collapsed node that caches no hash is its reference. -/
theorem store_collapse {n cc : Node} (hn : n.isHash = false) (hnil : cc.isNil = n.isNil)
    (hcache : cc.cache.1 = none) (hcc : cc.isHash = false) (commit : Bool) :
    (Hasher.store keccak cc commit false).1 = Node.refOf keccak n cc := by
  cases n with
  | hash _ => simp [Node.isHash] at hn
  | nil =>
    cases cc <;> simp_all [Node.isNil, Node.isHash, Hasher.store, Node.refOf]
  | _ =>
    cases cc <;> simp_all [Node.isNil, Node.isHash, Hasher.store, Node.refOf, Node.cache] <;> split_ifs <;> rfl

/-- **On a fresh node the hasher computes `collapse`**, and `hash` gives its
reference. The induction is on the node. -/
theorem hash_fresh (commit : Bool) : ∀ {n : Node}, n.Fresh →
    (h.hash keccak n commit false).1 = Node.refOf keccak n (n.collapse keccak) ∧
      (h.hashChildren keccak n commit).1 = n.collapse keccak := by
  intro n hn
  induction n with
  | short k c f ihc =>
    have hchildren : (h.hashChildren keccak (.short k c f) commit).1 = (Node.short k c f).collapse keccak := by
      simp only [Hasher.hashChildren, Hasher.collapseShort, Node.collapse]
      cases c with
      | value v => rfl
      | hash _ => exact hn.2.elim
      | nil => rfl
      | _ =>
        -- the reference to a short or full child is never nil
        simp only [Bool.false_eq_true, ↓reduceIte, (ihc hn.2).1, Node.refOf, Node.isNil]
        split_ifs <;> first | rfl | simp_all [Node.collapse]
    refine ⟨?_, hchildren⟩
    rw [Hasher.hash_eq, cacheHit_fresh h hn]
    dsimp only
    rw [hchildren]
    refine store_collapse keccak rfl rfl ?_ rfl commit
    exact hn.1
  | full cs f ihcs =>
    have hchildren : (h.hashChildren keccak (.full cs f) commit).1 = (Node.full cs f).collapse keccak := by
      simp only [Hasher.hashChildren, Hasher.collapseFull, Node.collapse]
      congr 1
      funext i
      have hi := (ihcs i (hn.2 i)).1
      generalize cs i = ci at hi ⊢
      cases ci <;> split_ifs <;> simp_all [Node.refOf, Node.isNil]
    refine ⟨?_, hchildren⟩
    rw [Hasher.hash_eq, cacheHit_fresh h hn]
    dsimp only
    rw [hchildren]
    refine store_collapse keccak rfl rfl ?_ rfl commit
    exact hn.1
  | hash _ => exact hn.elim
  | value v =>
    refine ⟨?_, rfl⟩
    rw [Hasher.hash_eq, cacheHit_fresh h hn]
    exact store_collapse keccak rfl rfl rfl rfl commit
  | nil => exact ⟨rfl, rfl⟩

end Hashing

/-! ## Reading the parts of an encoding back -/

section Reading

variable {hash : Option Bytes} {gen : UInt16}

/-- `decodeNode` on a list of two values: the short node `decodeShort` reads. -/
theorem decodeNode_short {buf elems r : Bytes} (hne : buf ≠ []) (hs : splitList buf = .ok (elems, r))
    (hc : countValues elems = .ok 2) :
    decodeNode hash buf gen = (decodeShort hash elems gen).handle (.error <| wrapError · "short") := by
  rw [decodeNode, if_neg (by simpa using hne)]
  split
  · next e he => rw [hs] at he; cases he
  · next m he => rw [hs] at he; cases he
  · next elems' r' he =>
    rw [hs] at he
    cases he
    simp only [hc, Outcome.bind_ok, ↓reduceIte]

/-- `decodeNode` on a list of seventeen values: the full node `decodeFull` reads. -/
theorem decodeNode_full {buf elems r : Bytes} (hne : buf ≠ []) (hs : splitList buf = .ok (elems, r))
    (hc : countValues elems = .ok 17) :
    decodeNode hash buf gen = (decodeFull hash elems gen).handle (.error <| wrapError · "full") := by
  rw [decodeNode, if_neg (by simpa using hne)]
  split
  · next e he => rw [hs] at he; cases he
  · next m he => rw [hs] at he; cases he
  · next elems' r' he =>
    rw [hs] at he
    cases he
    simp only [hc, Outcome.bind_ok]
    rfl

/-- A short node whose key ends in the terminator holds a value. -/
theorem decodeShort_value {elems kbuf r key val r' : Bytes} (hs : splitString elems = .ok (kbuf, r))
    (hk : compactToHex kbuf = some key) (ht : hasTerm key = true) (hv : splitString r = .ok (val, r')) :
    decodeShort hash elems gen = .ok (.short key (.value val) ⟨hash, gen, false⟩) := by
  rw [decodeShort]
  split
  · next e he => rw [hs] at he; cases he
  · next m he => rw [hs] at he; cases he
  · next kbuf' rest' he =>
    rw [hs] at he
    cases he
    simp only [hk, ht, hv, ↓reduceIte]

/-- A short node whose key has no terminator holds a node reference. -/
theorem decodeShort_ref {elems kbuf r key r' : Bytes} {c : Node}
    (hs : splitString elems = .ok (kbuf, r)) (hk : compactToHex kbuf = some key) (ht : hasTerm key = false)
    (hr : (decodeRef r gen).map (fun p => (p.1, p.2.val)) = .ok (c, r')) :
    decodeShort hash elems gen = .ok (.short key c ⟨hash, gen, false⟩) := by
  obtain ⟨⟨c', r''⟩, hr', heq⟩ := Outcome.map_eq_ok.mp hr
  simp only [Prod.mk.injEq] at heq
  obtain ⟨rfl, -⟩ := heq
  rw [decodeShort]
  split
  · next e he => rw [hs] at he; cases he
  · next m he => rw [hs] at he; cases he
  · next kbuf' rest' he =>
    rw [hs] at he
    cases he
    simp only [hk, ht, Bool.false_eq_true, ↓reduceIte, hr']

/-- `decodeRef` on a string whose kind is not a list. -/
theorem decodeRef_string {buf val rest : Bytes} {k : Kind} (hs : split buf = .ok (k, val, rest)) (hk : k ≠ .list) :
    (decodeRef buf gen).map (fun p => (p.1, p.2.val)) =
      if val.length = 0 then .ok (.nil, rest)
      else if val.length = 32 then .ok (.hash val, rest)
      else .error (plain (.invalidStringSize val.length)) := by
  rw [decodeRef]
  split
  · next e he => rw [hs] at he; cases he
  · next m he => rw [hs] at he; cases he
  · next k' val' rest' he =>
    rw [hs] at he
    cases he
    simp only [hk, ↓reduceIte]
    split_ifs <;> rfl

/-- The empty string is the nil reference. -/
theorem decodeRef_nil (rest : Bytes) :
    (decodeRef (encodeString [] ++ rest) gen).map (fun p => (p.1, p.2.val)) = .ok (.nil, rest) := by
  rw [decodeRef_string (split_encodeString [] (by simp) rest) (by simp [Item.kind]), if_pos List.length_nil]

/-- A 32-byte string is a hash reference. -/
theorem decodeRef_hash {d : Bytes} (hd : d.length = 32) (rest : Bytes) :
    (decodeRef (encodeString d ++ rest) gen).map (fun p => (p.1, p.2.val)) = .ok (.hash d, rest) := by
  have hkind : (Item.str d).kind ≠ .list := by
    unfold Item.kind
    split
    · split <;> simp
    · simp
    · simp_all
  rw [decodeRef_string (split_encodeString d (by rw [hd]; norm_num) rest) hkind, if_neg (by omega), if_pos hd]

/-- A list shorter than a hash is an embedded node, decoded in place. -/
theorem decodeRef_embedded {items : List Item} {rest : Bytes} {n : Node}
    (hlen : (Item.list items).encode.length < 32)
    (hdec : decodeNode none ((Item.list items).encode ++ rest) gen = .ok n) :
    (decodeRef ((Item.list items).encode ++ rest) gen).map (fun p => (p.1, p.2.val)) = .ok (n, rest) := by
  have hfit : (Item.encodeAll items).length < 256 ^ 8 := by
    have := length_content_le_encode (.list items)
    simp only [Item.content] at this
    omega
  rw [decodeRef]
  split
  · next e he => rw [split_encodeList items hfit rest] at he; cases he
  · next m he => rw [split_encodeList items hfit rest] at he; cases he
  · next k val rest' he =>
    rw [split_encodeList items hfit rest] at he
    cases he
    simp only [↓reduceIte, List.length_append]
    rw [if_neg (by unfold hashLen; omega), hdec, Outcome.map_ok, Outcome.map_ok]

/-- The loop of `decodeFull` reads references one after the other. The
induction is on the references. -/
theorem decodeRefs_encodeAll : ∀ (refs decs : List Node) (i : Nat) (rest : Bytes),
    refs.length = decs.length →
    (∀ j (hj : j < refs.length) (r : Bytes),
      (decodeRef ((refs.get ⟨j, hj⟩).encode ++ r) gen).map (fun p => (p.1, p.2.val)) =
        .ok (decs.getD j .nil, r)) →
    decodeRefs gen i refs.length (Item.encodeAll (refs.map Node.toItem) ++ rest) = .ok (decs, rest)
  | [], [], _, _, _, _ => by simp [decodeRefs]
  | [], _ :: _, _, _, hl, _ => by simp at hl
  | _ :: _, [], _, _, hl, _ => by simp at hl
  | c :: cs, d :: ds, i, rest, hl, href => by
    have hr := href 0 (by simp) (Item.encodeAll (cs.map Node.toItem) ++ rest)
    have htail := decodeRefs_encodeAll cs ds (i + 1) rest (by simpa using hl) (fun j hj r => by
      simpa using href (j + 1) (by simpa using hj) r)
    simp only [List.get_eq_getElem, List.getElem_cons_zero, List.getD_cons_zero] at hr
    obtain ⟨⟨d', r'⟩, hr', heq⟩ := Outcome.map_eq_ok.mp hr
    simp only [Prod.mk.injEq] at heq
    obtain ⟨rfl, hrv⟩ := heq
    have hbuf : Item.encodeAll ((c :: cs).map Node.toItem) ++ rest =
        c.encode ++ (Item.encodeAll (cs.map Node.toItem) ++ rest) := by
      simp [Node.encode]
    rw [hbuf, List.length_cons, decodeRefs]
    split
    · next cld rest₁ he =>
      rw [hr'] at he
      simp only [Outcome.ok.injEq, Prod.mk.injEq] at he
      obtain ⟨rfl, rfl⟩ := he
      obtain ⟨rv, hrv'⟩ := r'
      simp only at hrv
      subst hrv
      rw [htail, Outcome.map_ok]
    · next e he => rw [hr'] at he; cases he
    · next m he => rw [hr'] at he; cases he

/-- `decodeFull` once its sixteen references are read: the value slot is a
value unless it is empty. -/
theorem decodeFull_of_refs {elems rest val r : Bytes} {decs : List Node}
    (hrefs : decodeRefs gen 0 16 elems = .ok (decs, rest)) (hv : splitString rest = .ok (val, r)) :
    decodeFull hash elems gen =
      .ok (.full (fun i => (decs ++ [if val.length > 0 then Node.value val else .nil]).getD i.val .nil)
        ⟨hash, gen, false⟩) := by
  rw [decodeFull, hrefs, Outcome.bind_ok]
  simp only [hv]

/-- `decodeNode` of an encoded short node reads its key and child with
`decodeShort`. -/
theorem decodeNode_short_encode {kc : Bytes} {c : Node} {f : NodeFlag}
    (hfit : (Node.short kc c f).encode.length < 256 ^ 8) (rest : Bytes) :
    decodeNode hash ((Node.short kc c f).encode ++ rest) gen =
      (decodeShort hash (encodeString kc ++ c.encode) gen).handle (.error <| wrapError · "short") := by
  have hfit' : (Item.list [.str kc, c.toItem]).encode.length < 256 ^ 8 := hfit
  obtain ⟨hpay, hits⟩ := fits_of_encode_list hfit'
  have helems : Item.encodeAll [.str kc, c.toItem] = encodeString kc ++ c.encode := by
    simp [Item.encode, Node.encode]
  have hs := splitList_encodeList _ hpay rest
  have hc := countValues_encodeAll _ hits
  rw [helems] at hs hc
  exact decodeNode_short (by simp [Node.encode, encode_ne_nil]) hs hc

end Reading

/-! ## A collapsed node reads back as its decoded form -/

section Collapsed

variable (keccak : Bytes → Digest) (db : Bytes → Option Bytes) (g gen : UInt16)

namespace Node

/-- Decoding caches no hash, so recording none changes nothing. -/
theorem decoded_withHash_none (n : Node) : (n.decoded keccak gen).withHash none = n.decoded keccak gen := by
  cases n <;> rfl

/-- Decoding leaves a hash, a value and nil as they are. -/
theorem decoded_of_not_isInner {n : Node} (hn : n.isInner = false) : n.decoded keccak gen = n := by
  cases n <;> first | rfl | simp [isInner] at hn

/-- The reference to a short or full child: embedded or hashed by the length
of its encoding. -/
theorem refOf_of_isInner {c : Node} (hc : c.isInner = true) (cc : Node) :
    refOf keccak c cc = if cc.encode.length < 32 then cc else .hash (keccak cc.encode).val := by
  cases c <;> first | rfl | simp [isInner] at hc

/-- A short or full node collapses to a list. -/
theorem toItem_collapse {c : Node} (hc : c.isInner = true) : ∃ items, (c.collapse keccak).toItem = .list items := by
  cases c with
  | short k c f => exact ⟨_, rfl⟩
  | full cs f => exact ⟨_, rfl⟩
  | _ => simp [isInner] at hc

/-- A short node whose child is no value collapses the child to its reference. -/
theorem collapse_short_ref {k : Bytes} {c : Node} {f : NodeFlag} (hc : ∀ v, c ≠ .value v) :
    (Node.short k c f).collapse keccak =
      .short (hexToCompact k) (if c.isNil then .value [] else refOf keccak c (c.collapse keccak)) f := by
  cases c with
  | value v => exact absurd rfl (hc v)
  | _ => rfl

end Node

/-- The collapsed form of `n` reads back as its decoded form, with any hash
recorded and any bytes after it, wherever `n` is a fresh short or full node
loading to a tree of the shape `Inner` and its encoding fits the RLP length
bytes. -/
def ReadsBack (n : Node) : Prop :=
  ∀ {T : Tree}, Loads db g n T → T.Inner → n.Fresh → n.isInner = true →
    (n.collapse keccak).encode.length < 256 ^ 8 → ∀ (hash : Option Bytes) (rest : Bytes),
      decodeNode hash ((n.collapse keccak).encode ++ rest) gen = .ok ((n.decoded keccak gen).withHash hash)

variable {keccak db g gen}

/-- The reference to a short or full child reads back as the decoded child
when it is embedded, and as the hash node of its encoding when it is not. -/
theorem decodeRef_refOf {c : Node} (hc : c.isInner = true)
    (hdec : (c.collapse keccak).encode.length < 32 → ∀ rest : Bytes,
      decodeNode none ((c.collapse keccak).encode ++ rest) gen = .ok (c.decoded keccak gen)) (r : Bytes) :
    (decodeRef ((Node.refOf keccak c (c.collapse keccak)).encode ++ r) gen).map (fun p => (p.1, p.2.val)) =
      .ok (if 32 ≤ (c.collapse keccak).encode.length then .hash (keccak (c.collapse keccak).encode).val
        else c.decoded keccak gen, r) := by
  rw [Node.refOf_of_isInner keccak hc]
  obtain ⟨items, hitems⟩ := Node.toItem_collapse keccak hc
  by_cases hsmall : (c.collapse keccak).encode.length < 32
  · -- an embedded node is decoded in place
    have hd := hdec hsmall r
    rw [if_pos hsmall, if_neg (by omega)]
    rw [Node.encode, hitems] at hsmall hd ⊢
    exact decodeRef_embedded hsmall hd
  · rw [if_neg hsmall, if_pos (by omega)]
    exact decodeRef_hash (keccak _).property r

/-- A child slot of a node of the shape `Inner` reads back from its
reference: nil from the empty string, a short or full child decoded or as
the hash node of its encoding. -/
theorem decodeRef_slot {c : Node} {T : Tree} (hl : Loads db g c T) (hT : T.Inner) (hf : c.Fresh)
    (ih : ReadsBack keccak db g gen c) (r : Bytes) :
    (decodeRef ((if c.isNil then .value [] else Node.refOf keccak c (c.collapse keccak)).encode ++ r) gen).map
        (fun p => (p.1, p.2.val)) =
      .ok (if c.isInner ∧ 32 ≤ (c.collapse keccak).encode.length then .hash (keccak (c.collapse keccak).encode).val
        else c.decoded keccak gen, r) := by
  have hinner : c.isInner = true → (c.collapse keccak).encode.length < 32 → ∀ rest : Bytes,
      decodeNode none ((c.collapse keccak).encode ++ rest) gen = .ok (c.decoded keccak gen) := by
    intro hi hsmall rest
    rw [← Node.decoded_withHash_none keccak gen c]
    exact ih hl hT hf hi (by omega) none rest
  cases c with
  | nil => exact decodeRef_nil r
  | value v =>
    rw [hl.value_tree] at hT
    exact hT.elim
  | hash _ => exact hf.elim
  | short k c f =>
    simp only [Node.isNil, Node.isInner, true_and]
    exact decodeRef_refOf rfl (hinner rfl) r
  | full cs f =>
    simp only [Node.isNil, Node.isInner, true_and]
    exact decodeRef_refOf rfl (hinner rfl) r

/-- A collapsed short node reads back: the compact key gives the hex key
with its terminator, and the child is the value or the child's reference. -/
theorem decodeNode_collapse_short {k : Bytes} {c : Node} {f : NodeFlag} (ih : ReadsBack keccak db g gen c) :
    ReadsBack keccak db g gen (.short k c f) := by
  intro T hl hT hf _ hfit hash rest
  cases hl with
  | @short _ _ _ Tc hc =>
    rcases hT with ⟨⟨ns, hns, rfl⟩, v, -, rfl⟩ | ⟨-, hkn, hTc⟩
    · -- a leaf: the key ends in the terminator and the child is its value
      obtain rfl := hc.eq_of_value
      have hfit' : (Node.short (hexToCompact (ns ++ [16])) (.value v) f).encode.length < 256 ^ 8 := hfit
      obtain ⟨-, hits⟩ := fits_of_encode_list hfit'
      have hkey : compactToHex (hexToCompact (ns ++ [16])) = some (ns ++ [16]) := by
        simpa using compactToHex_hexToCompact hns true
      have hkc : (hexToCompact (ns ++ [16])).length < 256 ^ 8 := hits (.str _) List.mem_cons_self
      have hv : splitString (Node.value v).encode = .ok (v, []) := by
        have hv' := splitString_encodeString v (hits (.str v) (by simp [Node.toItem])) []
        rwa [List.append_nil] at hv'
      show decodeNode hash ((Node.short (hexToCompact (ns ++ [16])) (.value v) f).encode ++ rest) gen = _
      rw [decodeNode_short_encode hfit' rest,
        decodeShort_value (splitString_encodeString _ hkc _) hkey (hasTerm_append_term ns) hv,
        Outcome.handle_ok]
      rfl
    · -- an inner node: the key is nibbles only and the child a reference
      have hnv : ∀ v, c ≠ .value v := by
        rintro v rfl
        rw [hc.value_tree] at hTc
        exact hTc.elim
      rw [Node.collapse_short_ref keccak hnv] at hfit ⊢
      obtain ⟨-, hits⟩ := fits_of_encode_list hfit
      have hkey : compactToHex (hexToCompact k) = some k := by
        simpa using compactToHex_hexToCompact hkn false
      have hkc : (hexToCompact k).length < 256 ^ 8 := hits (.str _) List.mem_cons_self
      have hr := decodeRef_slot hc hTc hf.2 ih []
      rw [List.append_nil] at hr
      rw [decodeNode_short_encode hfit rest,
        decodeShort_ref (splitString_encodeString _ hkc _) hkey (hasTerm_of_nibbles hkn) hr,
        Outcome.handle_ok]
      rfl

/-- The value slot of a node of the shape `Inner` holds nil or a value: its
collapsed form is a string, and `decodeFull` reads that string back as the
slot. -/
theorem value_slot {c : Node} {T : Tree} (hl : Loads db g c T) (hT : T.Leaf) (hf : c.Fresh) :
    ∃ val, (if c.isNil then Node.value [] else c) = .value val ∧
      (if val.length > 0 then Node.value val else .nil) = c ∧ c.isInner = false := by
  cases c with
  | nil => exact ⟨[], rfl, rfl, rfl⟩
  | value v =>
    rw [hl.value_tree] at hT
    exact ⟨v, rfl, if_pos (List.length_pos_iff.mpr hT), rfl⟩
  | hash _ => exact hf.elim
  | short k c f =>
    cases hl
    exact hT.elim
  | full cs f =>
    cases hl
    exact hT.elim

/-- A collapsed full node reads back: the sixteen references one after the
other, then the value slot. -/
theorem decodeNode_collapse_full {cs : Fin 17 → Node} {f : NodeFlag} (ih : ∀ i, ReadsBack keccak db g gen (cs i)) :
    ReadsBack keccak db g gen (.full cs f) := by
  intro T hl hT hf _ hfit hash rest
  cases hl with
  | @full _ _ Ts hcs =>
    obtain ⟨hin, hleaf⟩ := hT
    obtain ⟨val, hval, hval', hinner16⟩ := value_slot (hcs 16) hleaf (hf.2 16)
    -- the collapsed children: a reference under each nibble, then the value
    obtain ⟨cs', hcoll, hslot, hlast⟩ : ∃ cs' : Fin 17 → Node, (Node.full cs f).collapse keccak = .full cs' f ∧
        (∀ j : Fin 16, cs' j.castSucc = if (cs j.castSucc).isNil then .value [] else
          Node.refOf keccak (cs j.castSucc) ((cs j.castSucc).collapse keccak)) ∧
        cs' 16 = .value val :=
      ⟨_, rfl, fun j => if_neg (by have := j.isLt; simp only [Fin.val_castSucc]; omega), (if_pos rfl).trans hval⟩
    rw [hcoll] at hfit ⊢
    have hfit' : (Item.list ((List.finRange 17).map fun i => (cs' i).toItem)).encode.length < 256 ^ 8 := hfit
    obtain ⟨hpay, hits⟩ := fits_of_encode_list hfit'
    have hcount : countValues (Item.encodeAll ((List.finRange 17).map fun i => (cs' i).toItem)) = .ok 17 := by
      rw [countValues_encodeAll _ hits, List.length_map, List.length_finRange]
    obtain ⟨refs, hrefs⟩ : ∃ refs : List Node, refs = (List.finRange 16).map fun j => cs' j.castSucc := ⟨_, rfl⟩
    obtain ⟨decs, hdecs⟩ : ∃ decs : List Node, decs = (List.finRange 16).map fun j =>
        if (cs j.castSucc).isInner ∧ 32 ≤ ((cs j.castSucc).collapse keccak).encode.length then
          .hash (keccak ((cs j.castSucc).collapse keccak).encode).val
        else (cs j.castSucc).decoded keccak gen := ⟨_, rfl⟩
    have helems : Item.encodeAll ((List.finRange 17).map fun i => (cs' i).toItem) =
        Item.encodeAll (refs.map Node.toItem) ++ encodeString val := by
      rw [List.finRange_succ_last, List.map_append, encodeAll_append, hrefs, List.map_map, List.map_map]
      simp [hlast, Node.toItem, Item.encode, Function.comp_def]
    have hread : decodeRefs gen 0 16 (Item.encodeAll (refs.map Node.toItem) ++ encodeString val) =
        .ok (decs, encodeString val) := by
      have hlen : refs.length = 16 := by simp [hrefs]
      rw [← hlen]
      refine decodeRefs_encodeAll refs decs 0 _ (by simp [hrefs, hdecs]) fun j hj r => ?_
      have hj' : j < 16 := by simpa [hrefs] using hj
      have hget : refs.get ⟨j, hj⟩ = cs' (Fin.castSucc ⟨j, hj'⟩) := by simp [hrefs]
      have hgetD : decs.getD j .nil =
          if (cs (Fin.castSucc ⟨j, hj'⟩)).isInner ∧
              32 ≤ ((cs (Fin.castSucc ⟨j, hj'⟩)).collapse keccak).encode.length then
            .hash (keccak ((cs (Fin.castSucc ⟨j, hj'⟩)).collapse keccak).encode).val
          else (cs (Fin.castSucc ⟨j, hj'⟩)).decoded keccak gen := by
        simp [hdecs, hj']
      rw [hget, hslot, hgetD]
      exact decodeRef_slot (hcs _) (hin _ hj') (hf.2 _) (ih _) r
    have hv : splitString (encodeString val) = .ok (val, []) := by
      have hmem : Item.str val ∈ (List.finRange 17).map fun i => (cs' i).toItem :=
        List.mem_map.mpr ⟨16, List.mem_finRange _, by rw [hlast]; rfl⟩
      have hv' := splitString_encodeString val (hits _ hmem) []
      rwa [List.append_nil] at hv'
    show decodeNode hash ((Item.list ((List.finRange 17).map fun i => (cs' i).toItem)).encode ++ rest) gen = _
    rw [decodeNode_full (by simp [encode_ne_nil]) (splitList_encodeList _ hpay rest) hcount, helems,
      decodeFull_of_refs hread hv, Outcome.handle_ok, hval']
    simp only [Node.decoded, Node.withHash]
    congr 2
    funext i
    by_cases hi : i.val < 16
    · have hlt : i.val < decs.length := by simp [hdecs, hi]
      rw [List.getD_eq_getElem?_getD, List.getElem?_append_left hlt]
      simp [hdecs, hi]
    · obtain rfl : i = 16 := Fin.ext (by have := i.isLt; simp; omega)
      have hlen : decs.length = 16 := by simp [hdecs]
      rw [List.getD_eq_getElem?_getD, List.getElem?_append_right (by rw [hlen]; rfl), hlen, hinner16,
        Node.decoded_of_not_isInner keccak gen hinner16]
      simp

/-- **The encoding of a collapsed node reads back as its decoded form**, on
every node. The induction is on the node; a child's read-back is needed
only where the child is embedded in its parent. -/
theorem decodeNode_collapse : ∀ n : Node, ReadsBack keccak db g gen n := by
  intro n
  induction n with
  | short k c f ihc => exact decodeNode_collapse_short ihc
  | full cs f ihcs => exact decodeNode_collapse_full ihcs
  | hash _ => intro _ _ _ _ hi; simp [Node.isInner] at hi
  | value _ => intro _ _ _ _ hi; simp [Node.isInner] at hi
  | nil => intro _ _ _ _ hi; simp [Node.isInner] at hi

end Collapsed

/-! ## The nodes of a built trie -/

/-- `n` is a node of the tree under `m`: `m` itself, or a node under one of
its children. -/
inductive Node.IsSubnode : Node → Node → Prop
  | refl (n : Node) : Node.IsSubnode n n
  | short {n c : Node} (k : Bytes) (f : NodeFlag) : n.IsSubnode c → n.IsSubnode (.short k c f)
  | full {n : Node} {cs : Fin 17 → Node} (f : NodeFlag) (i : Fin 17) :
      n.IsSubnode (cs i) → n.IsSubnode (.full cs f)

section Built

variable (keccak : Bytes → Digest) {db : Bytes → Option Bytes} {g : UInt16}

/-- A short or full node loads to no leaf. -/
theorem Loads.not_leaf_of_isInner {n : Node} {T : Tree} (hl : Loads db g n T) (hn : n.isInner = true) :
    ¬ T.Leaf := by
  cases hl <;> simp_all [Node.isInner, Tree.Leaf]

/-- Every node under a fresh node that loads to a tree of the shape `Inner`
or `Leaf` is fresh and loads to such a tree too. The induction is on the
path to the node. -/
theorem Node.IsSubnode.shape {n m : Node} (hs : n.IsSubnode m) :
    ∀ {T : Tree}, Loads db g m T → T.Inner ∨ T.Leaf → m.Fresh →
      n.Fresh ∧ ∃ T', Loads db g n T' ∧ (T'.Inner ∨ T'.Leaf) := by
  induction hs with
  | refl =>
    intro T hl hT hf
    exact ⟨hf, T, hl, hT⟩
  | short k f _ ih =>
    intro T hl hT hf
    cases hl with
    | short hc =>
      refine ih hc ?_ hf.2
      -- under a short node: the value of a leaf, or an inner child
      rcases hT with (⟨-, v, hv, rfl⟩ | ⟨-, -, hTc⟩) | hleaf
      · exact .inr hv
      · exact .inl hTc
      · exact hleaf.elim
  | full f i _ ih =>
    intro T hl hT hf
    cases hl with
    | full hcs =>
      refine ih (hcs i) ?_ (hf.2 i)
      -- under a full node: an inner child under each nibble, a leaf in the value slot
      rcases hT with ⟨hin, hleaf⟩ | hleaf
      · by_cases hi : i.val < 16
        · exact .inl (hin i hi)
        · obtain rfl : i = 16 := Fin.ext (by have := i.isLt; simp; omega)
          exact .inr hleaf
      · exact hleaf.elim

/-- `store` writes the encoding of the node it is given. -/
theorem store_writes_encode {n : Node} {commit force : Bool} {k enc : Bytes}
    (hw : (k, enc) ∈ (Hasher.store keccak n commit force).2) : enc = n.encode := by
  cases n with
  | nil => simp [Hasher.store] at hw
  | hash _ => simp [Hasher.store] at hw
  | _ =>
    simp only [Hasher.store] at hw
    split_ifs at hw <;> simp_all

/-- **What the hasher stores for a node of a built trie reads back.** On
every short or full node of a trie built by updates and deletes from an empty
one, `decodeNode` of the encoding of the node `hashChildren` collapses it to
gives `Node.decoded`, under any hash: the node's hex keys with their
terminators, its values, each child whose collapsed encoding is shorter than
a hash decoded in turn, and each other child the hash node of that encoding.
So does `decodeNode` of each write of `store`, under the hash it is written
under. The encoding is a Go byte slice. -/
theorem decodeNode_hashChildren_built {t : Trie} (hb : Trie.Built t) {n : Node} (hn : n.IsSubnode t.root)
    (hi : n.isInner = true) (h : Hasher) (commit force : Bool)
    (hfit : (h.hashChildren keccak n commit).1.encode.length < 2 ^ 63) (gen : UInt16) :
    (∀ hash, decodeNode hash (h.hashChildren keccak n commit).1.encode gen =
      .ok ((n.decoded keccak gen).withHash hash)) ∧
    ∀ k enc, (k, enc) ∈ (Hasher.store keccak (h.hashChildren keccak n commit).1 commit force).2 →
      decodeNode (some k) enc gen = .ok ((n.decoded keccak gen).withHash (some k)) := by
  obtain ⟨hfresh, T, hload, hT⟩ := hb.inner
  obtain ⟨hfn, T', hl', hT'⟩ := hn.shape hload (.inl hT) hfresh
  have hinner : T'.Inner := hT'.resolve_right (hl'.not_leaf_of_isInner hi)
  rw [(hash_fresh keccak h commit hfn).2] at hfit ⊢
  have hread : ∀ hash, decodeNode hash (n.collapse keccak).encode gen =
      .ok ((n.decoded keccak gen).withHash hash) := by
    intro hash
    have hback : decodeNode hash ((n.collapse keccak).encode ++ []) gen = _ :=
      decodeNode_collapse n hl' hinner hfn hi (lt_of_lt_of_le hfit (by norm_num)) hash []
    rwa [List.append_nil] at hback
  refine ⟨hread, fun k enc hw => ?_⟩
  rw [store_writes_encode keccak hw]
  exact hread (some k)

/-- A trie in memory with nothing in it. -/
def emptyMemTrie : Trie := ⟨.nil, fun _ => none, [], 0, 0⟩

/-- The trie of the keys `[1]` and `[2]`, inserted in this order into an
empty one: a short node over their common nibble and a full node with a leaf
under each of slots 1 and 2. -/
def twoKeyTrie : Trie :=
  match (emptyMemTrie.TryUpdate 4 [1] [5]).bind fun t => t.TryUpdate 4 [2] [6] with
  | .ok t => t
  | _ => emptyMemTrie

theorem built_twoKeyTrie : Trie.Built twoKeyTrie := by
  have h₁ : emptyMemTrie.TryUpdate 4 [1] [5] =
      .ok ⟨.short [0, 1, 16] (.value [5]) ⟨none, 0, true⟩, fun _ => none, [], 0, 0⟩ := rfl
  have h₂ : Trie.TryUpdate ⟨.short [0, 1, 16] (.value [5]) ⟨none, 0, true⟩, fun _ => none, [], 0, 0⟩
      4 [2] [6] = .ok twoKeyTrie := rfl
  exact .update (.update (.empty rfl) h₁) h₂

theorem decodeNode_hashChildren_built_two_keys :
    (∀ hash, decodeNode hash ((Hasher.mk 0 0).hashChildren bytesToHash twoKeyTrie.root true).1.encode 0 =
      .ok ((twoKeyTrie.root.decoded bytesToHash 0).withHash hash)) ∧
    ∀ k enc, (k, enc) ∈
        (Hasher.store bytesToHash ((Hasher.mk 0 0).hashChildren bytesToHash twoKeyTrie.root true).1 true true).2 →
      decodeNode (some k) enc 0 = .ok ((twoKeyTrie.root.decoded bytesToHash 0).withHash (some k)) :=
  decodeNode_hashChildren_built bytesToHash built_twoKeyTrie (.refl _) rfl ⟨0, 0⟩ true true (by decide) 0

end Built

end Trie

end Bazacoin
