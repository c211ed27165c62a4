import Bazacoin.Trie.Proof
import Bazacoin.Trie.Persist

/-!
# A proof of a key the trie holds verifies (`trie/proof.go`)

`Prove` walks the key down the trie in memory and keeps the database form of
the root and of every node on the way that is stored under its hash.
`VerifyProof` walks the same key from the root hash: it decodes each element,
follows the key through the decoded node with `get`, through every child
embedded in it, and stops at the hash of the next stored node, which the next
element must hash to.

The two walks meet at the stored nodes. Below the decoded form of a node on
the path, `get` reaches the value or the hash of the next stored node
(`Reaches`); the induction over `provePath`'s fuel shows this for every node
of the path (`walks`), and an induction over the length of the key carries it
from one stored node to the next (`verifyFrom_path`). On every trie built by
updates and deletes, a proof of a key the trie holds then verifies to its
value against the root hash `Hash` returns
(`proof_of_present_key_verifies`).

Proofs of absence are left out: one that ends at a full node crashes the
verifier (`Proof.lean`).
-/

set_option linter.dupNamespace false

namespace Bazacoin

namespace Trie

open Rlp PathMap

/-! ## The proof elements of a path -/

/-- A map over the indexed elements of a list that does not look at indices
from `k > 0` on is a map over the elements. -/
theorem filterMap_zipIdx {α β : Type} {f : α × Nat → Option β} {g : α → Option β} :
    ∀ {l : List α} {k : Nat}, 0 < k → (∀ a ∈ l, ∀ i, 0 < i → f (a, i) = g a) →
      (l.zipIdx k).filterMap f = l.filterMap g
  | [], _, _, _ => rfl
  | a :: l, k, hk, h => by
    rw [List.zipIdx_cons, List.filterMap_cons, List.filterMap_cons, h a List.mem_cons_self k hk,
      filterMap_zipIdx (by omega) fun b hb => h b (List.mem_cons_of_mem a hb)]

section Elements

variable (keccak : Bytes → Digest)

/-- The database form of the nodes of a path that `store` hashes: the proof
elements `Prove` keeps below the root. -/
def storedElems (ns : List Node) : List Bytes :=
  ns.filterMap fun n => if 32 ≤ (n.collapse keccak).encode.length then some (n.collapse keccak).encode else none

/-- On a path of fresh short and full nodes, `proofElements` keeps the root's
encoding and the stored nodes below it. -/
theorem proofElements_cons {n : Node} {ns : List Node} (h : ∀ m ∈ n :: ns, m.Fresh ∧ m.isInner = true) :
    proofElements keccak (n :: ns) = (n.collapse keccak).encode :: storedElems keccak ns := by
  have hcoll : ∀ m ∈ n :: ns, ((⟨0, 0⟩ : Hasher).hashChildren keccak m false).1 = m.collapse keccak :=
    fun m hm => (hash_fresh keccak ⟨0, 0⟩ false (h m hm).1).2
  simp only [proofElements, List.zipIdx_cons, List.filterMap_cons]
  rw [hcoll n List.mem_cons_self]
  simp only [or_true, if_true]
  rw [filterMap_zipIdx (by omega)]
  · rfl
  · intro m hm i hi
    obtain ⟨hfm, him⟩ := h m (List.mem_cons_of_mem n hm)
    rw [hcoll m (List.mem_cons_of_mem n hm), store_collapse_inner keccak hfm him]
    -- below the root, a node is an element exactly when `store` hashes it
    by_cases h32 : 32 ≤ (m.collapse keccak).encode.length
    · simp [h32, Nat.not_lt.mpr h32]
    · have hne : ∀ b, m.collapse keccak ≠ .hash b := by
        cases m <;> simp_all [Node.isInner, Node.collapse]
      have hsmall : (m.collapse keccak).encode.length < 32 ∧ (!false) = true := ⟨by omega, rfl⟩
      rw [if_neg h32, if_pos hsmall, if_neg]
      rintro (hm | hi0)
      · revert hm
        split
        · rename_i b heq
          exact absurd heq (hne b)
        · simp
      · simp at hi0
        omega

end Elements

/-! ## The walk of `get` through a decoded node -/

section Walk

variable (keccak : Bytes → Digest) (t : Trie) (db : Bytes → Option Bytes) (g : UInt16) (v : Bytes)

/-- What `get` meets below the decoded form of a node on the path of `key` to
the value `v`, with `elems` the proof elements of the rest of the path: the
value, with no element left, or the hash of a stored node `c` of the path,
where the walk goes on with a shorter rest `r` of the key and the elements
of the path from `c`. -/
def Reaches (key : Bytes) (res : Outcome PEmpty (Bytes × Node)) (elems : List Bytes) : Prop :=
  (res = .ok ([], .value v) ∧ elems = []) ∨
  ∃ (c : Node) (r : Bytes) (Tc : Tree) (fc : Nat) (ns : List Node),
    res = .ok (r, .hash (keccak (c.collapse keccak).encode).val) ∧
    elems = (c.collapse keccak).encode :: storedElems keccak (ns.drop 1) ∧
    Loads db g c Tc ∧ Tc.Ahead r ∧ Tc.toMap r = some v ∧ c.Fresh ∧ c.isInner = true ∧
    r.length < key.length ∧ r.length < fc ∧ t.provePath fc c r = .ok (some ns)

/-- `Prove`'s path below a fresh node, and what `get` meets below its
decoded form, with fuel `fuel` for the path. -/
def Walks (fuel : Nat) : Prop :=
  ∀ {n : Node} {T : Tree} {key : Bytes}, Loads db g n T → T.Ahead key → n.Fresh → T.toMap key = some v →
    key.length < fuel →
    ∃ ns, t.provePath fuel n key = .ok (some ns) ∧ (∀ m ∈ ns, m.Fresh ∧ m.isInner = true) ∧
      (n.isInner = true → ns.head? = some n) ∧ (n.isInner = false → ns = []) ∧
      Reaches keccak t db g v key (get (n.decoded keccak 0) key) (storedElems keccak (ns.drop 1))

variable {keccak t db g v}

/-- A longer key reaches what a shorter one does. -/
theorem Reaches.mono {key key' : Bytes} {res : Outcome PEmpty (Bytes × Node)} {elems : List Bytes}
    (h : Reaches keccak t db g v key res elems) (hlen : key.length ≤ key'.length) :
    Reaches keccak t db g v key' res elems := by
  rcases h with hA | ⟨c, r, Tc, fc, ns, hres, helems, hc, hTc, hv, hf, hi, hr, hfc, hp⟩
  · exact .inl hA
  · exact .inr ⟨c, r, Tc, fc, ns, hres, helems, hc, hTc, hv, hf, hi, by omega, hfc, hp⟩

/-- **One child slot of a decoded node.** Below the slot of a child `c` on
the path, `get` meets the hash of `c` when `c` is stored, where the walk goes
on from `c`, and otherwise walks on through the decoded `c`. -/
theorem reaches_slot {c : Node} {Tc : Tree} {r key : Bytes} {fc : Nat} {ns : List Node}
    (hc : Loads db g c Tc) (hTc : Tc.Ahead r) (hv : Tc.toMap r = some v) (hf : c.Fresh) (hfc : r.length < fc)
    (hp : t.provePath fc c r = .ok (some ns)) (hhead : c.isInner = true → ns.head? = some c)
    (hnil : c.isInner = false → ns = [])
    (hwalk : Reaches keccak t db g v r (get (c.decoded keccak 0) r) (storedElems keccak (ns.drop 1)))
    (hlen : r.length < key.length) :
    Reaches keccak t db g v key
      (get (if c.isInner ∧ 32 ≤ (c.collapse keccak).encode.length then
        .hash (keccak (c.collapse keccak).encode).val else c.decoded keccak 0) r) (storedElems keccak ns) := by
  split_ifs with hbig
  · -- a stored child: `get` stops at its hash, with the rest of the key ahead
    obtain ⟨hi, h32⟩ := hbig
    obtain ⟨tail, rfl⟩ := List.head?_eq_some_iff.mp (hhead hi)
    have hr : r ≠ [] := by
      rcases hTc with ⟨-, hhex⟩ | ⟨hleaf, -⟩
      · exact hhex.ne_nil
      · exact absurd hleaf (hc.not_leaf_of_isInner hi)
    obtain ⟨b, rest, rfl⟩ := List.exists_cons_of_ne_nil hr
    refine .inr ⟨c, b :: rest, Tc, fc, c :: tail, rfl, ?_, hc, hTc, hv, hf, hi, hlen, hfc, hp⟩
    simp [storedElems, h32]
  · -- an embedded child or a value: the walk goes on below it
    have h : Reaches keccak t db g v key _ _ := hwalk.mono (Nat.le_of_lt hlen)
    cases hci : c.isInner
    · obtain rfl := hnil hci
      exact h
    · obtain ⟨tail, rfl⟩ := List.head?_eq_some_iff.mp (hhead hci)
      have h32 : ¬ 32 ≤ (c.collapse keccak).encode.length := fun h32 => hbig ⟨hci, h32⟩
      simpa [storedElems, h32] using h

section Step

variable {fuel : Nat} (ih : Walks keccak t db g v fuel)
include ih

/-- A short node on the path: its key starts the key, and the walk goes on in
its child. -/
theorem walks_short {k : Bytes} {c : Node} {f : NodeFlag} {T : Tree} {key : Bytes}
    (hl : Loads db g (.short k c f) T) (hT : T.Ahead key) (hf : (Node.short k c f).Fresh)
    (hv : T.toMap key = some v) (hfuel : key.length < fuel + 1) :
    ∃ ns, t.provePath (fuel + 1) (.short k c f) key = .ok (some ns) ∧ (∀ m ∈ ns, m.Fresh ∧ m.isInner = true) ∧
      ((Node.short k c f).isInner = true → ns.head? = some (.short k c f)) ∧
      ((Node.short k c f).isInner = false → ns = []) ∧
      Reaches keccak t db g v key (get ((Node.short k c f).decoded keccak 0) key) (storedElems keccak (ns.drop 1)) := by
  obtain ⟨Tc, rfl, hc⟩ := hl.short_inv
  -- the key starts with the short key, or the tree would have no value there
  have hk : k <+: key := by
    by_contra hk
    rw [Tree.toMap_short, shift_apply_outside hk] at hv
    exact absurd hv (by simp)
  obtain ⟨hk0, hTc⟩ := hT.short hk
  have hvc : Tc.toMap (key.drop k.length) = some v := by
    obtain ⟨r, rfl⟩ := hk
    rw [List.drop_left]
    rwa [Tree.toMap_short, shift_apply_append] at hv
  have hlen : (key.drop k.length).length < key.length := by
    have hk1 : 0 < k.length := List.length_pos_of_ne_nil hk0
    have hkl := hk.length_le
    simp only [List.length_drop]
    omega
  obtain ⟨ns, hp, hfi, hhead, hnil, hwalk⟩ := ih hc hTc hf.2 hvc (by omega)
  have hmiss : ¬ (key.length < k.length ∨ k ≠ key.take k.length) := short_miss_iff.not.mpr (not_not.mpr hk)
  obtain ⟨b, rest, hkey⟩ := List.exists_cons_of_ne_nil fun h => hk0 (List.prefix_nil.mp (h ▸ hk))
  refine ⟨.short k c f :: ns, ?_, ?_, fun _ => rfl, fun h => by simp [Node.isInner] at h, ?_⟩
  · rw [hkey] at hmiss hp ⊢
    simp only [Trie.provePath, if_neg hmiss, hp, Outcome.map_ok, Option.map_some]
  · intro m hm
    rcases List.mem_cons.mp hm with rfl | hm
    · exact ⟨hf, rfl⟩
    · exact hfi m hm
  · rw [Node.decoded]
    have hget : ∀ w : Node, get (.short k w ⟨none, 0, false⟩) key = get w (key.drop k.length) := by
      intro w
      rw [hkey] at hmiss ⊢
      simp only [get, if_neg hmiss]
    rw [hget]
    exact reaches_slot hc hTc hvc hf.2 (by omega) hp hhead hnil hwalk hlen

/-- A full node on the path: the next symbol of the key selects the child the
walk goes on in. -/
theorem walks_full {cs : Fin 17 → Node} {f : NodeFlag} {T : Tree} {key : Bytes}
    (hl : Loads db g (.full cs f) T) (hT : T.Ahead key) (hf : (Node.full cs f).Fresh)
    (hv : T.toMap key = some v) (hfuel : key.length < fuel + 1) :
    ∃ ns, t.provePath (fuel + 1) (.full cs f) key = .ok (some ns) ∧ (∀ m ∈ ns, m.Fresh ∧ m.isInner = true) ∧
      ((Node.full cs f).isInner = true → ns.head? = some (.full cs f)) ∧
      ((Node.full cs f).isInner = false → ns = []) ∧
      Reaches keccak t db g v key (get ((Node.full cs f).decoded keccak 0) key) (storedElems keccak (ns.drop 1)) := by
  obtain ⟨Ts, rfl, hcs⟩ := hl.full_inv
  obtain ⟨b, rest, rfl, hb, hTb⟩ := hT.full
  have hvc : (Ts ⟨b.toNat, hb⟩).toMap rest = some v := by
    rwa [Tree.toMap_full, branch_cons, Tree.childMaps_apply Ts hb] at hv
  simp only [List.length_cons] at hfuel
  obtain ⟨ns, hp, hfi, hhead, hnil, hwalk⟩ := ih (hcs _) hTb (hf.2 _) hvc (by omega)
  refine ⟨.full cs f :: ns, ?_, ?_, fun _ => rfl, fun h => by simp [Node.isInner] at h, ?_⟩
  · simp only [Trie.provePath, Trie.child, dif_pos hb, Outcome.bind_ok, hp, Outcome.map_ok, Option.map_some]
  · intro m hm
    rcases List.mem_cons.mp hm with rfl | hm
    · exact ⟨hf, rfl⟩
    · exact hfi m hm
  · simp only [Node.decoded, get, dif_pos hb]
    exact reaches_slot (hcs _) hTb hvc (hf.2 _) (by omega) hp hhead hnil hwalk (by simp)

end Step

/-- A value at the end of the path: the key is used up, and `get` returns it. -/
theorem walks_value {w : Bytes} {T : Tree} {key : Bytes} {fuel : Nat} (hl : Loads db g (.value w) T)
    (hT : T.Ahead key) (hv : T.toMap key = some v) :
    ∃ ns, t.provePath (fuel + 1) (.value w) key = .ok (some ns) ∧ (∀ m ∈ ns, m.Fresh ∧ m.isInner = true) ∧
      ((Node.value w).isInner = true → ns.head? = some (.value w)) ∧ ((Node.value w).isInner = false → ns = []) ∧
      Reaches keccak t db g v key (get ((Node.value w).decoded keccak 0) key) (storedElems keccak (ns.drop 1)) := by
  rw [hl.value_tree] at hT hv
  obtain rfl := hT.value_nil
  obtain rfl : w = v := by simpa using hv
  exact ⟨[], rfl, by simp, fun h => by simp [Node.isInner] at h, fun _ => rfl, .inl ⟨rfl, rfl⟩⟩

/-- **`Prove`'s path and `get`'s walk agree** below every fresh node on the
path of a key with a value, given fuel for the path. The induction is on the
fuel, following `provePath`'s recursion. -/
theorem walks : ∀ fuel, Walks keccak t db g v fuel
  | 0 => fun _ _ _ _ hfuel => absurd hfuel (Nat.not_lt_zero _)
  | fuel + 1 => by
    intro hl hT hf hv hfuel
    rename_i n T key
    cases n with
    | nil =>
      rw [hl.nil_tree] at hv
      simp at hv
    | value w => exact walks_value hl hT hv
    | hash _ => exact hf.elim
    | short k c f => exact walks_short (walks fuel) hl hT hf hv hfuel
    | full cs f => exact walks_full (walks fuel) hl hT hf hv hfuel

end Walk


/-! ## `VerifyProof` follows the path -/

section Verify

variable (keccak : Bytes → Digest) {t : Trie} {db : Bytes → Option Bytes} {g : UInt16} {v : Bytes}

/-- **The proof elements from a stored node verify.** From a fresh short or
full node on the path of a key to `v`, the loop of `VerifyProof` on the node's
encoding, under its hash, followed by the elements of the rest of the path,
returns `v`. The induction is on a bound of the key's length: each stored
node of the path takes a shorter rest of the key. -/
theorem verifyFrom_path : ∀ (len : Nat) {n : Node} {T : Tree} {key : Bytes} {fuel : Nat}, key.length < len →
    Loads db g n T → T.Ahead key → n.Fresh → n.isInner = true → T.toMap key = some v → key.length < fuel →
    ∃ ns, t.provePath fuel n key = .ok (some ns) ∧ ns.head? = some n ∧ (∀ m ∈ ns, m.Fresh ∧ m.isInner = true) ∧
      ∀ i, (∀ e ∈ (n.collapse keccak).encode :: storedElems keccak (ns.drop 1), e.length < 2 ^ 63) →
        verifyFrom keccak i key (keccak (n.collapse keccak).encode).val
          ((n.collapse keccak).encode :: storedElems keccak (ns.drop 1)) = .ok (some v)
  | 0, _, _, _, _, hlen => absurd hlen (Nat.not_lt_zero _)
  | len + 1, n, T, key, fuel, hlen => by
    intro hl hT hf hi hv hfuel
    have hwalks : Walks keccak t db g v fuel := walks fuel
    obtain ⟨ns, hp, hfi, hhead, -, hreach⟩ := hwalks hl hT hf hv hfuel
    refine ⟨ns, hp, hhead hi, hfi, fun i hfit => ?_⟩
    -- the element is the node's encoding under its own hash, and decodes to the decoded node
    have hTi : T.Inner := by
      rcases hT with ⟨hTi, -⟩ | ⟨hleaf, -⟩
      · exact hTi
      · exact absurd hleaf (hl.not_leaf_of_isInner hi)
    have hdec : decodeNode (some (keccak (n.collapse keccak).encode).val) ((n.collapse keccak).encode ++ []) 0 =
        .ok ((n.decoded keccak 0).withHash (some (keccak (n.collapse keccak).encode).val)) :=
      decodeNode_collapse n hl hTi hf hi (lt_of_lt_of_le (hfit _ List.mem_cons_self) (by norm_num)) _ []
    rw [List.append_nil] at hdec
    rw [verifyFrom, if_neg (not_not.mpr rfl), hdec]
    dsimp only
    rw [get_withHash]
    rcases hreach with ⟨hget, hnil⟩ | ⟨c, r, Tc, fc, nsc, hget, helems, hc, hTc, hvc, hfc, hic, hr, hrfc, hpc⟩
    · -- `get` reaches the value, and no element is left
      rw [hget, hnil]
      rfl
    · -- `get` stops at the hash of the next stored node: the loop goes on from it
      rw [hget, helems]
      dsimp only
      obtain ⟨nsc', hpc', -, -, hver⟩ := verifyFrom_path len (by omega) hc hTc hfc hic hvc hrfc
      obtain rfl : nsc' = nsc := by
        rw [hpc] at hpc'
        simpa using hpc'.symm
      refine hver (i + 1) fun e he => hfit e ?_
      rw [helems]
      exact List.mem_cons_of_mem _ he

end Verify


/-! ## `Prove`, then `VerifyProof` -/

section Complete

variable (keccak : Bytes → Digest)

/-- `Hash`, `Prove` and `VerifyProof` on a trie with a fresh short or full
root, for a key whose hex path leads to a value. -/
theorem prove_verifies_inner {t : Trie} {n : Node} (hroot : t.root = n) (hi : n.isInner = true) (hf : n.Fresh)
    {T : Tree} (hl : Loads t.db t.cachegen n T) {fuel : Nat} {key v : Bytes}
    (hT : T.Ahead (keybytesToHex key)) (hv : T.toMap (keybytesToHex key) = some v)
    (hfuel : (keybytesToHex key).length < fuel) :
    ∃ d t' proof, t.Hash keccak = .ok (d, t') ∧ t.Prove keccak fuel key = .ok proof ∧
      ((∀ e ∈ proof, e.length < 2 ^ 63) → VerifyProof keccak d key proof = .ok (some v)) := by
  obtain ⟨ns, hp, hhead, hfi, hver⟩ :=
    verifyFrom_path keccak (t := t) _ (Nat.lt_succ_self _) hl hT hf hi hv hfuel
  obtain ⟨tail, rfl⟩ := List.head?_eq_some_iff.mp hhead
  obtain ⟨H, hH⟩ : ∃ H : Hasher, H = ⟨t.cachegen, t.cachelimit⟩ := ⟨_, rfl⟩
  refine ⟨keccak (n.collapse keccak).encode, { t with root := (H.hash keccak n false true).2.1 },
    proofElements keccak (n :: tail), ?_, ?_, fun hfit => ?_⟩
  · -- `Hash` returns the hash of the root's encoding
    have hhashed := hash_force_fresh keccak H hf hi false
    rw [Trie.Hash, hashRoot_of_isInner keccak hroot hi, ← hH]
    rcases hr : H.hash keccak n false true with ⟨hashed, cached, w⟩
    rw [hr] at hhashed
    dsimp only at hhashed
    simp [hhashed, Trie.rootDigest]
  · rw [Trie.Prove, hroot, hp]
    rfl
  · -- the proof is the root's encoding, then the stored nodes of the path
    rw [proofElements_cons keccak hfi] at hfit
    rw [VerifyProof, proofElements_cons keccak hfi]
    exact hver 0 hfit

/-- **A proof of a key the trie holds verifies.** On every trie built by
updates and deletes, for every key `TryGet` finds a value under (with stack
for the key), `Hash` and `Prove` return, and `VerifyProof` of the proof
against the root hash returns that value, when the proof's elements are Go
byte slices. -/
theorem proof_of_present_key_verifies {t : Trie} (hb : t.Built) {fuel : Nat} {key v : Bytes}
    (hfuel : 4 * key.length + 4 ≤ fuel) {u : Trie} (hget : t.TryGet fuel key = .ok (some v, u)) :
    ∃ d t' proof, t.Hash keccak = .ok (d, t') ∧ t.Prove keccak fuel key = .ok proof ∧
      ((∀ e ∈ proof, e.length < 2 ^ 63) → VerifyProof keccak d key proof = .ok (some v)) := by
  obtain ⟨hfresh, T, hload, hT⟩ := hb.inner
  -- `TryGet` reads the tree the trie loads to, so the tree has the value
  have hv : T.toMap (keybytesToHex key) = some v := by
    obtain ⟨u', hu', -⟩ := Trie.TryGet_reads hload hT hfuel
    rw [hget] at hu'
    simp only [Outcome.ok.injEq, Prod.mk.injEq] at hu'
    exact hu'.1.symm
  have hAhead : T.Ahead (keybytesToHex key) := .inl ⟨hT, hexPath_keybytesToHex key⟩
  have hklen : (keybytesToHex key).length < fuel := by
    rw [length_keybytesToHex]
    omega
  cases hroot : t.root with
  | nil =>
    rw [hroot] at hload
    rw [hload.nil_tree] at hv
    simp at hv
  | value w =>
    rw [hroot] at hload
    rw [hload.value_tree] at hT
    exact hT.elim
  | hash _ =>
    rw [hroot] at hfresh
    exact hfresh.elim
  | short k c f =>
    rw [hroot] at hfresh hload
    exact prove_verifies_inner keccak hroot rfl hfresh hload hAhead hv hklen
  | full cs f =>
    rw [hroot] at hfresh hload
    exact prove_verifies_inner keccak hroot rfl hfresh hload hAhead hv hklen


/-- The proof of the key `[1]` in the trie of the keys `[1]` and `[2]`
verifies to its value. -/
theorem proof_of_present_key_verifies_two_keys :
    ∃ d t' proof, twoKeyTrie.Hash bytesToHash = .ok (d, t') ∧ twoKeyTrie.Prove bytesToHash 8 [1] = .ok proof ∧
      ((∀ e ∈ proof, e.length < 2 ^ 63) → VerifyProof bytesToHash d [1] proof = .ok (some [5])) :=
  proof_of_present_key_verifies bytesToHash built_twoKeyTrie (by decide) (u := twoKeyTrie) rfl

end Complete

end Trie

end Bazacoin
