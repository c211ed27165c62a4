import Bazacoin.Trie.Hasher

/-!
# Merkle proofs (`trie/proof.go`)

`Prove` collects the nodes on the path of a key and keeps, in their database
form, the root and every node that is stored under its hash (the others are
embedded in their parents). `VerifyProof` walks the proof from the root
hash: each element must hash to the reference the previous one ended on, and
`get` follows the key through the decoded node until it reaches a value, a nil
child or the next hash.

`get` ends on a type assertion to a value node. When the key runs out on a
full node's empty value slot, the node reached is nil and the assertion
panics: a proof of absence for a key that ends at a full node crashes the
verifier (`verifyProof_absent_at_full_panics`). A proof need not come from a
trie at all: its nodes are untrusted bytes, and two malformed ones crash the
decoder before `get` runs (`verifyProof_malformed_node_panics`).
-/

set_option linter.dupNamespace false

namespace Bazacoin

namespace Trie

open Rlp

/-- The panic of `get`'s final `tn.(valueNode)`. -/
def notValueNode : String := "interface conversion: trie.node is not trie.valueNode"

/-- The panic of the `default` case of `Prove` and `get`. -/
def invalidNode : String := "invalid node"

/-- The errors `VerifyProof` returns. -/
inductive ProofError where
  /-- `bad proof node %d: hash mismatch`. -/
  | hashMismatch (i : Nat)
  /-- `bad proof node %d: %v`, a node that does not decode. -/
  | badNode (i : Nat) (e : DecodeError)
  /-- `key mismatch at proof node %d`. -/
  | keyMismatch (i : Nat)
  /-- `additional nodes at end of proof`. -/
  | additionalNodes
  /-- `unexpected end of proof`. -/
  | unexpectedEnd
  deriving DecidableEq, Repr

/-- `get`: follow `key` through a decoded proof node; the rest of the key and
the node reached (a hash to continue with, nil, or the value). -/
def get (tn : Node) (key : Bytes) : Outcome PEmpty (Bytes × Node) :=
  match key with
  | [] =>
    match tn with
    | .value v => .ok ([], .value v)
    | _ => .panic notValueNode
  | b :: rest =>
    match tn with
    | .short k v _ =>
      if key.length < k.length ∨ k ≠ key.take k.length then .ok ([], .nil)
      else get v (key.drop k.length)
    | .full cs _ =>
      if h : b.toNat < 17 then get (cs ⟨b.toNat, h⟩) rest else .panic indexOutOfRange
    | .hash h => .ok (key, .hash h)
    | .nil => .ok (key, .nil)
    | .value _ => .panic invalidNode

/-- `get` does not read a node's flags. -/
@[simp] theorem get_withHash (h : Option Bytes) (n : Node) (key : Bytes) :
    get (n.withHash h) key = get n key := by
  cases key <;> cases n <;> rfl

/-- **The bug in `get`**: a key that ends in the terminator at a full node
whose value slot is nil leaves `get` on a nil node, and the final type
assertion panics instead of reporting the key absent. -/
theorem get_full_terminator_nil {cs : Fin 17 → Node} (f : NodeFlag) (h16 : cs 16 = .nil) :
    get (.full cs f) [16] = .panic notValueNode := by
  show get (cs 16) [] = _
  rw [h16]
  rfl

section

variable (keccak : Bytes → Digest)

/-- The loop of `VerifyProof` from proof element `i`, with the rest of the key
and the hash the element must have. -/
def verifyFrom (i : Nat) (key wantHash : Bytes) : List Bytes → Outcome ProofError (Option Bytes)
  | [] => .error .unexpectedEnd
  | buf :: rest =>
    if (keccak buf).val ≠ wantHash then .error (.hashMismatch i)
    else
      match decodeNode (some wantHash) buf 0 with
      | .error e => .error (.badNode i e)
      | .panic m => .panic m
      | .ok n =>
        match get n key with
        | .error e => nomatch e
        | .panic m => .panic m
        | .ok (keyrest, cld) =>
          match cld with
          | .nil =>
            -- the trie doesn't contain the key
            if rest ≠ [] then .error (.keyMismatch i) else .ok none
          | .hash h => verifyFrom (i + 1) keyrest h rest
          | .value v => if rest ≠ [] then .error .additionalNodes else .ok (some v)
          -- no case of the type switch matches: the loop goes on
          | _ => verifyFrom (i + 1) key wantHash rest

/-- `VerifyProof`: the value the proof shows for `key` in the trie with root
`rootHash`, or none when it shows the key absent. -/
def VerifyProof (rootHash : Digest) (key : Bytes) (proof : List Bytes) :
    Outcome ProofError (Option Bytes) :=
  verifyFrom keccak 0 (keybytesToHex key) rootHash.val proof

/-- The database form of the nodes of a path that become proof elements: the
root, and every node whose encoding is hashed. -/
def proofElements (nodes : List Node) : List Bytes :=
  nodes.zipIdx.filterMap fun (n, i) =>
    let hasher : Hasher := ⟨0, 0⟩
    let (collapsed, _, _) := hasher.hashChildren keccak n false
    let (hn, _) := Hasher.store keccak collapsed false false
    if hn matches .hash _ ∨ i = 0 then some collapsed.encode else none

end

namespace Trie

variable (t : Trie)

/-- The loop of `Prove`: the nodes on the path of `key`; none when a node is
missing from the database (Go logs the error and returns a nil proof). -/
def provePath : Nat → Node → Bytes → Outcome PEmpty (Option (List Node))
  | 0, _, _ => .panic stackOverflow
  | fuel + 1, tn, key =>
    match key, tn with
    | [], _ => .ok (some [])
    | _, .nil => .ok (some [])
    | _ :: _, .short k v f =>
      if key.length < k.length ∨ k ≠ key.take k.length then
        -- the trie doesn't contain the key
        .ok (some [.short k v f])
      else (provePath fuel v (key.drop k.length)).map (·.map (.short k v f :: ·))
    | b :: rest, .full cs f =>
      (child cs b).bind fun c => (provePath fuel c rest).map (·.map (.full cs f :: ·))
    | _ :: _, .hash h =>
      match t.resolveHash h [] with
      | .error _ => .ok none
      | .panic m => .panic m
      | .ok c => provePath fuel c key
    | _ :: _, .value _ => .panic invalidNode

/-- `Prove`: a Merkle proof for `key`. -/
def Prove (keccak : Bytes → Digest) (fuel : Nat) (key : Bytes) : Outcome PEmpty (List Bytes) :=
  (t.provePath fuel t.root (keybytesToHex key)).map fun
    | none => []
    | some nodes => proofElements keccak nodes

end Trie

/-- The children of the root of the trie of the keys `0x10` and `0x20`: short
nodes at nibbles 1 and 2, as `insert` leaves them. -/
def twoKeyChildren : Fin 17 → Node :=
  Trie.setChild (Trie.setChild (fun _ => .nil) 1 (.short [0, 16] (.value [1]) ⟨none, 0, true⟩)) 2
    (.short [0, 16] (.value [2]) ⟨none, 0, true⟩)

/-- The database form of that root: 22 bytes, short enough that only the root
is hashed. -/
def twoKeyRootBlob : Bytes :=
  [213, 128, 194, 48, 1, 194, 48, 2, 128, 128, 128, 128, 128, 128, 128, 128, 128, 128, 128, 128, 128, 128]

/-- What `decodeNode` reads from that blob: the full node with a nil value
slot and the two short nodes, without flags. -/
def twoKeyRootDecoded : Node :=
  .full (fun i => ([.nil, .short [0, 16] (.value [1]) ⟨none, 0, false⟩,
    .short [0, 16] (.value [2]) ⟨none, 0, false⟩] : List Node).getD i.val .nil) ⟨none, 0, false⟩

/-- **A proof of absence crashes the verifier.** Whatever the hash function:
the trie of the keys `0x10` and `0x20` has a full node at its root with a nil
value slot, so the empty key is absent, and its proof is that one node; but
`VerifyProof` on the root hash, the empty key and that proof panics in `get`. -/
theorem verifyProof_absent_at_full_panics (keccak : Bytes → Digest) (db : Bytes → Option Bytes)
    (fuel : Nat) :
    ∃ t₀ t₁ t root t' proof, Trie.New emptyRoot db = .ok t₀ ∧
      t₀.TryUpdate (fuel + 2) [0x10] [1] = .ok t₁ ∧ t₁.TryUpdate (fuel + 2) [0x20] [2] = .ok t ∧
      t.TryGet (fuel + 2) [] = .ok (none, t) ∧
      t.Hash keccak = .ok (root, t') ∧ t'.Prove keccak (fuel + 2) [] = .ok proof ∧
      VerifyProof keccak root [] proof = .panic notValueNode := by
  refine ⟨_, _, ⟨.full twoKeyChildren ⟨none, 0, true⟩, db, emptyRoot.val, 0, 0⟩, keccak twoKeyRootBlob,
    ⟨.full twoKeyChildren ⟨some (keccak twoKeyRootBlob).val, 0, true⟩, db, emptyRoot.val, 0, 0⟩,
    [twoKeyRootBlob], rfl, rfl, rfl, rfl, ?_, rfl, ?_⟩
  · -- `Hash` records the root's hash in its flags and changes nothing else
    obtain ⟨t', h, ht'⟩ : ∃ t' : Trie,
        Trie.Hash keccak ⟨.full twoKeyChildren ⟨none, 0, true⟩, db, emptyRoot.val, 0, 0⟩ =
          .ok (bytesToHash (keccak twoKeyRootBlob).val, t') ∧
        t' = ⟨.full twoKeyChildren ⟨some (keccak twoKeyRootBlob).val, 0, true⟩, db, emptyRoot.val, 0, 0⟩ := by
      refine ⟨_, rfl, ?_⟩
      show Trie.mk (.full _ _) _ _ _ _ = Trie.mk (.full _ _) _ _ _ _
      congr 2
      funext i
      fin_cases i <;> rfl
    rw [h, ht', bytesToHash_digest]
  · -- the proof's node decodes to a full node whose value slot is nil
    have hdec : decodeNode none twoKeyRootBlob 0 = .ok twoKeyRootDecoded := by
      -- the derived equality of results is stuck in the kernel; compare the nodes
      have h : (match decodeNode none twoKeyRootBlob 0 with
          | .ok n => decide (n = twoKeyRootDecoded)
          | _ => false) = true := by decide +kernel
      revert h
      cases decodeNode none _ 0 with
      | ok n => simp
      | error e => simp
      | panic m => simp
    simp only [VerifyProof, verifyFrom, ne_eq, not_true_eq_false, if_false, decodeNode_withHash, hdec,
      Outcome.map_ok, get_withHash, twoKeyRootDecoded]
    rw [show keybytesToHex [] = [16] from rfl, get_full_terminator_nil _ rfl]

/-- A decoded node that panics, read off its result without comparing nodes
(which hold functions). -/
theorem decodeNode_eq_panic {buf : Bytes}
    (h : (match decodeNode none buf 0 with
      | .panic m => decide (m = indexOutOfRange)
      | _ => false) = true) : decodeNode none buf 0 = .panic indexOutOfRange := by
  revert h
  cases decodeNode none buf 0 <;> simp

/-- **Malformed proof nodes crash the verifier.** For every hash function,
key and rest of the proof: a first proof element that is the one byte `0x81`
panics in `rlp.SplitList`, which reads the byte after a one-byte string's
header; and one that is a short node with an empty key, `[0xc2, 0x80, 0x80]`,
panics in `compactToHex`, which reads the first nibble of the key. -/
theorem verifyProof_malformed_node_panics (keccak : Bytes → Digest) (key : Bytes)
    (rest : List Bytes) :
    VerifyProof keccak (keccak [0x81]) key ([0x81] :: rest) = .panic indexOutOfRange ∧
      VerifyProof keccak (keccak [0xc2, 0x80, 0x80]) key ([0xc2, 0x80, 0x80] :: rest) =
        .panic indexOutOfRange := by
  have hsplit : decodeNode none [0x81] 0 = .panic indexOutOfRange :=
    decodeNode_eq_panic (by decide +kernel)
  have hempty : decodeNode none [0xc2, 0x80, 0x80] 0 = .panic indexOutOfRange :=
    decodeNode_eq_panic (by decide +kernel)
  constructor
  · simp only [VerifyProof, verifyFrom, ne_eq, not_true_eq_false, if_false, decodeNode_withHash,
      hsplit, Outcome.map_panic]
  · simp only [VerifyProof, verifyFrom, ne_eq, not_true_eq_false, if_false, decodeNode_withHash,
      hempty, Outcome.map_panic]

end Trie

end Bazacoin
