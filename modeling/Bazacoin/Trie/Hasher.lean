import Bazacoin.Trie.Trie

/-!
# Hashing and committing a trie (`trie/hasher.go`, `trie.go`)

`hash` collapses a node for its database form: a short node's key becomes
compact, a child whose encoding is at least 32 bytes becomes the hash node of
that encoding, and nil children become empty strings. It also returns the
node to keep in memory, with the computed hash cached in its flags.

- `Hasher.store`: a collapsed node of fewer than 32 encoded bytes stays
  embedded in its parent (unless forced, as the root is); a larger one is
  replaced by its hash (the cached one, if any) and, when committing, written
  to the database.
- `Trie.Hash`, `Trie.Commit`: hash the root; committing writes every dirty
  node, clears the dirty flags, unloads nodes older than `cachelimit`
  generations into hash nodes, and starts a new cache generation.

Keccak-256 is the parameter `keccak`, a function to 32-byte strings. The
database writer only ever receives `Put` calls, so the model returns the
writes in call order and `Commit` applies them to the trie's database.
-/

set_option linter.dupNamespace false

namespace Bazacoin

namespace Trie

open Rlp

/-- A 32-byte hash (`common.Hash`). -/
abbrev Digest := {b : Bytes // b.length = 32}

/-- `common.BytesToHash`: the last 32 bytes, left-padded with zeros. -/
def bytesToHash (b : Bytes) : Digest :=
  if h : 32 ≤ b.length then ⟨b.drop (b.length - 32), by simp; omega⟩
  else ⟨List.replicate (32 - b.length) 0 ++ b, by simp; omega⟩

@[simp] theorem bytesToHash_digest (d : Digest) : bytesToHash d.val = d := by
  obtain ⟨b, hb⟩ := d
  simp [bytesToHash, hb]

/-- `emptyRoot`: the root hash of the empty trie. -/
def emptyRoot : Digest :=
  ⟨[0x56, 0xe8, 0x1f, 0x17, 0x1b, 0xcc, 0x55, 0xa6, 0xff, 0x83, 0x45, 0xe6, 0x92, 0xc0, 0xf8, 0x6e,
    0x5b, 0x48, 0xe0, 0x1b, 0x99, 0x6c, 0xad, 0xc0, 0x01, 0x62, 0x2f, 0xb5, 0xe3, 0x63, 0xb4, 0x21],
    rfl⟩

/-- `Put` calls on the database writer, in order. -/
abbrev Writes := List (Bytes × Bytes)

/-- `hasher`: the cache generation it hashes for. -/
structure Hasher where
  cachegen : UInt16
  cachelimit : UInt16

namespace Hasher

variable (keccak : Bytes → Digest) (h : Hasher)

/-- `store`: `commit` says whether there is a database writer. -/
def store (n : Node) (commit force : Bool) : Node × Writes :=
  match n with
  -- don't store hashes or empty nodes
  | .nil => (n, [])
  | .hash _ => (n, [])
  | n =>
    let enc := n.encode
    -- nodes smaller than 32 bytes are stored inside their parent
    if enc.length < 32 ∧ !force then (n, [])
    else
      let hash := n.cache.1.getD (keccak enc).val
      (.hash hash, if commit then [(hash, enc)] else [])

/-- `hashChildren` of a short node, given what `hash` makes of its child. A
value child is kept; a nil child is encoded as an empty string. -/
def collapseShort (k : Bytes) (v : Node) (f : NodeFlag) (hv : Node × Node × Writes) :
    Node × Node × Writes :=
  let (cv, kv, w) : Node × Node × Writes := if v matches .value _ then (v, v, []) else hv
  let cv := if cv matches .nil then .value [] else cv
  (.short (hexToCompact k) cv f, .short k kv f, w)

/-- `hashChildren` of a full node, given what `hash` makes of each child: the
sixteen nibble children are hashed in order, the value slot is kept. -/
def collapseFull (cs : Fin 17 → Node) (f : NodeFlag) (hc : Fin 17 → Node × Node × Writes) :
    Node × Node × Writes :=
  let sub : Fin 17 → Node × Node × Writes := fun i =>
    if i.val = 16 then (if cs i matches .nil then .value [] else cs i, cs i, [])
    else if cs i matches .nil then (.value [], .nil, [])
    else hc i
  (.full (fun i => (sub i).1) f, .full (fun i => (sub i).2.1) f,
    ((List.finRange 16).map fun i => (sub i.castSucc).2.2).flatten)

/-- The cached node with the hash `store` computed, and clean after a commit. -/
def recordHash (cached hashed : Node) (commit : Bool) : Node :=
  let cachedHash := match hashed with
    | .hash b => some b
    | _ => none
  match cached with
  | .short k v f => .short k v { f with hash := cachedHash, dirty := if commit then false else f.dirty }
  | .full cs f => .full cs { f with hash := cachedHash, dirty := if commit then false else f.dirty }
  | c => c

/-- The early returns of `hash`: a node with a cached hash is walked again
only when it is dirty and being committed. -/
def cacheHit (n : Node) (commit : Bool) : Option (Node × Node) :=
  match n.cache with
  | (some hc, dirty) =>
    -- if we're not storing the node, just hashing, use available cached data
    if !commit then some (.hash hc, n)
    -- unload the node from cache: all of its subnodes have a lower or equal
    -- cache generation number
    else if n.canUnload h.cachegen h.cachelimit then some (.hash hc, .hash hc)
    else if !dirty then some (.hash hc, n)
    else none
  | (none, _) => none

/-- `hash`: the collapsed form of `n` (a hash node when stored), the node to
keep in its place, and the writes. -/
def hash (n : Node) (commit force : Bool) : Node × Node × Writes :=
  match h.cacheHit n commit with
  | some (hashed, cached) => (hashed, cached, [])
  | none =>
    -- the node is not processed yet or needs storage: walk the children
    let (collapsed, cached, w₁) : Node × Node × Writes :=
      match n with
      | .short k v f => collapseShort k v f (hash v commit false)
      | .full cs f => collapseFull cs f fun i => hash (cs i) commit false
      | n => (n, n, [])
    let (hashed, w₂) := store keccak collapsed commit force
    (hashed, recordHash cached hashed commit, w₁ ++ w₂)

/-- `hashChildren`: the collapsed node and the node to cache. -/
def hashChildren (original : Node) (commit : Bool) : Node × Node × Writes :=
  match original with
  | .short k v f => collapseShort k v f (h.hash keccak v commit false)
  | .full cs f => collapseFull cs f fun i => h.hash keccak (cs i) commit false
  | n => (n, n, [])

/-- `hash` is `hashChildren` followed by `store`, unless the cache answers. -/
theorem hash_eq (n : Node) (commit force : Bool) :
    h.hash keccak n commit force =
      match h.cacheHit n commit with
      | some (hashed, cached) => (hashed, cached, [])
      | none =>
        let (collapsed, cached, w₁) := h.hashChildren keccak n commit
        let (hashed, w₂) := store keccak collapsed commit force
        (hashed, recordHash cached hashed commit, w₁ ++ w₂) := by
  rw [hash.eq_def]
  cases n <;> rfl

end Hasher

namespace Trie

variable (keccak : Bytes → Digest) (t : Trie)

/-- `hashRoot`: the empty trie hashes to `emptyRoot`. -/
def hashRoot (commit : Bool) : Node × Node × Writes :=
  match t.root with
  | .nil => (.hash emptyRoot.val, .nil, [])
  | root => (Hasher.mk t.cachegen t.cachelimit).hash keccak root commit true

/-- The root hash as `common.Hash`; the root is always stored, so it is a hash
node. -/
def rootDigest (hashed : Node) : Outcome PEmpty Digest :=
  match hashed with
  | .hash b => .ok (bytesToHash b)
  | _ => .panic "interface conversion: trie.node is not trie.hashNode"

/-- `Hash`: the root hash, keeping the hashes computed on the way. -/
def Hash : Outcome PEmpty (Digest × Trie) :=
  let (hashed, cached, _) := t.hashRoot keccak false
  (rootDigest hashed).map ((·, { t with root := cached }))

/-- `Put` of each write into a database, in order. -/
def putAll (db : Bytes → Option Bytes) (w : Writes) : Bytes → Option Bytes :=
  w.foldl (fun db (k, v) => Function.update db k (some v)) db

/-- `Commit` (`CommitTo(t.db)`): write the dirty nodes into the trie's own
database and start a new cache generation. -/
def Commit : Outcome PEmpty (Digest × Trie) :=
  let (hashed, cached, w) := t.hashRoot keccak true
  (rootDigest hashed).map
    ((·, { t with root := cached, db := putAll t.db w, cachegen := t.cachegen + 1 }))

/-- `New`: the zero hash and `emptyRoot` give an empty trie; any other root
is loaded from the database. -/
def New (root : Digest) (db : Bytes → Option Bytes) : Outcome TrieError Trie :=
  let trie : Trie := ⟨.nil, db, root.val, 0, 0⟩
  if root.val ≠ List.replicate 32 0 ∧ root ≠ emptyRoot then
    (trie.resolveHash root.val []).map fun rootnode => { trie with root := rootnode }
  else .ok trie

end Trie

end Trie

end Bazacoin
