import Bazacoin.Trie.Hasher
import Bazacoin.Trie.Preorder

/-!
# The trie iterators (`trie/iterator.go`)

`nodeIterator` walks a trie in pre-order with an explicit stack: one state per
node on the path to the current one, each holding the index of the child it
is at. `Next(descend)` peeks at the next node (the first child, or the next
sibling of the node or of an ancestor; with `descend` false the current
node's children are skipped) and pushes it. `seek` drives the same peeks,
descending only into nodes on the way to the key, until it is just before the
first node at or after it. `Iterator` runs `Next(true)` to each leaf and
reads its key and value.

The loops of `seek` and `Iterator.Next` run until the walk stops, which it
does on every trie whose nodes load (a database could describe an infinite
one). The model gives each loop a number of rounds, and running out of them
is the error `OutOfFuel`; panics are Go's.

Go keeps the stack as a slice with the current node last; the model's list
has it first.

The loaded view: `Loads db gen n T` says that the node `n` stands for the
loaded tree `T`, its hash nodes resolved through the database.
-/

namespace Bazacoin

namespace Trie

open Rlp

/-! ## Nodes and the trees they load to -/

/-- `n == nil`. -/
def Node.isNil : Node → Bool
  | .nil => true
  | _ => false

/-- A hash node, to be resolved before its children can be read. -/
def Node.isHash : Node → Bool
  | .hash _ => true
  | _ => false

/-- A short or full node, the nodes a database stores. -/
def Node.isInner : Node → Bool
  | .full _ _ => true
  | .short _ _ _ => true
  | _ => false

theorem decodeShort_ok_isInner {hash : Option Bytes} {elems : Bytes} {gen : UInt16} {n : Node}
    (h : decodeShort hash elems gen = .ok n) : n.isInner = true := by
  rw [decodeShort] at h
  split at h <;> try cases h
  split at h <;> try cases h
  split at h
  · split at h <;> cases h
    rfl
  · split at h <;> cases h
    rfl

theorem decodeFull_ok_isInner {hash : Option Bytes} {elems : Bytes} {gen : UInt16} {n : Node}
    (h : decodeFull hash elems gen = .ok n) : n.isInner = true := by
  rw [decodeFull] at h
  obtain ⟨⟨cs, rest⟩, -, h⟩ := Outcome.bind_eq_ok.mp h
  dsimp only at h
  split at h <;> cases h
  rfl

/-- The database holds short and full nodes only. -/
theorem decodeNode_ok_isInner {hash : Option Bytes} {buf : Bytes} {gen : UInt16} {n : Node}
    (h : decodeNode hash buf gen = .ok n) : n.isInner = true := by
  rw [decodeNode] at h
  split at h
  · cases h
  · split at h
    · cases h
    · cases h
    · obtain ⟨c, -, h⟩ := Outcome.bind_eq_ok.mp h
      split at h
      · cases hs : decodeShort hash _ gen <;> rw [hs] at h <;> simp only [Outcome.handle_error,
          Outcome.handle_ok, Outcome.handle_panic, reduceCtorEq, Outcome.ok.injEq] at h
        subst h
        exact decodeShort_ok_isInner hs
      · split at h
        · cases hs : decodeFull hash _ gen <;> rw [hs] at h <;> simp only [Outcome.handle_error,
            Outcome.handle_ok, Outcome.handle_panic, reduceCtorEq, Outcome.ok.injEq] at h
          subst h
          exact decodeFull_ok_isInner hs
        · cases h

/-- The node `n` loads to the tree `T` from the database `db` at cache
generation `gen`: a hash node stands for what its encoding decodes to. -/
inductive Loads (db : Bytes → Option Bytes) (gen : UInt16) : Node → Tree → Prop
  | nil : Loads db gen .nil .nil
  | value (v : Bytes) : Loads db gen (.value v) (.value v)
  | short {k : Bytes} {c : Node} {f : NodeFlag} {T : Tree} :
      Loads db gen c T → Loads db gen (.short k c f) (.short k T)
  | full {cs : Fin 17 → Node} {f : NodeFlag} {Ts : Fin 17 → Tree} :
      (∀ i, Loads db gen (cs i) (Ts i)) → Loads db gen (.full cs f) (.full Ts)
  | hash {h enc : Bytes} {n : Node} {T : Tree} :
      db h = some enc → decodeNode (some h) enc gen = .ok n → Loads db gen n T →
      Loads db gen (.hash h) T

namespace Loads

variable {db : Bytes → Option Bytes} {gen : UInt16}

theorem isNil_false_of_isInner {n : Node} {T : Tree} (h : Loads db gen n T) (hn : n.isInner = true) :
    T.isNil = false := by
  cases h <;> simp_all [Node.isInner, Tree.isNil]

/-- A child slot is nil exactly when the tree there is. -/
theorem isNil_eq {n : Node} {T : Tree} (h : Loads db gen n T) : n.isNil = T.isNil := by
  cases h with
  | hash _ hdec hT => rw [hT.isNil_false_of_isInner (decodeNode_ok_isInner hdec)]; rfl
  | _ => rfl

theorem value_inv {n : Node} {v : Bytes} (h : Loads db gen n (.value v)) (hn : n.isHash = false) :
    n = .value v := by
  cases h with
  | value => rfl
  | hash => simp [Node.isHash] at hn

theorem full_inv {cs : Fin 17 → Node} {f : NodeFlag} {T : Tree} (h : Loads db gen (.full cs f) T) :
    ∃ Ts, T = .full Ts ∧ ∀ i, Loads db gen (cs i) (Ts i) := by
  cases h with
  | full hcs => exact ⟨_, rfl, hcs⟩

theorem short_inv {k : Bytes} {c : Node} {f : NodeFlag} {T : Tree}
    (h : Loads db gen (.short k c f) T) : ∃ Tc, T = .short k Tc ∧ Loads db gen c Tc := by
  cases h with
  | short hc => exact ⟨_, rfl, hc⟩

end Loads

/-! ## Hashing keeps what the nodes load to -/

section Hashing

variable (keccak : Bytes → Digest) {db : Bytes → Option Bytes} {gen : UInt16}

/-- The node `hash` keeps in memory when not committing loads to the same
tree: it only records hashes in the flags. -/
theorem loads_hash_cached (hh : Hasher) {n : Node} {T : Tree} (hload : Loads db gen n T)
    (force : Bool) : Loads db gen (hh.hash keccak n false force).2.1 T := by
  induction hload generalizing force with
  | nil => rw [Hasher.hash_eq]; exact .nil
  | value v => rw [Hasher.hash_eq]; exact .value v
  | hash hdb hdec hT => rw [Hasher.hash_eq]; exact .hash hdb hdec hT
  | @short k c f Tc hc ih =>
    rw [Hasher.hash_eq]
    cases hf : f.hash
    case some hc' =>
      simp only [Hasher.cacheHit, Node.cache, hf]
      exact .short hc
    case none =>
      simp only [Hasher.cacheHit, Node.cache, hf, Hasher.hashChildren, Hasher.collapseShort]
      split
      · exact .short hc
      · exact .short (ih false)
  | @full cs f Ts hcs ih =>
    rw [Hasher.hash_eq]
    cases hf : f.hash
    case some hc' =>
      simp only [Hasher.cacheHit, Node.cache, hf]
      exact .full hcs
    case none =>
      simp only [Hasher.cacheHit, Node.cache, hf, Hasher.hashChildren, Hasher.collapseFull]
      refine .full fun i => ?_
      -- the value slot is kept, nil slots stay nil, the others are hashed
      split
      · exact hcs i
      · split
        · rename_i hnil
          have hci : cs i = .nil := by
            revert hnil
            cases cs i <;> simp
          show Loads db gen .nil (Ts i)
          rw [← hci]
          exact hcs i
        · exact ih i false

/-- Hashing a node that is not nil with `force` gives a hash node. -/
theorem hash_force_isHash (hh : Hasher) {n : Node} (hn : n.isNil = false) :
    ∃ b, (hh.hash keccak n false true).1 = .hash b := by
  rw [Hasher.hash_eq]
  cases n
  case nil => simp [Node.isNil] at hn
  case hash b => exact ⟨b, rfl⟩
  case value v => simp [Hasher.cacheHit, Node.cache, Hasher.hashChildren, Hasher.store]
  case short k c f =>
    cases hf : f.hash
    case some hc => simp [Hasher.cacheHit, Node.cache, hf]
    case none => simp [Hasher.cacheHit, Node.cache, hf, Hasher.hashChildren, Hasher.collapseShort,
      Hasher.store]
  case full cs f =>
    cases hf : f.hash
    case some hc => simp [Hasher.cacheHit, Node.cache, hf]
    case none => simp [Hasher.cacheHit, Node.cache, hf, Hasher.hashChildren, Hasher.collapseFull,
      Hasher.store]

/-- `Trie.Hash` returns, and the trie it leaves loads to the same tree. -/
theorem Hash_loads {t : Trie} {T : Tree} (hload : Loads t.db t.cachegen t.root T) :
    ∃ d t', t.Hash keccak = .ok (d, t') ∧ t'.db = t.db ∧ t'.cachegen = t.cachegen ∧
      Loads t.db t.cachegen t'.root T := by
  unfold Trie.Trie.Hash Trie.Trie.hashRoot
  cases hroot : t.root
  case nil =>
    rw [hroot] at hload
    exact ⟨_, _, rfl, rfl, rfl, hload⟩
  all_goals
    rw [hroot] at hload
    obtain ⟨b, hb⟩ := hash_force_isHash keccak ⟨t.cachegen, t.cachelimit⟩
      (n := t.root) (by rw [hroot]; rfl)
    rw [hroot] at hb
    simp only [hb, Trie.Trie.rootDigest, Outcome.map_ok]
    exact ⟨_, _, rfl, rfl, rfl, loads_hash_cached keccak ⟨t.cachegen, t.cachelimit⟩ hload true⟩

end Hashing

/-! ## The node iterator -/

/-- `common.Hash{}`. -/
def zeroHash : Digest := ⟨List.replicate 32 0, by simp⟩

/-- The panic of a method called through a nil pointer. -/
def nilDereference : String := "runtime error: invalid memory address or nil pointer dereference"

/-- The error the model adds to a loop: it ran out of rounds. -/
inductive OutOfFuel where
  | outOfFuel
  deriving DecidableEq, Repr

/-- `nodeIteratorState`: the iteration state at one node. -/
structure IterState where
  /-- Hash of the node being iterated (zero if not standalone). -/
  hash : Digest
  /-- Trie node being iterated. -/
  node : Node
  /-- Hash of the first full ancestor node (zero if current is the root). -/
  parent : Digest
  /-- The child slot the iteration is at, `-1` before the first. -/
  index : Int
  /-- Length of the path to the parent of this node. -/
  pathlen : Nat

/-- What `nodeIterator.err` holds. -/
inductive IterError where
  /-- `iteratorEnd`: the iteration is done. -/
  | iteratorEnd
  /-- `seekError`: the initial seek for `key` failed. -/
  | seekError (key : Bytes) (err : TrieError)
  /-- A node failed to load. -/
  | trie (err : TrieError)
  deriving DecidableEq, Repr

/-- The errors of `peek`. -/
inductive PeekError where
  | iteratorEnd
  | trie (err : TrieError)
  deriving DecidableEq, Repr

/-- `nodeIterator`; `trie` is `none` for `new(nodeIterator)`. -/
structure NodeIterator where
  trie : Option Trie
  /-- The states of the nodes on the path, the current node first. -/
  stack : List IterState
  /-- Path to the current node. -/
  path : Bytes
  err : Option IterError

/-- `nodeIteratorState.resolve`: load a hash node, keeping its hash. -/
def IterState.resolve (st : IterState) (tr : Option Trie) (path : Bytes) :
    Outcome TrieError IterState :=
  match st.node with
  | .hash hash =>
    match tr with
    | none => .panic nilDereference
    | some tr => (tr.resolveHash hash path).map fun resolved =>
        { st with node := resolved, hash := bytesToHash hash }
  | _ => .ok st

/-- A node that loads resolves, to a node that is not a hash node. -/
theorem IterState.resolve_of_loads (st : IterState) {db : Bytes → Option Bytes} {gen : UInt16}
    {tr : Trie} (hdb : tr.db = db) (hgen : tr.cachegen = gen) {T : Tree}
    (hload : Loads db gen st.node T) (path : Bytes) :
    ∃ st', st.resolve (some tr) path = .ok st' ∧ Loads db gen st'.node T ∧
      st'.node.isHash = false ∧ st'.index = st.index ∧ st'.pathlen = st.pathlen := by
  obtain ⟨hash, node, parent, index, pathlen⟩ := st
  cases node
  case hash h =>
    cases hload with
    | @hash _ _ n _ hdbh hdec hT =>
      refine ⟨⟨bytesToHash h, n, parent, index, pathlen⟩, ?_, hT, ?_, rfl, rfl⟩
      · simp [IterState.resolve, Trie.Trie.resolveHash, hdb, hgen, hdbh, hdec]
      · have hinner := decodeNode_ok_isInner hdec
        cases n <;> simp_all [Node.isInner, Node.isHash]
  all_goals exact ⟨_, rfl, hload, rfl, rfl, rfl⟩

/-- The loop of `nextChild` over the slots of a full node: the first child
that is not nil. -/
def firstChild (cs : Fin 17 → Node) : List (Fin 17) → Option (Fin 17)
  | [] => none
  | i :: is => if (cs i).isNil then firstChild cs is else some i

/-- `nextChild`: the state of the next child of `parent` and its path, with
`parent` moved to just before it. -/
def nextChild (parent : IterState) (ancestor : Digest) (path : Bytes) :
    Option (IterState × Bytes × IterState) :=
  match parent.node with
  | .full cs _ =>
    -- full node, move to the first non-nil child
    match firstChild cs ((List.finRange 17).drop (parent.index + 1).toNat) with
    | some i =>
      let state : IterState := ⟨bytesToHash ((cs i).cache.1.getD []), cs i, ancestor, -1, path.length⟩
      some (state, path ++ [UInt8.ofNat i.val], { parent with index := i.val - 1 })
    | none => none
  | .short k v _ =>
    -- short node, return the pointer singleton child
    if parent.index < 0 then
      some (⟨bytesToHash (v.cache.1.getD []), v, ancestor, -1, path.length⟩, path ++ k, parent)
    else none
  | _ => none

/-- The loop of `peek`: the next child of the top of the stack, popping the
states that have none. Returns the stack and path it leaves and the child
with its path. -/
def peekLoop (tr : Option Trie) : List IterState → Bytes →
    (List IterState × Bytes) × Outcome PeekError (IterState × Bytes)
  | [], path => (([], path), .error .iteratorEnd)
  | parent :: rest, path =>
    let ancestor := if parent.hash = zeroHash then parent.parent else parent.hash
    match nextChild parent ancestor path with
    | some (state, childPath, parent') =>
      ((parent' :: rest, path),
        ((state.resolve tr childPath).handle fun e => .error (.trie e)).map (·, childPath))
    | none =>
      -- no more child nodes, move back up
      peekLoop tr rest (path.take parent.pathlen)

/-- The error `peek` reports, as `nodeIterator.err` stores it. -/
def PeekError.toIterError : PeekError → IterError
  | .iteratorEnd => .iteratorEnd
  | .trie e => .trie e

variable (keccak : Bytes → Digest)

namespace NodeIterator

/-- `peek`: the next state, whether it has a parent (whose index `push`
advances), and its path, with the iterator as `peek` leaves it. -/
def peek (it : NodeIterator) (descend : Bool) :
    NodeIterator × Outcome PeekError (IterState × Bool × Bytes) :=
  match it.stack with
  | [] =>
    -- initialize the iterator if we've just started
    match it.trie with
    | none => (it, .panic nilDereference)
    | some tr =>
      match tr.Hash keccak with
      | .ok (root, tr) =>
        let state : IterState := ⟨if root ≠ emptyRoot then root else zeroHash, tr.root, zeroHash, -1, 0⟩
        ({ it with trie := some tr },
          ((state.resolve (some tr) []).handle fun e => .error (.trie e)).map (·, false, []))
      | .error e => nomatch e
      | .panic m => (it, .panic m)
  | top :: rest =>
    -- if we're skipping children, pop the current node first
    let (stack, path) := if descend then (top :: rest, it.path) else (rest, it.path.take top.pathlen)
    let ((stack, path), res) := peekLoop it.trie stack path
    ({ it with stack := stack, path := path }, res.map fun (state, p) => (state, true, p))

/-- `push`: make `state` the current node, advancing its parent's index. -/
def push (it : NodeIterator) (state : IterState) (hasParent : Bool) (path : Bytes) : NodeIterator :=
  let stack := match hasParent, it.stack with
    | true, parent :: rest => { parent with index := parent.index + 1 } :: rest
    | _, stack => stack
  { it with path := path, stack := state :: stack }

/-- The rounds of `seek`'s loop, looking for the hex path `key`. -/
def seekLoop (pfx key : Bytes) : Nat → NodeIterator →
    Outcome OutOfFuel (Option IterError × NodeIterator)
  | 0, _ => .error .outOfFuel
  | fuel + 1, it =>
    -- move forward until we're just before the closest match to key
    let (it, res) := it.peek keccak (it.path.isPrefixOf key)
    match res with
    | .error .iteratorEnd => .ok (some .iteratorEnd, it)
    | .error (.trie e) => .ok (some (.seekError pfx e), it)
    | .panic m => .panic m
    | .ok (state, hasParent, path) =>
      if ¬ path < key then .ok (none, it)
      else seekLoop pfx key fuel (it.push state hasParent path)

/-- `seek`: the error to store, and the iterator. -/
def seek (fuel : Nat) (it : NodeIterator) (pfx : Bytes) :
    Outcome OutOfFuel (Option IterError × NodeIterator) :=
  -- the path we're looking for is the hex encoded key without terminator
  seekLoop keccak pfx (keybytesToHex pfx).dropLast fuel it

/-- Peek and push, the part of `Next` after the error checks. -/
def advance (it : NodeIterator) (descend : Bool) : Outcome OutOfFuel (Bool × NodeIterator) :=
  let (it, res) := it.peek keccak descend
  match res with
  | .ok (state, hasParent, path) => .ok (true, { it with err := none }.push state hasParent path)
  | .error e => .ok (false, { it with err := some e.toIterError })
  | .panic m => .panic m

/-- `Next`: move to the next node, skipping the children of the current one
when `descend` is false; `false` at the end or on an error. -/
def Next (fuel : Nat) (it : NodeIterator) (descend : Bool) : Outcome OutOfFuel (Bool × NodeIterator) :=
  match it.err with
  | some .iteratorEnd => .ok (false, it)
  | some (.seekError key _) =>
    (it.seek keccak fuel key).bind fun (err, it) =>
      match err with
      | some e => .ok (false, { it with err := some e })
      | none => { it with err := none }.advance keccak descend
  | _ => it.advance keccak descend

/-- `Hash`: the hash of the current node, zero before the first. -/
def Hash (it : NodeIterator) : Digest :=
  match it.stack with
  | top :: _ => top.hash
  | [] => zeroHash

/-- `Leaf`: the path ends with the terminator. -/
def Leaf (it : NodeIterator) : Bool := hasTerm it.path

/-- `LeafBlob`. -/
def LeafBlob {ε : Type} (it : NodeIterator) : Outcome ε Bytes :=
  match it.stack with
  | top :: _ =>
    match top.node with
    | .value v => .ok v
    | _ => .panic "not at leaf"
  | [] => .panic "not at leaf"

/-- `LeafKey`. -/
def LeafKey {ε : Type} (it : NodeIterator) : Outcome ε Bytes :=
  match it.stack with
  | top :: _ =>
    match top.node with
    | .value _ =>
      match hexToKeybytes it.path with
      | some key => .ok key
      | none => .panic "can't convert hex key of odd length"
    | _ => .panic "not at leaf"
  | [] => .panic "not at leaf"

end NodeIterator

/-- `newNodeIterator` (`Trie.NodeIterator`): iterate from the first node at
or after `start`. -/
def newNodeIterator (fuel : Nat) (trie : Trie) (start : Bytes) : Outcome OutOfFuel NodeIterator :=
  match trie.Hash keccak with
  | .ok (root, trie) =>
    -- `emptyState`, the hash of no data
    if root = keccak [] then .ok ⟨none, [], [], none⟩
    else
      let it : NodeIterator := ⟨some trie, [], [], none⟩
      (it.seek keccak fuel start).map fun (err, it) => { it with err := err }
  | .error e => nomatch e
  | .panic m => .panic m

/-- The methods of the `NodeIterator` interface that `Iterator` calls, on an
iterator state `σ`. -/
structure NodeIteratorMethods (σ : Type) where
  Next : σ → Bool → Outcome OutOfFuel (Bool × σ)
  Leaf : σ → Bool
  LeafKey : σ → Outcome OutOfFuel Bytes
  LeafBlob : σ → Outcome OutOfFuel Bytes

/-- `*nodeIterator` as a `NodeIterator`; `fuel` bounds the rounds of a
repeated seek. -/
def NodeIterator.methods (fuel : Nat) : NodeIteratorMethods NodeIterator :=
  ⟨fun it descend => it.Next keccak fuel descend, NodeIterator.Leaf, NodeIterator.LeafKey,
    NodeIterator.LeafBlob⟩

/-- `Iterator`: a node iterator and the entry it is positioned on. -/
structure Iterator (σ : Type) where
  nodeIt : σ
  Key : Bytes
  Value : Bytes

/-- `NewIterator`. -/
def NewIterator {σ : Type} (it : σ) : Iterator σ := ⟨it, [], []⟩

namespace Iterator

variable {σ : Type} (m : NodeIteratorMethods σ)

/-- The rounds of `Iterator.Next`'s loop. -/
def nextLoop : Nat → Iterator σ → Outcome OutOfFuel (Bool × Iterator σ)
  | 0, _ => .error .outOfFuel
  | n + 1, it =>
    (m.Next it.nodeIt true).bind fun (more, nodeIt) =>
      if more then
        if m.Leaf nodeIt then
          (m.LeafKey nodeIt).bind fun key => (m.LeafBlob nodeIt).map fun value => (true, ⟨nodeIt, key, value⟩)
        else nextLoop n { it with nodeIt := nodeIt }
      else .ok (false, ⟨nodeIt, [], []⟩)

/-- `Iterator.Next`: move to the next entry; `false` when there is none. -/
def Next (fuel : Nat) (it : Iterator σ) : Outcome OutOfFuel (Bool × Iterator σ) :=
  nextLoop m fuel it

/-- Calling `Next` until it returns false: the (Key, Value) pairs it stops at. -/
def entries (fuel : Nat) : Nat → Iterator σ → Outcome OutOfFuel (List (Bytes × Bytes))
  | 0, _ => .error .outOfFuel
  | n + 1, it =>
    (it.Next m fuel).bind fun (more, it) =>
      if more then (entries fuel n it).map ((it.Key, it.Value) :: ·) else .ok []

end Iterator

/-- The entries of `NewIterator(t.NodeIterator(start))`, in order. -/
def iteratorEntries (fuel : Nat) (t : Trie) (start : Bytes) : Outcome OutOfFuel (List (Bytes × Bytes)) :=
  (newNodeIterator keccak fuel t start).bind fun it =>
    (NewIterator it).entries (NodeIterator.methods keccak fuel) fuel fuel

/-! ## What `Iterator` yields -/

namespace Iterator

variable {σ : Type} {m : NodeIteratorMethods σ}
  {Yields : σ → List (Bytes × Bytes) → Nat → Prop}

section Yields

/- `Yields it O n`: the node iterator `it` has the entries `O` left, under
their hex keys, and reaches each of them in fewer than `n` calls of `Next`.
`hstep` is what one `Next(true)` does: it reports the end only when nothing
is left, and otherwise moves with a smaller bound to a leaf, the first entry
left, or to another node, with the same entries left. -/
variable (hstep : ∀ it O n, Yields it O n →
  ∃ more it', m.Next it true = .ok (more, it') ∧ (more = false → O = []) ∧
    (more = true → ∃ n' < n,
      (m.Leaf it' = true → ∃ k v O', m.LeafKey it' = .ok k ∧ m.LeafBlob it' = .ok v ∧
        O = (keybytesToHex k, v) :: O' ∧ Yields it' O' n') ∧
      (m.Leaf it' = false → Yields it' O n')))

include hstep in
/-- `Iterator.Next` stops at the first entry left, or reports the end when
there is none. -/
theorem nextLoop_spec (rounds : Nat) {it : Iterator σ} {O : List (Bytes × Bytes)} {n : Nat}
    (h : Yields it.nodeIt O n) (hn : n < rounds) :
    (O = [] → ∃ it', it.nextLoop m rounds = .ok (false, it')) ∧
    (∀ p v O', O = (p, v) :: O' → ∃ it' n', it.nextLoop m rounds = .ok (true, it') ∧
      keybytesToHex it'.Key = p ∧ it'.Value = v ∧ Yields it'.nodeIt O' n' ∧ n' < n) := by
  induction rounds generalizing it n with
  | zero => omega
  | succ r ih =>
    obtain ⟨more, it', hN, hfalse, htrue⟩ := hstep _ _ _ h
    cases more with
    | false =>
      have hO := hfalse rfl
      subst hO
      refine ⟨fun _ => ⟨⟨it', [], []⟩, ?_⟩, fun _ _ _ hO => by cases hO⟩
      rw [nextLoop, hN]
      rfl
    | true =>
      obtain ⟨n', hn', hleaf, hinner⟩ := htrue rfl
      cases hl : m.Leaf it' with
      | true =>
        -- at a leaf: the loop stops with its key and value
        obtain ⟨k, v, O', hk, hv, rfl, hY⟩ := hleaf hl
        have hloop : it.nextLoop m (r + 1) = .ok (true, ⟨it', k, v⟩) := by
          rw [nextLoop, hN]
          simp [hl, hk, hv, Outcome.bind, Outcome.map]
        refine ⟨fun hO => (by cases hO), fun p w O'' hO => ?_⟩
        simp only [List.cons.injEq, Prod.mk.injEq] at hO
        obtain ⟨⟨rfl, rfl⟩, rfl⟩ := hO
        exact ⟨⟨it', k, v⟩, n', hloop, rfl, rfl, hY, hn'⟩
      | false =>
        have hloop : it.nextLoop m (r + 1) = nextLoop m r { it with nodeIt := it' } := by
          rw [nextLoop, hN]
          simp [hl, Outcome.bind]
        have hY : Yields ({ it with nodeIt := it' } : Iterator σ).nodeIt O n' := hinner hl
        obtain ⟨hnone, hsome⟩ := ih hY (by omega)
        rw [hloop]
        refine ⟨hnone, fun p v O' hO => ?_⟩
        obtain ⟨it'', n'', hN', hK, hV, hY', hn''⟩ := hsome p v O' hO
        exact ⟨it'', n'', hN', hK, hV, hY', by omega⟩

include hstep in
/-- Calling `Iterator.Next` until it reports `false` gives the entries left,
in order. -/
theorem entries_spec (fuel k : Nat) {it : Iterator σ} {O : List (Bytes × Bytes)} {n : Nat}
    (h : Yields it.nodeIt O n) (hn : n < fuel) (hk : O.length < k) :
    ∃ L, it.entries m fuel k = .ok L ∧ L.map (fun e => (keybytesToHex e.1, e.2)) = O := by
  induction k generalizing it O n with
  | zero => omega
  | succ k ih =>
    obtain ⟨hnone, hsome⟩ := nextLoop_spec hstep fuel h hn
    cases O with
    | nil =>
      obtain ⟨it', hN⟩ := hnone rfl
      refine ⟨[], ?_, rfl⟩
      rw [entries, Next, hN]
      rfl
    | cons e O' =>
      obtain ⟨p, v⟩ := e
      obtain ⟨it', n', hN, hK, hV, hY, hn'⟩ := hsome p v O' rfl
      obtain ⟨L, hL, hmap⟩ := ih hY (by omega) (by simp at hk; omega)
      refine ⟨(it'.Key, it'.Value) :: L, ?_, ?_⟩
      · rw [entries, Next, hN]
        simp [Outcome.bind, hL, Outcome.map]
      · rw [List.map_cons, hmap, hK, hV]

end Yields

end Iterator

end Trie

end Bazacoin
