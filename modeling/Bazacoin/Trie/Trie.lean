import Bazacoin.Trie.Node

/-!
# The Merkle Patricia trie (`trie/trie.go`)

`tryGet`, `insert` and `delete` walk the hex path of a key down the node
graph, loading hash nodes from the database on the way (`resolveHash`) and
rebuilding the nodes they change with fresh, dirty flags. `insert` splits a
short node into a branch where the keys part; `delete` merges a short node
with a short child and reduces a full node with one child left to a short node.

Go recurses without bound: a database whose nodes refer to each other in a
cycle makes these functions recurse until the stack is exhausted. The model
gives every call a `fuel` budget of recursive calls; running out is the stack
overflow, reported as a panic.
-/

set_option linter.dupNamespace false

namespace Bazacoin

namespace Trie

open Rlp

/-- `MissingNodeError`: a hash node whose encoding the database lacks. -/
inductive TrieError where
  | missingNode (nodeHash : Bytes) (path : Bytes)
  deriving DecidableEq, Repr

/-- The panic of a recursion that never ends. -/
def stackOverflow : String := "runtime: goroutine stack exceeds limit"

/-- `Trie`. The database answers `Get`; `none` is a missing key or a read
error. -/
structure Trie where
  root : Node
  db : Bytes → Option Bytes
  originalRoot : Bytes
  cachegen : UInt16
  cachelimit : UInt16

namespace Trie

variable (t : Trie)

/-- `newFlag`: the flags of a node created now. -/
def newFlag : NodeFlag := ⟨none, t.cachegen, true⟩

/-- `resolveHash`: load and decode a node; a node that does not decode
panics (`mustDecodeNode`). -/
def resolveHash (n : Bytes) (pfx : Bytes) : Outcome TrieError Node :=
  match t.db n with
  | none => .error (.missingNode n pfx)
  | some enc =>
    match decodeNode (some n) enc t.cachegen with
    | .ok dec => .ok dec
    | .error _ => .panic "node: decode error"
    | .panic m => .panic m

/-- `resolve`: load a hash node, leave any other node as it is. -/
def resolve (n : Node) (pfx : Bytes) : Outcome TrieError Node :=
  match n with
  | .hash h => t.resolveHash h pfx
  | n => .ok n

/-- The child of a full node at a nibble; a byte above 16 is out of the
array's range. -/
def child {ε : Type} (cs : Fin 17 → Node) (b : UInt8) : Outcome ε Node :=
  if h : b.toNat < 17 then .ok (cs ⟨b.toNat, h⟩) else .panic indexOutOfRange

/-- Replace the child of a full node at a nibble below 17. -/
def setChild (cs : Fin 17 → Node) (b : UInt8) (c : Node) : Fin 17 → Node :=
  fun i => if i.val = b.toNat then c else cs i

/-- `tryGet`: the value at `key[pos:]` below `origNode`, the node with any
hash nodes loaded on the way, and whether there were any. -/
def tryGet : Nat → Node → Bytes → Nat → Outcome TrieError (Option Bytes × Node × Bool)
  | 0, _, _, _ => .panic stackOverflow
  | _ + 1, .nil, _, _ => .ok (none, .nil, false)
  | _ + 1, .value v, _, _ => .ok (some v, .value v, false)
  | fuel + 1, .short k v f, key, pos =>
    if key.length - pos < k.length ∨ k ≠ (key.drop pos).take k.length then
      -- key not found in trie
      .ok (none, .short k v f, false)
    else
      (tryGet fuel v key (pos + k.length)).map fun (value, newnode, didResolve) =>
        if didResolve then (value, .short k newnode { f with gen := t.cachegen }, true)
        else (value, .short k v f, false)
  | fuel + 1, .full cs f, key, pos =>
    match key[pos]? with
    | none => .panic indexOutOfRange
    | some b =>
      (child cs b).bind fun c =>
        (tryGet fuel c key (pos + 1)).map fun (value, newnode, didResolve) =>
          if didResolve then
            (value, .full (setChild cs b newnode) { f with gen := t.cachegen }, true)
          else (value, .full cs f, false)
  | fuel + 1, .hash h, key, pos =>
    (t.resolveHash h (key.take pos)).bind fun c =>
      (tryGet fuel c key pos).map fun (value, newnode, _) => (value, newnode, true)

/-- `TryGet`: a lookup that keeps the hash nodes it loaded. -/
def TryGet (fuel : Nat) (key : Bytes) : Outcome TrieError (Option Bytes × Trie) :=
  (t.tryGet fuel t.root (keybytesToHex key) 0).map fun (value, newroot, didResolve) =>
    (value, if didResolve then { t with root := newroot } else t)

/-- `insert`: put `value` at `key` below `n`; whether anything changed, and
the new node. -/
def insert : Nat → Node → Bytes → Bytes → Node → Outcome TrieError (Bool × Node)
  | 0, _, _, _, _ => .panic stackOverflow
  | fuel + 1, n, pfx, key, value =>
    if key.length = 0 then
      match n, value with
      | .value v, .value v' => .ok (v ≠ v', value)
      | .value _, _ => .panic "interface conversion: node is not trie.valueNode"
      | _, _ => .ok (true, value)
    else
      match n with
      | .short k v _ =>
        let matchlen := prefixLen key k
        -- if the whole key matches, keep this short node as is and only
        -- update the value
        if matchlen = k.length then
          (insert fuel v (pfx ++ key.take matchlen) (key.drop matchlen) value).map
            fun (dirty, nn) =>
              if dirty then (true, .short k nn t.newFlag) else (false, n)
        else
          -- otherwise branch out at the index where they differ
          match k[matchlen]?, key[matchlen]? with
          | some kb, some b =>
            (insert fuel .nil (pfx ++ k.take (matchlen + 1)) (k.drop (matchlen + 1)) v).bind
              fun (_, c₁) =>
                (child (fun _ => .nil) kb).bind fun _ =>
                  let branch₁ := setChild (fun _ => .nil) kb c₁
                  (insert fuel .nil (pfx ++ key.take (matchlen + 1)) (key.drop (matchlen + 1))
                      value).bind fun (_, c₂) =>
                    (child branch₁ b).bind fun _ =>
                      let branch : Node := .full (setChild branch₁ b c₂) t.newFlag
                      -- replace this short node with the branch if it occurs
                      -- at index 0, else with a short node leading to it
                      if matchlen = 0 then .ok (true, branch)
                      else .ok (true, .short (key.take matchlen) branch t.newFlag)
          | _, _ => .panic indexOutOfRange
      | .full cs _ =>
        match key[0]? with
        | none => .panic indexOutOfRange
        | some b =>
          (child cs b).bind fun c =>
            (insert fuel c (pfx ++ [b]) (key.drop 1) value).map fun (dirty, nn) =>
              if dirty then (true, .full (setChild cs b nn) t.newFlag) else (false, n)
      | .nil => .ok (true, .short key value t.newFlag)
      | .hash h =>
        -- a part of the trie that isn't loaded yet: load it and insert into it
        (t.resolveHash h pfx).bind fun rn =>
          (insert fuel rn pfx key value).map fun (dirty, nn) =>
            if dirty then (true, nn) else (false, rn)
      | .value _ => .panic "trie: invalid node"

/-- The reduction step of `delete` for a full node: the index of the only
non-nil child, or none when there are none (Go's `pos == -1`) or several. -/
def onlyChild (cs : Fin 17 → Node) : Option (Fin 17) :=
  match (List.finRange 17).filter (fun i => !(cs i matches .nil)) with
  | [i] => some i
  | _ => none

/-- `delete`: remove `key` below `n`, reducing the trie to minimal form on
the way up; whether anything changed, and the new node. -/
def delete : Nat → Node → Bytes → Bytes → Outcome TrieError (Bool × Node)
  | 0, _, _, _ => .panic stackOverflow
  | fuel + 1, n, pfx, key =>
    match n with
    | .short k v _ =>
      let matchlen := prefixLen key k
      if matchlen < k.length then .ok (false, n) -- don't replace n on mismatch
      else if matchlen = key.length then .ok (true, .nil) -- remove n entirely for whole matches
      else
        -- the key is longer than n.Key: remove the rest from the subtrie,
        -- then merge a short child into n
        (delete fuel v (pfx ++ key.take k.length) (key.drop k.length)).map fun (dirty, c) =>
          if dirty then
            match c with
            | .short ck cv _ => (true, .short (k ++ ck) cv t.newFlag)
            | c => (true, .short k c t.newFlag)
          else (false, n)
    | .full cs _ =>
      match key[0]? with
      | none => .panic indexOutOfRange
      | some b =>
        (child cs b).bind fun c =>
          (delete fuel c (pfx ++ [b]) (key.drop 1)).bind fun (dirty, nn) =>
            if !dirty then .ok (false, n)
            else
              let cs := setChild cs b nn
              match onlyChild cs with
              | some pos =>
                if pos.val ≠ 16 then
                  -- the remaining child might not be loaded yet: resolve it
                  -- to see whether it is a short node to merge with
                  (t.resolve (cs pos) pfx).map fun cnode =>
                    match cnode with
                    | .short ck cv _ => (true, .short (UInt8.ofNat pos.val :: ck) cv t.newFlag)
                    | _ => (true, .short [UInt8.ofNat pos.val] (cs pos) t.newFlag)
                else .ok (true, .short [UInt8.ofNat pos.val] (cs pos) t.newFlag)
              | none => .ok (true, .full cs t.newFlag)
    | .value _ => .ok (true, .nil)
    | .nil => .ok (false, .nil)
    | .hash h =>
      -- load the node and delete from it
      (t.resolveHash h pfx).bind fun rn =>
        (delete fuel rn pfx key).map fun (dirty, nn) =>
          if dirty then (true, nn) else (false, rn)

/-- With no fuel left, `insert` panics as Go's stack overflows. The proofs
about `insert` unfold it through the equation this lemma is proved by. -/
theorem insert_zero (n : Node) (pfx key : Bytes) (value : Node) :
    t.insert 0 n pfx key value = .panic stackOverflow := by
  rw [insert.eq_def]

/-- With no fuel left, `delete` panics as Go's stack overflows. -/
theorem delete_zero (n : Node) (pfx key : Bytes) : t.delete 0 n pfx key = .panic stackOverflow := by
  rw [delete.eq_def]

/-- `TryUpdate`: a non-empty value is inserted, an empty one deletes. -/
def TryUpdate (fuel : Nat) (key value : Bytes) : Outcome TrieError Trie :=
  let k := keybytesToHex key
  if value.length ≠ 0 then
    (t.insert fuel t.root [] k (.value value)).map fun (_, n) => { t with root := n }
  else
    (t.delete fuel t.root [] k).map fun (_, n) => { t with root := n }

/-- `TryDelete`. -/
def TryDelete (fuel : Nat) (key : Bytes) : Outcome TrieError Trie :=
  (t.delete fuel t.root [] (keybytesToHex key)).map fun (_, n) => { t with root := n }

end Trie

end Trie

end Bazacoin
