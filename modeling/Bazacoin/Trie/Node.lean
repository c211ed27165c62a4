import Bazacoin.Rlp.Item
import Bazacoin.Trie.Encoding

/-!
# Trie nodes (`trie/node.go`)

A node is a full node with seventeen children (sixteen nibbles and a value
slot), a short node with a hex key and one child, a hash node standing for a
node stored in the database under its hash, a value, or nil. Full and short
nodes carry caching flags: the hash computed for them, the cache generation
that touched them last, and whether they still need writing.

The database form of a node is its RLP encoding (`Node.toItem`); Go encodes
a full node's children as a list, a short node as the list of its two
exported fields, byte-string nodes as strings and a nil child as the empty
list. `decodeNode` reads the encoding back: a two-element list is a short
node (with a value when its key ends in the terminator), a seventeen-element
list a full node, whose children are embedded nodes, empty strings (nil) or
32-byte hashes.
-/

namespace Bazacoin

namespace Trie

open Rlp

/-- `nodeFlag`: caching metadata of a full or short node. -/
structure NodeFlag where
  hash : Option Bytes
  gen : UInt16
  dirty : Bool
  deriving DecidableEq, Repr

/-- `node`: the five kinds of trie node, `nil` being Go's nil interface. -/
inductive Node where
  | full (children : Fin 17 → Node) (flags : NodeFlag)
  | short (key : Bytes) (val : Node) (flags : NodeFlag)
  | hash (h : Bytes)
  | value (v : Bytes)
  | nil

/-- `hashLen`: the length of a hash. -/
def hashLen : Nat := 32

/-- `nodeFlag.canUnload`: a clean node whose generation is at least
`cachelimit` behind; the difference wraps around as `uint16`. -/
def NodeFlag.canUnload (f : NodeFlag) (cachegen cachelimit : UInt16) : Bool :=
  !f.dirty && cachegen - f.gen ≥ cachelimit

namespace Node

/-- `node.canUnload`: hash and value nodes are never unloaded. -/
def canUnload (cachegen cachelimit : UInt16) : Node → Bool
  | .full _ f => f.canUnload cachegen cachelimit
  | .short _ _ f => f.canUnload cachegen cachelimit
  | _ => false

/-- `node.cache`: the cached hash and whether the node is dirty. -/
def cache : Node → Option Bytes × Bool
  | .full _ f => (f.hash, f.dirty)
  | .short _ _ f => (f.hash, f.dirty)
  | _ => (none, true)

/-- Structural equality of nodes, child by child. -/
def beq : Node → Node → Bool
  | .full cs₁ f₁, .full cs₂ f₂ => (List.finRange 17).all (fun i => beq (cs₁ i) (cs₂ i)) && f₁ == f₂
  | .short k₁ v₁ f₁, .short k₂ v₂ f₂ => k₁ == k₂ && beq v₁ v₂ && f₁ == f₂
  | .hash a, .hash b => a == b
  | .value a, .value b => a == b
  | .nil, .nil => true
  | _, _ => false

theorem beq_eq_true {a b : Node} : a.beq b = true ↔ a = b := by
  induction a generalizing b with
  | full cs₁ f₁ ih =>
    cases b with
    | full cs₂ f₂ => simp [beq, ih, funext_iff]
    | _ => simp [beq]
  | short k₁ v₁ f₁ ih =>
    cases b with
    | short k₂ v₂ f₂ => simp [beq, ih, and_assoc]
    | _ => simp [beq]
  | hash _ => cases b <;> simp [beq]
  | value _ => cases b <;> simp [beq]
  | nil => cases b <;> simp [beq]

instance : DecidableEq Node := fun _ _ => decidable_of_iff _ beq_eq_true

/-- A node with the hash it was loaded under recorded in its flags. -/
def withHash (hash : Option Bytes) : Node → Node
  | .full cs f => .full cs { f with hash }
  | .short k v f => .short k v { f with hash }
  | n => n

/-- The RLP value Go encodes a node as. -/
def toItem : Node → Item
  | .full cs _ => .list ((List.finRange 17).map fun i => (cs i).toItem)
  | .short k v _ => .list [.str k, v.toItem]
  | .hash h => .str h
  | .value v => .str v
  | .nil => .list []

/-- `rlp.EncodeToBytes` of a node. -/
def encode (n : Node) : Bytes := n.toItem.encode

end Node

/-! ## Decoding -/

/-- What went wrong decoding a node. -/
inductive NodeError where
  | unexpectedEOF
  /-- `decode error: %v`, from the outer list. -/
  | decode (e : Error)
  | invalidCount (c : Nat)
  /-- An RLP error passed through. -/
  | rlp (e : Error)
  | invalidValueNode (e : Error)
  | oversized (size : Nat)
  | invalidStringSize (n : Nat)
  deriving DecidableEq, Repr

/-- A decoding error with the decode path `wrapError` has recorded; an empty
path is an error that was never wrapped. -/
structure DecodeError where
  what : NodeError
  stack : List String
  deriving DecidableEq, Repr

/-- `wrapError`: add a step of the decode path. -/
def wrapError (e : DecodeError) (ctx : String) : DecodeError :=
  { e with stack := e.stack ++ [ctx] }

/-- A plain error, not yet wrapped. -/
def plain (what : NodeError) : DecodeError := ⟨what, []⟩

theorem splitList_length {b content rest : Bytes} (h : splitList b = .ok (content, rest)) :
    content.length < b.length := by
  obtain ⟨⟨k, c, r⟩, hs, hc⟩ := Outcome.bind_eq_ok.mp h
  dsimp only at hc
  split at hc
  · cases hc
  · cases hc
    rename_i hk
    have := (split_lengths hs).2.2 (by intro he; subst he; exact hk (by decide))
    omega

theorem splitString_length {b content rest : Bytes} (h : splitString b = .ok (content, rest)) :
    rest.length < b.length := by
  obtain ⟨⟨k, c, r⟩, hs, hc⟩ := Outcome.bind_eq_ok.mp h
  dsimp only at hc
  split at hc
  · cases hc
  · cases hc
    exact (split_lengths hs).1

mutual

/-- `decodeNode`: a short or full node from its encoding. The count of list
elements ignores an error of `CountValues`, which then reports zero. -/
def decodeNode (hash : Option Bytes) (buf : Bytes) (cachegen : UInt16) :
    Outcome DecodeError Node :=
  if buf.length = 0 then .error (plain .unexpectedEOF)
  else
    match h : splitList buf with
    | .error e => .error (plain (.decode e))
    | .panic m => .panic m
    | .ok (elems, _) =>
      have := splitList_length h
      let count : Outcome DecodeError Nat :=
        match countValues elems with
        | .ok c => .ok c
        | .error _ => .ok 0
        | .panic m => .panic m
      count.bind fun c =>
        if c = 2 then (decodeShort hash elems cachegen).handle (.error <| wrapError · "short")
        else if c = 17 then (decodeFull hash elems cachegen).handle (.error <| wrapError · "full")
        else .error (plain (.invalidCount c))
termination_by 8 * buf.length

/-- `decodeShort`: the key is compact-encoded; a key with the terminator
leads to a value, any other to a node reference. -/
def decodeShort (hash : Option Bytes) (elems : Bytes) (cachegen : UInt16) :
    Outcome DecodeError Node :=
  match h : splitString elems with
  | .error e => .error (plain (.rlp e))
  | .panic m => .panic m
  | .ok (kbuf, rest) =>
    have := splitString_length h
    let flag : NodeFlag := ⟨hash, cachegen, false⟩
    -- `compactToHex` indexes the first nibble of an empty key
    match compactToHex kbuf with
    | none => .panic indexOutOfRange
    | some key =>
      if hasTerm key then
        match splitString rest with
        | .error e => .error (plain (.invalidValueNode e))
        | .panic m => .panic m
        | .ok (val, _) => .ok (.short key (.value val) flag)
      else
        match decodeRef rest cachegen with
        | .ok (r, _) => .ok (.short key r flag)
        | .error e => .error (wrapError e "val")
        | .panic m => .panic m
termination_by 8 * elems.length + 2

/-- `decodeFull`: sixteen node references, then the value slot, which holds a
value only when it is not empty. -/
def decodeFull (hash : Option Bytes) (elems : Bytes) (cachegen : UInt16) :
    Outcome DecodeError Node :=
  (decodeRefs cachegen 0 16 elems).bind fun (cs, rest) =>
    match splitString rest with
    | .error e => .error (plain (.rlp e))
    | .panic m => .panic m
    | .ok (val, _) =>
      let value : Node := if val.length > 0 then .value val else .nil
      .ok (.full (fun i => (cs ++ [value]).getD i.val .nil) ⟨hash, cachegen, false⟩)
termination_by 8 * elems.length + 4

/-- The loop of `decodeFull`: `k` references, the first at index `i`. -/
def decodeRefs (cachegen : UInt16) (i k : Nat) (elems : Bytes) :
    Outcome DecodeError (List Node × Bytes) :=
  match k with
  | 0 => .ok ([], elems)
  | k + 1 =>
    match decodeRef elems cachegen with
    | .ok (cld, rest) =>
      have := rest.property
      (decodeRefs cachegen (i + 1) k rest.val).map fun (cs, r) => (cld :: cs, r)
    | .error e => .error (wrapError e ("[" ++ toString i ++ "]"))
    | .panic m => .panic m
termination_by 8 * elems.length + 3

/-- `decodeRef`: an embedded node (its encoding shorter than a hash), an
empty string for nil, or a 32-byte hash. The bytes after the reference are a
strict suffix of `buf`. -/
def decodeRef (buf : Bytes) (cachegen : UInt16) :
    Outcome DecodeError (Node × {rest : Bytes // rest.length < buf.length}) :=
  match h : split buf with
  | .error e => .error (plain (.rlp e))
  | .panic m => .panic m
  | .ok (kind, val, rest) =>
    let rest' : {rest : Bytes // rest.length < buf.length} := ⟨rest, (split_lengths h).1⟩
    if kind = .list then
      -- 'embedded' node reference: the encoding must be smaller than a hash
      let size := buf.length - rest.length
      if size > hashLen then .error (plain (.oversized size))
      else (decodeNode none buf cachegen).map (·, rest')
    else if val.length = 0 then .ok (.nil, rest')
    else if val.length = 32 then .ok (.hash val, rest')
    else .error (plain (.invalidStringSize val.length))
termination_by 8 * buf.length + 1

end

/-! ## The hash a node is loaded under

`decodeNode` records its `hash` argument in the flags of the node it returns
and nowhere else: embedded children are decoded without one. -/

theorem decodeShort_withHash (h elems : Bytes) (g : UInt16) :
    decodeShort (some h) elems g = (decodeShort none elems g).map (Node.withHash (some h)) := by
  rw [decodeShort, decodeShort]
  split
  · rfl
  · rfl
  · dsimp only
    split
    · rfl
    · split
      · split <;> rfl
      · split <;> rfl

theorem decodeFull_withHash (h elems : Bytes) (g : UInt16) :
    decodeFull (some h) elems g = (decodeFull none elems g).map (Node.withHash (some h)) := by
  rw [decodeFull, decodeFull]
  cases decodeRefs g 0 16 elems with
  | ok r =>
    dsimp only [Outcome.bind_ok]
    split <;> rfl
  | error e => rfl
  | panic m => rfl

theorem decodeNode_withHash (h buf : Bytes) (g : UInt16) :
    decodeNode (some h) buf g = (decodeNode none buf g).map (Node.withHash (some h)) := by
  rw [decodeNode, decodeNode]
  split
  · rfl
  · split
    · rfl
    · rfl
    · dsimp only
      cases countValues _ with
      | ok c =>
        dsimp only [Outcome.bind_ok]
        split_ifs
        · rw [decodeShort_withHash]
          exact Outcome.handle_map _ _ _
        · rw [decodeFull_withHash]
          exact Outcome.handle_map _ _ _
        · rfl
      | error e => rfl
      | panic m => rfl

end Trie

end Bazacoin
