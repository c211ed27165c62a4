import Bazacoin.Core.Types
import Bazacoin.Lib.Outcome

/-!
# The canonical chain (`core/blockchain.go`)

`WriteBlock` stores a block with its total difficulty and makes it the head
when that difficulty beats the head's (a tie is decided by a coin, Go's
`mrand.Float64() < 0.5`). When the new head does not extend the old one,
`reorg` walks both back to their common ancestor and `insert`s the new side,
block by block, into the canonical number-to-hash index; `WriteBlock` then
`insert`s the new head. `InsertChain` runs `WriteBlock` on each block of a
segment that the verifier accepts, and writes the transaction lookup entries
of each block that became the head.

`insert` moves the head header and the head fast block only when the block
was not canonical at its number yet. `reorg` inserts the new head itself
among the new side's blocks, so the last `insert` finds it canonical
already: after a switch to a side chain of two or more blocks, the head
header and the head fast block stay behind the head block. Nor does `reorg`
clear the index above the new head: after a switch to a shorter chain, the
old chain's hashes stay canonical above it.

The hash of a header is a parameter `hash : Header → Hash`. The database is
the part of it these functions read and write: the blocks, their total
difficulties, the canonical index and the transaction lookup entries.
-/

namespace Bazacoin

namespace Core

open State Bazacoin.Types

/-- `WriteStatus`. -/
inductive WriteStatus
  | NonStatTy
  | CanonStatTy
  | SideStatTy
  deriving DecidableEq, Repr

/-- The errors of `WriteBlock`, `reorg` and `InsertChain`. -/
inductive ChainError
  /-- `consensus.ErrUnknownAncestor`: the parent's total difficulty is missing. -/
  | unknownAncestor
  /-- The head's total difficulty is missing, and `Cmp` on the nil
  `*big.Int` panics. -/
  | missingHeadTd
  /-- `"Invalid old chain"`. -/
  | invalidOldChain
  /-- `"Invalid new chain"`. -/
  | invalidNewChain
  /-- `"non contiguous insert: item %d is ..."`, at the first block out of line. -/
  | nonContiguousInsert (i : Nat)
  /-- The error the verifier, `Process` or `ValidateState` reported. -/
  | rejected
  deriving DecidableEq, Repr

/-- What `InsertChain` does with a block once the header verifier,
`ValidateBody`, `Process` and `ValidateState` have run on it: write it, skip
it (`ErrKnownBlock`, and the future blocks and the blocks with a queued
parent, which go to `futureBlocks`), or stop with the error. -/
inductive Verdict
  | accept
  | skip
  | reject
  deriving DecidableEq, Repr

/-- `BlockChain`, with what `WriteBlock`, `reorg` and `InsertChain` read and
write of it and of its database. -/
structure BlockChain where
  /-- the blocks stored, headers and bodies, the newest first -/
  blocks : List Block
  /-- total difficulty by hash and number -/
  td : Hash → Nat → Option Nat
  /-- the canonical hash of each number -/
  canonical : Nat → Option Hash
  currentBlock : Block
  /-- `hc.currentHeader` -/
  currentHeader : Header
  currentFastBlock : Block
  /-- transaction lookup entries: block hash, block number and index -/
  txLookup : Hash → Option (Hash × Nat × Nat)

/-- `BlockChain` methods: they change the chain in place, and the changes
made before an error stay. -/
abbrev ChainM := EStateM ChainError BlockChain

/-- `types.TxDifference`: the transactions of `a` that are not in `b`. -/
def TxDifference (a b : List Hash) : List Hash :=
  a.filter fun tx => !b.contains tx

namespace BlockChain

section

variable (hash : Header → Hash)

/-- A chain whose database holds only its genesis block: `Genesis.Commit`
followed by `loadLastState`. -/
def genesisChain (g : Block) : BlockChain where
  blocks := [g]
  td h n := if h = hash g.header ∧ n = g.number then some g.header.difficulty else none
  canonical n := if n = g.number then some (hash g.header) else none
  currentBlock := g
  currentHeader := g.header
  currentFastBlock := g
  txLookup _ := none

/-- `GetBlock`: the block stored under this hash and number. -/
def GetBlock (bc : BlockChain) (h : Hash) (n : Nat) : Option Block :=
  bc.blocks.find? fun b => hash b.header == h && b.number == n

/-- `GetTd`. -/
def GetTd (bc : BlockChain) (h : Hash) (n : Nat) : Option Nat := bc.td h n

/-- `GetCanonicalHash`: the zero hash where no block is canonical. -/
def GetCanonicalHash (bc : BlockChain) (n : Nat) : Hash := (bc.canonical n).getD 0

/-- `GetBlock(b.ParentHash(), b.NumberU64()-1)`. At a block numbered zero
the number wraps to 2^64 - 1, where nothing is stored: the parent is nil. -/
def parentBlock (bc : BlockChain) (b : Block) : Option Block :=
  if b.number = 0 then none else bc.GetBlock hash b.parentHash (b.number - 1)

/-- `GetTd(block.ParentHash(), block.NumberU64()-1)`, with the same wrap. -/
def parentTd (bc : BlockChain) (b : Block) : Option Nat :=
  if b.number = 0 then none else bc.GetTd b.parentHash (b.number - 1)

/-- `WriteTd` and the database's `WriteBlock`. -/
def writeBlock (bc : BlockChain) (b : Block) (td : Nat) : BlockChain :=
  { bc with
    blocks := b :: bc.blocks
    td := fun h n => if h = hash b.header ∧ n = b.number then some td else bc.td h n }

/-- `insert`: `block` becomes the head and the canonical block of its number;
the head header and the head fast block follow it only when it was not
canonical there yet. -/
def insert (bc : BlockChain) (block : Block) : BlockChain :=
  -- if the block is on a side chain or an unknown one, force other heads onto it too
  let updateHeads := bc.GetCanonicalHash block.number != hash block.header
  let bc := { bc with
    canonical := Function.update bc.canonical block.number (some (hash block.header))
    currentBlock := block }
  if updateHeads then { bc with currentHeader := block.header, currentFastBlock := block } else bc

/-- `WriteTransactions`: a lookup entry for each transaction of the block. -/
def WriteTransactions (bc : BlockChain) (block : Block) : BlockChain :=
  { bc with
    txLookup := block.transactions.zipIdx.foldl
      (fun l e => Function.update l e.1 (some (hash block.header, block.number, e.2))) bc.txLookup }

/-- `DeleteTransaction`. -/
def DeleteTransaction (bc : BlockChain) (tx : Hash) : BlockChain :=
  { bc with txLookup := Function.update bc.txLookup tx none }

/-- The first loop of `reorg`: walk `b` down its parents to the number
`target`, collecting the blocks passed; `none` is a nil block. Each step goes
one number down, so `b.number` steps are enough. -/
def walkDown (bc : BlockChain) (target : Nat) : Nat → Block → List Block → Option Block × List Block
  | fuel, b, chain =>
    if b.number = target then (some b, chain)
    else
      match fuel, bc.parentBlock hash b with
      | fuel + 1, some p => walkDown bc target fuel p (chain ++ [b])
      | _, _ => (none, chain ++ [b])

/-- The second loop of `reorg`: walk both blocks down together until their
hashes agree, collecting the new side and the transactions of the old side.
Each step goes one number down, so `oldBlock.number` steps are enough. -/
def findCommon (bc : BlockChain) :
    Nat → Block → Block → List Block → List Hash → Except ChainError (List Block × List Hash)
  | fuel, oldBlock, newBlock, newChain, deletedTxs =>
    if hash oldBlock.header = hash newBlock.header then .ok (newChain, deletedTxs)
    else
      let newChain := newChain ++ [newBlock]
      let deletedTxs := deletedTxs ++ oldBlock.transactions
      match fuel, bc.parentBlock hash oldBlock, bc.parentBlock hash newBlock with
      | fuel + 1, some o, some n => findCommon bc fuel o n newChain deletedTxs
      | _, none, _ => .error .invalidOldChain
      | _, some _, none => .error .invalidNewChain
      | 0, some _, some _ => .error .invalidOldChain

/-- The last loop of `reorg`: insert each block of the new side, newest
first, with its transaction lookup entries. -/
def insertNewChain (bc : BlockChain) (newChain : List Block) : BlockChain × List Hash :=
  newChain.foldl
    (fun acc block => ((acc.1.insert hash block).WriteTransactions hash block, acc.2 ++ block.transactions))
    (bc, [])

/-- `reorg`: make the chain of `newBlock` canonical down to its common
ancestor with `oldBlock`, and drop the lookup entries of the transactions
only the old side had. -/
def reorg (bc : BlockChain) (oldBlock newBlock : Block) : Except ChainError BlockChain := do
  -- first reduce whoever is higher bound
  let (oldBlock, newBlock, newChain, deletedTxs) :=
    if oldBlock.number > newBlock.number then
      let r := bc.walkDown hash newBlock.number oldBlock.number oldBlock []
      (r.1, some newBlock, [], r.2.flatMap (·.transactions))
    else
      let r := bc.walkDown hash oldBlock.number newBlock.number newBlock []
      (some oldBlock, r.1, r.2, [])
  let some oldBlock := oldBlock | throw .invalidOldChain
  let some newBlock := newBlock | throw .invalidNewChain
  let (newChain, deletedTxs) ← bc.findCommon hash oldBlock.number oldBlock newBlock newChain deletedTxs
  let (bc, addedTxs) := bc.insertNewChain hash newChain
  -- the transactions of the old side that the new side does not have
  let diff := TxDifference deletedTxs addedTxs
  pure (diff.foldl DeleteTransaction bc)

/-- `BlockChain.WriteBlock`, with the coin that breaks a tie in total
difficulty. -/
def WriteBlock (coin : Bool) (block : Block) : ChainM WriteStatus := do
  let bc ← get
  -- calculate the total difficulty of the block
  let some ptd := bc.parentTd block | throw .unknownAncestor
  let localTd := bc.GetTd (hash bc.currentBlock.header) bc.currentBlock.number
  let externTd := block.header.difficulty + ptd
  -- irrelevant of the canonical status, write the block itself to the database
  let bc := bc.writeBlock hash block externTd
  set bc
  -- `Cmp` with a missing head total difficulty panics, after the writes
  let some localTd := localTd | throw .missingHeadTd
  if externTd > localTd ∨ (externTd = localTd ∧ coin) then
    -- reorganise the chain if the parent is not the head block
    if block.parentHash ≠ hash bc.currentBlock.header then
      match bc.reorg hash bc.currentBlock block with
      | .error e => throw e
      | .ok bc => set bc
    modify fun bc => bc.insert hash block
    pure .CanonStatTy
  else
    pure .SideStatTy

/-- The sanity check of `InsertChain`: the index of the first block that
does not follow the one before it. -/
def firstNonContiguous : Nat → List Block → Option Nat
  | i, b :: c :: rest =>
    if c.number ≠ b.number + 1 ∨ c.parentHash ≠ hash b.header then some (i + 1)
    else firstNonContiguous (i + 1) (c :: rest)
  | _, _ => none

/-- The import loop of `InsertChain` from the block at index `i`; an error
carries the index of the block that failed. -/
def insertBlocks (verify : BlockChain → Block → Verdict) (coins : Nat → Bool) :
    Nat → List Block → EStateM (Nat × ChainError) BlockChain Unit
  | _, [] => pure ()
  | i, block :: rest => do
    match verify (← get) block with
    | .skip => insertBlocks verify coins (i + 1) rest
    | .reject => throw (i, .rejected)
    | .accept =>
      let status ← (WriteBlock hash (coins i) block).adaptExcept fun e => (i, e)
      -- the transactions of a new head are put in the lookup table
      if status = .CanonStatTy then modify fun bc => bc.WriteTransactions hash block
      insertBlocks verify coins (i + 1) rest

/-- `InsertChain`: the verdict of the verifier on each block and the coin of
each `WriteBlock` are parameters. -/
def InsertChain (verify : BlockChain → Block → Verdict) (coins : Nat → Bool) (chain : List Block) :
    EStateM (Nat × ChainError) BlockChain Nat := do
  if let some i := firstNonContiguous hash 0 chain then throw (0, .nonContiguousInsert i)
  insertBlocks hash verify coins 0 chain
  pure 0

end

/-- A chain `G ← A1 ← A2 ← A3` (difficulty 1 each), then the side chain
`G ← B1 ← B2` (difficulties 2 and 3), each segment through `InsertChain`,
hashes the headers' times, every block accepted and every tie lost. `B1`
stays a side block (total difficulty 3 against 4) and `B2` (6) takes over:
the head is `B2`, but the head header and the head fast block are `B1`, and
`A3` is still canonical at number 3. -/
theorem insertChain_reorg_leaves_heads_behind :
    ∃ bc, (InsertChain (fun h => BitVec.ofNat 256 h.time) (fun _ _ => .accept) (fun _ => false)
          [⟨⟨1, 0, 1, 1, 0, 0, 2, [], 0⟩, [], []⟩, ⟨⟨2, 0, 1, 2, 0, 0, 3, [], 0⟩, [], []⟩,
           ⟨⟨3, 0, 1, 3, 0, 0, 4, [], 0⟩, [], []⟩] >>= fun _ =>
        InsertChain (fun h => BitVec.ofNat 256 h.time) (fun _ _ => .accept) (fun _ => false)
          [⟨⟨1, 0, 2, 1, 0, 0, 5, [], 0⟩, [], []⟩, ⟨⟨5, 0, 3, 2, 0, 0, 6, [], 0⟩, [], []⟩])
        (genesisChain (fun h => BitVec.ofNat 256 h.time) ⟨⟨0, 0, 1, 0, 0, 0, 1, [], 0⟩, [], []⟩) = .ok 0 bc ∧
      bc.currentBlock = ⟨⟨5, 0, 3, 2, 0, 0, 6, [], 0⟩, [], []⟩ ∧
      bc.currentHeader = ⟨1, 0, 2, 1, 0, 0, 5, [], 0⟩ ∧
      bc.currentFastBlock = ⟨⟨1, 0, 2, 1, 0, 0, 5, [], 0⟩, [], []⟩ ∧
      bc.canonical 3 = some 4 :=
  ⟨_, rfl, rfl, rfl, rfl, rfl⟩

end BlockChain

end Core

end Bazacoin
