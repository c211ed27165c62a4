import Bazacoin.State.Object

/-!
# Headers and blocks (`core/types/block.go`)

The consensus engines and the chain read a block header's fields and its
hash. The hash (`Header.Hash`, the Keccak-256 of the header's RLP encoding)
is a parameter of every function that needs it, so that the results hold for
whatever hash function is used; where a result needs hashes to be distinct,
it says so.

A block is its header, the hashes of its transactions and its uncles' headers.
The fields the modelled functions never read (state, receipt and transaction
roots, the bloom, the mix digest) are left out.
-/

namespace Bazacoin

namespace Types

open State

/-- `Header`, with the fields the consensus engines and the chain read. -/
structure Header where
  parentHash : Hash
  coinbase : Address
  difficulty : Nat
  number : Nat
  gasLimit : Nat
  gasUsed : Nat
  time : Nat
  extra : Bytes
  nonce : UInt64
  deriving DecidableEq, Repr

/-- `Block`: a header, the hashes of its transactions and its uncles. -/
structure Block where
  header : Header
  transactions : List Hash
  uncles : List Header
  deriving DecidableEq, Repr

namespace Block

/-- `Block.NumberU64`. -/
def number (b : Block) : Nat := b.header.number

/-- `Block.ParentHash`. -/
def parentHash (b : Block) : Hash := b.header.parentHash

/-- `Block.Difficulty`. -/
def difficulty (b : Block) : Nat := b.header.difficulty

end Block

end Types

end Bazacoin
