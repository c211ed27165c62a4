import Bazacoin.Rlp.Raw

/-!
# Proof-of-work datasets (`consensus/bzhash/algorithm.go`)

`generateDatasetItem` computes one 64-byte item of the full dataset from the
verification cache. `generateDataset` computes every item on `threads`
goroutines, each over its own batch of indices, and counts the items in a
shared `progress` counter, logging every `percent` items. `hashimoto` mixes
64 pairs of dataset items into a digest: `hashimotoLight` computes the items
from the cache as it needs them, `hashimotoFull` reads them from the dataset.

`percent` is `size / hashBytes / 100`, so for a dataset of fewer than 100
items it is zero, and the progress test `status % percent` divides by zero
on the first item any goroutine generates.

The goroutines are modelled by a schedule: a list of goroutine ids, each
entry running one iteration of that goroutine's loop. Keccak-256 and
Keccak-512 are parameters, any functions with outputs of 32 and 64 bytes.
The machine is little-endian, so `generateDataset` does not swap the bytes of
an item.
-/

namespace Bazacoin

namespace Bzhash

/-- Width of the mix. -/
def mixBytes : Nat := 128

/-- Hash length in bytes. -/
def hashBytes : Nat := 64

/-- Number of 32 bit ints in a hash. -/
def hashWords : Nat := 16

/-- Number of parents of each dataset element. -/
def datasetParents : Nat := 256

/-- Number of accesses in the hashimoto loop. -/
def loopAccesses : Nat := 64

/-- Keccak-256 and Keccak-512 (`makeHasher`, `crypto.Keccak256`,
`crypto.Keccak512`): any functions with digests of 32 and 64 bytes. -/
structure Hasher where
  keccak256 : Bytes → Bytes
  keccak512 : Bytes → Bytes
  length_keccak256 : ∀ b, (keccak256 b).length = 32
  length_keccak512 : ∀ b, (keccak512 b).length = 64

/-- `binary.LittleEndian.Uint32(b[off:])`. -/
def le32 (b : Bytes) (off : Nat) : UInt32 :=
  (b.getD off 0).toUInt32 ||| (b.getD (off + 1) 0).toUInt32 <<< 8 |||
    (b.getD (off + 2) 0).toUInt32 <<< 16 ||| (b.getD (off + 3) 0).toUInt32 <<< 24

/-- `binary.LittleEndian.PutUint32`. -/
def putLE32 (x : UInt32) : Bytes :=
  [x.toUInt8, (x >>> 8).toUInt8, (x >>> 16).toUInt8, (x >>> 24).toUInt8]

/-- `binary.LittleEndian.PutUint64`. -/
def putLE64 (x : UInt64) : Bytes :=
  (List.range 8).map fun i => (x >>> (8 * i).toUInt64).toUInt8

/-- The first `n` little-endian words of `b`. -/
def words (b : Bytes) (n : Nat) : List UInt32 :=
  (List.range n).map fun i => le32 b (i * 4)

/-- `fnv`, multiplying the prime with the full 32-bit input. -/
def fnv (a b : UInt32) : UInt32 := a * 0x01000193 ^^^ b

/-- `fnvHash`: mix `data` into `mix`, word by word. Every caller passes at
least as many words of data as the mix has. -/
def fnvHash (mix data : List UInt32) : List UInt32 := List.zipWith fnv mix data

/-- `generateDatasetItem`: the item at `index`, from 256 cache rows picked
from the index. Every cache read is in range once `rows` is not zero: a row
starts at a multiple of `hashWords` below `rows * hashWords`, and the cache has
at least that many words. -/
def generateDatasetItem (hs : Hasher) (cache : List UInt32) (index : UInt32) : Outcome PEmpty Bytes :=
  -- the number of theoretical rows
  let rows := UInt32.ofNat (cache.length / hashWords)
  if rows = 0 then .panic "runtime error: integer divide by zero" else
  let row := index % rows * UInt32.ofNat hashWords
  -- initialize the mix
  let mix := putLE32 (cache.getD row.toNat 0 ^^^ index) ++
    (List.range' 1 (hashWords - 1)).flatMap fun i => putLE32 (cache.getD (row + UInt32.ofNat i).toNat 0)
  let mix := hs.keccak512 mix
  -- fnv it with a lot of random cache nodes based on index
  let intMix := (List.range datasetParents).foldl
    (fun intMix i =>
      let parent := fnv (index ^^^ UInt32.ofNat i) (intMix.getD (i % 16) 0) % rows
      fnvHash intMix (cache.drop (parent * UInt32.ofNat hashWords).toNat))
    (words mix hashWords)
  .ok (hs.keccak512 (intMix.flatMap putLE32))

/-! ## Generating the dataset -/

section

variable (size threads : Nat)

/-- The items per goroutine, `(size + hashBytes*threads - 1) / (hashBytes*threads)`,
computed in `uint64` and cut to `uint32`. -/
def batch : UInt32 :=
  ((UInt64.ofNat size + UInt64.ofNat hashBytes * UInt64.ofNat threads - 1) /
    (UInt64.ofNat hashBytes * UInt64.ofNat threads)).toUInt32

/-- The number of items, `uint32(size / hashBytes)`. -/
def items : UInt32 := (UInt64.ofNat size / UInt64.ofNat hashBytes).toUInt32

/-- The first item of goroutine `id`. -/
def first (id : Nat) : UInt32 := UInt32.ofNat id * batch size threads

/-- The item after the last one of goroutine `id`. -/
def limit (id : Nat) : UInt32 :=
  let limit := first size threads id + batch size threads
  if limit > items size then items size else limit

/-- The progress period of the log, `uint32(size / hashBytes / 100)`. -/
def percent : UInt32 := (UInt64.ofNat size / UInt64.ofNat hashBytes / 100).toUInt32

/-- What the goroutines share: the dataset's bytes, the `progress` counter,
and the loop index of each goroutine. -/
structure Generators where
  dataset : Nat → UInt8
  progress : UInt32
  index : Nat → UInt32

/-- The goroutines before their first iteration, over a zeroed dataset. -/
def Generators.start : Generators := ⟨fun _ => 0, 0, first size threads⟩

/-- `copy(dataset[off:], item)` on a dataset of `size` bytes. -/
def copyAt (dataset : Nat → UInt8) (off : Nat) (item : Bytes) : Nat → UInt8 :=
  fun j => if off ≤ j ∧ j < size ∧ j - off < item.length then item.getD (j - off) 0 else dataset j

/-- One iteration of the loop of goroutine `id`, if it has an item left. -/
def generateStep (hs : Hasher) (cache : List UInt32) (g : Generators) (id : Nat) :
    Outcome PEmpty Generators :=
  let index := g.index id
  if index < limit size threads id then
    (generateDatasetItem hs cache index).bind fun item =>
      let off := (index * UInt32.ofNat hashBytes).toNat
      if size < off then .panic "runtime error: slice bounds out of range" else
      let status := g.progress + 1
      -- the progress log, `status % percent == 0`
      if percent size = 0 then .panic "runtime error: integer divide by zero" else
      .ok { dataset := copyAt size g.dataset off item
            progress := status
            index := Function.update g.index id (index + 1) }
  else .ok g

/-- The goroutines run as `schedule` interleaves their iterations. -/
def runGenerators (hs : Hasher) (cache : List UInt32) : List (Fin threads) → Generators → Outcome PEmpty Generators
  | [], g => .ok g
  | id :: schedule, g => (generateStep size threads hs cache g id).bind (runGenerators hs cache schedule)

/-- A schedule that gives each goroutine at least as many iterations as it
has items: the run `pend.Wait()` waits for. -/
def Complete (schedule : List (Fin threads)) : Prop :=
  ∀ id : Fin threads, (limit size threads id).toNat - (first size threads id).toNat ≤ schedule.count id

instance : DecidablePred (Complete size threads) := fun schedule =>
  inferInstanceAs (Decidable (∀ id : Fin threads,
    (limit size threads id).toNat - (first size threads id).toNat ≤ schedule.count id))

/-- The dataset's words, `dest`, from its `size` bytes. -/
def datasetWords (dataset : Nat → UInt8) : List UInt32 :=
  (List.range (size / 4)).map fun j =>
    (dataset (4 * j)).toUInt32 ||| (dataset (4 * j + 1)).toUInt32 <<< 8 |||
      (dataset (4 * j + 2)).toUInt32 <<< 16 ||| (dataset (4 * j + 3)).toUInt32 <<< 24

/-- `generateDataset` for a dataset of `size` bytes on `threads` goroutines
interleaved as `schedule`. Each goroutine first computes `batch`, dividing by
`hashBytes * threads` in `uint64`. -/
def generateDataset (hs : Hasher) (cache : List UInt32) (schedule : List (Fin threads)) :
    Outcome PEmpty (List UInt32) :=
  if 0 < threads ∧ UInt64.ofNat hashBytes * UInt64.ofNat threads = 0 then
    .panic "runtime error: integer divide by zero"
  else
    (runGenerators size threads hs cache schedule (Generators.start size threads)).map
      fun g => datasetWords size g.dataset

end

/-! ## Hashimoto -/

/-- `hashimoto`: the digest and the result for a header hash and a nonce,
with `lookup` giving the words of the dataset item at an index. -/
def hashimoto (hs : Hasher) (hash : Bytes) (nonce : UInt64) (size : Nat)
    (lookup : UInt32 → Outcome PEmpty (List UInt32)) : Outcome PEmpty (Bytes × Bytes) :=
  -- the number of theoretical rows
  let rows := (UInt64.ofNat size / UInt64.ofNat mixBytes).toUInt32
  if rows = 0 then .panic "runtime error: integer divide by zero" else
  -- combine header+nonce into a 64 byte seed
  let seed := hs.keccak512 ((hash ++ List.replicate 32 0).take 32 ++ putLE64 nonce)
  let seedHead := le32 seed 0
  -- start the mix with replicated seed
  let mix := (List.range (mixBytes / 4)).map fun i => le32 seed (i % 16 * 4)
  -- mix in random dataset nodes
  let mix := (List.range loopAccesses).foldlM
    (fun mix i => do
      let parent := fnv (UInt32.ofNat i ^^^ seedHead) (mix.getD (i % mix.length) 0) % rows
      let temp ← (List.range (mixBytes / hashBytes)).flatMapM fun j => lookup (2 * parent + UInt32.ofNat j)
      pure (fnvHash mix temp))
    mix
  mix.bind fun mix =>
    -- compress mix; each word is written after every word it reads
    let mix := (List.range (mix.length / 4)).map fun i =>
      fnv (fnv (fnv (mix.getD (4 * i) 0) (mix.getD (4 * i + 1) 0)) (mix.getD (4 * i + 2) 0)) (mix.getD (4 * i + 3) 0)
    let digest := mix.flatMap putLE32
    .ok (digest, hs.keccak256 (seed ++ digest))

/-- `hashimotoLight`: the items computed from the cache. -/
def hashimotoLight (hs : Hasher) (size : Nat) (cache : List UInt32) (hash : Bytes) (nonce : UInt64) :
    Outcome PEmpty (Bytes × Bytes) :=
  hashimoto hs hash nonce size fun index =>
    (generateDatasetItem hs cache index).map fun rawData => words rawData (rawData.length / 4)

/-- `hashimotoFull`: the items read from the dataset. -/
def hashimotoFull (hs : Hasher) (dataset : List UInt32) (hash : Bytes) (nonce : UInt64) :
    Outcome PEmpty (Bytes × Bytes) :=
  hashimoto hs hash nonce (dataset.length * 4) fun index =>
    let offset := index * UInt32.ofNat hashWords
    let high := offset + UInt32.ofNat hashWords
    if high < offset ∨ dataset.length < high.toNat then .panic "runtime error: slice bounds out of range"
    else .ok ((dataset.drop offset.toNat).take hashWords)

end Bzhash

end Bazacoin
