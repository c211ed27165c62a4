import Bazacoin.Bzc.HeaderQuery
import Bazacoin.Lib.Run
import Bazacoin.Lib.Tally

/-!
# The block fetcher (`bzc/fetcher/fetcher.go`)

The fetcher follows a block from the announcement of its hash to its import.
An announcement sits in `announced` until the fetch timer picks one announcer
per hash and moves it to `fetching`, where it waits for the header. A header
that arrives moves it on to `fetched`, or, for a block without transactions
and uncles, straight to `completing`; the completion timer moves the fetched
ones to `completing`, where they wait for the body. Complete blocks go to
the import queue `queued`. Two per-peer counters guard the fetcher against a peer
that floods it: `announces` should count a peer's announcements in the four
maps, and `queues` its blocks in the queue.

The events of `loop` are a run of `step` (`Run.run`). Each iteration of the
loop first forgets expired fetches and imports what the queue holds, then
handles one event. An event happens at a time `now` and reads the chain's
height and its blocks as they are then (`Env`). The random choice of
announcer is an index per hash that comes with the timer event.

`queues` is exact over every run, and never above `blockLimit`
(`reachable_queues_exact`). `announces` is not. `forgetHash` takes one off for
each record of the hash it drops, but the records the fetch timer, the
completion timer and an arriving header put into `fetching`, `completing` and
`fetched` are never counted. By how much `announces` falls short of the
records (`deficit`) never decreases (`deficit_run`). Once the fetch timer has
moved an announcement of a peer, the peer's counter stays below its records
for the rest of the run (`announces_fall_behind`). When the records go, the
counter goes negative, and the peer may hold more than `hashLimit`
announcements.

What the model leaves out: the requests sent to peers and the hooks, the
timers' schedules (a timer event may come at any time), `dropPeer`, and
the import itself, whose end is the `done` event. The priority of the queue is
`-float32(number)`, which rounds numbers above `2^24`; here the queue is in
order of number.
-/

namespace Bazacoin

namespace Bzc

open State

namespace Fetcher

/-! ## Constants and data -/

/-- `arriveTimeout`, in milliseconds: time allowance before an announced block
is explicitly requested. -/
def arriveTimeout : Nat := 500

/-- `gatherSlack`: interval used to collate almost-expired announces with
fetches. -/
def gatherSlack : Nat := 100

/-- `fetchTimeout`: maximum allotted time to return an explicitly requested
block. -/
def fetchTimeout : Nat := 5000

/-- `maxUncleDist`: maximum allowed backward distance from the chain head. -/
def maxUncleDist : Nat := 7

/-- `maxQueueDist`: maximum allowed distance from the chain head to queue. -/
def maxQueueDist : Nat := 32

/-- `hashLimit`: maximum number of unique blocks a peer may have announced. -/
def hashLimit : Int := 256

/-- `blockLimit`: maximum number of unique blocks a peer may have delivered. -/
def blockLimit : Int := 64

/-- `types.EmptyRootHash`, `DeriveSha(Transactions{})`. -/
def EmptyRootHash : Hash := emptyRoot

/-- `types.EmptyUncleHash`, `CalcUncleHash(nil)`: the Keccak-256 of the RLP
of the empty list. -/
def EmptyUncleHash : Hash := 0x1dcc4de8dec75d7aab85b567b6ccd41ad312451b948a7413f0a142fd40d49347#256

/-- Peer identifiers. -/
abbrev PeerId := String

/-- What the fetcher reads of a `types.Header`: its hash, its number and the
roots of its body. -/
structure Header where
  /-- `Hash()` -/
  hash : Hash
  /-- `Number.Uint64()` -/
  number : UInt64
  TxHash : Hash
  UncleHash : Hash
  deriving DecidableEq, Repr

/-- A block, read through its header: `NewBlockWithHeader` and `WithBody` keep
the header, and `Block.Hash` is the header's hash. -/
abbrev Block := Header

/-- `announce`: the hash notification of the availability of a new block.
The callbacks that request the header and the bodies are left out. -/
structure Announce where
  hash : Hash
  number : UInt64
  header : Option Header
  time : Nat
  origin : PeerId
  deriving DecidableEq, Repr

/-- `inject`: a scheduled import operation. -/
structure Inject where
  origin : PeerId
  block : Block
  deriving DecidableEq, Repr

/-- Maps keyed by block hash. -/
abbrev HashMap (β : Type) := AList fun _ : Hash => β

end Fetcher

open Fetcher in
/-- `Fetcher`: the announce states and the block cache. The per-peer counts
are read with default zero, as Go reads a map at a missing key, so deleting a
count at zero is storing zero. -/
structure Fetcher where
  announces : PeerId → Int
  announced : HashMap (List Announce)
  fetching : HashMap Announce
  fetched : HashMap (List Announce)
  completing : HashMap Announce
  /-- `queue`: the import operations, lowest block number first. -/
  queue : List Inject
  queues : PeerId → Int
  queued : HashMap Inject

namespace Fetcher

/-- `New`: nothing announced or queued. -/
def New : Fetcher := ⟨fun _ => 0, ∅, ∅, ∅, ∅, [], fun _ => 0, ∅⟩

/-- What an iteration of the loop reads of the clock and the chain. -/
structure Env where
  /-- `time.Now()`, in milliseconds. -/
  now : Nat
  /-- `f.chainHeight()` -/
  chainHeight : UInt64
  /-- `f.getBlock(hash) != nil` -/
  getBlock : Hash → Bool

/-- `dist < -maxUncleDist || dist > maxQueueDist`. -/
def tooFar (dist : Int) : Bool := dist < -(maxUncleDist : Int) || dist > (maxQueueDist : Int)

/-- `queue.Push(op, -float32(op.block.NumberU64()))`. -/
def push (op : Inject) (queue : List Inject) : List Inject :=
  queue.orderedInsert (fun a b : Inject => a.block.number ≤ b.block.number) op

/-! ## Forgetting -/

/-- `forgetHash`: remove all traces of a block announcement, taking one off
the announcer's count for each record dropped. Deleting a key that is not
there changes nothing, so each map is read at the hash as a list of records
and the key deleted. -/
def forgetHash (f : Fetcher) (hash : Hash) : Fetcher :=
  -- Remove all pending announces and decrement DOS counters
  let f := { f with
    announces := decrAll Announce.origin f.announces ((f.announced.lookup hash).getD [])
    announced := f.announced.erase hash }
  -- Remove any pending fetches and decrement the DOS counters
  let f := { f with
    announces := decrAll Announce.origin f.announces (f.fetching.lookup hash).toList
    fetching := f.fetching.erase hash }
  -- Remove any pending completion requests and decrement the DOS counters
  let f := { f with
    announces := decrAll Announce.origin f.announces ((f.fetched.lookup hash).getD [])
    fetched := f.fetched.erase hash }
  -- Remove any pending completions and decrement the DOS counters
  { f with
    announces := decrAll Announce.origin f.announces (f.completing.lookup hash).toList
    completing := f.completing.erase hash }

/-- `forgetBlock`: remove all traces of a queued block. -/
def forgetBlock (f : Fetcher) (hash : Hash) : Fetcher :=
  { f with
    queues := decrAll Inject.origin f.queues (f.queued.lookup hash).toList
    queued := f.queued.erase hash }

/-! ## Queueing and importing -/

/-- `enqueue`: schedule a new future import operation, if the block to be
imported has not yet been seen. -/
def enqueue (f : Fetcher) (env : Env) (peer : PeerId) (block : Block) : Fetcher :=
  let hash := block.hash
  -- Ensure the peer isn't DOSing us
  let count := f.queues peer + 1
  if count > blockLimit then f.forgetHash hash
  -- Discard any past or too distant blocks
  else if tooFar (toGoInt (block.number - env.chainHeight)) then f.forgetHash hash
  -- Schedule the block for future importing
  else if (f.queued.lookup hash).isNone then
    let op : Inject := ⟨peer, block⟩
    { f with
      queues := Function.update f.queues peer count
      queued := f.queued.insert hash op
      queue := push op f.queue }
  else f

/-- The import loop at the top of `loop`, over the queue lowest first. A block
above `height + 1` goes back and ends the loop; one too old or already known
is forgotten; the rest go to `insert`, which imports on its own goroutine and
ends by sending the hash to `done`. -/
def importQueue (env : Env) : List Inject → Fetcher → Fetcher
  | [], f => { f with queue := [] }
  | op :: rest, f =>
    -- If too high up the chain or phase, continue later
    if op.block.number > env.chainHeight + 1 then { f with queue := op :: rest }
    -- Otherwise if fresh and still unknown, try and import
    else if op.block.number + UInt64.ofNat maxUncleDist < env.chainHeight ||
        env.getBlock op.block.hash then
      importQueue env rest (f.forgetBlock op.block.hash)
    else importQueue env rest f

/-- The clean-up at the top of `loop`: forget the fetches that have waited
longer than `fetchTimeout`. -/
def expireFetches (f : Fetcher) (env : Env) : Fetcher :=
  f.fetching.entries.foldl
    (fun f s => if env.now - s.2.time > fetchTimeout then f.forgetHash s.1 else f) f

/-! ## The events -/

/-- The `notify` case: a block was announced. -/
def notify (f : Fetcher) (env : Env) (notification : Announce) : Fetcher :=
  -- A block was announced, make sure the peer isn't DOSing us
  let count := f.announces notification.origin + 1
  if count > hashLimit then f
  -- If we have a valid block number, check that it's potentially useful
  else if notification.number > 0 &&
      tooFar (toGoInt (notification.number - env.chainHeight)) then f
  -- All is well, schedule the announce if block's not yet downloading
  else if (f.fetching.lookup notification.hash).isSome then f
  else if (f.completing.lookup notification.hash).isSome then f
  else { f with
    announces := Function.update f.announces notification.origin count
    announced := f.announced.insert notification.hash
      ((f.announced.lookup notification.hash).getD [] ++ [notification]) }

/-- One hash of the `fetchTimer` case: if its first announcement is due, pick
an announcer, forget the hash, and fetch the block from the announcer unless
it has arrived. The lists in `announced` are never empty: each is made by an
append. -/
def fetchOne (env : Env) (pick : Hash → Nat) (f : Fetcher) (hash : Hash) :
    List Announce → Fetcher
  | [] => f
  | first :: rest =>
    if env.now - first.time > arriveTimeout - gatherSlack then
      -- Pick a random peer to retrieve from, reset all others
      let announce := (first :: rest).getD (pick hash % (rest.length + 1)) first
      let f := f.forgetHash hash
      -- If the block still didn't arrive, queue for fetching
      if env.getBlock hash then f else { f with fetching := f.fetching.insert hash announce }
    else f

/-- The `fetchTimer` case. -/
def fetchTimer (f : Fetcher) (env : Env) (pick : Hash → Nat) : Fetcher :=
  f.announced.entries.foldl (fun f s => fetchOne env pick f s.1 s.2) f

/-- One hash of the `completeTimer` case: pick an announcer, forget the hash,
and complete the block from the announcer unless it has arrived. -/
def completeOne (env : Env) (pick : Hash → Nat) (f : Fetcher) (hash : Hash) :
    List Announce → Fetcher
  | [] => f
  | first :: rest =>
    -- Pick a random peer to retrieve from, reset all others
    let announce := (first :: rest).getD (pick hash % (rest.length + 1)) first
    let f := f.forgetHash hash
    -- If the block still didn't arrive, queue for completion
    if env.getBlock hash then f else { f with completing := f.completing.insert hash announce }

/-- The `completeTimer` case. -/
def completeTimer (f : Fetcher) (env : Env) (pick : Hash → Nat) : Fetcher :=
  f.fetched.entries.foldl (fun f s => completeOne env pick f s.1 s.2) f

/-- The headers a header filter sorts out: those the fetcher did not ask
for, the announcements waiting for a body, and the blocks without one. -/
structure HeaderSplit where
  unknown : List Header
  incomplete : List Announce
  complete : List Block

/-- One header of the `headerFilter` case. -/
def filterHeader (env : Env) (time : Nat) : Fetcher × HeaderSplit → Header → Fetcher × HeaderSplit
  | (f, split), header =>
    let hash := header.hash
    let unknown := (f, { split with unknown := split.unknown ++ [header] })
    -- Filter fetcher-requested headers from other synchronisation algorithms
    match f.fetching.lookup hash with
    | none => unknown
    | some announce =>
      if (f.fetched.lookup hash).isNone && (f.completing.lookup hash).isNone &&
          (f.queued.lookup hash).isNone then
        -- If the delivered header does not match the promised number, drop the announcer
        if header.number ≠ announce.number then (f.forgetHash hash, split)
        -- Only keep if not imported by other means
        else if env.getBlock hash then (f.forgetHash hash, split)
        else
          -- the announcement is shared with `fetching`, which sees the header and the time
          let announce := { announce with header := some header, time := time }
          let f := { f with fetching := f.fetching.insert hash announce }
          -- If the block is empty (header only), short circuit into the final import queue
          if header.TxHash = EmptyRootHash && header.UncleHash = EmptyUncleHash then
            ({ f with completing := f.completing.insert hash announce },
              { split with complete := split.complete ++ [header] })
          -- Otherwise add to the list of blocks needing completion
          else (f, { split with incomplete := split.incomplete ++ [announce] })
      else unknown

/-- Schedule the retrieved headers for body completion. -/
def scheduleFetched (f : Fetcher) (incomplete : List Announce) : Fetcher :=
  incomplete.foldl (fun f announce =>
    match announce.header with
    -- never: the header was set when the announcement was sorted out
    | none => f
    | some header =>
      if (f.completing.lookup header.hash).isSome then f
      else
        let announces := (f.fetched.lookup header.hash).getD [] ++ [announce]
        { f with fetched := f.fetched.insert header.hash announces }) f

/-- Schedule the complete blocks for import, from their announcers. -/
def enqueueCompleted (f : Fetcher) (env : Env) (blocks : List Block) : Fetcher :=
  blocks.foldl (fun f block =>
    match f.completing.lookup block.hash with
    | some announce => f.enqueue env announce.origin block
    | none => f) f

/-- The `headerFilter` case: the fetcher and the headers it returns. -/
def filterHeaders (f : Fetcher) (env : Env) (headers : List Header) (time : Nat) :
    Fetcher × List Header :=
  let (f, split) := headers.foldl (filterHeader env time) (f, ⟨[], [], []⟩)
  ((f.scheduleFetched split.incomplete).enqueueCompleted env split.complete, split.unknown)

/-- One completing announcement against a body, given by the roots of its
transactions and uncles: the fetcher, the block reassembled if it is still
unknown, and whether the body matched. -/
def matchOne (env : Env) (txnHash uncleHash : Hash) :
    Fetcher × List Block × Bool → (Σ _ : Hash, Announce) → Fetcher × List Block × Bool
  | (f, blocks, matched), ⟨hash, announce⟩ =>
    if (f.queued.lookup hash).isNone then
      match announce.header with
      | some header =>
        if txnHash = header.TxHash && uncleHash = header.UncleHash then
          -- Mark the body matched, reassemble if still unknown
          if env.getBlock hash then (f.forgetHash hash, blocks, true)
          else (f, blocks ++ [header], true)
        else (f, blocks, matched)
      -- never: a completing announcement has its header
      | none => (f, blocks, matched)
    else (f, blocks, matched)

/-- The body loop of the `bodyFilter` case: match each body up to any
completion request and drop the matched ones from what is returned. -/
def matchBodies (env : Env) :
    List Hash → List Hash → Fetcher → List Block → Fetcher × List Block × List Hash × List Hash
  | txn :: txns, uncle :: uncles, f, blocks =>
    let (f, blocks, matched) := f.completing.entries.foldl (matchOne env txn uncle) (f, blocks, false)
    let (f, blocks, txns, uncles) := matchBodies env txns uncles f blocks
    if matched then (f, blocks, txns, uncles) else (f, blocks, txn :: txns, uncle :: uncles)
  | txns, uncles, f, blocks => (f, blocks, txns, uncles)

/-- The `bodyFilter` case: the fetcher and the bodies it returns. -/
def filterBodies (f : Fetcher) (env : Env) (transactions uncles : List Hash) :
    Fetcher × List Hash × List Hash :=
  let (f, blocks, transactions, uncles) := matchBodies env transactions uncles f []
  (f.enqueueCompleted env blocks, transactions, uncles)

/-- The events of `loop`. -/
inductive Event
  /-- `Notify(peer, hash, number, time, ...)` -/
  | notify (peer : PeerId) (hash : Hash) (number : UInt64) (time : Nat)
  /-- `Enqueue(peer, block)` -/
  | inject (peer : PeerId) (block : Block)
  /-- the end of an import -/
  | done (hash : Hash)
  /-- the fetch timer, with the random index drawn for each hash -/
  | fetchTimer (pick : Hash → Nat)
  /-- the completion timer, with the random index drawn for each hash -/
  | completeTimer (pick : Hash → Nat)
  /-- `FilterHeaders(headers, time)` -/
  | headerFilter (headers : List Header) (time : Nat)
  /-- `FilterBodies(transactions, uncles, time)`, each body by its roots -/
  | bodyFilter (transactions uncles : List Hash)

/-- One iteration of `loop`: clean up the expired fetches, import what the
queue holds, then handle the event. -/
def loop (f : Fetcher) (env : Env) (e : Event) : Fetcher :=
  let f := f.expireFetches env
  let f := importQueue env f.queue f
  match e with
  | .notify peer hash number time => f.notify env ⟨hash, number, none, time, peer⟩
  | .inject peer block => f.enqueue env peer block
  | .done hash => (f.forgetHash hash).forgetBlock hash
  | .fetchTimer pick => f.fetchTimer env pick
  | .completeTimer pick => f.completeTimer env pick
  | .headerFilter headers time => (f.filterHeaders env headers time).1
  | .bodyFilter transactions uncles => (f.filterBodies env transactions uncles).1

/-- The loop as a step function for `Run.run`. -/
def step : Env × Event → Fetcher → Option Fetcher
  | (env, e), f => some (f.loop env e)

/-! ## The announce records and the deficit of the counter -/

/-- The announcements of `p` among `as`. -/
def held (p : PeerId) (as : List Announce) : Nat := as.countP fun a => a.origin = p

/-- The announce records of `p` the fetcher holds, in `announced`,
`fetching`, `fetched` and `completing`: what `announces p` should be. -/
def outstanding (f : Fetcher) (p : PeerId) : Nat :=
  f.announced.tally (held p) + f.fetching.tally (fun a => held p [a]) +
    f.fetched.tally (held p) + f.completing.tally (fun a => held p [a])

/-- How far `announces p` falls short of the records of `p`. -/
def deficit (f : Fetcher) (p : PeerId) : Int := f.outstanding p - f.announces p

@[simp] theorem held_append (p : PeerId) (as bs : List Announce) :
    held p (as ++ bs) = held p as + held p bs :=
  List.countP_append

theorem decrAll_origin (c : PeerId → Int) (as : List Announce) (p : PeerId) :
    decrAll Announce.origin c as p = c p - held p as :=
  decrAll_apply Announce.origin c as p

/-- Erasing a hash from a map of announcement lists drops its records. -/
theorem tally_held_erase (m : HashMap (List Announce)) (hash : Hash) (p : PeerId) :
    m.tally (held p) = (m.erase hash).tally (held p) + held p ((m.lookup hash).getD []) := by
  rw [AList.tally_erase (held p) m hash]
  cases m.lookup hash <;> rfl

/-- Erasing a hash from a map of announcements drops its record. -/
theorem tally_one_erase (m : HashMap Announce) (hash : Hash) (p : PeerId) :
    m.tally (fun a => held p [a]) =
      (m.erase hash).tally (fun a => held p [a]) + held p (m.lookup hash).toList := by
  rw [AList.tally_erase (fun a => held p [a]) m hash]
  cases m.lookup hash <;> rfl

/-- `forgetHash` takes one off the count for each record it drops. -/
theorem deficit_forgetHash (f : Fetcher) (hash : Hash) (p : PeerId) :
    (f.forgetHash hash).deficit p = f.deficit p := by
  have h₁ := tally_held_erase f.announced hash p
  have h₂ := tally_one_erase f.fetching hash p
  have h₃ := tally_held_erase f.fetched hash p
  have h₄ := tally_one_erase f.completing hash p
  simp only [deficit, outstanding, forgetHash, decrAll_origin]
  push_cast
  omega

theorem deficit_forgetBlock (f : Fetcher) (hash : Hash) (p : PeerId) :
    (f.forgetBlock hash).deficit p = f.deficit p := rfl

theorem forgetHash_fetching_lookup (f : Fetcher) (hash : Hash) :
    (f.forgetHash hash).fetching.lookup hash = none :=
  AList.lookup_erase _ _

theorem forgetHash_completing_lookup (f : Fetcher) (hash : Hash) :
    (f.forgetHash hash).completing.lookup hash = none :=
  AList.lookup_erase _ _

/-- A record put into `fetching` at a free hash is not counted. -/
theorem deficit_insert_fetching {f : Fetcher} {hash : Hash} (hfree : f.fetching.lookup hash = none)
    (a : Announce) (p : PeerId) :
    { f with fetching := f.fetching.insert hash a }.deficit p = f.deficit p + held p [a] := by
  have h := AList.tally_insert_of_lookup_eq_none (fun a => held p [a]) hfree a
  simp only [deficit, outstanding, h]
  push_cast
  omega

/-- A record put into `completing` at a free hash is not counted. -/
theorem deficit_insert_completing {f : Fetcher} {hash : Hash}
    (hfree : f.completing.lookup hash = none) (a : Announce) (p : PeerId) :
    { f with completing := f.completing.insert hash a }.deficit p = f.deficit p + held p [a] := by
  have h := AList.tally_insert_of_lookup_eq_none (fun a => held p [a]) hfree a
  simp only [deficit, outstanding, h]
  push_cast
  omega

/-- Updating a record of `fetching` in place, with the same announcer, keeps
the deficit. -/
theorem deficit_replace_fetching {f : Fetcher} {hash : Hash} {a₀ : Announce}
    (hk : f.fetching.lookup hash = some a₀) (a : Announce) (horigin : a.origin = a₀.origin)
    (p : PeerId) :
    { f with fetching := f.fetching.insert hash a }.deficit p = f.deficit p := by
  have h := AList.tally_insert_of_lookup_eq_some (fun a => held p [a]) hk a (by simp [held, horigin])
  simp only [deficit, outstanding, h]

/-- A record appended in `fetched` is not counted. -/
theorem deficit_append_fetched (f : Fetcher) (hash : Hash) (a : Announce) (p : PeerId) :
    { f with fetched := f.fetched.insert hash ((f.fetched.lookup hash).getD [] ++ [a]) }.deficit p =
      f.deficit p + held p [a] := by
  have h₁ := AList.tally_insert (held p) f.fetched hash ((f.fetched.lookup hash).getD [] ++ [a])
  have h₂ := tally_held_erase f.fetched hash p
  simp only [deficit, outstanding, h₁, held_append]
  push_cast
  omega

/-- `notify` counts each announcement it records. -/
theorem deficit_notify (f : Fetcher) (env : Env) (n : Announce) (p : PeerId) :
    (f.notify env n).deficit p = f.deficit p := by
  unfold notify
  dsimp only
  split_ifs
  · rfl
  · rfl
  · rfl
  · rfl
  · have h₁ := AList.tally_insert (held p) f.announced n.hash
      ((f.announced.lookup n.hash).getD [] ++ [n])
    have h₂ := tally_held_erase f.announced n.hash p
    simp only [deficit, outstanding, h₁, held_append]
    by_cases hp : n.origin = p
    · subst hp
      have hn : held n.origin [n] = 1 := by simp [held]
      rw [hn, Function.update_self]
      push_cast
      omega
    · have hn : held p [n] = 0 := by simp [held, hp]
      rw [hn, Function.update_of_ne (Ne.symm hp)]
      push_cast
      omega

/-! ## Each handler keeps or raises the deficit -/

theorem deficit_enqueue (f : Fetcher) (env : Env) (peer : PeerId) (block : Block) (p : PeerId) :
    (f.enqueue env peer block).deficit p = f.deficit p := by
  unfold enqueue
  dsimp only
  split_ifs
  · exact deficit_forgetHash f _ p
  · exact deficit_forgetHash f _ p
  · rfl
  · rfl

theorem deficit_importQueue (env : Env) (queue : List Inject) (f : Fetcher) (p : PeerId) :
    (importQueue env queue f).deficit p = f.deficit p := by
  induction queue generalizing f with
  | nil => rfl
  | cons op rest ih =>
    rw [importQueue]
    split_ifs
    · rfl
    · rw [ih, deficit_forgetBlock]
    · exact ih f

theorem deficit_expireFetches (f : Fetcher) (env : Env) (p : PeerId) :
    (f.expireFetches env).deficit p = f.deficit p := by
  unfold expireFetches
  refine Run.foldl_inv (P := fun g : Fetcher => g.deficit p = f.deficit p) _ (fun g s _ hg => ?_) rfl
  split_ifs
  · rw [deficit_forgetHash, hg]
  · exact hg

/-- The fetch timer counts nothing it moves to `fetching`. -/
theorem deficit_fetchOne (env : Env) (pick : Hash → Nat) (f : Fetcher) (hash : Hash)
    (as : List Announce) (p : PeerId) : f.deficit p ≤ (fetchOne env pick f hash as).deficit p := by
  cases as with
  | nil => exact le_rfl
  | cons first rest =>
    rw [fetchOne]
    dsimp only
    split_ifs
    · rw [deficit_forgetHash]
    · rw [deficit_insert_fetching (forgetHash_fetching_lookup f hash), deficit_forgetHash]
      omega
    · exact le_rfl

theorem deficit_fetchTimer (f : Fetcher) (env : Env) (pick : Hash → Nat) (p : PeerId) :
    f.deficit p ≤ (f.fetchTimer env pick).deficit p := by
  unfold fetchTimer
  refine Run.foldl_inv (P := fun g : Fetcher => f.deficit p ≤ g.deficit p) _
    (fun g s _ hg => ?_) le_rfl
  exact hg.trans (deficit_fetchOne env pick g s.1 s.2 p)

/-- The completion timer counts nothing it moves to `completing`. -/
theorem deficit_completeOne (env : Env) (pick : Hash → Nat) (f : Fetcher) (hash : Hash)
    (as : List Announce) (p : PeerId) : f.deficit p ≤ (completeOne env pick f hash as).deficit p := by
  cases as with
  | nil => exact le_rfl
  | cons first rest =>
    rw [completeOne]
    split_ifs
    · rw [deficit_forgetHash]
    · rw [deficit_insert_completing (forgetHash_completing_lookup f hash), deficit_forgetHash]
      omega

theorem deficit_completeTimer (f : Fetcher) (env : Env) (pick : Hash → Nat) (p : PeerId) :
    f.deficit p ≤ (f.completeTimer env pick).deficit p := by
  unfold completeTimer
  refine Run.foldl_inv (P := fun g : Fetcher => f.deficit p ≤ g.deficit p) _
    (fun g s _ hg => ?_) le_rfl
  exact hg.trans (deficit_completeOne env pick g s.1 s.2 p)

/-- An arriving header updates its record in `fetching` and, for an empty
block, puts an uncounted one into `completing`. -/
theorem deficit_filterHeader (env : Env) (time : Nat) (acc : Fetcher × HeaderSplit)
    (header : Header) (p : PeerId) :
    acc.1.deficit p ≤ (filterHeader env time acc header).1.deficit p := by
  obtain ⟨f, split⟩ := acc
  rw [filterHeader]
  dsimp only
  split
  · exact le_rfl
  · next announce hk =>
    split_ifs with hfree hnumber hknown hempty
    · rw [deficit_forgetHash]
    · rw [deficit_forgetHash]
    · -- `completing` has no record at the hash: the filter checked it
      have hcompleting : f.completing.lookup header.hash = none := by
        simp only [Bool.and_eq_true, Option.isNone_iff_eq_none] at hfree
        exact hfree.1.2
      let announce' := { announce with header := some header, time := time }
      have hfetching := deficit_replace_fetching hk announce' rfl p
      have hput := deficit_insert_completing
        (f := { f with fetching := f.fetching.insert header.hash announce' }) hcompleting announce' p
      have hheld : (0 : Int) ≤ held p [announce'] := Int.natCast_nonneg _
      exact (le_of_le_of_eq (by omega) hput.symm :
        f.deficit p ≤ ({ { f with fetching := f.fetching.insert header.hash announce' } with
          completing := f.completing.insert header.hash announce' }).deficit p)
    · exact (deficit_replace_fetching hk _ rfl p).ge
    · exact le_rfl

theorem deficit_scheduleFetched (f : Fetcher) (incomplete : List Announce) (p : PeerId) :
    f.deficit p ≤ (f.scheduleFetched incomplete).deficit p := by
  unfold scheduleFetched
  refine Run.foldl_inv (P := fun g : Fetcher => f.deficit p ≤ g.deficit p) _ (fun g a _ hg => ?_) le_rfl
  split
  · exact hg
  · split_ifs
    · exact hg
    · dsimp only
      rw [deficit_append_fetched]
      omega

theorem deficit_enqueueCompleted (f : Fetcher) (env : Env) (blocks : List Block) (p : PeerId) :
    (f.enqueueCompleted env blocks).deficit p = f.deficit p := by
  unfold enqueueCompleted
  refine Run.foldl_inv (P := fun g : Fetcher => g.deficit p = f.deficit p) _
    (fun g block _ hg => ?_) rfl
  split
  · rw [deficit_enqueue, hg]
  · exact hg

theorem deficit_filterHeaders (f : Fetcher) (env : Env) (headers : List Header) (time : Nat)
    (p : PeerId) : f.deficit p ≤ (f.filterHeaders env headers time).1.deficit p := by
  have hsplit : f.deficit p ≤ (headers.foldl (filterHeader env time) (f, ⟨[], [], []⟩)).1.deficit p :=
    Run.foldl_inv (P := fun acc : Fetcher × HeaderSplit => f.deficit p ≤ acc.1.deficit p) _
      (fun acc header _ hacc => hacc.trans (deficit_filterHeader env time acc header p)) le_rfl
  unfold filterHeaders
  cases hfold : headers.foldl (filterHeader env time) (f, ⟨[], [], []⟩) with
  | mk g split =>
    rw [hfold] at hsplit
    dsimp only
    rw [deficit_enqueueCompleted]
    exact hsplit.trans (deficit_scheduleFetched g _ p)

theorem deficit_matchOne (env : Env) (txnHash uncleHash : Hash) (acc : Fetcher × List Block × Bool)
    (s : Σ _ : Hash, Announce) (p : PeerId) :
    (matchOne env txnHash uncleHash acc s).1.deficit p = acc.1.deficit p := by
  obtain ⟨f, blocks, matched⟩ := acc
  obtain ⟨hash, announce⟩ := s
  rw [matchOne]
  by_cases hq : (f.queued.lookup hash).isNone = true
  · rw [if_pos hq]
    cases announce.header with
    | none => rfl
    | some header =>
      dsimp only
      split_ifs
      · exact deficit_forgetHash f hash p
      · rfl
      · rfl
  · rw [if_neg hq]

theorem deficit_matchBodies (env : Env) (txns uncles : List Hash) (f : Fetcher)
    (blocks : List Block) (p : PeerId) :
    (matchBodies env txns uncles f blocks).1.deficit p = f.deficit p := by
  induction txns generalizing uncles f blocks with
  | nil => rfl
  | cons txn txns ih =>
    cases uncles with
    | nil => rfl
    | cons uncle uncles =>
      have hbody : (f.completing.entries.foldl (matchOne env txn uncle) (f, blocks, false)).1.deficit p =
          f.deficit p :=
        Run.foldl_inv (P := fun acc : Fetcher × List Block × Bool => acc.1.deficit p = f.deficit p) _
          (fun acc s _ hacc => (deficit_matchOne env txn uncle acc s p).trans hacc) rfl
      rw [matchBodies]
      cases hfold : f.completing.entries.foldl (matchOne env txn uncle) (f, blocks, false) with
      | mk g rest =>
        obtain ⟨found, matched⟩ := rest
        rw [hfold] at hbody
        dsimp only
        have hrest := ih uncles g found
        cases hrec : matchBodies env txns uncles g found with
        | mk g' rest' =>
          rw [hrec] at hrest
          obtain ⟨blocks', txns', uncles'⟩ := rest'
          dsimp only
          split_ifs <;> exact hrest.trans hbody

theorem deficit_filterBodies (f : Fetcher) (env : Env) (transactions uncles : List Hash)
    (p : PeerId) : (f.filterBodies env transactions uncles).1.deficit p = f.deficit p := by
  have hmatch := deficit_matchBodies env transactions uncles f [] p
  unfold filterBodies
  cases hrec : matchBodies env transactions uncles f [] with
  | mk g rest =>
    rw [hrec] at hmatch
    dsimp only
    rw [deficit_enqueueCompleted, hmatch]

/-- No iteration of the loop lowers a deficit. -/
theorem deficit_loop (f : Fetcher) (env : Env) (e : Event) (p : PeerId) :
    f.deficit p ≤ (f.loop env e).deficit p := by
  -- the clean-up and the import loop keep every deficit
  have hhouse : (importQueue env (f.expireFetches env).queue (f.expireFetches env)).deficit p =
      f.deficit p := by
    rw [deficit_importQueue, deficit_expireFetches]
  unfold loop
  dsimp only
  cases e with
  | notify peer hash number time => rw [deficit_notify, hhouse]
  | inject peer block => rw [deficit_enqueue, hhouse]
  | done hash => rw [deficit_forgetBlock, deficit_forgetHash, hhouse]
  | fetchTimer pick => exact hhouse.ge.trans (deficit_fetchTimer _ env pick p)
  | completeTimer pick => exact hhouse.ge.trans (deficit_completeTimer _ env pick p)
  | headerFilter headers time => exact hhouse.ge.trans (deficit_filterHeaders _ env headers time p)
  | bodyFilter transactions uncles => rw [deficit_filterBodies, hhouse]

/-- Over every run, the deficit of every peer never decreases. -/
theorem deficit_run {es : List (Env × Event)} {f f' : Fetcher} (hrun : Run.run step es f = some f')
    (p : PeerId) : f.deficit p ≤ f'.deficit p := by
  refine Run.run_inv (P := fun g : Fetcher => f.deficit p ≤ g.deficit p) ?_ le_rfl hrun
  rintro ⟨env, e⟩ g g' hg hstep
  cases hstep
  exact hg.trans (deficit_loop g env e p)

/-! ## The queue counter is exact -/

/-- The queued blocks of `p`. -/
def queuedOf (f : Fetcher) (p : PeerId) : Nat :=
  f.queued.tally fun op => [op].countP fun op => op.origin = p

/-- `queues` counts each peer's queued blocks and stays within `blockLimit`. -/
structure QueuesExact (f : Fetcher) : Prop where
  exact : ∀ p, f.queues p = f.queuedOf p
  bounded : ∀ p, f.queues p ≤ blockLimit

/-- A step that leaves `queues` and `queued` alone. -/
def SameQueue (f g : Fetcher) : Prop := g.queues = f.queues ∧ g.queued = f.queued

theorem QueuesExact.congr {f g : Fetcher} (h : QueuesExact f) (hsame : SameQueue f g) :
    QueuesExact g := by
  obtain ⟨hq, hd⟩ := hsame
  refine ⟨fun p => ?_, fun p => ?_⟩
  · rw [hq, h.exact p]
    simp only [queuedOf, hd]
  · rw [hq]
    exact h.bounded p

theorem SameQueue.trans {f g h : Fetcher} (h₁ : SameQueue f g) (h₂ : SameQueue g h) :
    SameQueue f h :=
  ⟨h₂.1.trans h₁.1, h₂.2.trans h₁.2⟩

theorem sameQueue_forgetHash (f : Fetcher) (hash : Hash) : SameQueue f (f.forgetHash hash) :=
  ⟨rfl, rfl⟩

theorem queuesExact_forgetBlock {f : Fetcher} (h : QueuesExact f) (hash : Hash) :
    QueuesExact (f.forgetBlock hash) := by
  refine ⟨fun p => ?_, fun p => ?_⟩
  · have herase := AList.tally_erase (fun op : Inject => [op].countP fun op => op.origin = p)
      f.queued hash
    have hdrop : ((f.queued.lookup hash).map fun op : Inject => [op].countP fun op => op.origin = p).getD 0 =
        (f.queued.lookup hash).toList.countP fun op => op.origin = p := by
      cases f.queued.lookup hash <;> rfl
    simp only [forgetBlock, queuedOf, decrAll_apply]
    rw [h.exact p, queuedOf, herase, hdrop]
    push_cast
    omega
  · simp only [forgetBlock, decrAll_apply]
    have := h.bounded p
    omega

theorem queuesExact_enqueue {f : Fetcher} (h : QueuesExact f) (env : Env) (peer : PeerId)
    (block : Block) : QueuesExact (f.enqueue env peer block) := by
  unfold enqueue
  dsimp only
  split_ifs with hlimit hfar hfresh
  · exact h.congr (sameQueue_forgetHash f _)
  · exact h.congr (sameQueue_forgetHash f _)
  · -- a new block: counted once for its peer, within the limit just checked
    have hnone : f.queued.lookup block.hash = none := Option.isNone_iff_eq_none.1 hfresh
    refine ⟨fun p => ?_, fun p => ?_⟩
    · have hput := AList.tally_insert_of_lookup_eq_none
        (fun op : Inject => [op].countP fun op => op.origin = p) hnone ⟨peer, block⟩
      simp only [queuedOf, hput]
      by_cases hp : peer = p
      · subst hp
        simp [Function.update_self, h.exact peer, queuedOf]
      · simp [Function.update_of_ne (Ne.symm hp), h.exact p, queuedOf, hp]
    · by_cases hp : p = peer
      · subst hp
        simp only [Function.update_self]
        omega
      · simp only [Function.update_of_ne hp]
        exact h.bounded p
  · exact h

theorem queuesExact_importQueue (env : Env) (queue : List Inject) {f : Fetcher}
    (h : QueuesExact f) : QueuesExact (importQueue env queue f) := by
  induction queue generalizing f with
  | nil => exact h.congr ⟨rfl, rfl⟩
  | cons op rest ih =>
    rw [importQueue]
    split_ifs
    · exact h.congr ⟨rfl, rfl⟩
    · exact ih (queuesExact_forgetBlock h _)
    · exact ih h

theorem sameQueue_expireFetches (f : Fetcher) (env : Env) : SameQueue f (f.expireFetches env) := by
  unfold expireFetches
  refine Run.foldl_inv (P := fun g : Fetcher => SameQueue f g) _ (fun g s _ hg => ?_) ⟨rfl, rfl⟩
  split_ifs
  · exact hg.trans (sameQueue_forgetHash g _)
  · exact hg

theorem sameQueue_notify (f : Fetcher) (env : Env) (n : Announce) : SameQueue f (f.notify env n) := by
  unfold notify
  dsimp only
  split_ifs <;> exact ⟨rfl, rfl⟩

theorem sameQueue_fetchTimer (f : Fetcher) (env : Env) (pick : Hash → Nat) :
    SameQueue f (f.fetchTimer env pick) := by
  unfold fetchTimer
  refine Run.foldl_inv (P := fun g : Fetcher => SameQueue f g) _ (fun g s _ hg => ?_) ⟨rfl, rfl⟩
  obtain ⟨hash, as⟩ := s
  cases as with
  | nil => exact hg
  | cons first rest =>
    rw [fetchOne]
    dsimp only
    split_ifs
    · exact hg.trans (sameQueue_forgetHash g hash)
    · exact hg.trans (sameQueue_forgetHash g hash)
    · exact hg

theorem sameQueue_completeTimer (f : Fetcher) (env : Env) (pick : Hash → Nat) :
    SameQueue f (f.completeTimer env pick) := by
  unfold completeTimer
  refine Run.foldl_inv (P := fun g : Fetcher => SameQueue f g) _ (fun g s _ hg => ?_) ⟨rfl, rfl⟩
  obtain ⟨hash, as⟩ := s
  cases as with
  | nil => exact hg
  | cons first rest =>
    rw [completeOne]
    split_ifs
    · exact hg.trans (sameQueue_forgetHash g hash)
    · exact hg.trans (sameQueue_forgetHash g hash)

theorem sameQueue_filterHeader (env : Env) (time : Nat) (acc : Fetcher × HeaderSplit)
    (header : Header) : SameQueue acc.1 (filterHeader env time acc header).1 := by
  obtain ⟨f, split⟩ := acc
  rw [filterHeader]
  dsimp only
  split
  · exact ⟨rfl, rfl⟩
  · split_ifs
    · exact sameQueue_forgetHash f _
    · exact sameQueue_forgetHash f _
    · exact ⟨rfl, rfl⟩
    · exact ⟨rfl, rfl⟩
    · exact ⟨rfl, rfl⟩

theorem sameQueue_scheduleFetched (f : Fetcher) (incomplete : List Announce) :
    SameQueue f (f.scheduleFetched incomplete) := by
  unfold scheduleFetched
  refine Run.foldl_inv (P := fun g : Fetcher => SameQueue f g) _ (fun g a _ hg => ?_) ⟨rfl, rfl⟩
  split
  · exact hg
  · split_ifs
    · exact hg
    · exact hg

theorem queuesExact_enqueueCompleted {f : Fetcher} (h : QueuesExact f) (env : Env)
    (blocks : List Block) : QueuesExact (f.enqueueCompleted env blocks) := by
  unfold enqueueCompleted
  refine Run.foldl_inv (P := QueuesExact) _ (fun g block _ hg => ?_) h
  split
  · exact queuesExact_enqueue hg env _ block
  · exact hg

theorem queuesExact_filterHeaders {f : Fetcher} (h : QueuesExact f) (env : Env)
    (headers : List Header) (time : Nat) : QueuesExact (f.filterHeaders env headers time).1 := by
  have hsplit : SameQueue f (headers.foldl (filterHeader env time) (f, ⟨[], [], []⟩)).1 :=
    Run.foldl_inv (P := fun acc : Fetcher × HeaderSplit => SameQueue f acc.1) _
      (fun acc header _ hacc => hacc.trans (sameQueue_filterHeader env time acc header)) ⟨rfl, rfl⟩
  unfold filterHeaders
  cases hfold : headers.foldl (filterHeader env time) (f, ⟨[], [], []⟩) with
  | mk g split =>
    rw [hfold] at hsplit
    exact queuesExact_enqueueCompleted
      ((h.congr hsplit).congr (sameQueue_scheduleFetched g _)) env _

theorem sameQueue_matchBodies (env : Env) (txns uncles : List Hash) (f : Fetcher)
    (blocks : List Block) : SameQueue f (matchBodies env txns uncles f blocks).1 := by
  induction txns generalizing uncles f blocks with
  | nil => exact ⟨rfl, rfl⟩
  | cons txn txns ih =>
    cases uncles with
    | nil => exact ⟨rfl, rfl⟩
    | cons uncle uncles =>
      have hbody : SameQueue f
          (f.completing.entries.foldl (matchOne env txn uncle) (f, blocks, false)).1 := by
        refine Run.foldl_inv (P := fun acc : Fetcher × List Block × Bool => SameQueue f acc.1) _
          (fun acc s _ hacc => ?_) ⟨rfl, rfl⟩
        obtain ⟨g, found, matched⟩ := acc
        obtain ⟨hash, announce⟩ := s
        rw [matchOne]
        by_cases hq : (g.queued.lookup hash).isNone = true
        · rw [if_pos hq]
          cases announce.header with
          | none => exact hacc
          | some header =>
            dsimp only
            split_ifs
            · exact hacc.trans (sameQueue_forgetHash g hash)
            · exact hacc
            · exact hacc
        · rw [if_neg hq]
          exact hacc
      rw [matchBodies]
      cases hfold : f.completing.entries.foldl (matchOne env txn uncle) (f, blocks, false) with
      | mk g rest =>
        obtain ⟨found, matched⟩ := rest
        rw [hfold] at hbody
        dsimp only
        have hrest := ih uncles g found
        cases hrec : matchBodies env txns uncles g found with
        | mk g' rest' =>
          rw [hrec] at hrest
          obtain ⟨blocks', txns', uncles'⟩ := rest'
          dsimp only
          split_ifs <;> exact hbody.trans hrest

theorem queuesExact_filterBodies {f : Fetcher} (h : QueuesExact f) (env : Env)
    (transactions uncles : List Hash) : QueuesExact (f.filterBodies env transactions uncles).1 := by
  have hmatch := sameQueue_matchBodies env transactions uncles f []
  unfold filterBodies
  cases hrec : matchBodies env transactions uncles f [] with
  | mk g rest =>
    rw [hrec] at hmatch
    exact queuesExact_enqueueCompleted (h.congr hmatch) env _

theorem queuesExact_loop {f : Fetcher} (h : QueuesExact f) (env : Env) (e : Event) :
    QueuesExact (f.loop env e) := by
  -- the clean-up and the import loop keep the count
  have hhouse : QueuesExact (importQueue env (f.expireFetches env).queue (f.expireFetches env)) :=
    queuesExact_importQueue env _ (h.congr (sameQueue_expireFetches f env))
  unfold loop
  dsimp only
  cases e with
  | notify peer hash number time => exact hhouse.congr (sameQueue_notify _ env _)
  | inject peer block => exact queuesExact_enqueue hhouse env peer block
  | done hash => exact queuesExact_forgetBlock (hhouse.congr (sameQueue_forgetHash _ hash)) hash
  | fetchTimer pick => exact hhouse.congr (sameQueue_fetchTimer _ env pick)
  | completeTimer pick => exact hhouse.congr (sameQueue_completeTimer _ env pick)
  | headerFilter headers time => exact queuesExact_filterHeaders hhouse env headers time
  | bodyFilter transactions uncles => exact queuesExact_filterBodies hhouse env transactions uncles

/-- Over every run from the new fetcher, `queues p` is the number of `p`'s
queued blocks and never above `blockLimit`. -/
theorem reachable_queues_exact {es : List (Env × Event)} {f : Fetcher}
    (hrun : Run.run step es New = some f) : QueuesExact f := by
  have hnew : QueuesExact New := ⟨fun _ => rfl, fun _ => show (0 : Int) ≤ 64 by decide⟩
  refine Run.run_inv (P := QueuesExact) ?_ hnew hrun
  rintro ⟨env, e⟩ g g' hg hstep
  cases hstep
  exact queuesExact_loop hg env e

/-- A peer hands in blocks 5 and 6 over a chain at height 0: both wait in the
queue, above the next block to import, and `queues` counts the two. -/
theorem reachable_queues_exact_two_blocks :
    ∃ f, Run.run step [(⟨0, 0, fun _ => false⟩, .inject "peer" ⟨5, 5, 0, 0⟩),
        (⟨0, 0, fun _ => false⟩, .inject "peer" ⟨6, 6, 0, 0⟩)] New = some f ∧
      f.queue.length = 2 ∧ f.queues "peer" = 2 ∧ QueuesExact f :=
  ⟨_, rfl, rfl, rfl, @reachable_queues_exact [(⟨0, 0, fun _ => false⟩, .inject "peer" ⟨5, 5, 0, 0⟩),
    (⟨0, 0, fun _ => false⟩, .inject "peer" ⟨6, 6, 0, 0⟩)] _ rfl⟩

theorem deficit_New (p : PeerId) : New.deficit p = 0 := rfl

/-- Once the fetch timer has moved a peer's announcement to `fetching`, the
peer's counter stays below the number of its records for the rest of the run,
whatever the run does next: the record in `fetching` was never counted, and no
step counts it later. -/
theorem announces_fall_behind {p : PeerId} {hash : Hash} {number : UInt64} {t : Nat}
    {env₀ env₁ : Env} {pick : Hash → Nat} {es : List (Env × Event)} {f : Fetcher}
    (hnear : number = 0 ∨ tooFar (toGoInt (number - env₀.chainHeight)) = false)
    (hdue : arriveTimeout - gatherSlack < env₁.now - t)
    (hunknown : env₁.getBlock hash = false)
    (hrun : Run.run step ((env₀, .notify p hash number t) :: (env₁, .fetchTimer pick) :: es) New =
      some f) :
    f.announces p < f.outstanding p := by
  let n : Announce := ⟨hash, number, none, t, p⟩
  -- the new fetcher has nothing to clean up or import, so the loop only notifies
  have hcheck : (decide (number > 0) && tooFar (toGoInt (number - env₀.chainHeight))) = false := by
    rcases hnear with rfl | hfar
    · rfl
    · simp [hfar]
  let f₁ : Fetcher := { New with
    announces := Function.update New.announces p 1
    announced := (∅ : HashMap (List Announce)).insert hash [n] }
  have hnotify : New.loop env₀ (.notify p hash number t) = f₁ := by
    show New.notify env₀ n = f₁
    unfold notify
    have hlimit : ¬ (New.announces n.origin + 1 > hashLimit) := by
      show ¬ ((0 : Int) + 1 > 256)
      decide
    rw [if_neg hlimit, if_neg (by rw [hcheck]; decide), if_neg (by simp [New]),
      if_neg (by simp [New])]
    rfl
  have hd₁ : f₁.deficit p = 0 := by
    rw [← hnotify]
    exact (deficit_notify New env₀ n p).trans (deficit_New p)
  -- the fetch timer forgets the announcement and moves it to `fetching`, uncounted
  have hfetch : f₁.loop env₁ (.fetchTimer pick) = fetchOne env₁ pick f₁ hash [n] := rfl
  have hd₂ : (fetchOne env₁ pick f₁ hash [n]).deficit p = 1 := by
    rw [fetchOne, if_pos hdue]
    dsimp only
    rw [if_neg (by simp [hunknown]), deficit_insert_fetching (forgetHash_fetching_lookup _ _),
      deficit_forgetHash, hd₁]
    simp [held, n, Nat.mod_one]
  -- no later step lowers the deficit
  obtain ⟨f₁', h₁, hrun⟩ := Run.run_cons_eq_some hrun
  obtain ⟨f₂, h₂, hrun⟩ := Run.run_cons_eq_some hrun
  cases h₁
  cases h₂
  have hgrow := deficit_run hrun p
  rw [hnotify, hfetch, hd₂] at hgrow
  unfold deficit at hgrow
  omega

/-- A peer announces block 1 at time 0, the fetch timer fires at 500 ms, and
at 5001 ms the fetch has timed out: the announcement is forgotten a second
time and the peer's counter is `-1`, with no record left. -/
theorem announces_fall_behind_fetch_timeout :
    ∃ f, Run.run step [(⟨0, 0, fun _ => false⟩, .notify "peer" 1 0 0),
        (⟨500, 0, fun _ => false⟩, .fetchTimer fun _ => 0),
        (⟨5001, 0, fun _ => false⟩, .done 2)] New = some f ∧
      f.announces "peer" = -1 ∧ f.outstanding "peer" = 0 ∧
      (0 = 0 ∨ tooFar (toGoInt (0 - 0)) = false) ∧ arriveTimeout - gatherSlack < 500 - 0 ∧
      f.announces "peer" < f.outstanding "peer" :=
  ⟨_, rfl, by decide, by decide, Or.inl rfl, by decide,
    @announces_fall_behind "peer" 1 0 0 ⟨0, 0, fun _ => false⟩ ⟨500, 0, fun _ => false⟩ (fun _ => 0)
      [(⟨5001, 0, fun _ => false⟩, .done 2)] _ (Or.inl rfl) (by decide) rfl rfl⟩

end Fetcher

end Bzc

end Bazacoin
