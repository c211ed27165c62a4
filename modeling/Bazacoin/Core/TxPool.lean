import Bazacoin.Core.TxList
import Bazacoin.Core.StateTransition
import Bazacoin.Lib.Run

/-!
# The transaction pool (`core/tx_pool.go`)

The pool keeps every transaction it holds three times over: by hash in `all`,
by account and nonce in the `pending` list (executable now) or the `queue`
list (not yet executable) of its sender, and by price in the lazily kept heap
`priced`. Every path that moves a transaction has to update the three alike.

The operations are the pool's methods under a lock, so a run of the pool is a
sequence of them (`step`, `Run.run`); each happens at a time `now` and reads
the chain's head state and gas limit as they are then (`Env`). A panic of the
source (an index out of range, a method called on a missing list) is `none`.

Two of the paths do not keep the indexes together. `removeTx` of the lowest
pending transaction of an account removes the transactions above it from the
strict list, and then, since the list is empty, deletes it without queueing
them again: they stay in `all` and in the heap but are in no list
(`removeTx_strands_pending`). And `txPricedList.Cap`, called by
`SetGasPrice`, pops the first live entry priced at the threshold or more to
see where to stop and does not push it back: the transaction stays in the
pool with no entry in the heap, so `Discard` and `Underpriced` never see it
(`setGasPrice_drops_price_entry`).

What the model leaves out: the metrics and logs, the events the pool posts,
and `NewTxPool` with a state function that fails, which leaves the pool with
no pending state. `int(AccountQueue)` is read as the configured value; the
source's `Cap` panics on the negative `int` of a value of `2^63` or more.
-/

namespace Bazacoin

namespace Core

open State

/-- `TxPoolConfig`. -/
structure TxPoolConfig where
  PriceLimit : UInt64
  PriceBump : UInt64
  AccountSlots : UInt64
  GlobalSlots : UInt64
  AccountQueue : UInt64
  GlobalQueue : UInt64
  Lifetime : Nat
  deriving DecidableEq, Repr

/-- `DefaultTxPoolConfig`. -/
def DefaultTxPoolConfig : TxPoolConfig where
  PriceLimit := 1
  PriceBump := 10
  AccountSlots := 16
  GlobalSlots := 4096
  AccountQueue := 64
  GlobalQueue := 1024
  Lifetime := 3 * 60 * 60 * 1000000000

/-- `TxPoolConfig.sanitize`: a price limit or bump below one is replaced by
the default. -/
def TxPoolConfig.sanitize (config : TxPoolConfig) : TxPoolConfig :=
  let conf := if config.PriceLimit < 1 then { config with PriceLimit := DefaultTxPoolConfig.PriceLimit } else config
  if conf.PriceBump < 1 then { conf with PriceBump := DefaultTxPoolConfig.PriceBump } else conf

/-- The errors of the pool. -/
inductive TxPoolError
  | invalidSender
  | nonceTooLow
  | underpriced
  | replaceUnderpriced
  | insufficientFunds
  | intrinsicGas
  | gasLimit
  | negativeValue
  | oversizedData
  /-- `fmt.Errorf("known transaction: %x", hash)` -/
  | known (hash : State.Hash)
  /-- the error of the state function -/
  | state
  deriving DecidableEq, Repr

/-- A hash as `%x` prints it: 64 lowercase hex digits. -/
def hexHash (hash : State.Hash) : String :=
  let digits := Nat.toDigits 16 hash.toNat
  String.ofList (List.replicate (64 - digits.length) '0' ++ digits)

/-- The error texts. -/
def TxPoolError.text : TxPoolError → String
  | .invalidSender => "invalid sender"
  | .nonceTooLow => "nonce too low"
  | .underpriced => "transaction underpriced"
  | .replaceUnderpriced => "replacement transaction underpriced"
  | .insufficientFunds => "insufficient funds for gas * price + value"
  | .intrinsicGas => "intrinsic gas too low"
  | .gasLimit => "exceeds block gas limit"
  | .negativeValue => "negative value"
  | .oversizedData => "oversized data"
  | .known hash => "known transaction: " ++ hexHash hash
  | .state => "state unavailable"

/-- What the pool reads of a state: accounts' nonces and balances. -/
structure AccountReader where
  GetNonce : Address → UInt64
  GetBalance : Address → Nat

/-- What the pool reads of the chain: the state at the head (`stateFn`,
`none` where it fails) and the head's gas limit (`gasLimit()`). -/
structure Chain where
  currentState : Option AccountReader
  gasLimit : Nat

/-- `state.ManagedState`, as the pool uses it: the nonces set on it, over the
state it was made from. -/
structure ManagedState where
  StateDB : AccountReader
  accounts : AList fun _ : Address => UInt64

/-- `state.ManageState`. -/
def ManageState (statedb : AccountReader) : ManagedState := ⟨statedb, ∅⟩

/-- `ManagedState.GetNonce`. -/
def ManagedState.GetNonce (ms : ManagedState) (addr : Address) : UInt64 :=
  (ms.accounts.lookup addr).getD (ms.StateDB.GetNonce addr)

/-- `ManagedState.SetNonce`. -/
def ManagedState.SetNonce (ms : ManagedState) (addr : Address) (nonce : UInt64) : ManagedState :=
  { ms with accounts := ms.accounts.insert addr nonce }

/-- `TxPool`, with the fields the modelled methods use. -/
structure TxPool where
  config : TxPoolConfig
  pendingState : ManagedState
  gasPrice : Nat
  locals : TxSet
  pending : AList fun _ : Address => TxList
  queue : AList fun _ : Address => TxList
  beats : AList fun _ : Address => Nat
  all : TxLookup
  priced : TxPricedList
  homestead : Bool

namespace TxPool

/-! ## Single transactions -/

/-- `TxPool.validateTx`, returning the sender it recovers. -/
def validateTx (pool : TxPool) (chain : Chain) (tx : Transaction) : Except TxPoolError Address := do
  let isLocal := pool.locals.contains tx.Hash
  if !isLocal && tx.GasPrice < pool.gasPrice then throw .underpriced
  let some currentState := chain.currentState | throw .state
  let some sender := tx.From | throw .invalidSender
  if tx.Nonce < currentState.GetNonce sender then throw .nonceTooLow
  if chain.gasLimit < tx.Gas then throw .gasLimit
  if tx.Value < 0 then throw .negativeValue
  if (currentState.GetBalance sender : Int) < tx.Cost then throw .insufficientFunds
  if tx.Gas < IntrinsicGas tx.Data tx.To.isNone pool.homestead then throw .intrinsicGas
  if 32 * 1024 < tx.Size then throw .oversizedData
  return sender

/-- `delete(pool.all, hash)` and then `pool.priced.Removed()`, which may
rebuild the heap from what is left in `all`. -/
def removeFromAll (pool : TxPool) (hash : State.Hash) : TxPool :=
  let all := pool.all.erase hash
  { pool with all := all, priced := pool.priced.Removed all }

/-- `pool.all[hash] = tx` and then `pool.priced.Put(tx)`. -/
def putToAll (pool : TxPool) (hash : State.Hash) (tx : Transaction) : TxPool :=
  { pool with all := pool.all.insert hash tx, priced := pool.priced.Put tx }

/-- The sender of a transaction already validated, `from, _ :=
types.Sender(...)`: the zero address where it does not recover. -/
def senderOf (tx : Transaction) : Address := tx.From.getD 0

/-- `TxPool.enqueueTx`: put `tx` in its sender's queue, making one if there
is none; whether it replaced a transaction. -/
def enqueueTx (pool : TxPool) (hash : State.Hash) (tx : Transaction) : TxPool × Except TxPoolError Bool :=
  let sender := senderOf tx
  let list := (pool.queue.lookup sender).getD (newTxList false)
  let (inserted, old, list') := list.Add tx pool.config.PriceBump
  if !inserted then ({ pool with queue := pool.queue.insert sender list }, .error .replaceUnderpriced)
  else
    let pool := { pool with queue := pool.queue.insert sender list' }
    let pool := match old with
      | some old => pool.removeFromAll old.Hash
      | none => pool
    (pool.putToAll hash tx, .ok old.isSome)

/-- `TxPool.promoteTx`: put `tx` in `addr`'s pending list, making one if there
is none, and raise the pending nonce past it. -/
def promoteTx (pool : TxPool) (addr : Address) (hash : State.Hash) (tx : Transaction) (now : Nat) : TxPool :=
  let list := (pool.pending.lookup addr).getD (newTxList true)
  let pool := { pool with pending := pool.pending.insert addr list }
  let (inserted, old, list') := list.Add tx pool.config.PriceBump
  if !inserted then pool.removeFromAll hash
  else
    let pool := { pool with pending := pool.pending.insert addr list' }
    let pool := match old with
      | some old => pool.removeFromAll old.Hash
      | none => pool
    -- the failsafe for transactions put straight into pending
    let pool := if (pool.all.lookup hash).isNone then pool.putToAll hash tx else pool
    { pool with beats := pool.beats.insert addr now, pendingState := pool.pendingState.SetNonce addr (tx.Nonce + 1) }

/-- Lower the pending nonce of `addr` to `nonce` if it is above. -/
def lowerNonce (pool : TxPool) (addr : Address) (nonce : UInt64) : TxPool :=
  if nonce < pool.pendingState.GetNonce addr then { pool with pendingState := pool.pendingState.SetNonce addr nonce }
  else pool

/-- `TxPool.removeTx`: remove the transaction from `all` and from its
sender's pending list, queueing the transactions above it again unless the
list is left empty; failing that, from the sender's queue. Both lists remove
by nonce. -/
def removeTx (pool : TxPool) (hash : State.Hash) : TxPool :=
  match pool.all.lookup hash with
  | none => pool
  | some tx =>
    let addr := senderOf tx
    let pool := pool.removeFromAll hash
    -- the transaction is in the future queue
    let fromQueue : TxPool :=
      match pool.queue.lookup addr with
      | some future =>
        let (_, _, future') := future.Remove tx
        if future'.Empty then { pool with queue := pool.queue.erase addr }
        else { pool with queue := pool.queue.insert addr future' }
      | none => pool
    match pool.pending.lookup addr with
    | some pending =>
      let (removed, invalids, pending') := pending.Remove tx
      if removed then
        let pool :=
          if pending'.Empty then { pool with pending := pool.pending.erase addr, beats := pool.beats.erase addr }
          else invalids.foldl (fun pool tx => (pool.enqueueTx tx.Hash tx).1)
            { pool with pending := pool.pending.insert addr pending' }
        pool.lowerNonce addr tx.Nonce
      else fromQueue
    | none => fromQueue

/-- `TxPool.add`: validate `tx`, make room in a full pool, and put it over a
pending transaction of its nonce or else in the queue; whether it replaced a
transaction. -/
def add (pool : TxPool) (chain : Chain) (tx : Transaction) : TxPool × Except TxPoolError Bool :=
  let hash := tx.Hash
  if (pool.all.lookup hash).isSome then (pool, .error (.known hash))
  else match pool.validateTx chain tx with
  | .error e => (pool, .error e)
  | .ok sender =>
    -- a full pool makes room by discarding its cheapest remote transactions
    let room : TxPool × Bool :=
      if pool.config.GlobalSlots + pool.config.GlobalQueue ≤ UInt64.ofNat pool.all.entries.length then
        let (underpriced, priced) := pool.priced.Underpriced pool.all tx pool.locals
        if underpriced then ({ pool with priced := priced }, true)
        else
          let count := (pool.all.entries.length : Int) -
            (pool.config.GlobalSlots + pool.config.GlobalQueue - 1).toInt64.toInt
          let (drop, priced) := priced.Discard pool.all count pool.locals
          (drop.foldl (fun pool tx => pool.removeTx tx.Hash) { pool with priced := priced }, false)
      else (pool, false)
    if room.2 then (room.1, .error .underpriced)
    else
      let pool := room.1
      match pool.pending.lookup sender with
      | some list =>
        if list.Overlaps tx then
          let (inserted, old, list') := list.Add tx pool.config.PriceBump
          if !inserted then (pool, .error .replaceUnderpriced)
          else
            let pool := { pool with pending := pool.pending.insert sender list' }
            let pool := match old with
              | some old => pool.removeFromAll old.Hash
              | none => pool
            (pool.putToAll tx.Hash tx, .ok old.isSome)
        else pool.enqueueTx hash tx
      | none => pool.enqueueTx hash tx

/-! ## Promotion and demotion -/

/-- One account of `promoteExecutables`: drop from its queue what is below
the state's nonce and what the balance or the gas limit does not cover,
promote the run that is ready at the pending nonce, and cap the queue at
`AccountQueue`; `queued` counts what stays queued. -/
def promoteAccount (st : AccountReader) (gaslimit now : Nat) (acc : TxPool × UInt64) (addr : Address) :
    TxPool × UInt64 :=
  let (pool, queued) := acc
  match pool.queue.lookup addr with
  -- just in case someone calls with a non existing account
  | none => (pool, queued)
  | some list =>
    let (olds, list) := list.Forward (st.GetNonce addr)
    let pool := olds.foldl (fun pool tx => pool.removeFromAll tx.Hash) pool
    let (drops, _, list) := list.Filter (st.GetBalance addr) gaslimit
    let pool := drops.foldl (fun pool tx => pool.removeFromAll tx.Hash) pool
    let (ready, list) := list.Ready (pool.pendingState.GetNonce addr)
    let pool := ready.foldl (fun pool tx => pool.promoteTx addr tx.Hash tx now) pool
    let (capped, list) := list.Cap pool.config.AccountQueue.toNat
    let pool := capped.foldl (fun pool tx => pool.removeFromAll tx.Hash) pool
    let queued := queued + UInt64.ofNat list.Len
    (if list.Empty then { pool with queue := pool.queue.erase addr }
      else { pool with queue := pool.queue.insert addr list }, queued)

/-- The number of pending transactions. -/
def pendingCount (pool : TxPool) : UInt64 :=
  pool.pending.entries.foldl (fun pending e => pending + UInt64.ofNat e.2.Len) 0

/-- The spam order: the accounts with more than `AccountSlots` pending
transactions whose first transaction is remote, most transactions first. The
source looks at one transaction of the map, in its order; the model looks at
the lowest nonce. -/
def spammers (pool : TxPool) : List Address :=
  let pushed := pool.pending.entries.filterMap fun e =>
    if pool.config.AccountSlots < UInt64.ofNat e.2.Len then
      match e.2.txs.items with
      | tx :: _ => if pool.locals.contains tx.Hash then none else some (e.1, e.2.Len)
      | [] => none
    else none
  (pushed.insertionSort fun a b => b.2 ≤ a.2).map Prod.fst

/-- `list.Cap(list.Len()-1)` on the pending list of `addr`, each dropped
transaction removed from the pool with the pending nonce lowered to it; `none`
where the source panics: there is no list, or it is empty and `Cap(-1)`
slices out of range. -/
def capPendingByOne (pool : TxPool) (addr : Address) : Option TxPool :=
  match pool.pending.lookup addr with
  | none => none
  | some list =>
    if list.Len = 0 then none
    else
      let (drops, list) := list.Cap (list.Len - 1)
      some (drops.foldl (fun pool tx => (pool.removeFromAll tx.Hash).lowerNonce addr tx.Nonce)
        { pool with pending := pool.pending.insert addr list })

/-- One round of the fairness loops: cap each of `offenders` by one, and count
each off `pending`. -/
def capRound (offenders : List Address) (pool : TxPool) (pending : UInt64) : Option (TxPool × UInt64) :=
  offenders.foldlM (fun acc addr => (acc.1.capPendingByOne addr).map fun pool => (pool, acc.2 - 1)) (pool, pending)

/-- The loops `for pending > GlobalSlots && pending[prev].Len() > threshold`
of rounds of `offenders`. Each round shortens the list of `prev`, one of the
offenders, so its length is fuel enough. -/
def equalize (globalSlots : UInt64) (offenders : List Address) (prev : Address) (threshold : Nat) :
    Nat → TxPool → UInt64 → Option (TxPool × UInt64)
  | 0, pool, pending => some (pool, pending)
  | fuel + 1, pool, pending =>
    if globalSlots < pending then
      match pool.pending.lookup prev with
      | none => none
      | some list =>
        if threshold < list.Len then
          (capRound offenders pool pending).bind fun (pool, pending) =>
            equalize globalSlots offenders prev threshold fuel pool pending
        else some (pool, pending)
    else some (pool, pending)

/-- The length of `addr`'s pending list. -/
def pendingLen (pool : TxPool) (addr : Address) : Nat := ((pool.pending.lookup addr).map TxList.Len).getD 0

/-- The loop over the spam order: each new offender sets the threshold the
ones before it are brought down to. -/
def penalize (globalSlots : UInt64) :
    List Address → List Address → TxPool → UInt64 → Option (TxPool × UInt64 × List Address)
  | [], offenders, pool, pending => some (pool, pending, offenders)
  | offender :: spammers, offenders, pool, pending =>
    if globalSlots < pending then
      match offenders.getLast? with
      | none => penalize globalSlots spammers (offenders ++ [offender]) pool pending
      | some prev =>
        match pool.pending.lookup offender with
        | none => none
        | some list =>
          (equalize globalSlots offenders prev list.Len (pool.pendingLen prev) pool pending).bind
            fun (pool, pending) => penalize globalSlots spammers (offenders ++ [offender]) pool pending
    else some (pool, pending, offenders)

/-- The accounts of the queue by heartbeat, the most recent first. -/
def byHeartbeat (pool : TxPool) : List Address :=
  ((pool.queue.keys.map fun addr => (addr, (pool.beats.lookup addr).getD 0)).insertionSort
    fun a b => a.2 ≤ b.2).reverse.map Prod.fst

/-- The loop that drops `drop` queued transactions, taking whole accounts from
the most recent heartbeat and the highest nonces of the last; `none` where the
source runs out of accounts, `addresses[len(addresses)-1]`. -/
def dropQueued : List Address → UInt64 → TxPool → Option TxPool
  | addresses, drop, pool =>
    if drop = 0 then some pool
    else match addresses with
    | [] => none
    | addr :: addresses =>
      match pool.queue.lookup addr with
      | none => none
      | some list =>
        if UInt64.ofNat list.Len ≤ drop then
          dropQueued addresses (drop - UInt64.ofNat list.Len)
            (list.Flatten.foldl (fun pool tx => pool.removeTx tx.Hash) pool)
        else
          let r := list.Flatten.reverse.foldl (fun (acc : TxPool × UInt64) tx =>
            if 0 < acc.2 then (acc.1.removeTx tx.Hash, acc.2 - 1) else acc) (pool, drop)
          dropQueued addresses r.2 r.1

/-- `TxPool.promoteExecutables` over `accounts`, all the queued accounts
where it is `nil`: promote each account, then cap the pending transactions at
`GlobalSlots`, taking from the largest remote accounts first and evening them
out, and the queued ones at `GlobalQueue`. -/
def promoteExecutables (pool : TxPool) (st : AccountReader) (gaslimit : Nat) (accounts : Option (List Address))
    (now : Nat) : Option TxPool := do
  let accounts := accounts.getD pool.queue.keys
  let (pool, queued) := accounts.foldl (promoteAccount st gaslimit now) (pool, 0)
  let globalSlots := pool.config.GlobalSlots
  let pool ←
    if globalSlots < pool.pendingCount then do
      let (pool, pending, offenders) ← penalize globalSlots pool.spammers [] pool pool.pendingCount
      match offenders.getLast? with
      | some last =>
        if globalSlots < pending then
          let (pool, _) ← equalize globalSlots offenders last pool.config.AccountSlots.toNat
            (pool.pendingLen last) pool pending
          pure pool
        else pure pool
      | none => pure pool
    else pure pool
  if pool.config.GlobalQueue < queued then dropQueued pool.byHeartbeat (queued - pool.config.GlobalQueue) pool
  else pure pool

/-- One account of `demoteUnexecutables`: drop from its pending list what is
below the state's nonce and what the balance or the gas limit does not cover,
and queue again what that leaves without its predecessor. -/
def demoteAccount (st : AccountReader) (gaslimit : Nat) (pool : TxPool) (addr : Address) (list : TxList) :
    TxPool :=
  let (olds, list) := list.Forward (st.GetNonce addr)
  let pool := olds.foldl (fun pool tx => pool.removeFromAll tx.Hash) pool
  let (drops, invalids, list) := list.Filter (st.GetBalance addr) gaslimit
  let pool := drops.foldl (fun pool tx => pool.removeFromAll tx.Hash) pool
  let pool := { pool with pending := pool.pending.insert addr list }
  let pool := invalids.foldl (fun pool tx => (pool.enqueueTx tx.Hash tx).1) pool
  if list.Empty then { pool with pending := pool.pending.erase addr, beats := pool.beats.erase addr }
  else pool

/-- `TxPool.demoteUnexecutables`. -/
def demoteUnexecutables (pool : TxPool) (st : AccountReader) (gaslimit : Nat) : TxPool :=
  pool.pending.entries.foldl (fun pool e => demoteAccount st gaslimit pool e.1 e.2) pool

/-- `TxPool.resetState`: a new pending state from the head's state, demotion,
the pending nonces past each pending list, and promotion of every queued
account; `none` where a pending list is empty, whose last element the source
reads. -/
def resetState (pool : TxPool) (chain : Chain) (now : Nat) : Option TxPool :=
  match chain.currentState with
  -- "Failed reset txpool state"
  | none => some pool
  | some currentState => do
    let pool := { pool with pendingState := ManageState currentState }
    let pool := pool.demoteUnexecutables currentState chain.gasLimit
    let pool ← pool.pending.entries.foldlM (fun pool e =>
      e.2.Flatten.getLast?.map fun last =>
        { pool with pendingState := pool.pendingState.SetNonce e.1 (last.Nonce + 1) }) pool
    pool.promoteExecutables currentState chain.gasLimit none now

/-! ## The pool's methods -/

/-- `TxPool.Add`: add, and promote the sender's queue unless a transaction
was replaced. -/
def Add (pool : TxPool) (chain : Chain) (tx : Transaction) (now : Nat) :
    Option (TxPool × Except TxPoolError Unit) :=
  let (pool, r) := pool.add chain tx
  match r with
  | .error e => some (pool, .error e)
  | .ok true => some (pool, .ok ())
  | .ok false =>
    match chain.currentState with
    | none => some (pool, .error .state)
    | some st => (pool.promoteExecutables st chain.gasLimit (some [senderOf tx]) now).map (·, .ok ())

/-- `TxPool.AddBatch`: add each, and promote the senders of those that went in
without replacing a transaction. -/
def AddBatch (pool : TxPool) (chain : Chain) (txs : List Transaction) (now : Nat) :
    Option (TxPool × Except TxPoolError Unit) :=
  let (pool, dirty) := txs.foldl (fun (acc : TxPool × List Address) tx =>
    let (pool, r) := acc.1.add chain tx
    match r with
    | .ok false => (pool, acc.2.insert (senderOf tx))
    | _ => (pool, acc.2)) (pool, [])
  if dirty.isEmpty then some (pool, .ok ())
  else match chain.currentState with
    | none => some (pool, .error .state)
    | some st => (pool.promoteExecutables st chain.gasLimit (some dirty) now).map (·, .ok ())

/-- `TxPool.RemoveBatch`. -/
def RemoveBatch (pool : TxPool) (txs : List Transaction) : TxPool :=
  txs.foldl (fun pool tx => pool.removeTx tx.Hash) pool

/-- `TxPool.SetGasPrice`: the new minimum, and the remote transactions below
it removed. -/
def SetGasPrice (pool : TxPool) (price : Nat) : TxPool :=
  let (drop, priced) := pool.priced.Cap pool.all price pool.locals
  drop.foldl (fun pool tx => pool.removeTx tx.Hash) { pool with gasPrice := price, priced := priced }

/-- `TxPool.SetLocal`. -/
def SetLocal (pool : TxPool) (tx : Transaction) (now : Nat) : TxPool :=
  { pool with locals := pool.locals.add tx.Hash now }

/-- A tick of `expirationLoop`: remove the queued transactions of every
account not heard from for longer than `Lifetime`; an account never heard from
has the zero time, the longest ago. -/
def expire (pool : TxPool) (now : Nat) : TxPool :=
  pool.queue.entries.foldl (fun pool e =>
    let stale := match pool.beats.lookup e.1 with
      | none => true
      | some beat => (pool.config.Lifetime : Int) < (now : Int) - beat
    if stale then e.2.Flatten.foldl (fun pool tx => pool.removeTx tx.Hash) pool else pool) pool

/-- `NewTxPool` over a chain whose state function works: an empty pool at the
price limit, reset to the head. -/
def NewTxPool (config : TxPoolConfig) (chain : Chain) (now : Nat) : Option TxPool :=
  let config := config.sanitize
  match chain.currentState with
  | none => none
  | some st =>
    TxPool.resetState ⟨config, ManageState st, config.PriceLimit.toNat, newTxSet, ∅, ∅, ∅, ∅,
      newTxPricedList, false⟩ chain now

/-! ## Runs -/

/-- The events of a run: the methods, a new head of the chain (past Homestead
or not), transactions dropped from the chain by a reorganisation, and a tick
of the expiration loop. -/
inductive Event
  | Add (tx : Transaction)
  | AddBatch (txs : List Transaction)
  | Remove (hash : State.Hash)
  | RemoveBatch (txs : List Transaction)
  | SetGasPrice (price : Nat)
  | SetLocal (tx : Transaction)
  | chainHead (homestead : Bool)
  | removedTransactions (txs : List Transaction)
  | evict

/-- When an event happens: the chain as the pool then reads it, and the
time. -/
structure Env where
  chain : Chain
  now : Nat

/-- One event, under the pool's lock. -/
def step : Env × Event → TxPool → Option TxPool
  | (env, .Add tx), pool => (pool.Add env.chain tx env.now).map Prod.fst
  | (env, .AddBatch txs), pool => (pool.AddBatch env.chain txs env.now).map Prod.fst
  | (_, .Remove hash), pool => some (pool.removeTx hash)
  | (_, .RemoveBatch txs), pool => some (pool.RemoveBatch txs)
  | (_, .SetGasPrice price), pool => some (pool.SetGasPrice price)
  | (env, .SetLocal tx), pool => some (pool.SetLocal tx env.now)
  | (env, .chainHead homestead), pool =>
    { pool with homestead := pool.homestead || homestead }.resetState env.chain env.now
  | (env, .removedTransactions txs), pool => (pool.AddBatch env.chain txs env.now).map Prod.fst
  | (env, .evict), pool => some (pool.expire env.now)

/-! ## The indexes -/

/-- Nonces run up by one along the list. -/
def consecutive : List Transaction → Bool
  | a :: b :: l => b.Nonce == a.Nonce + 1 && consecutive (b :: l)
  | _ => true

/-- The bookkeeping the pool is to keep: `all` holds each transaction under
its hash, and its transactions are those of the pending and queued lists;
each list holds transactions of its own account; no nonce of an account is
both pending and queued; and an account's pending nonces run without gaps. -/
@[mk_iff] structure Bookkeeping (pool : TxPool) : Prop where
  keyed : ∀ e ∈ pool.all.entries, e.2.Hash = e.1
  listed : ∀ tx ∈ pool.all.txs, ∃ e ∈ pool.pending.entries ++ pool.queue.entries, tx ∈ e.2.Flatten
  indexed : ∀ e ∈ pool.pending.entries ++ pool.queue.entries, ∀ tx ∈ e.2.Flatten,
    pool.all.lookup tx.Hash = some tx
  filed : ∀ e ∈ pool.pending.entries ++ pool.queue.entries, ∀ tx ∈ e.2.Flatten, tx.From = some e.1
  apart : ∀ e ∈ pool.pending.entries, ∀ tx ∈ e.2.Flatten,
    ((pool.queue.lookup e.1).map fun q => q.Overlaps tx) ≠ some true
  contiguous : ∀ e ∈ pool.pending.entries, consecutive e.2.Flatten = true

instance (pool : TxPool) : Decidable (Bookkeeping pool) :=
  decidable_of_iff _ (bookkeeping_iff pool).symm

/-- The price index mirrors the pool: each of its transactions has exactly
one live entry in the heap, and `stales` counts the stale entries. -/
@[mk_iff] structure PriceIndexed (pool : TxPool) : Prop where
  once : ∀ tx ∈ pool.all.txs, (pool.priced.items.filter pool.all.live).count tx = 1
  stales : pool.priced.stales = ((pool.priced.items.filter fun tx => !pool.all.live tx).length : Int)

instance (pool : TxPool) : Decidable (PriceIndexed pool) :=
  decidable_of_iff _ (priceIndexed_iff pool).symm

@[simp] theorem removeFromAll_all (pool : TxPool) (hash : State.Hash) :
    (pool.removeFromAll hash).all = pool.all.erase hash := rfl

@[simp] theorem removeFromAll_pending (pool : TxPool) (hash : State.Hash) :
    (pool.removeFromAll hash).pending = pool.pending := rfl

@[simp] theorem removeFromAll_queue (pool : TxPool) (hash : State.Hash) :
    (pool.removeFromAll hash).queue = pool.queue := rfl

@[simp] theorem lowerNonce_all (pool : TxPool) (addr : Address) (nonce : UInt64) :
    (pool.lowerNonce addr nonce).all = pool.all := by
  unfold lowerNonce
  split <;> rfl

@[simp] theorem lowerNonce_pending (pool : TxPool) (addr : Address) (nonce : UInt64) :
    (pool.lowerNonce addr nonce).pending = pool.pending := by
  unfold lowerNonce
  split <;> rfl

@[simp] theorem lowerNonce_queue (pool : TxPool) (addr : Address) (nonce : UInt64) :
    (pool.lowerNonce addr nonce).queue = pool.queue := by
  unfold lowerNonce
  split <;> rfl

/-- Removing the lowest transaction of a pending list removes it from `all`
and deletes the list, and leaves the queue as it was: the transactions above
it keep their place in `all` and lose the one in the lists. -/
theorem removeTx_lowest_pending {pool : TxPool} {addr : Address} {l : TxList} {tx : Transaction}
    {rest : List Transaction} (hall : pool.all.lookup tx.Hash = some tx) (hfrom : tx.From = some addr)
    (hl : pool.pending.lookup addr = some l) (hstrict : l.strict = true) (htx : l.Flatten = tx :: rest) :
    (pool.removeTx tx.Hash).all = pool.all.erase tx.Hash ∧
    (pool.removeTx tx.Hash).pending = pool.pending.erase addr ∧
    (pool.removeTx tx.Hash).queue = pool.queue := by
  obtain ⟨hremoved, hinvalids, hleft⟩ := TxList.Remove_lowest hstrict htx
  have hremove : l.Remove tx = (true, rest, (l.Remove tx).2.2) := by
    rw [← hremoved, ← hinvalids]
  have hempty : (l.Remove tx).2.2.Empty = true := by
    unfold TxList.Empty TxList.Len TxSortedMap.Len
    rw [show (l.Remove tx).2.2.txs.items = [] from hleft]
    rfl
  have hsender : senderOf tx = addr := by simp [senderOf, hfrom]
  have hl' : pool.pending.lookup (senderOf tx) = some l := hsender ▸ hl
  unfold removeTx
  simp only [hall, removeFromAll_pending, hl']
  rw [hremove]
  simp only [↓reduceIte, hempty, hsender, lowerNonce_all, lowerNonce_pending, lowerNonce_queue, removeFromAll_all,
    removeFromAll_queue, and_self]

/-- From every state with the bookkeeping and a pending list of two or more
transactions, removing the lowest breaks the bookkeeping: the next one stays
in `all` and is in no list. -/
theorem removeTx_strands_pending {pool : TxPool} {addr : Address} {l : TxList} {tx u : Transaction}
    {rest : List Transaction} (h : Bookkeeping pool) (hl : pool.pending.lookup addr = some l)
    (hstrict : l.strict = true) (htx : l.Flatten = tx :: u :: rest) :
    ¬ Bookkeeping (pool.removeTx tx.Hash) := by
  have hentry : (⟨addr, l⟩ : Sigma fun _ : Address => TxList) ∈ pool.pending.entries :=
    AList.mem_lookup_iff.mp hl
  have hentry' := List.mem_append_left pool.queue.entries hentry
  have htx_mem : tx ∈ l.Flatten := by
    rw [htx]
    exact List.mem_cons_self
  have hu_mem : u ∈ l.Flatten := by
    rw [htx]
    exact List.mem_cons_of_mem _ List.mem_cons_self
  have htx_all := h.indexed _ hentry' tx htx_mem
  have hu_all := h.indexed _ hentry' u hu_mem
  have hu_from : u.From = some addr := h.filed _ hentry' u hu_mem
  -- `u` is above `tx` in the list, so it is another transaction, with another hash
  have hlt : tx.Nonce < u.Nonce := by
    have hsorted := l.txs.sorted
    rw [show l.txs.items = tx :: u :: rest from htx] at hsorted
    exact (List.pairwise_cons.mp hsorted).1 u List.mem_cons_self
  have hhash : u.Hash ≠ tx.Hash := by
    intro heq
    rw [heq, htx_all] at hu_all
    exact UInt64.ne_of_lt hlt (congrArg Transaction.Nonce (Option.some.inj hu_all))
  obtain ⟨hall', hpend', hqueue'⟩ :=
    removeTx_lowest_pending htx_all (h.filed _ hentry' tx htx_mem) hl hstrict htx
  intro h'
  have hu' : u ∈ (pool.removeTx tx.Hash).all.txs := by
    rw [hall']
    exact TxLookup.mem_txs_of_lookup (by rw [AList.lookup_erase_ne hhash]; exact hu_all)
  obtain ⟨e, he, hue⟩ := h'.listed u hu'
  rw [hpend', hqueue'] at he
  rcases List.mem_append.mp he with hep | heq
  · -- a pending list left is another account's, which does not hold `u`
    obtain ⟨hne, hep⟩ := mem_entries_erase hep
    have hfiled := h.filed e (List.mem_append_left _ hep) u hue
    rw [hu_from] at hfiled
    exact hne (Option.some.inj hfiled).symm
  · -- the queue of `u`'s account shares no nonce with its pending list
    have hfiled := h.filed e (List.mem_append_right _ heq) u hue
    rw [hu_from] at hfiled
    have hq : pool.queue.lookup e.1 = some e.2 := AList.mem_lookup_iff.mpr heq
    rw [← Option.some.inj hfiled] at hq
    have happart := h.apart _ hentry u hu_mem
    simp only [hq, Option.map_some, TxList.Overlaps_of_mem hue] at happart
    exact happart rfl

/-- `SetGasPrice` at a price no entry of the heap is below pops the stale
entries on top and the first live one, and removes nothing from the pool. -/
theorem setGasPrice_first_live {pool : TxPool} {price : Nat} {stale rest : List Transaction}
    {tx : Transaction} (hitems : pool.priced.items = stale ++ tx :: rest)
    (hstale : ∀ u ∈ stale, pool.all.live u = false) (hlive : pool.all.live tx = true)
    (hprice : price ≤ tx.GasPrice) :
    (pool.SetGasPrice price).all = pool.all ∧ (pool.SetGasPrice price).priced.items = rest ∧
      (pool.SetGasPrice price).priced.stales = pool.priced.stales - stale.length := by
  have hloop : capLoop pool.all price pool.locals pool.priced.items pool.priced.stales [] [] =
      ⟨[], [], pool.priced.stales - stale.length, rest⟩ := by
    rw [hitems, capLoop_stale_append pool.all price pool.locals hstale,
      capLoop_stop pool.all pool.locals hlive hprice]
  have hcap : pool.priced.Cap pool.all price pool.locals = ([], (pool.priced.Cap pool.all price pool.locals).2) :=
    Prod.ext (by rw [TxPricedList.Cap_fst_eq, hloop]) rfl
  unfold SetGasPrice
  rw [hcap]
  refine ⟨rfl, ?_, ?_⟩
  · show (pool.priced.Cap pool.all price pool.locals).2.items = rest
    rw [TxPricedList.Cap_items, hloop]
    rfl
  · show (pool.priced.Cap pool.all price pool.locals).2.stales = _
    rw [TxPricedList.Cap_stales, hloop]

/-- From every state where the price index mirrors a non-empty pool, a
`SetGasPrice` that removes nothing breaks it: the cheapest live transaction
loses its entry in the heap, and `Discard` can no longer return it. -/
theorem setGasPrice_drops_price_entry {pool : TxPool} {price : Nat} (h : PriceIndexed pool)
    (hentries : ∀ x ∈ pool.priced.items, pool.all.live x = true → pool.all.lookup x.Hash = some x)
    (hprice : ∀ x ∈ pool.priced.items, price ≤ x.GasPrice) (hne : pool.all.entries ≠ []) :
    ¬ PriceIndexed (pool.SetGasPrice price) ∧
    ∃ tx ∈ (pool.SetGasPrice price).all.txs, ∀ (count : Int) (locals : TxSet),
      tx ∉ ((pool.SetGasPrice price).priced.Discard (pool.SetGasPrice price).all count locals).1 := by
  -- a transaction of the pool has its live entry, so the heap has a first one
  obtain ⟨e, he⟩ := List.exists_mem_of_ne_nil _ hne
  have hcount := h.once e.2 (List.mem_map_of_mem he)
  have hsome : ∃ x ∈ pool.priced.items, pool.all.live x = true := by
    have hmem := List.count_pos_iff.mp (by omega : 0 < (pool.priced.items.filter pool.all.live).count e.2)
    exact ⟨e.2, (List.mem_filter.mp hmem).1, (List.mem_filter.mp hmem).2⟩
  obtain ⟨tx, hfind⟩ := Option.isSome_iff_exists.mp (List.find?_isSome.mpr hsome)
  obtain ⟨hlive, stale, rest, hitems, hstale⟩ := List.find?_eq_some_iff_append.mp hfind
  have hstale' : ∀ u ∈ stale, pool.all.live u = false := fun u hu => by simpa using hstale u hu
  have htx_mem : tx ∈ pool.priced.items := by
    rw [hitems]
    exact List.mem_append_right _ List.mem_cons_self
  obtain ⟨hall, hitems', -⟩ := setGasPrice_first_live hitems hstale' hlive (hprice tx htx_mem)
  have htx_all : tx ∈ pool.all.txs := TxLookup.mem_txs_of_lookup (hentries tx htx_mem hlive)
  -- its one live entry was the one popped
  have hrest : tx ∉ rest.filter pool.all.live := by
    have hone := h.once tx htx_all
    rw [hitems, List.filter_append, List.filter_cons_of_pos hlive,
      List.filter_eq_nil_iff.mpr (fun u hu => by simp [hstale' u hu]), List.nil_append, List.count_cons_self] at hone
    exact List.count_eq_zero.mp (by omega)
  refine ⟨fun h' => ?_, tx, by rw [hall]; exact htx_all, fun count locals hmem => ?_⟩
  · have hone := h'.once tx (by rw [hall]; exact htx_all)
    rw [hall, hitems', List.count_eq_zero.mpr hrest] at hone
    exact absurd hone (by decide)
  · have hheap := TxPricedList.mem_Discard hmem
    rw [hitems'] at hheap
    exact hrest (List.mem_filter.mpr ⟨hheap, by rw [← hall]; exact hall ▸ hlive⟩)

/-- `enqueueTx` of a transaction at a nonce its queue does not hold puts it in
`all` and pushes it into the heap. -/
theorem enqueueTx_fresh {pool : TxPool} {tx : Transaction}
    (hq : ((pool.queue.lookup (senderOf tx)).map fun q => q.Overlaps tx) ≠ some true) :
    (pool.enqueueTx tx.Hash tx).1.all = pool.all.insert tx.Hash tx ∧
      (pool.enqueueTx tx.Hash tx).1.priced.items = pool.priced.items.orderedInsert PriceLE tx := by
  have hget : ((pool.queue.lookup (senderOf tx)).getD (newTxList false)).txs.Get tx.Nonce = none := by
    cases hl : pool.queue.lookup (senderOf tx) with
    | none => rfl
    | some q =>
      rw [hl, Option.map_some, ne_eq, Option.some.injEq, Bool.not_eq_true] at hq
      simpa [TxList.Overlaps] using hq
  unfold enqueueTx
  simp only [TxList.Add, hget]
  exact ⟨rfl, rfl⟩

/-- **Re-queueing a pooled transaction duplicates its price entry.**
`removeTx` and `demoteUnexecutables` move pending transactions back to the
queue through `enqueueTx`, which pushes them into the heap again. From every
state where the price index mirrors the pool, `enqueueTx` of one of the pool's
transactions at a nonce its queue does not hold leaves it two live entries in
the heap, and the index no longer holds. -/
theorem enqueueTx_duplicates_price_entry {pool : TxPool} {tx : Transaction} (h : PriceIndexed pool)
    (hall : pool.all.lookup tx.Hash = some tx)
    (hq : ((pool.queue.lookup (senderOf tx)).map fun q => q.Overlaps tx) ≠ some true) :
    ((pool.enqueueTx tx.Hash tx).1.priced.items.filter (pool.enqueueTx tx.Hash tx).1.all.live).count tx = 2 ∧
      ¬ PriceIndexed (pool.enqueueTx tx.Hash tx).1 := by
  obtain ⟨hall', hitems'⟩ := enqueueTx_fresh hq
  -- the transaction was in `all` already, so the same transactions are live
  have hlive : (pool.enqueueTx tx.Hash tx).1.all.live = pool.all.live := by
    funext x
    rw [hall']
    unfold TxLookup.live
    by_cases hx : x.Hash = tx.Hash
    · rw [hx, AList.lookup_insert, hall]
    · rw [AList.lookup_insert_ne hx]
  have htx : pool.all.live tx = true := by simp [TxLookup.live, hall]
  -- the pushed entry and the one it had
  have hcount : ((pool.enqueueTx tx.Hash tx).1.priced.items.filter
      (pool.enqueueTx tx.Hash tx).1.all.live).count tx = 2 := by
    rw [hitems', hlive, ((List.perm_orderedInsert PriceLE tx _).filter _).count_eq,
      List.filter_cons_of_pos htx, List.count_cons_self, h.once tx (TxLookup.mem_txs_of_lookup hall)]
  refine ⟨hcount, fun h' => ?_⟩
  have hone := h'.once tx (by rw [hall']; exact TxLookup.mem_txs_of_lookup (AList.lookup_insert _))
  omega

/-! ## Runs that reach the two failures -/

/-- A head at which every account has nonce 0 and funds, with room for a
transfer. -/
def fundedChain : Chain := ⟨some ⟨fun _ => 0, fun _ => 1000000000⟩, 8000000⟩

/-- A transfer of account 1 at `nonce`. -/
def transfer (hash : State.Hash) (nonce : UInt64) (price : Nat) : Transaction :=
  ⟨hash, some 1, nonce, price, 21000, 0, some 2, [], 100⟩

/-- Two transfers of one account at nonces 0 and 1 go into its pending list,
with the bookkeeping kept; removing the first then strands the second. -/
theorem removeTx_strands_pending_two_transfers :
    ∃ pool l, (NewTxPool DefaultTxPoolConfig fundedChain 0).bind
        (Run.run step [(⟨fundedChain, 0⟩, .Add (transfer 10 0 5)), (⟨fundedChain, 0⟩, .Add (transfer 11 1 5))]) =
          some pool ∧
      Bookkeeping pool ∧ pool.pending.lookup 1 = some l ∧ l.strict = true ∧
      l.Flatten = [transfer 10 0 5, transfer 11 1 5] ∧ ¬ Bookkeeping (pool.removeTx (transfer 10 0 5).Hash) :=
  ⟨_, _, rfl, by decide, rfl, rfl, rfl,
    @removeTx_strands_pending _ 1 _ _ (transfer 11 1 5) [] (by decide) rfl rfl rfl⟩

/-- One transfer in the pool, with the price index kept; `SetGasPrice 1`
takes its heap entry, and `Discard 1` then returns nothing though the
transfer is remote. -/
theorem setGasPrice_drops_price_entry_one_transfer :
    ∃ pool, (NewTxPool DefaultTxPoolConfig fundedChain 0).bind
        (Run.run step [(⟨fundedChain, 0⟩, .Add (transfer 10 0 5))]) = some pool ∧
      PriceIndexed pool ∧
      (∀ x ∈ pool.priced.items, pool.all.live x = true → pool.all.lookup x.Hash = some x) ∧
      (∀ x ∈ pool.priced.items, 1 ≤ x.GasPrice) ∧ pool.all.entries ≠ [] ∧
      (¬ PriceIndexed (pool.SetGasPrice 1) ∧
        ∃ tx ∈ (pool.SetGasPrice 1).all.txs, ∀ (count : Int) (locals : TxSet),
          tx ∉ ((pool.SetGasPrice 1).priced.Discard (pool.SetGasPrice 1).all count locals).1) ∧
      ((pool.SetGasPrice 1).priced.Discard (pool.SetGasPrice 1).all 1 (pool.SetGasPrice 1).locals).1 = [] ∧
      (pool.SetGasPrice 1).locals.contains (transfer 10 0 5).Hash = false :=
  ⟨_, rfl, by decide, by decide, by decide, by decide,
    setGasPrice_drops_price_entry (by decide) (by decide) (by decide) (by decide), rfl, rfl⟩

/-- Two transfers of one account go into its pending list, with the price
index kept; queueing the second again, as `removeTx` and `demoteUnexecutables`
do, gives it a second heap entry. -/
theorem enqueueTx_duplicates_price_entry_two_transfers :
    ∃ pool, (NewTxPool DefaultTxPoolConfig fundedChain 0).bind
        (Run.run step [(⟨fundedChain, 0⟩, .Add (transfer 10 0 5)), (⟨fundedChain, 0⟩, .Add (transfer 11 1 5))]) =
          some pool ∧
      PriceIndexed pool ∧ pool.all.lookup (transfer 11 1 5).Hash = some (transfer 11 1 5) ∧
      ((pool.queue.lookup (senderOf (transfer 11 1 5))).map fun q => q.Overlaps (transfer 11 1 5)) ≠ some true ∧
      ((pool.enqueueTx (transfer 11 1 5).Hash (transfer 11 1 5)).1.priced.items.filter
          (pool.enqueueTx (transfer 11 1 5).Hash (transfer 11 1 5)).1.all.live).count (transfer 11 1 5) = 2 ∧
        ¬ PriceIndexed (pool.enqueueTx (transfer 11 1 5).Hash (transfer 11 1 5)).1 :=
  ⟨_, rfl, by decide, rfl, by decide, enqueueTx_duplicates_price_entry (by decide) rfl (by decide)⟩

end TxPool

end Core

end Bazacoin
