import Bazacoin.State.Object
import Bazacoin.Lib.Outcome

/-!
# The state database (`core/state/statedb.go`)

`StateDB` caches accounts as live `stateObject`s, journals every change so
that `RevertToSnapshot` can undo it, and flushes the live objects into the
account trie in `IntermediateRoot` and `CommitTo`.

The account trie is held by reference: `Copy` gives the copy the same
`*trie.SecureTrie`. The model therefore keeps the tries in a shared `Env`
(with the database), and a `StateDB` names its trie by an index into it. A
trie is the map of accounts it holds; its root hash, like the hash of code and
the root of a storage trie, comes from `Hashing`.

Every accessor may load an account from the trie into the live set, so
accessors return the new `StateDB` along with their result.
-/

namespace Bazacoin

namespace State

/-- The account trie, as the accounts it holds. -/
abbrev AccountTrie := Address → Option Account

/-- The hashing the state layer relies on. -/
structure Hashing where
  keccak : Bytes → Hash
  accountRoot : AccountTrie → Hash
  storageRoot : StorageTrie → Hash

/-- What `StateDB`s share: the account tries they point to, and the database. -/
structure Env where
  tries : Nat → AccountTrie
  db : Database

/-- `revision`. -/
structure Revision where
  id : Nat
  journalIndex : Nat
  deriving DecidableEq, Repr

/-- `StateDB`, without its caches of code sizes and past tries, and without
its lock. -/
structure StateDB where
  trie : Nat
  stateObjects : AList (fun _ : Address => StateObject)
  stateObjectsDirty : List Address
  stateObjectsDestructed : List Address
  refund : Int
  thash : Hash
  bhash : Hash
  txIndex : Nat
  logs : AList (fun _ : Hash => List Log)
  logSize : Nat
  preimages : AList (fun _ : Hash => Bytes)
  journal : List JournalEntry
  validRevisions : List Revision
  nextRevisionId : Nat

namespace StateDB

section

variable (H : Hashing) (env : Env)

/-- `emptyCodeHash`: the hash of the empty code. -/
def emptyCodeHash : Hash := H.keccak []

/-- `Account{}` as `newObject` completes it. -/
def emptyAccount : Account := ⟨0, 0, 0, emptyCodeHash H⟩

/-- `New`: a fresh state over the account trie `trie`. -/
def New (trie : Nat) : StateDB :=
  ⟨trie, ∅, [], [], 0, 0, 0, 0, ∅, 0, ∅, [], [], 0⟩

/-- The account trie this state points to. -/
def accountTrie (s : StateDB) : AccountTrie := env.tries s.trie

def setStateObject (s : StateDB) (o : StateObject) : StateDB :=
  { s with stateObjects := s.stateObjects.insert o.address o }

def MarkStateObjectDirty (s : StateDB) (addr : Address) : StateDB :=
  { s with stateObjectsDirty := s.stateObjectsDirty.insert addr }

/-- Store an object changed by a setter; the setter fired the object's
`onDirty` callback if it was still set. -/
def putObject (s : StateDB) (before after : StateObject) : StateDB :=
  let s := s.setStateObject after
  if before.onDirty then s.MarkStateObjectDirty before.address else s

/-- Append an undo record to the journal. -/
def push (s : StateDB) (e : JournalEntry) : StateDB :=
  { s with journal := s.journal ++ [e] }

/-- `getStateObject`: the live object unless deleted; otherwise the account
is loaded from the trie into the live set. -/
def getStateObject (s : StateDB) (addr : Address) : Option StateObject × StateDB :=
  match s.stateObjects.lookup addr with
  | some obj => (if obj.deleted then none else some obj, s)
  | none =>
    match s.accountTrie env addr with
    | none => (none, s)
    | some data =>
      let obj := StateObject.newObject addr data true
      (some obj, s.setStateObject obj)

/-- `createObject`: a new empty object replaces any existing one, which is
returned as well; the journal records which of the two cases it was. -/
def createObject (s : StateDB) (addr : Address) :
    StateObject × Option StateObject × StateDB :=
  let (prev, s) := s.getStateObject env addr
  -- `setNonce(0)` fires the new object's callback, marking it dirty
  let newobj := (StateObject.newObject addr (emptyAccount H) true).setNonce 0
  let s := s.MarkStateObjectDirty addr
  let s := match prev with
    | none => s.push (.createObjectChange addr)
    | some p => s.push (.resetObjectChange p)
  (newobj, prev, s.setStateObject newobj)

/-- `GetOrNewStateObject`. -/
def GetOrNewStateObject (s : StateDB) (addr : Address) : StateObject × StateDB :=
  match s.getStateObject env addr with
  | (some o, s) =>
    if o.deleted then
      let (o, _, s) := s.createObject H env addr
      (o, s)
    else (o, s)
  | (none, s) =>
    let (o, _, s) := s.createObject H env addr
    (o, s)

/-- `CreateAccount`: a replaced account's balance is carried over. -/
def CreateAccount (s : StateDB) (addr : Address) : StateDB :=
  match s.createObject H env addr with
  | (new, some prev, s) => s.putObject new (new.setBalance prev.data.balance)
  | (_, none, s) => s

/-! ### Setters -/

/-- The shape of the journalled setters: get or create the object, journal
the undo record, apply the change. -/
def journalled (s : StateDB) (addr : Address) (entry : StateObject → JournalEntry)
    (f : StateObject → StateObject) : StateDB :=
  let (o, s) := s.GetOrNewStateObject H env addr
  (s.push (entry o)).putObject o (f o)

/-- `SetBalance`. -/
def SetBalance (s : StateDB) (addr : Address) (amount : Int) : StateDB :=
  s.journalled H env addr (fun o => .balanceChange addr o.data.balance) (·.setBalance amount)

/-- `SetNonce`. -/
def SetNonce (s : StateDB) (addr : Address) (nonce : UInt64) : StateDB :=
  s.journalled H env addr (fun o => .nonceChange addr o.data.nonce) (·.setNonce nonce)

/-- `stateObject.touch`. -/
def touch (s : StateDB) (o : StateObject) : StateDB :=
  let s := s.push (.touchChange o.address o.touched (!o.onDirty))
  s.putObject o { o with touched := true }.dirtied

/-- `AddBalance`: adding zero only touches an empty account (EIP-158). -/
def AddBalance (s : StateDB) (addr : Address) (amount : Int) : StateDB :=
  let (o, s) := s.GetOrNewStateObject H env addr
  if amount = 0 then
    if o.empty (emptyCodeHash H) then s.touch o else s
  else
    (s.push (.balanceChange addr o.data.balance)).putObject o (o.setBalance (o.data.balance + amount))

/-- `SubBalance`: subtracting zero does nothing. -/
def SubBalance (s : StateDB) (addr : Address) (amount : Int) : StateDB :=
  let (o, s) := s.GetOrNewStateObject H env addr
  if amount = 0 then s
  else
    (s.push (.balanceChange addr o.data.balance)).putObject o (o.setBalance (o.data.balance - amount))

/-- `SetCode`: the journal records the previous code, loaded first. A `none`
code is Go's nil slice. -/
def SetCode (s : StateDB) (addr : Address) (code : Option Bytes) : StateDB :=
  let (o, s) := s.GetOrNewStateObject H env addr
  let (prevcode, o) := o.Code (emptyCodeHash H) env.db
  (s.push (.codeChange addr prevcode o.data.codeHash)).putObject o
    (o.setCode (H.keccak (code.getD [])) code)

/-- `SetState`: the journal records the previous value, read first. -/
def SetState (s : StateDB) (addr : Address) (key value : Hash) : StateDB :=
  let (o, s) := s.GetOrNewStateObject H env addr
  let (prevalue, o) := o.GetState env.db key
  (s.push (.storageChange addr key prevalue)).putObject o (o.setState key value)

/-- `Suicide`: mark the account, clear its balance and list it as destructed. -/
def Suicide (s : StateDB) (addr : Address) : Bool × StateDB :=
  match s.getStateObject env addr with
  | (none, s) => (false, s)
  | (some o, s) =>
    let s := s.push (.suicideChange addr o.suicided o.data.balance)
    let s := s.putObject o { o.markSuicided with data := { o.data with balance := 0 } }
    (true, { s with stateObjectsDestructed := s.stateObjectsDestructed.insert addr })

/-- `AddRefund`. -/
def AddRefund (s : StateDB) (gas : Int) : StateDB :=
  { s.push (.refundChange s.refund) with refund := s.refund + gas }

/-- `AddLog`: the log is stamped with the current transaction and numbered by
the running `logSize`. -/
def AddLog (s : StateDB) (log : Log) : StateDB :=
  let s := s.push (.addLogChange s.thash)
  let log := { log with txHash := s.thash, blockHash := s.bhash, txIndex := s.txIndex,
                        index := s.logSize }
  { s with logs := s.logs.insert s.thash ((s.logs.lookup s.thash).getD [] ++ [log]),
           logSize := s.logSize + 1 }

/-- `AddPreimage`: only a new preimage is recorded (and journalled). -/
def AddPreimage (s : StateDB) (hash : Hash) (preimage : Bytes) : StateDB :=
  if (s.preimages.lookup hash).isSome then s
  else { s.push (.addPreimageChange hash) with preimages := s.preimages.insert hash preimage }

/-- `Prepare`: the transaction the next logs belong to. -/
def Prepare (s : StateDB) (thash bhash : Hash) (ti : Nat) : StateDB :=
  { s with thash, bhash, txIndex := ti }

/-! ### Accessors -/

/-- Read a field of the account at `addr`, with a default for a missing one. -/
def readObject {α : Type} (s : StateDB) (addr : Address) (d : α) (f : StateObject → α) :
    α × StateDB :=
  match s.getStateObject env addr with
  | (some o, s) => (f o, s)
  | (none, s) => (d, s)

/-- `Exist`: also true for a suicided account until it is committed. -/
def Exist (s : StateDB) (addr : Address) : Bool × StateDB :=
  s.readObject env addr false (fun _ => true)

/-- `Empty`: missing, or empty in the sense of EIP-161. -/
def Empty (s : StateDB) (addr : Address) : Bool × StateDB :=
  s.readObject env addr true (·.empty (emptyCodeHash H))

def GetBalance (s : StateDB) (addr : Address) : Int × StateDB :=
  s.readObject env addr 0 (·.data.balance)

def GetNonce (s : StateDB) (addr : Address) : UInt64 × StateDB :=
  s.readObject env addr 0 (·.data.nonce)

def GetCodeHash (s : StateDB) (addr : Address) : Hash × StateDB :=
  s.readObject env addr 0 (·.data.codeHash)

def HasSuicided (s : StateDB) (addr : Address) : Bool × StateDB :=
  s.readObject env addr false (·.suicided)

/-- `GetCode`: loading the code caches it in the object. -/
def GetCode (s : StateDB) (addr : Address) : Bytes × StateDB :=
  match s.getStateObject env addr with
  | (some o, s) =>
    let (code, o) := o.Code (emptyCodeHash H) env.db
    (code.getD [], s.setStateObject o)
  | (none, s) => ([], s)

/-- `GetCodeSize`, without the size cache keyed by code hash. -/
def GetCodeSize (s : StateDB) (addr : Address) : Nat × StateDB :=
  let (code, s) := s.GetCode H env addr
  (code.length, s)

/-- `GetState`: reading through the storage caches of the object. -/
def GetState (s : StateDB) (addr : Address) (key : Hash) : Hash × StateDB :=
  match s.getStateObject env addr with
  | (some o, s) =>
    let (value, o) := o.GetState env.db key
    (value, s.setStateObject o)
  | (none, s) => (0, s)

def GetRefund (s : StateDB) : Int := s.refund

def GetLogs (s : StateDB) (hash : Hash) : List Log := (s.logs.lookup hash).getD []

def Preimages (s : StateDB) : AList (fun _ : Hash => Bytes) := s.preimages

/-! ### Snapshots -/

/-- `Snapshot`: the next revision id, remembering the journal length. -/
def Snapshot (s : StateDB) : Nat × StateDB :=
  let id := s.nextRevisionId
  (id, { s with nextRevisionId := id + 1,
                validRevisions := s.validRevisions ++ [⟨id, s.journal.length⟩] })

/-- Apply a setter to a live object the journal names; Go dereferences the
result of `getStateObject` without a nil check. -/
def withObject (s : StateDB) (addr : Address) (f : StateObject → StateObject) :
    Outcome PEmpty StateDB :=
  match s.getStateObject env addr with
  | (some o, s) => .ok (s.putObject o (f o))
  | (none, _) => .panic "invalid memory address or nil pointer dereference"

/-- `journalEntry.undo`. -/
def undo (s : StateDB) : JournalEntry → Outcome PEmpty StateDB
  | .createObjectChange a =>
    .ok { s with stateObjects := s.stateObjects.erase a,
                 stateObjectsDirty := s.stateObjectsDirty.erase a }
  | .resetObjectChange prev => .ok (s.setStateObject prev)
  | .suicideChange a prev prevbalance =>
    match s.getStateObject env a with
    | (none, s) => .ok s
    | (some o, s) =>
      let o' := { o with suicided := prev }.setBalance prevbalance
      let s := s.putObject o o'
      -- an account that was not suicided before leaves the destructed set
      if o'.suicided then .ok s
      else .ok { s with stateObjectsDestructed := s.stateObjectsDestructed.erase a }
  | .touchChange a prev prevDirty =>
    if !prev && a ≠ ripemd then
      match s.getStateObject env a with
      | (some o, s) =>
        let s := s.setStateObject { o with touched := prev }
        if !prevDirty then .ok { s with stateObjectsDirty := s.stateObjectsDirty.erase a }
        else .ok s
      | (none, _) => .panic "invalid memory address or nil pointer dereference"
    else .ok s
  | .balanceChange a prev => s.withObject env a (·.setBalance prev)
  | .nonceChange a prev => s.withObject env a (·.setNonce prev)
  | .codeChange a prevcode prevhash => s.withObject env a (·.setCode prevhash prevcode)
  | .storageChange a key prevalue => s.withObject env a (·.setState key prevalue)
  | .refundChange prev => .ok { s with refund := prev }
  | .addLogChange txhash =>
    -- the log list shrinks by one; `logSize` is left as it is
    let logs := (s.logs.lookup txhash).getD []
    if logs.length = 1 then .ok { s with logs := s.logs.erase txhash }
    else if logs.length = 0 then .panic "slice bounds out of range [:-1]"
    else .ok { s with logs := s.logs.insert txhash logs.dropLast }
  | .addPreimageChange hash => .ok { s with preimages := s.preimages.erase hash }

/-- Undo a list of journal entries, first to last. -/
def undoAll (s : StateDB) : List JournalEntry → Outcome PEmpty StateDB
  | [] => .ok s
  | e :: es => (s.undo env e).bind fun s => undoAll s es

/-- `RevertToSnapshot`: find the revision (`sort.Search` over the increasing
ids), undo the journal back to its length, and drop it and every later
revision. An unknown id panics. -/
def RevertToSnapshot (s : StateDB) (revid : Nat) : Outcome PEmpty StateDB :=
  let idx := s.validRevisions.findIdx (fun r => decide (r.id ≥ revid))
  match s.validRevisions[idx]? with
  | some r =>
    if r.id = revid then
      let snapshot := r.journalIndex
      (s.undoAll env (s.journal.drop snapshot).reverse).map fun s' =>
        { s' with journal := s.journal.take snapshot, validRevisions := s.validRevisions.take idx }
    else .panic "revision id cannot be reverted"
  | none => .panic "revision id cannot be reverted"

/-- `clearJournalAndRefund`. -/
def clearJournalAndRefund (s : StateDB) : StateDB :=
  { s with journal := [], validRevisions := [], refund := 0 }

end

end StateDB

end State

end Bazacoin
