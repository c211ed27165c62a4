import Mathlib.Data.List.AList
import Bazacoin.Rlp.Raw

/-!
# Accounts and state objects (`core/state/state_object.go`, `journal.go`)

A `stateObject` is the live, cached copy of one account while a `StateDB`
processes transactions: its consensus record (`Account`), a lazily opened
storage trie, a code cache and two storage maps (`cachedStorage` for reads,
`dirtyStorage` for writes not yet flushed to the trie).

The layer below the `StateDB` is abstract here: a storage trie is the map it
holds (`StorageTrie`, a zero value meaning absent), and the database answers
code by hash and storage tries by root (`Database`). Go maps are `AList`s;
their iteration order is the list order.

The object's `onDirty` callback is the owning `StateDB`'s
`MarkStateObjectDirty`; every setter fires it once and then clears it. The
model keeps only whether it is still set, and the `StateDB` layer performs the
marking.

The journal entries are the undo records `StateDB` mutators push; they are
undone by `StateDB.undo`.
-/

namespace Bazacoin

namespace State

/-- `common.Address`. -/
abbrev Address := BitVec 160

/-- `common.Hash`. -/
abbrev Hash := BitVec 256

/-- `Account`: the consensus representation stored in the account trie. -/
structure Account where
  nonce : UInt64
  balance : Int
  root : Hash
  codeHash : Hash
  deriving DecidableEq, Repr

/-- `Storage`: a map from storage keys to values. -/
abbrev Storage := AList (fun _ : Hash => Hash)

/-- A storage trie, as the map it holds; absent keys read as the zero hash. -/
abbrev StorageTrie := Hash → Hash

/-- The parts of the database the state layer reads: contract code by hash
and storage tries by root. -/
structure Database where
  code : Hash → Option Bytes
  storage : Hash → Option StorageTrie

/-- `emptyRoot`: the root hash of the empty trie. -/
def emptyRoot : Hash := 0x56e81f171bcc55a6ff8345e692c0f86e5b48e01b996cadc001622fb5e363b421#256

/-- `trie.NewSecure(root, db, 0)`: the zero hash and the empty root open an
empty trie without touching the database; any other root must be there. -/
def openStorage (db : Database) (root : Hash) : Option StorageTrie :=
  if root = 0 ∨ root = emptyRoot then some (fun _ => 0) else db.storage root

/-- `stateObject`. -/
structure StateObject where
  address : Address
  data : Account
  dbErr : Option String
  trie : Option StorageTrie
  code : Option Bytes
  cachedStorage : Storage
  dirtyStorage : Storage
  dirtyCode : Bool
  suicided : Bool
  touched : Bool
  deleted : Bool
  onDirty : Bool

namespace StateObject

section

variable (emptyCodeHash : Hash)

/-- `newObject`: a missing balance is zero and a missing code hash is the
hash of the empty code; the model's `Account{}` is written out by callers. -/
def newObject (address : Address) (data : Account) (onDirty : Bool) : StateObject :=
  { address, data, dbErr := none, trie := none, code := none, cachedStorage := ∅,
    dirtyStorage := ∅, dirtyCode := false, suicided := false, touched := false,
    deleted := false, onDirty }

/-- `empty`: nonce zero, balance zero and the empty code (EIP-161). -/
def empty (o : StateObject) : Bool :=
  o.data.nonce = 0 && o.data.balance = 0 && o.data.codeHash = emptyCodeHash

end

/-- `setError`: remember the first error. -/
def setError (o : StateObject) (err : String) : StateObject :=
  if o.dbErr.isNone then { o with dbErr := some err } else o

/-- The tail shared by every setter: the `onDirty` callback fires once. -/
def dirtied (o : StateObject) : StateObject := { o with onDirty := false }

def setBalance (o : StateObject) (amount : Int) : StateObject :=
  dirtied { o with data := { o.data with balance := amount } }

def setNonce (o : StateObject) (nonce : UInt64) : StateObject :=
  dirtied { o with data := { o.data with nonce := nonce } }

def setCode (o : StateObject) (codeHash : Hash) (code : Option Bytes) : StateObject :=
  dirtied { o with code, data := { o.data with codeHash }, dirtyCode := true }

def setState (o : StateObject) (key value : Hash) : StateObject :=
  dirtied { o with cachedStorage := o.cachedStorage.insert key value,
                   dirtyStorage := o.dirtyStorage.insert key value }

/-- `markSuicided`. -/
def markSuicided (o : StateObject) : StateObject :=
  dirtied { o with suicided := true }

/-- `getTrie`: open the storage trie on first access; a root missing from the
database leaves an empty trie and records the error. -/
def getTrie (db : Database) (o : StateObject) : StorageTrie × StateObject :=
  match o.trie with
  | some tr => (tr, o)
  | none =>
    match openStorage db o.data.root with
    | some tr => (tr, { o with trie := some tr })
    | none =>
      let empty : StorageTrie := fun _ => 0
      (empty, { (o.setError "can't create storage trie: missing trie node")
        with trie := some empty })

/-- `GetState`: the cached value, else the trie's; a nonzero trie value is
cached. -/
def GetState (db : Database) (o : StateObject) (key : Hash) : Hash × StateObject :=
  match o.cachedStorage.lookup key with
  | some value => (value, o)
  | none =>
    let (tr, o) := o.getTrie db
    let value := tr key
    if value ≠ 0 then (value, { o with cachedStorage := o.cachedStorage.insert key value })
    else (value, o)

/-- `updateTrie`: flush the dirty storage into the storage trie. A zero value
deletes the key, which the trie model reads back as zero. -/
def updateTrie (db : Database) (o : StateObject) : StorageTrie × StateObject :=
  let (tr, o) := o.getTrie db
  let tr := o.dirtyStorage.entries.foldl (fun tr e => Function.update tr e.1 e.2) tr
  (tr, { o with trie := some tr, dirtyStorage := ∅ })

/-- `updateRoot`: flush the storage and store the storage trie's root. -/
def updateRoot (storageRoot : StorageTrie → Hash) (db : Database) (o : StateObject) :
    StateObject :=
  let (tr, o) := o.updateTrie db
  { o with data := { o.data with root := storageRoot tr } }

/-- `Code`: the cached code, none for the empty code hash, else loaded from
the database (a missing entry is recorded as an error and reads as nil). -/
def Code (emptyCodeHash : Hash) (db : Database) (o : StateObject) : Option Bytes × StateObject :=
  match o.code with
  | some code => (some code, o)
  | none =>
    if o.data.codeHash = emptyCodeHash then (none, o)
    else
      match db.code o.data.codeHash with
      | some code => (some code, { o with code := some code })
      | none => (none, o.setError "can't load code hash: not found")

/-- `deepCopy`: note that the copy's read cache is the original's dirty
storage, not its read cache; `touched` and `dbErr` are not carried over. -/
def deepCopy (o : StateObject) (onDirty : Bool) : StateObject :=
  { newObject o.address o.data onDirty with
    trie := o.trie, code := o.code, dirtyStorage := o.dirtyStorage,
    cachedStorage := o.dirtyStorage, suicided := o.suicided, dirtyCode := o.dirtyCode,
    deleted := o.deleted }

@[simp] theorem address_newObject (address : Address) (data : Account) (onDirty : Bool) :
    (newObject address data onDirty).address = address := rfl

@[simp] theorem data_newObject (address : Address) (data : Account) (onDirty : Bool) :
    (newObject address data onDirty).data = data := rfl

@[simp] theorem suicided_newObject (address : Address) (data : Account) (onDirty : Bool) :
    (newObject address data onDirty).suicided = false := rfl

@[simp] theorem address_setBalance (o : StateObject) (amount : Int) :
    (o.setBalance amount).address = o.address := rfl

@[simp] theorem data_setBalance (o : StateObject) (amount : Int) :
    (o.setBalance amount).data = { o.data with balance := amount } := rfl

@[simp] theorem suicided_setBalance (o : StateObject) (amount : Int) :
    (o.setBalance amount).suicided = o.suicided := rfl

@[simp] theorem onDirty_setBalance (o : StateObject) (amount : Int) :
    (o.setBalance amount).onDirty = false := rfl

@[simp] theorem address_setNonce (o : StateObject) (nonce : UInt64) :
    (o.setNonce nonce).address = o.address := rfl

@[simp] theorem data_setNonce (o : StateObject) (nonce : UInt64) :
    (o.setNonce nonce).data = { o.data with nonce := nonce } := rfl

@[simp] theorem suicided_setNonce (o : StateObject) (nonce : UInt64) :
    (o.setNonce nonce).suicided = o.suicided := rfl

@[simp] theorem onDirty_setNonce (o : StateObject) (nonce : UInt64) :
    (o.setNonce nonce).onDirty = false := rfl

@[simp] theorem address_setError (o : StateObject) (err : String) :
    (o.setError err).address = o.address := by
  unfold setError
  split <;> rfl

@[simp] theorem data_setError (o : StateObject) (err : String) :
    (o.setError err).data = o.data := by
  unfold setError
  split <;> rfl

@[simp] theorem address_getTrie (db : Database) (o : StateObject) :
    (o.getTrie db).2.address = o.address := by
  unfold getTrie
  split
  · rfl
  · split <;> simp

@[simp] theorem data_getTrie (db : Database) (o : StateObject) :
    (o.getTrie db).2.data = o.data := by
  unfold getTrie
  split
  · rfl
  · split <;> simp

@[simp] theorem address_updateRoot (r : StorageTrie → Hash) (db : Database) (o : StateObject) :
    (o.updateRoot r db).address = o.address := by
  show (o.getTrie db).2.address = o.address
  exact address_getTrie db o

@[simp] theorem balance_updateRoot (r : StorageTrie → Hash) (db : Database) (o : StateObject) :
    (o.updateRoot r db).data.balance = o.data.balance := by
  show (o.getTrie db).2.data.balance = o.data.balance
  rw [data_getTrie]

end StateObject

/-- `types.Log`, with the fields the state database reads or sets; the rest of
the log is opaque payload set by the caller. -/
structure Log where
  address : Address
  topics : List Hash
  data : Bytes
  txHash : Hash
  blockHash : Hash
  txIndex : Nat
  index : Nat
  deriving DecidableEq, Repr

/-- `journalEntry`: one undo record per kind of change. -/
inductive JournalEntry
  | createObjectChange (account : Address)
  | resetObjectChange (prev : StateObject)
  | suicideChange (account : Address) (prev : Bool) (prevbalance : Int)
  | balanceChange (account : Address) (prev : Int)
  | nonceChange (account : Address) (prev : UInt64)
  | storageChange (account : Address) (key prevalue : Hash)
  | codeChange (account : Address) (prevcode : Option Bytes) (prevhash : Hash)
  | refundChange (prev : Int)
  | addLogChange (txhash : Hash)
  | addPreimageChange (hash : Hash)
  | touchChange (account : Address) (prev prevDirty : Bool)

/-- `ripemd`: the precompile whose touch is never undone. -/
def ripemd : Address := 3#160

end State

end Bazacoin
