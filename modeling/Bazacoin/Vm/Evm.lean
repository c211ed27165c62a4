import Bazacoin.State.Revert

/-!
# Contract creation (`core/vm/evm.go`, `instructions.go`)

`EVM.Create` bumps the caller's nonce, takes a snapshot, creates the account,
transfers the value and runs the init code. It then decides whether to store
the returned code, whether to revert to the snapshot and which error to
report. `opCreate` pushes the new address or zero, depending on that error.

The interpreter that runs the init code (`run`) is a parameter: any function
from the state and the contract to the returned bytes, an error, the new state
and the gas left.

When the returned code is longer than `MaxCodeSize`, `Create` reverts and
burns the gas but never sets an error; it returns the code with a nil error
and `opCreate` pushes the address of the reverted account
(`createFinish_maxCodeSize`).
-/

namespace Bazacoin

namespace Vm

open State

/-- The errors `Create` returns; every other error of the interpreter is one
value of `other`. -/
inductive VmError
  | depth
  | insufficientBalance
  | codeStoreOutOfGas
  | other (msg : String)
  deriving DecidableEq, Repr

/-- `params.MaxCodeSize`. -/
def MaxCodeSize : Nat := 24576

/-- `params.CreateDataGas`. -/
def CreateDataGas : Nat := 200

/-- `params.CallCreateDepth`. -/
def CallCreateDepth : Nat := 1024

/-- The chain rules `Create` consults at the current block. -/
structure Rules where
  homestead : Bool
  eip158 : Bool
  deriving DecidableEq, Repr

/-- `EVM`, with what `Create` reads of it. -/
structure EVM where
  depth : Nat
  noRecursion : Bool
  rules : Rules

/-- `Contract`: the code being run and the gas it holds. -/
structure Contract where
  caller : Address
  address : Address
  value : Int
  gas : Nat
  code : Bytes
  codeHash : Hash

/-- What `Create` returns: `ret`, `contractAddr`, `leftOverGas` and `err`. -/
structure CreateResult where
  ret : Option Bytes
  contractAddr : Address
  leftOverGas : Nat
  err : Option VmError

section

variable (H : Hashing) (env : Env)
  (createAddress : Address → UInt64 → Address)
  (run : StateDB → Nat → Contract → Option Bytes × Option VmError × StateDB × Nat)

/-- `CanTransfer`: the balance covers the amount. -/
def CanTransfer (s : StateDB) (addr : Address) (amount : Int) : Bool × StateDB :=
  let (balance, s) := s.GetBalance env addr
  (decide (balance ≥ amount), s)

/-- `Transfer`. -/
def Transfer (s : StateDB) (sender recipient : Address) (amount : Int) : StateDB :=
  (s.SubBalance H env sender amount).AddBalance H env recipient amount

/-- The tail of `Create` once the init code has run: store the code if it is
allowed and paid for, then revert when the code is too large or an error
counts as fatal under the rules. -/
def createFinish (evm : EVM) (snapshot : Nat) (contractAddr : Address) (s : StateDB)
    (ret : Option Bytes) (err : Option VmError) (gas : Nat) :
    Outcome PEmpty (CreateResult × StateDB) :=
  -- check whether the max code size has been exceeded
  let maxCodeSizeExceeded := decide ((ret.getD []).length > MaxCodeSize)
  let (err, gas, s) :=
    if err.isNone && !maxCodeSizeExceeded then
      let createDataGas := (ret.getD []).length * CreateDataGas
      if gas ≥ createDataGas then (err, gas - createDataGas, s.SetCode H env contractAddr ret)
      else (some .codeStoreOutOfGas, gas, s)
    else (err, gas, s)
  let revert := maxCodeSizeExceeded ||
    (err.isSome && (evm.rules.homestead || err != some .codeStoreOutOfGas))
  let s := if revert then s.RevertToSnapshot env snapshot else .ok s
  let gas := if revert then 0 else gas
  -- a nil error keeps the returned code
  let ret := if err.isSome then none else ret
  s.map fun s => (⟨ret, contractAddr, gas, err⟩, s)

/-- `EVM.Create`. -/
def Create (evm : EVM) (s : StateDB) (caller : Address) (code : Bytes) (gas : Nat)
    (value : Int) : Outcome PEmpty (CreateResult × StateDB) :=
  if evm.noRecursion && evm.depth > 0 then .ok (⟨none, 0, gas, none⟩, s)
  else if evm.depth > CallCreateDepth then .ok (⟨none, 0, gas, some .depth⟩, s)
  else
    match CanTransfer env s caller value with
    | (false, s) => .ok (⟨none, 0, gas, some .insufficientBalance⟩, s)
    | (true, s) =>
      let (nonce, s) := s.GetNonce env caller
      let s := s.SetNonce H env caller (nonce + 1)
      let (snapshot, s) := s.Snapshot
      let contractAddr := createAddress caller nonce
      let s := s.CreateAccount H env contractAddr
      let s := if evm.rules.eip158 then s.SetNonce H env contractAddr 1 else s
      let s := Transfer H env s caller contractAddr value
      let contract : Contract := ⟨caller, contractAddr, value, gas, code, H.keccak code⟩
      let (ret, err, s, gas) := run s snapshot contract
      createFinish H env evm snapshot contractAddr s ret err gas

/-- The word `opCreate` pushes for the result of `Create`: zero on an error
that counts under the rules, the new address otherwise. -/
def opCreatePushed (rules : Rules) (r : CreateResult) : Nat :=
  if rules.homestead && r.err = some .codeStoreOutOfGas then 0
  else if r.err.isSome && r.err != some .codeStoreOutOfGas then 0
  else r.contractAddr.toNat

/-- **Oversized code is reverted without an error.** When the init code
returns more than `MaxCodeSize` bytes and no error, `Create` reverts to its
snapshot and burns the gas, yet returns the code as `ret` with a nil error, so
`opCreate` pushes the address of the account it just reverted. -/
theorem createFinish_maxCodeSize (evm : EVM) (snapshot : Nat) (contractAddr : Address)
    (s : StateDB) (r : Bytes) (gas : Nat) (hlen : MaxCodeSize < r.length) :
    createFinish H env evm snapshot contractAddr s (some r) none gas =
        (s.RevertToSnapshot env snapshot).map (fun s' => (⟨some r, contractAddr, 0, none⟩, s')) ∧
      opCreatePushed evm.rules ⟨some r, contractAddr, 0, none⟩ = contractAddr.toNat := by
  have hexceeded : decide (((some r).getD []).length > MaxCodeSize) = true := by
    simpa using hlen
  constructor
  · simp only [createFinish, hexceeded, Option.isNone_none, Bool.not_true, Bool.and_false,
      Bool.true_or, if_true, if_false, Bool.false_eq_true, Option.isSome_none]
  · simp [opCreatePushed]

/-- A creation at address 2 from the empty state, after the snapshot `Create`
takes and the account it creates, whose init code returns `MaxCodeSize + 1`
zero bytes. -/
theorem createFinish_maxCodeSize_fresh :
    MaxCodeSize < (List.replicate 24577 (0 : UInt8)).length ∧
      (createFinish ⟨fun _ => 0, fun _ => 0, fun _ => 0⟩
          ⟨fun _ _ => none, ⟨fun _ => none, fun _ => none⟩⟩ ⟨0, false, ⟨true, true⟩⟩ (StateDB.New 0).Snapshot.1
          2#160 ((StateDB.New 0).Snapshot.2.CreateAccount ⟨fun _ => 0, fun _ => 0, fun _ => 0⟩
            ⟨fun _ _ => none, ⟨fun _ => none, fun _ => none⟩⟩ 2#160)
          (some (List.replicate 24577 0)) none 0 =
        (((StateDB.New 0).Snapshot.2.CreateAccount ⟨fun _ => 0, fun _ => 0, fun _ => 0⟩
            ⟨fun _ _ => none, ⟨fun _ => none, fun _ => none⟩⟩ 2#160).RevertToSnapshot
            ⟨fun _ _ => none, ⟨fun _ => none, fun _ => none⟩⟩ (StateDB.New 0).Snapshot.1).map
          (fun s' => (⟨some (List.replicate 24577 0), 2#160, 0, none⟩, s')) ∧
      opCreatePushed ⟨true, true⟩ ⟨some (List.replicate 24577 0), 2#160, 0, none⟩ = 2) :=
  have hlen : MaxCodeSize < (List.replicate 24577 (0 : UInt8)).length := by
    rw [List.length_replicate]
    unfold MaxCodeSize
    omega
  ⟨hlen, createFinish_maxCodeSize _ _ ⟨0, false, ⟨true, true⟩⟩ _ 2#160 _ _ 0 hlen⟩

/-- End to end: a creation whose init code returns `MaxCodeSize + 1` bytes
reports no error and returns the code, and the account is gone afterwards. -/
example : (match Create ⟨fun _ => 0, fun _ => 0, fun _ => 0⟩
      ⟨fun _ _ => none, ⟨fun _ => none, fun _ => none⟩⟩ (fun _ _ => 2#160)
      (fun s _ _ => (some (List.replicate 24577 0), none, s, 0))
      ⟨0, false, ⟨true, true⟩⟩ (StateDB.New 0) 1#160 [] 0 0 with
    | .ok (res, s') => res.err.isNone && res.ret.isSome &&
        !(s'.Exist ⟨fun _ _ => none, ⟨fun _ => none, fun _ => none⟩⟩ 2#160).1
    | _ => false) = true := by
  decide +kernel

end

end Vm

end Bazacoin
