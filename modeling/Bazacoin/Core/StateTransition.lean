import Bazacoin.State.Balance
import Bazacoin.Vm.Evm

/-!
# Applying a message (`core/state_transition.go`, `core/gaspool.go`)

`TransitionDb` checks the nonce, buys the message's gas from the sender and
from the block's gas pool, pays the intrinsic gas, runs the EVM, refunds the
gas left (and part of the refund counter) to the sender and the pool, and pays
the gas used to the coinbase.

A `StateTransition` changes its fields in place, and the `*StateDB` it holds
is a pointer: an error returned half way leaves every change made before it.
The model is therefore an `EStateM` computation, whose state is carried on
the error path too. The message and the EVM are read only: `gasPrice`,
`value` and `data` are the message's, as `NewStateTransition` copies them.

The EVM itself is a parameter (`Machine`): its rule set, its coinbase, and
`Create` and `Call` as any functions of the state.

Two facts about the ledger:

- the gas bought is taken from the pool before the intrinsic gas is checked,
  and the error paths after it never give it back;
- on success the pool shrinks by the gas used, and every balance changes by
  what the EVM moved, less the gas used at the gas price for the sender, plus
  the same for the coinbase.
-/

namespace Bazacoin

namespace Core

open State StateDB Vm

/-- `params.TxGas`. -/
def TxGas : Nat := 21000

/-- `params.TxGasContractCreation`. -/
def TxGasContractCreation : Nat := 53000

/-- `params.TxDataZeroGas`. -/
def TxDataZeroGas : Nat := 4

/-- `params.TxDataNonZeroGas`. -/
def TxDataNonZeroGas : Nat := 68

/-- The errors `TransitionDb` returns: its own, the pool's, and the one EVM
error that is a consensus error. -/
inductive TxError
  | outOfGas
  | insufficientBalanceForGas
  | gasLimitReached
  | invalidNonce (got expected : UInt64)
  | vm (e : VmError)
  deriving DecidableEq, Repr

/-- The `Error()` strings. -/
def TxError.text : TxError → String
  | .outOfGas => "out of gas"
  | .insufficientBalanceForGas => "insufficient balance to pay for gas"
  | .gasLimitReached => "gas limit reached"
  | .invalidNonce h e => "invalid nonce: have " ++ toString h ++ ", expected " ++ toString e
  | .vm .insufficientBalance => "insufficient balance for transfer"
  | .vm .depth => "max call depth exceeded"
  | .vm .codeStoreOutOfGas => "contract creation code storage out of gas"
  | .vm (.other msg) => msg

/-- `Message`: the interface's methods, under their Go names. -/
structure Message where
  From : Address
  To : Option Address
  GasPrice : Nat
  Gas : Nat
  Value : Int
  Nonce : UInt64
  CheckNonce : Bool
  Data : Bytes
  deriving DecidableEq, Repr

/-- What `TransitionDb` uses of the EVM: whether Homestead is active at the
block, the block's coinbase, and `Create` and `Call`, each returning the
output, the gas left, the error and the new state. -/
structure Machine where
  homestead : Bool
  Coinbase : Address
  Create : StateDB → Address → Bytes → UInt64 → Int → Option Bytes × UInt64 × Option VmError × StateDB
  Call : StateDB → Address → Address → Bytes → UInt64 → Int →
    Option Bytes × UInt64 × Option VmError × StateDB

/-- What the fee ledger needs of the EVM: it returns at most the gas it was
given, keeps every live object under its own address, and does not make a
refund counter negative. -/
structure Machine.Lawful (M : Machine) : Prop where
  create_gas : ∀ s caller code gas value, (M.Create s caller code gas value).2.1 ≤ gas
  call_gas : ∀ s caller recipient code gas value, (M.Call s caller recipient code gas value).2.1 ≤ gas
  create_wellKeyed : ∀ s caller code gas value, s.WellKeyed →
    (M.Create s caller code gas value).2.2.2.WellKeyed
  call_wellKeyed : ∀ s caller recipient code gas value, s.WellKeyed →
    (M.Call s caller recipient code gas value).2.2.2.WellKeyed
  create_refund : ∀ s caller code gas value, 0 ≤ s.refund →
    0 ≤ (M.Create s caller code gas value).2.2.2.refund
  call_refund : ∀ s caller recipient code gas value, 0 ≤ s.refund →
    0 ≤ (M.Call s caller recipient code gas value).2.2.2.refund

/-- The EVM ran on `sb` with `gas` and returned `r`: `Create` for a contract
creation, `Call` to some recipient otherwise. -/
def EvmRan (M : Machine) (msg : Message) (sender : Address) (sb : StateDB) (gas : UInt64)
    (r : Option Bytes × UInt64 × Option VmError × StateDB) : Prop :=
  (msg.To.isNone ∧ M.Create sb sender msg.Data gas msg.Value = r) ∨
    (¬ msg.To.isNone ∧ ∃ recipient, M.Call sb sender recipient msg.Data gas msg.Value = r)

/-- What a lawful EVM returns from a well-keyed state with a refund counter
that is not negative. -/
theorem EvmRan.lawful {M : Machine} {msg : Message} {sender : Address} {sb : StateDB} {gas : UInt64}
    {r : Option Bytes × UInt64 × Option VmError × StateDB} (h : EvmRan M msg sender sb gas r)
    (hM : M.Lawful) (hw : sb.WellKeyed) (hr : 0 ≤ sb.refund) :
    r.2.1 ≤ gas ∧ r.2.2.2.WellKeyed ∧ 0 ≤ r.2.2.2.refund := by
  rcases h with ⟨-, rfl⟩ | ⟨-, recipient, rfl⟩
  · exact ⟨hM.create_gas _ _ _ _ _, hM.create_wellKeyed _ _ _ _ _ hw, hM.create_refund _ _ _ _ _ hr⟩
  · exact ⟨hM.call_gas _ _ _ _ _ _, hM.call_wellKeyed _ _ _ _ _ _ hw, hM.call_refund _ _ _ _ _ _ hr⟩

/-- An EVM that runs no code: a call or a creation returns all its gas and
leaves the state as it was. -/
def idleMachine (homestead : Bool) (coinbase : Address) : Machine :=
  ⟨homestead, coinbase, fun s _ _ gas _ => (none, gas, none, s), fun s _ _ _ gas _ => (none, gas, none, s)⟩

theorem idleMachine_lawful (homestead : Bool) (coinbase : Address) : (idleMachine homestead coinbase).Lawful where
  create_gas _ _ _ _ _ := UInt64.le_refl _
  call_gas _ _ _ _ _ _ := UInt64.le_refl _
  create_wellKeyed _ _ _ _ _ hw := hw
  call_wellKeyed _ _ _ _ _ _ hw := hw
  create_refund _ _ _ _ _ hr := hr
  call_refund _ _ _ _ _ _ hr := hr

/-- `GasPool.AddGas`. -/
def GasPool.AddGas (gp amount : Nat) : Nat := gp + amount

/-- `GasPool.SubGas`: only an amount the pool holds is taken. -/
def GasPool.SubGas (gp amount : Nat) : Except TxError Nat :=
  if gp < amount then .error .gasLimitReached else .ok (gp - amount)

/-- `IntrinsicGas`: the base cost, and a cost per zero and per non-zero byte
of data. -/
def IntrinsicGas (data : Bytes) (contractCreation homestead : Bool) : Nat :=
  let igas := if contractCreation && homestead then TxGasContractCreation else TxGas
  if data.length > 0 then
    let nz := data.countP (· ≠ 0)
    igas + nz * TxDataNonZeroGas + (data.length - nz) * TxDataZeroGas
  else igas

/-- `big.Int.Uint64`: the low 64 bits of the absolute value. -/
def bigUint64 (x : Int) : UInt64 := UInt64.ofNat x.natAbs

/-- The fields of `StateTransition` that change; `msg`, `gasPrice`, `value`
and `data` are the message's. -/
structure StateTransition where
  gp : Nat
  gas : UInt64
  initialGas : Nat
  state : StateDB

/-- `NewStateTransition`. -/
def NewStateTransition (s : StateDB) (gp : Nat) : StateTransition := ⟨gp, 0, 0, s⟩

/-- `gasUsed`: the gas bought less the gas left. -/
def StateTransition.gasUsed (st : StateTransition) : Int := st.initialGas - st.gas.toNat

/-- A `StateTransition` method, run on the transition in place. -/
abbrev Transition := EStateM TxError StateTransition

namespace StateTransition

section

variable (H : Hashing) (env : Env) (M : Machine) (msg : Message)

/-- `from`: the sender, created when it does not exist (capitalized here, `from`
being a keyword). -/
def From : Transition Address := do
  let st ← get
  let r := st.state.Exist env msg.From
  set { st with state := if !r.1 then r.2.CreateAccount H env msg.From else r.2 }
  pure msg.From

/-- `to`: the recipient, created when it does not exist; zero for a contract
creation. Like `from`, it is capitalized here, `to` being a keyword. -/
def To : Transition Address := do
  match msg.To with
  | none => pure 0
  | some recipient =>
    let st ← get
    let r := st.state.Exist env recipient
    set { st with state := if !r.1 then r.2.CreateAccount H env recipient else r.2 }
    pure recipient

/-- `useGas`. -/
def useGas (amount : UInt64) : Transition Unit := do
  let st ← get
  if st.gas < amount then throw .outOfGas
  set { st with gas := st.gas - amount }

/-- `buyGas`: the sender pays for the message's gas, which is taken from the
pool. -/
def buyGas : Transition Unit := do
  let mgas := msg.Gas
  -- `mgas.BitLen() > 64`
  if 2 ^ 64 ≤ mgas then throw .outOfGas
  let mgval : Int := mgas * msg.GasPrice
  let sender ← From H env msg
  let st ← get
  let r := st.state.GetBalance env sender
  set { st with state := r.2 }
  if r.1 < mgval then throw .insufficientBalanceForGas
  let st ← get
  match GasPool.SubGas st.gp mgas with
  | .error e => throw e
  | .ok gp =>
    set { st with gp, gas := st.gas + UInt64.ofNat mgas, initialGas := mgas,
                  state := st.state.SubBalance H env sender mgval }

/-- `preCheck`: the nonce, then `buyGas`. -/
def preCheck : Transition Unit := do
  let sender ← From H env msg
  if msg.CheckNonce then
    let st ← get
    let r := st.state.GetNonce env sender
    set { st with state := r.2 }
    if r.1 ≠ msg.Nonce then throw (.invalidNonce msg.Nonce r.1)
  buyGas H env msg

/-- `refundGas`: the gas left, and the refund counter up to half the gas used,
go back to the sender at the gas price and to the pool. -/
def refundGas : Transition Unit := do
  let sender ← From H env msg
  let st ← get
  let remaining : Int := st.gas.toNat * msg.GasPrice
  let s := st.state.AddBalance H env sender remaining
  let uhalf := st.gasUsed / 2
  let counter := s.GetRefund
  -- `BigMin` returns the counter itself when it is the smaller one, and the
  -- `Mul` below then rewrites the state's refund counter in place
  let refund := if uhalf > counter then counter else uhalf
  let gas := st.gas + bigUint64 refund
  let s := if uhalf > counter then { s with refund := refund * msg.GasPrice } else s
  let s := s.AddBalance H env sender (refund * msg.GasPrice)
  set { st with gas, state := s, gp := GasPool.AddGas st.gp gas.toNat }

/-- The EVM part of `TransitionDb`: `Create` for a contract creation;
otherwise the sender's nonce is bumped and `Call` runs. It returns `ret` and
`vmerr`. -/
def execute (sender : Address) : Transition (Option Bytes × Option VmError) := do
  if msg.To.isNone then
    let st ← get
    let r := M.Create st.state sender msg.Data st.gas msg.Value
    set { st with gas := r.2.1, state := r.2.2.2 }
    pure (r.1, r.2.2.1)
  else
    -- increment the nonce for the next transaction
    let st ← get
    let n := st.state.GetNonce env sender
    set { st with state := n.2.SetNonce H env sender (n.1 + 1) }
    let recipient ← To H env msg
    let st ← get
    let r := M.Call st.state sender recipient msg.Data st.gas msg.Value
    set { st with gas := r.2.1, state := r.2.2.2 }
    pure (r.1, r.2.2.1)

/-- `TransitionDb`: `ret`, `requiredGas` and `usedGas`. -/
def TransitionDb : Transition (Option Bytes × Int × Int) := do
  preCheck H env msg
  let sender ← From H env msg
  -- pay intrinsic gas
  let intrinsicGas := IntrinsicGas msg.Data msg.To.isNone M.homestead
  if 2 ^ 64 ≤ intrinsicGas then throw .outOfGas
  useGas (UInt64.ofNat intrinsicGas)
  let vmResult ← execute H env M msg sender
  -- the only consensus error of the EVM: the value transfer failed
  if vmResult.2 = some .insufficientBalance then throw (.vm .insufficientBalance)
  let st ← get
  let requiredGas := st.gasUsed
  refundGas H env msg
  let st ← get
  set { st with state := st.state.AddBalance H env M.Coinbase (st.gasUsed * msg.GasPrice) }
  let st ← get
  pure (vmResult.1, requiredGas, st.gasUsed)

end

/-! ## Each step on the ledger -/

section

variable {H : Hashing} {env : Env} {M : Machine} {msg : Message}

variable (H env msg) in
theorem From_ok {st : StateTransition} (hw : st.state.WellKeyed) :
    ∃ s, From H env msg st = .ok msg.From { st with state := s } ∧
      s.balanceOf env = st.state.balanceOf env ∧ s.WellKeyed ∧ s.refund = st.state.refund := by
  obtain ⟨hbal, hw'⟩ := readObject_balanceOf env hw msg.From false (fun _ => true)
  refine ⟨_, rfl, ?_⟩
  split
  · -- a missing sender is created, with the zero balance it had
    obtain ⟨hbal₂, hw₂⟩ := CreateAccount_balanceOf (H := H) hw' msg.From
    exact ⟨hbal₂.trans hbal, hw₂, by simp [Exist]⟩
  · exact ⟨hbal, hw', by simp [Exist]⟩

/-- `st'` is `st` once the sender has bought the message's gas: the gas fits
in 64 bits and in the pool, the pool gave it, and the sender paid for it at
the gas price. -/
structure GasBought (env : Env) (msg : Message) (st st' : StateTransition) : Prop where
  gas_lt : msg.Gas < 2 ^ 64
  gas_le_gp : msg.Gas ≤ st.gp
  gp_eq : st'.gp = st.gp - msg.Gas
  gas_eq : st'.gas = st.gas + UInt64.ofNat msg.Gas
  initialGas_eq : st'.initialGas = msg.Gas
  balanceOf_eq : st'.state.balanceOf env =
    Function.update (st.state.balanceOf env) msg.From (st.state.balanceOf env msg.From - msg.Gas * msg.GasPrice)
  wellKeyed : st'.state.WellKeyed
  refund_eq : st'.state.refund = st.state.refund

/-- Buying the gas from a transition that differs only in a state with the
same balances and refund counter. -/
theorem GasBought.congr {st st' : StateTransition} {s : StateDB} (h : GasBought env msg { st with state := s } st')
    (hbal : s.balanceOf env = st.state.balanceOf env) (hr : s.refund = st.state.refund) :
    GasBought env msg st st' where
  gas_lt := h.gas_lt
  gas_le_gp := h.gas_le_gp
  gp_eq := h.gp_eq
  gas_eq := h.gas_eq
  initialGas_eq := h.initialGas_eq
  balanceOf_eq := by rw [h.balanceOf_eq]; dsimp only; rw [hbal]
  wellKeyed := h.wellKeyed
  refund_eq := h.refund_eq.trans hr

theorem buyGas_eq_ok {st st' : StateTransition} {u : Unit} (hw : st.state.WellKeyed)
    (h : buyGas H env msg st = .ok u st') :
    GasBought env msg st st' := by
  unfold buyGas at h
  dsimp only at h
  by_cases hbig : 2 ^ 64 ≤ msg.Gas
  · rw [if_pos hbig] at h
    simp [EStateM.bind_eq_ok] at h
  rw [if_neg hbig] at h
  obtain ⟨s₁, hfrom, hbal₁, hw₁, hr₁⟩ := From_ok H env msg hw
  simp only [EStateM.bind_apply_ok hfrom, EStateM.bind_apply, EStateM.get_apply, EStateM.set_apply] at h
  -- the balance check reads the balance the sender had
  rw [GetBalance_fst, hbal₁] at h
  by_cases hpay : st.state.balanceOf env msg.From < msg.Gas * msg.GasPrice
  · rw [if_pos hpay] at h
    simp [EStateM.bind_eq_ok] at h
  rw [if_neg hpay] at h
  simp only [EStateM.bind_apply, EStateM.get_apply, GasPool.SubGas] at h
  by_cases hpool : st.gp < msg.Gas
  · rw [if_pos hpool] at h
    simp at h
  rw [if_neg hpool] at h
  simp only [EStateM.set_apply, EStateM.Result.ok.injEq] at h
  obtain ⟨-, rfl⟩ := h
  obtain ⟨hbal₂, hw₂⟩ := readObject_balanceOf env hw₁ msg.From 0 (·.data.balance)
  obtain ⟨hbal₃, hw₃⟩ := SubBalance_balanceOf H env hw₂ msg.From (msg.Gas * msg.GasPrice)
  refine ⟨by omega, by omega, rfl, rfl, rfl, hbal₃.trans ?_, hw₃, by simp [GetBalance, hr₁]⟩
  rw [hbal₂, hbal₁]

theorem preCheck_eq_ok {st st' : StateTransition} {u : Unit} (hw : st.state.WellKeyed)
    (h : preCheck H env msg st = .ok u st') :
    GasBought env msg st st' := by
  unfold preCheck at h
  dsimp only at h
  obtain ⟨s₁, hfrom, hbal₁, hw₁, hr₁⟩ := From_ok H env msg hw
  simp only [EStateM.bind_apply_ok hfrom] at h
  -- `buyGas` runs on the transition as `from` and the nonce check left it,
  -- with the balances, keying and refund counter of `st`
  split at h
  · simp only [EStateM.bind_apply, EStateM.get_apply, EStateM.set_apply] at h
    split at h
    · simp [EStateM.bind_eq_ok] at h
    · obtain ⟨hb, hw₂⟩ := readObject_balanceOf env hw₁ msg.From 0 (·.data.nonce)
      exact (buyGas_eq_ok hw₂ h).congr (hb.trans hbal₁) ((refund_readObject s₁ msg.From 0 _).trans hr₁)
  · exact (buyGas_eq_ok hw₁ h).congr hbal₁ hr₁

variable (H env msg) in
theorem To_ok (st : StateTransition) (hw : st.state.WellKeyed) :
    ∃ recipient s, To H env msg st = .ok recipient { st with state := s } ∧
      s.balanceOf env = st.state.balanceOf env ∧ s.WellKeyed ∧ s.refund = st.state.refund := by
  unfold To
  cases hto : msg.To with
  | none => exact ⟨0, st.state, rfl, rfl, hw, rfl⟩
  | some recipient =>
    obtain ⟨hbal, hw'⟩ := readObject_balanceOf env hw recipient false (fun _ => true)
    refine ⟨recipient, _, rfl, ?_⟩
    split
    · -- a missing recipient is created, with the zero balance it had
      obtain ⟨hbal₂, hw₂⟩ := CreateAccount_balanceOf (H := H) hw' recipient
      exact ⟨hbal₂.trans hbal, hw₂, by simp [Exist]⟩
    · exact ⟨hbal, hw', by simp [Exist]⟩

variable (H env M msg) in
/-- The EVM part always returns: it ran on a state with the balances and the
refund counter of the transition's, with the transition's gas. -/
theorem execute_ok (st : StateTransition) (hw : st.state.WellKeyed) (sender : Address) :
    ∃ sb ret vmerr st', execute H env M msg sender st = .ok (ret, vmerr) st' ∧
      EvmRan M msg sender sb st.gas (ret, st'.gas, vmerr, st'.state) ∧
      sb.balanceOf env = st.state.balanceOf env ∧ sb.WellKeyed ∧ sb.refund = st.state.refund ∧
      st'.gp = st.gp ∧ st'.initialGas = st.initialGas := by
  unfold execute
  by_cases hc : msg.To.isNone
  · rw [if_pos hc]
    exact ⟨st.state, _, _, _, rfl, Or.inl ⟨hc, rfl⟩, rfl, hw, rfl, rfl, rfl⟩
  · rw [if_neg hc]
    -- the nonce bump and `to` keep every balance and the refund counter
    obtain ⟨hbal₁, hw₁⟩ := readObject_balanceOf env hw sender 0 (·.data.nonce)
    obtain ⟨hbal₂, hw₂⟩ := SetNonce_balanceOf (H := H) hw₁ sender ((st.state.GetNonce env sender).1 + 1)
    obtain ⟨recipient, s₃, hto, hbal₃, hw₃, hr₃⟩ := To_ok H env msg
      ({ st with state := ((st.state.GetNonce env sender).2.SetNonce H env sender
        ((st.state.GetNonce env sender).1 + 1)) }) hw₂
    simp only [EStateM.bind_apply, EStateM.get_apply, EStateM.set_apply, hto]
    refine ⟨s₃, _, _, _, rfl, Or.inr ⟨hc, recipient, rfl⟩, ?_, hw₃, ?_, rfl, rfl⟩
    · rw [hbal₃]
      exact hbal₂.trans hbal₁
    · rw [hr₃]
      simp [GetNonce]

theorem useGas_ok (st : StateTransition) {amount : UInt64} (h : amount ≤ st.gas) :
    useGas amount st = .ok () { st with gas := st.gas - amount } := by
  simp [useGas, EStateM.bind_apply, UInt64.not_lt.2 h]

theorem useGas_error (st : StateTransition) {amount : UInt64} (h : st.gas < amount) :
    useGas amount st = .error .outOfGas st := by
  simp [useGas, EStateM.bind_apply, h]

variable (H env msg) in
/-- `refundGas` on a transition whose gas left is at most the gas bought and
whose refund counter is not negative: the gas left and the refund, at most
half the gas used, go back to the sender at the gas price and to the pool. -/
theorem refundGas_ok {st : StateTransition} (hw : st.state.WellKeyed) (hr : 0 ≤ st.state.refund)
    (hle : st.gas.toNat ≤ st.initialGas) (hinit : st.initialGas < 2 ^ 64) :
    ∃ st', refundGas H env msg st = .ok () st' ∧
      (st'.gas.toNat : Int) = st.gas.toNat + min (st.gasUsed / 2) st.state.refund ∧
      st'.gp = st.gp + st'.gas.toNat ∧ st'.initialGas = st.initialGas ∧
      st'.state.balanceOf env = Function.update (st.state.balanceOf env) msg.From
        (st.state.balanceOf env msg.From + st'.gas.toNat * msg.GasPrice) ∧
      st'.state.WellKeyed := by
  obtain ⟨s₁, hfrom, hbal₁, hw₁, hr₁⟩ := From_ok H env msg hw
  unfold refundGas
  simp only [EStateM.bind_apply_ok hfrom, EStateM.bind_apply, EStateM.get_apply, EStateM.set_apply]
  -- the gas left goes back to the sender first
  obtain ⟨hbal₂, hw₂⟩ := AddBalance_balanceOf H env hw₁ msg.From (st.gas.toNat * msg.GasPrice)
  have hcounter : (s₁.AddBalance H env msg.From (st.gas.toNat * msg.GasPrice)).GetRefund = st.state.refund := by
    simp [GetRefund, hr₁]
  have hused : ({ st with state := s₁ } : StateTransition).gasUsed = st.gasUsed := rfl
  rw [hcounter, hused]
  generalize s₁.AddBalance H env msg.From (st.gas.toNat * msg.GasPrice) = s₂ at hbal₂ hw₂ ⊢
  -- `BigMin` picks the smaller of half the gas used and the counter
  have hmin : (if st.gasUsed / 2 > st.state.refund then st.state.refund else st.gasUsed / 2) =
      min (st.gasUsed / 2) st.state.refund := by
    rw [min_def]
    split_ifs <;> omega
  rw [hmin]
  have hused₀ : 0 ≤ st.gasUsed := by
    unfold gasUsed
    omega
  have hrefund₀ : 0 ≤ min (st.gasUsed / 2) st.state.refund := le_min (by omega) hr
  have hrefund₁ : min (st.gasUsed / 2) st.state.refund ≤ st.gasUsed / 2 := min_le_left _ _
  generalize min (st.gasUsed / 2) st.state.refund = refund at hrefund₀ hrefund₁ ⊢
  -- the gas counter gets the refund without wrapping around
  have hgas : (st.gas + bigUint64 refund).toNat = st.gas.toNat + refund.toNat := by
    have hsum : st.gas.toNat + refund.toNat < 2 ^ 64 := by
      unfold gasUsed at hrefund₁
      omega
    have habs : refund.natAbs = refund.toNat := by omega
    rw [UInt64.toNat_add, bigUint64, UInt64.toNat_ofNat', habs, Nat.mod_eq_of_lt (by omega : refund.toNat < 2 ^ 64),
      Nat.mod_eq_of_lt hsum]
  -- rewriting the counter in place changes no balance
  obtain ⟨hbal₃, hw₃⟩ : (if st.gasUsed / 2 > st.state.refund then { s₂ with refund := refund * msg.GasPrice }
      else s₂).balanceOf env = s₂.balanceOf env ∧
      (if st.gasUsed / 2 > st.state.refund then { s₂ with refund := refund * msg.GasPrice } else s₂).WellKeyed := by
    split <;> exact ⟨rfl, hw₂⟩
  generalize (if st.gasUsed / 2 > st.state.refund then { s₂ with refund := refund * msg.GasPrice }
    else s₂) = s₃ at hbal₃ hw₃ ⊢
  -- then the refund goes to the sender
  obtain ⟨hbal₄, hw₄⟩ := AddBalance_balanceOf H env hw₃ msg.From (refund * msg.GasPrice)
  have hgas' : ((st.gas + bigUint64 refund).toNat : Int) = st.gas.toNat + refund := by
    rw [hgas]
    push_cast
    rw [Int.toNat_of_nonneg hrefund₀]
  refine ⟨_, rfl, hgas', rfl, rfl, ?_, hw₄⟩
  rw [hbal₄, hbal₃, hbal₂, hbal₁, hgas']
  simp only [Function.update_idem, Function.update_self]
  congr 1
  ring

end

end StateTransition

/-- `ApplyMessage`: the output, the gas used and the error, with the state and
the pool as the transition left them. -/
def ApplyMessage (H : Hashing) (env : Env) (M : Machine) (s : StateDB) (msg : Message) (gp : Nat) :
    Except TxError (Option Bytes × Int) × StateDB × Nat :=
  match StateTransition.TransitionDb H env M msg (NewStateTransition s gp) with
  | .ok r st => (.ok (r.1, r.2.2), st.state, st.gp)
  | .error e st => (.error e, st.state, st.gp)

/-! ## The pool on the error path -/

section

variable {H : Hashing} {env : Env} {M : Machine} {msg : Message}

theorem transitionDb_intrinsic_error {st st₁ : StateTransition} (hw : st.state.WellKeyed) (hgas : st.gas = 0)
    (hpre : StateTransition.preCheck H env msg st = .ok () st₁)
    (hlow : msg.Gas < IntrinsicGas msg.Data msg.To.isNone M.homestead) :
    ∃ st', StateTransition.TransitionDb H env M msg st = .error .outOfGas st' ∧ st'.gp = st.gp - msg.Gas := by
  have hb := StateTransition.preCheck_eq_ok hw hpre
  obtain ⟨s₂, hfrom, -, -, -⟩ := StateTransition.From_ok H env msg hb.wellKeyed
  unfold StateTransition.TransitionDb
  simp only [EStateM.bind_apply_ok hpre, EStateM.bind_apply_ok hfrom]
  -- the gas bought was not enough for the intrinsic gas: either check throws,
  -- on the transition as `buyGas` left it
  by_cases hbig : 2 ^ 64 ≤ IntrinsicGas msg.Data msg.To.isNone M.homestead
  · rw [if_pos hbig]
    exact ⟨{ st₁ with state := s₂ }, by simp [EStateM.bind_apply], hb.gp_eq⟩
  · rw [if_neg hbig]
    have hlt : st₁.gas < UInt64.ofNat (IntrinsicGas msg.Data msg.To.isNone M.homestead) := by
      rw [hb.gas_eq, hgas, UInt64.zero_add, UInt64.lt_iff_toNat_lt, UInt64.toNat_ofNat_of_lt' hb.gas_lt,
        UInt64.toNat_ofNat_of_lt' (Nat.lt_of_not_le hbig)]
      exact hlow
    exact ⟨{ st₁ with state := s₂ },
      EStateM.bind_apply_error (StateTransition.useGas_error ({ st₁ with state := s₂ }) hlt) _, hb.gp_eq⟩

/-- A message whose gas was bought but does not cover its intrinsic gas fails
with `ErrOutOfGas`, and the gas it bought stays taken from the pool: no step
after `buyGas` gives it back. -/
theorem applyMessage_intrinsic_error_consumes_gas {s : StateDB} {gp : Nat} (hw : s.WellKeyed)
    (hpre : ∃ st₁, StateTransition.preCheck H env msg (NewStateTransition s gp) = .ok () st₁)
    (hlow : msg.Gas < IntrinsicGas msg.Data msg.To.isNone M.homestead) :
    (ApplyMessage H env M s msg gp).1 = .error .outOfGas ∧ (ApplyMessage H env M s msg gp).2.2 = gp - msg.Gas := by
  obtain ⟨st₁, hpre⟩ := hpre
  obtain ⟨st', hrun, hgp⟩ := transitionDb_intrinsic_error (M := M) hw rfl hpre hlow
  simp only [ApplyMessage, hrun]
  exact ⟨trivial, hgp⟩

/-- A sender that does not exist yet sends a call with 1 gas at gas price 0
from a pool of 100: the call fails, and the pool is left with 99. -/
theorem applyMessage_intrinsic_error_consumes_gas_one :
    (ApplyMessage ⟨fun _ => 0, fun _ => 0, fun _ => 0⟩ ⟨fun _ _ => none, ⟨fun _ => none, fun _ => none⟩⟩
        (idleMachine true 0) (New 0) ⟨1, some 2, 0, 1, 0, 0, true, []⟩ 100).1 = .error .outOfGas ∧
    (ApplyMessage ⟨fun _ => 0, fun _ => 0, fun _ => 0⟩ ⟨fun _ _ => none, ⟨fun _ => none, fun _ => none⟩⟩
        (idleMachine true 0) (New 0) ⟨1, some 2, 0, 1, 0, 0, true, []⟩ 100).2.2 = 100 - 1 :=
  applyMessage_intrinsic_error_consumes_gas (wellKeyed_New 0) ⟨_, rfl⟩ (by decide)

end

/-! ## The fee ledger of a successful message -/

section

variable {H : Hashing} {env : Env} {M : Machine} {msg : Message}

/-- Two credits, the second read after the first. -/
private theorem credit_twice_apply {α : Type} [DecidableEq α] (g : α → Int) (f c : α) (x y : Int) (a : α) :
    Function.update (Function.update g f (g f + x)) c (Function.update g f (g f + x) c + y) a =
      g a + (if a = f then x else 0) + (if a = c then y else 0) := by
  by_cases hc : a = c
  · subst hc
    by_cases hf : a = f
    · subst hf
      simp
    · simp [hf]
  · by_cases hf : a = f
    · subst hf
      simp [hc]
    · simp [Function.update_apply, hf, hc]

theorem transitionDb_fee_ledger (hM : M.Lawful) {s : StateDB} {gp : Nat} (hw : s.WellKeyed) (hr : 0 ≤ s.refund)
    {r : Option Bytes × Int × Int} {st' : StateTransition}
    (h : StateTransition.TransitionDb H env M msg (NewStateTransition s gp) = .ok r st') :
    ∃ sb ret leftover vmerr sa,
      EvmRan M msg msg.From sb (UInt64.ofNat (msg.Gas - IntrinsicGas msg.Data msg.To.isNone M.homestead))
        (ret, leftover, vmerr, sa) ∧
      (∀ a, sb.balanceOf env a = s.balanceOf env a - if a = msg.From then (msg.Gas : Int) * msg.GasPrice else 0) ∧
      r.2.2 = (msg.Gas : Int) - (leftover.toNat + min (((msg.Gas : Int) - leftover.toNat) / 2) sa.refund) ∧
      (st'.gp : Int) = gp - r.2.2 ∧
      (∀ a, st'.state.balanceOf env a = s.balanceOf env a + (sa.balanceOf env a - sb.balanceOf env a) -
        (if a = msg.From then r.2.2 * msg.GasPrice else 0) +
        (if a = M.Coinbase then r.2.2 * msg.GasPrice else 0)) ∧
      0 ≤ r.2.2 ∧ r.2.2 ≤ msg.Gas := by
  unfold StateTransition.TransitionDb at h
  -- the gas is bought
  obtain ⟨u, st₁, hpre, h⟩ := EStateM.bind_eq_ok.1 h
  have hb := StateTransition.preCheck_eq_ok hw hpre
  obtain ⟨s₂, hfrom, hbal₂, hw₂, hr₂⟩ := StateTransition.From_ok H env msg hb.wellKeyed
  rw [EStateM.bind_apply_ok hfrom] at h
  dsimp only at h
  -- the intrinsic gas fits and is paid
  have hbig : ¬ 2 ^ 64 ≤ IntrinsicGas msg.Data msg.To.isNone M.homestead := by
    intro hbig
    rw [if_pos hbig, EStateM.bind_apply_error (EStateM.throw_apply _ _)] at h
    cases h
  rw [if_neg hbig] at h
  have hgas₁ : st₁.gas.toNat = msg.Gas := by
    rw [hb.gas_eq]
    simp only [NewStateTransition, UInt64.zero_add]
    exact UInt64.toNat_ofNat_of_lt' hb.gas_lt
  have hpay : UInt64.ofNat (IntrinsicGas msg.Data msg.To.isNone M.homestead) ≤ st₁.gas := by
    by_contra hlt
    rw [EStateM.bind_apply_error
      (StateTransition.useGas_error ({ st₁ with state := s₂ }) (UInt64.not_le.1 hlt))] at h
    cases h
  rw [EStateM.bind_apply_ok (StateTransition.useGas_ok ({ st₁ with state := s₂ }) hpay)] at h
  dsimp only at h
  -- the EVM runs with the rest of the gas
  obtain ⟨sb, ret, vmerr, st₄, hexec, hran, hbsb, hwsb, hrsb, hgp₄, hinit₄⟩ :=
    StateTransition.execute_ok H env M msg
      ({ st₁ with state := s₂,
                        gas := st₁.gas - UInt64.ofNat (IntrinsicGas msg.Data msg.To.isNone M.homestead) })
      hw₂ msg.From
  rw [EStateM.bind_apply_ok hexec] at h
  dsimp only at h
  -- the value transfer did not fail
  have hv : vmerr ≠ some .insufficientBalance := by
    intro hv
    rw [if_pos hv, EStateM.bind_apply_error (EStateM.throw_apply _ _)] at h
    cases h
  rw [if_neg hv, EStateM.bind_apply_ok (EStateM.get_apply _)] at h
  -- what the EVM returned: at most the gas it was given, a well-keyed state,
  -- and a refund counter that is not negative
  have hrsb₀ : 0 ≤ sb.refund := by
    rw [hrsb]
    dsimp only
    rw [hr₂, hb.refund_eq]
    exact hr
  obtain ⟨hleft, hw₄, hr₄⟩ := hran.lawful hM hwsb hrsb₀
  have hgiven : (st₁.gas - UInt64.ofNat (IntrinsicGas msg.Data msg.To.isNone M.homestead)).toNat =
      msg.Gas - IntrinsicGas msg.Data msg.To.isNone M.homestead := by
    rw [UInt64.toNat_sub_of_le _ _ hpay, hgas₁, UInt64.toNat_ofNat_of_lt' (Nat.lt_of_not_le hbig)]
  have hinit₄' : st₄.initialGas = msg.Gas := by rw [hinit₄]; exact hb.initialGas_eq
  have hleft' : st₄.gas.toNat ≤ msg.Gas - IntrinsicGas msg.Data msg.To.isNone M.homestead := by
    rw [← hgiven]
    exact UInt64.le_iff_toNat_le.1 hleft
  -- the gas left and the refund go back
  obtain ⟨st₅, hrefund, hgas₅, hgp₅, hinit₅, hbal₅, hw₅⟩ :=
    StateTransition.refundGas_ok H env msg hw₄ hr₄ (by omega) (by rw [hinit₄']; exact hb.gas_lt)
  rw [EStateM.bind_apply_ok hrefund, EStateM.bind_apply_ok (EStateM.get_apply _),
    EStateM.bind_apply_ok (EStateM.set_apply _ _), EStateM.bind_apply_ok (EStateM.get_apply _),
    EStateM.pure_apply, EStateM.Result.ok.injEq] at h
  obtain ⟨rfl, rfl⟩ := h
  -- the miner is paid for the gas used
  obtain ⟨hbal₆, -⟩ := AddBalance_balanceOf H env hw₅ M.Coinbase (st₅.gasUsed * msg.GasPrice)
  have hran' : st₁.gas - UInt64.ofNat (IntrinsicGas msg.Data msg.To.isNone M.homestead) =
      UInt64.ofNat (msg.Gas - IntrinsicGas msg.Data msg.To.isNone M.homestead) := by
    have hlt : msg.Gas - IntrinsicGas msg.Data msg.To.isNone M.homestead < 2 ^ 64 := by
      have := hb.gas_lt
      omega
    apply UInt64.toNat_inj.1
    rw [hgiven, UInt64.toNat_ofNat_of_lt' hlt]
  have hsb : ∀ a, sb.balanceOf env a = s.balanceOf env a -
      if a = msg.From then (msg.Gas : Int) * msg.GasPrice else 0 := by
    intro a
    rw [hbsb]
    dsimp only
    rw [hbal₂, hb.balanceOf_eq, Function.update_apply]
    split_ifs with ha
    · rw [ha]
      rfl
    · simp [NewStateTransition]
  have hused₄ : st₄.gasUsed = msg.Gas - st₄.gas.toNat := by
    rw [StateTransition.gasUsed, hinit₄']
  have hused₅ : st₅.gasUsed = msg.Gas - st₅.gas.toNat := by
    rw [StateTransition.gasUsed, hinit₅, hinit₄']
  have hgp : st₄.gp = gp - msg.Gas := by
    rw [hgp₄]
    exact hb.gp_eq
  have hgp_le : msg.Gas ≤ gp := hb.gas_le_gp
  rw [hused₄] at hgas₅
  -- the gas returned is at most the gas bought
  have hback : (st₅.gas.toNat : Int) ≤ msg.Gas := by
    have := min_le_left (((msg.Gas : Int) - st₄.gas.toNat) / 2) st₄.state.refund
    omega
  have hgu : ({ st₅ with state := st₅.state.AddBalance H env M.Coinbase (st₅.gasUsed * msg.GasPrice) } :
      StateTransition).gasUsed = st₅.gasUsed := rfl
  refine ⟨sb, ret, st₄.gas, vmerr, st₄.state, by rw [← hran']; exact hran, hsb, ?_, ?_, ?_, ?_, ?_⟩
  · dsimp only
    rw [hgu, hused₅, hgas₅]
  · dsimp only
    rw [hgu, hused₅, hgp₅, hgp]
    omega
  · intro a
    dsimp only
    rw [hbal₆, hbal₅, credit_twice_apply, hsb a, hgu, hused₅]
    split_ifs <;> ring
  · dsimp only
    rw [hgu, hused₅]
    omega
  · dsimp only
    rw [hgu, hused₅]
    omega


/-- The account tries of a chain where only `a` exists, holding `balance`. -/
def soleAccountEnv (a : Address) (balance : Int) : Env :=
  ⟨fun _ x => if x = a then some ⟨0, balance, emptyRoot, 0⟩ else none, ⟨fun _ => none, fun _ => none⟩⟩

/-- Account 1 sends a plain call with 21000 gas at price 1 to an idle EVM
whose coinbase is account 3, from a pool of 21000. -/
theorem transitionDb_fee_ledger_transfer :
    ∃ r st', StateTransition.TransitionDb ⟨fun _ => 0, fun _ => 0, fun _ => 0⟩ (soleAccountEnv 1 1000000)
        (idleMachine true 3) ⟨1, some 2, 1, 21000, 0, 0, false, []⟩ (NewStateTransition (New 0) 21000) =
          .ok r st' ∧
      ∃ sb ret leftover vmerr sa,
        EvmRan (idleMachine true 3) ⟨1, some 2, 1, 21000, 0, 0, false, []⟩ 1 sb (UInt64.ofNat (21000 - 21000))
          (ret, leftover, vmerr, sa) ∧
        (∀ a, sb.balanceOf (soleAccountEnv 1 1000000) a =
          (New 0).balanceOf (soleAccountEnv 1 1000000) a - if a = 1 then (21000 : Int) * 1 else 0) ∧
        r.2.2 = (21000 : Int) - (leftover.toNat + min (((21000 : Int) - leftover.toNat) / 2) sa.refund) ∧
        (st'.gp : Int) = 21000 - r.2.2 ∧
        (∀ a, st'.state.balanceOf (soleAccountEnv 1 1000000) a =
          (New 0).balanceOf (soleAccountEnv 1 1000000) a +
              (sa.balanceOf (soleAccountEnv 1 1000000) a - sb.balanceOf (soleAccountEnv 1 1000000) a) -
            (if a = 1 then r.2.2 * 1 else 0) + (if a = 3 then r.2.2 * 1 else 0)) ∧
        0 ≤ r.2.2 ∧ r.2.2 ≤ 21000 := by
  -- run the message first, so that the ledger is checked against its result
  -- and not against the evaluated states
  obtain ⟨r, st', h⟩ : ∃ r st', StateTransition.TransitionDb ⟨fun _ => 0, fun _ => 0, fun _ => 0⟩
      (soleAccountEnv 1 1000000) (idleMachine true 3) ⟨1, some 2, 1, 21000, 0, 0, false, []⟩
      (NewStateTransition (New 0) 21000) = .ok r st' := ⟨_, _, rfl⟩
  exact ⟨r, st', h, transitionDb_fee_ledger (idleMachine_lawful true 3) (wellKeyed_New 0) le_rfl h⟩

/-- When the sender is the coinbase, the gas it pays comes back to it: its
balance does not drop by the gas used at the gas price, although the idle EVM
moved nothing. -/
theorem transitionDb_coinbase_sender_keeps_fee :
    ∃ r st', StateTransition.TransitionDb ⟨fun _ => 0, fun _ => 0, fun _ => 0⟩ (soleAccountEnv 1 1000000)
        (idleMachine true 1) ⟨1, some 2, 1, 21000, 0, 0, false, []⟩ (NewStateTransition (New 0) 21000) =
          .ok r st' ∧
      r.2.2 = 21000 ∧ st'.state.balanceOf (soleAccountEnv 1 1000000) 1 = 1000000 :=
  ⟨_, _, rfl, rfl, by decide +kernel⟩
end

end Core

end Bazacoin
