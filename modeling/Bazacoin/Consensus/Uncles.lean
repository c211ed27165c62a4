import Bazacoin.Core.Types
import Bazacoin.State.Balance

/-!
# Uncles and rewards (`consensus/bzhash/consensus.go`)

`VerifyUncles` gathers the hashes of the last seven ancestors of a block and
of their uncles, and accepts at most two uncles, each of them new, not an
ancestor, and the child of an ancestor other than the parent, with a valid
header. `AccumulateRewards` credits each uncle's coinbase with
`(uncle.Number + 8 - N) * blockReward / 8` and the block's coinbase with the
block reward and a 32nd of it per uncle.

A full faker (`NewFullFaker`) accepts any uncles. For every other engine, on
a chain whose every block passes `VerifyUncles`, the windows of seven
ancestors are enough: every uncle is the child of one of the seven ancestors
but the parent, so its number lies in the six numbers below the block's, no
hash is an uncle twice, and no uncle is an ancestor.

The proof goes through the window: `gatherAncestors_chain` says which blocks
and uncles the ancestor loop collects on a linked chain, `verifiedUncle` what
the uncle loop then knows of each uncle. Collision-free hashes enter twice: a
hash met twice is one header, so an uncle met in two blocks has one number,
which puts the earlier block in the later one's window; and an uncle that is
an ancestor below the window would have that ancestor's number.

The engine-specific parts of `verifyHeader` (`CalcDifficulty`, `VerifySeal`,
the DAO and fork-hash checks, and the clock) are parameters. The chain
reader is the chain: the blocks it holds, found by hash and number.
-/

namespace Bazacoin

namespace Bzhash

open State Bazacoin.Types

/-- `maxUncles`. -/
def maxUncles : Nat := 2

/-- `blockReward`, 5e+18 wei. -/
def blockReward : Int := 5000000000000000000

/-- `params.MaximumExtraDataSize`. -/
def MaximumExtraDataSize : Nat := 32

/-- `params.GasLimitBoundDivisor`. -/
def GasLimitBoundDivisor : Nat := 1024

/-- `params.MinGasLimit`. -/
def MinGasLimit : Nat := 5000

/-- The errors of `verifyHeader`, `verifyHeaderWorker` and `VerifyUncles`,
with the values their messages print. -/
inductive ConsensusError
  /-- `errTooManyUncles` -/
  | tooManyUncles
  /-- `errDuplicateUncle` -/
  | duplicateUncle
  /-- `errUncleIsAncestor` -/
  | uncleIsAncestor
  /-- `errDanglingUncle` -/
  | danglingUncle
  /-- `"extra-data too long: %d > %d"` -/
  | extraTooLong (length max : Nat)
  /-- `errLargeBlockTime` -/
  | largeBlockTime
  /-- `consensus.ErrFutureBlock` -/
  | futureBlock
  /-- `errZeroBlockTime` -/
  | zeroBlockTime
  /-- `"invalid difficulty: have %v, want %v"` -/
  | invalidDifficulty (got want : Nat)
  /-- `"invalid gasLimit: have %v, max %v"` -/
  | gasLimitTooHigh (got max : Nat)
  /-- `"invalid gasUsed: have %v, gasLimit %v"` -/
  | invalidGasUsed (got gasLimit : Nat)
  /-- `"invalid gas limit: have %v, want %v += %v"` -/
  | invalidGasLimit (got want bound : Nat)
  /-- `consensus.ErrInvalidNumber` -/
  | invalidNumber
  /-- `consensus.ErrUnknownAncestor` -/
  | unknownAncestor
  /-- an error of `VerifySeal`, `VerifyDAOHeaderExtraData` or `VerifyForkHashes` -/
  | rule (msg : String)
  deriving DecidableEq, Repr

/-- `Bzhash`, with the flag `VerifyUncles` reads. -/
structure Engine where
  fakeFull : Bool
  deriving DecidableEq, Repr

/-- The parts of `verifyHeader` that depend on the chain configuration, the
proof of work and the clock. -/
structure HeaderRules where
  /-- `CalcDifficulty(chain.Config(), time, parent)` -/
  calcDifficulty : Nat → Header → Nat
  /-- `VerifySeal` -/
  verifySeal : Header → Except ConsensusError Unit
  /-- `misc.VerifyDAOHeaderExtraData` and `misc.VerifyForkHashes` -/
  verifyForks : Header → Bool → Except ConsensusError Unit
  /-- `time.Now().Unix()` -/
  now : Nat

/-- `verifyHeader`; `checkSeal` is its argument `seal`. Each check returns
its error at once, so the checks are a chain of `else if`s. -/
def verifyHeader (rules : HeaderRules) (header parent : Header) (uncle checkSeal : Bool) :
    Except ConsensusError Unit :=
  -- the header's extra-data section is of a reasonable size
  if header.extra.length > MaximumExtraDataSize then
    .error (.extraTooLong header.extra.length MaximumExtraDataSize)
  -- the timestamp: an uncle's fits in 256 bits, a block's is not in the future
  else if uncle ∧ header.time > 2 ^ 256 - 1 then .error .largeBlockTime
  else if !uncle ∧ header.time > rules.now then .error .futureBlock
  else if header.time ≤ parent.time then .error .zeroBlockTime
  -- the difficulty from the timestamp and the parent's difficulty
  else if rules.calcDifficulty header.time parent ≠ header.difficulty then
    .error (.invalidDifficulty header.difficulty (rules.calcDifficulty header.time parent))
  else if header.gasLimit > 2 ^ 63 - 1 then .error (.gasLimitTooHigh header.gasLimit (2 ^ 63 - 1))
  else if header.gasUsed > header.gasLimit then .error (.invalidGasUsed header.gasUsed header.gasLimit)
  -- the gas limit stays within its bounds
  else if ((parent.gasLimit : Int) - header.gasLimit).natAbs ≥ parent.gasLimit / GasLimitBoundDivisor ∨
      header.gasLimit < MinGasLimit then
    .error (.invalidGasLimit header.gasLimit parent.gasLimit (parent.gasLimit / GasLimitBoundDivisor))
  -- the block number is the parent's plus one
  else if (header.number : Int) - parent.number ≠ 1 then .error .invalidNumber
  else do
    if checkSeal then rules.verifySeal header
    rules.verifyForks header uncle

section

variable (hash : Header → Hash)

/-- `n - 1` in `uint64`; below zero it wraps to 2^64 - 1, where no block is
stored, and is `none`. -/
def decNumber (n : Nat) : Option Nat := if n = 0 then none else some (n - 1)

/-- The ancestor loop of `VerifyUncles`: up to `k` ancestors from the block
`parent` at `number`, each added to `ancestors` and its uncles to `uncles`. -/
def gatherAncestors (getBlock : Hash → Nat → Option Block) :
    Nat → Hash → Option Nat → List Hash → (Hash → Option Header) → List Hash × (Hash → Option Header)
  | 0, _, _, uncles, ancestors => (uncles, ancestors)
  | k + 1, parent, number, uncles, ancestors =>
    match number.bind (getBlock parent) with
    | none => (uncles, ancestors)
    | some ancestor =>
      gatherAncestors getBlock k ancestor.parentHash (number.bind decNumber)
        (uncles ++ ancestor.uncles.map hash)
        (Function.update ancestors (hash ancestor.header) (some ancestor.header))

/-- The hashes of the uncles of the last seven ancestors of `block`, and the
ancestors by hash. -/
def ancestorWindow (getBlock : Hash → Nat → Option Block) (block : Block) :
    List Hash × (Hash → Option Header) :=
  gatherAncestors hash getBlock 7 block.parentHash (decNumber block.number) [] fun _ => none

/-- The uncle loop of `VerifyUncles` over the uncles not checked yet. -/
def checkUncles (rules : HeaderRules) (block : Block) (ancestors : Hash → Option Header) :
    List Hash → List Header → Except ConsensusError Unit
  | _, [] => .ok ()
  | uncles, uncle :: rest =>
    -- every uncle is rewarded only once
    if hash uncle ∈ uncles then .error .duplicateUncle
    -- the uncle has a valid ancestry
    else if (ancestors (hash uncle)).isSome then .error .uncleIsAncestor
    else
      match ancestors uncle.parentHash with
      | none => .error .danglingUncle
      | some parent =>
        if uncle.parentHash = block.parentHash then .error .danglingUncle
        else (verifyHeader rules uncle parent true true).bind fun _ =>
          checkUncles rules block ancestors (uncles ++ [hash uncle]) rest

/-- `VerifyUncles`. -/
def VerifyUncles (engine : Engine) (rules : HeaderRules) (getBlock : Hash → Nat → Option Block)
    (block : Block) : Except ConsensusError Unit :=
  -- a full faker accepts any input as valid
  if engine.fakeFull then .ok ()
  else if block.uncles.length > maxUncles then .error .tooManyUncles
  else
    -- the set of past uncles and ancestors
    let r := ancestorWindow hash getBlock block
    checkUncles hash rules block (Function.update r.2 (hash block.header) (some block.header))
      (r.1 ++ [hash block.header]) block.uncles

end

/-- The reward of an uncle included in the block numbered `number`:
`(uncle.Number + 8 - number) * blockReward / 8`. -/
def uncleReward (number : Nat) (uncle : Header) : Int :=
  ((uncle.number : Int) + 8 - number) * blockReward / 8

/-- One pass of the uncle loop of `AccumulateRewards`: the uncle's coinbase
is credited, and the block's reward grows by a 32nd of `blockReward`. -/
def rewardUncle (H : Hashing) (env : Env) (number : Nat) (acc : StateDB × Int) (uncle : Header) :
    StateDB × Int :=
  (acc.1.AddBalance H env uncle.coinbase (uncleReward number uncle), acc.2 + blockReward / 32)

/-- `AccumulateRewards`. -/
def AccumulateRewards (H : Hashing) (env : Env) (s : StateDB) (header : Header) (uncles : List Header) :
    StateDB :=
  let r := uncles.foldl (rewardUncle H env header.number) (s, blockReward)
  r.1.AddBalance H env header.coinbase r.2

/-! ## What the checks establish -/

/-- A header that passes `verifyHeader` is numbered one above its parent. -/
theorem verifyHeader_number {rules : HeaderRules} {header parent : Header} {uncle checkSeal : Bool}
    (h : verifyHeader rules header parent uncle checkSeal = .ok ()) : header.number = parent.number + 1 := by
  unfold verifyHeader at h
  -- every failed check returns its error; the number check passed
  split_ifs at h with _ _ _ _ _ _ _ _ hnum <;> first | cases h | omega

section

variable {hash : Header → Hash} {rules : HeaderRules} {block : Block} {ancestors : Hash → Option Header}

/-- What `checkUncles` establishes of each uncle it accepts. -/
theorem checkUncles_ok {uncles : List Hash} {us : List Header}
    (h : checkUncles hash rules block ancestors uncles us = .ok ()) :
    ∀ u ∈ us, hash u ∉ uncles ∧ ancestors (hash u) = none ∧
      ∃ parent, ancestors u.parentHash = some parent ∧ u.parentHash ≠ block.parentHash ∧
        verifyHeader rules u parent true true = .ok () := by
  induction us generalizing uncles with
  | nil => simp
  | cons u rest ih =>
    unfold checkUncles at h
    -- the checks in the order the loop makes them
    by_cases hdup : hash u ∈ uncles
    · rw [if_pos hdup] at h
      cases h
    rw [if_neg hdup] at h
    by_cases hanc : (ancestors (hash u)).isSome
    · rw [if_pos hanc] at h
      cases h
    rw [if_neg hanc] at h
    cases hp : ancestors u.parentHash with
    | none =>
      rw [hp] at h
      cases h
    | some parent =>
      rw [hp] at h
      dsimp only at h
      by_cases hdang : u.parentHash = block.parentHash
      · rw [if_pos hdang] at h
        cases h
      rw [if_neg hdang] at h
      obtain ⟨_, hver, hrest⟩ := Except.bind_eq_ok.1 h
      intro v hv
      rcases List.mem_cons.1 hv with rfl | hv
      · exact ⟨hdup, Option.not_isSome_iff_eq_none.1 hanc, parent, hp, hdang, hver⟩
      · obtain ⟨hnew, hnot, hpar⟩ := ih hrest v hv
        exact ⟨fun hm => hnew (List.mem_append_left _ hm), hnot, hpar⟩

end

section

variable {hash : Header → Hash} {rules : HeaderRules} {engine : Engine}
  {getBlock : Hash → Nat → Option Block} {block : Block}

/-- What `VerifyUncles` establishes when the engine is not a full faker: at
most two uncles, none of them among the window's uncles, the block or its
ancestors, each the child of a block of the window other than the parent. -/
theorem verifyUncles_ok (hfake : engine.fakeFull = false)
    (h : VerifyUncles hash engine rules getBlock block = .ok ()) :
    block.uncles.length ≤ maxUncles ∧
      ∀ u ∈ block.uncles, hash u ∉ (ancestorWindow hash getBlock block).1 ∧ hash u ≠ hash block.header ∧
        (ancestorWindow hash getBlock block).2 (hash u) = none ∧
        ∃ parent, Function.update (ancestorWindow hash getBlock block).2 (hash block.header)
            (some block.header) u.parentHash = some parent ∧
          u.parentHash ≠ block.parentHash ∧ verifyHeader rules u parent true true = .ok () := by
  unfold VerifyUncles at h
  rw [if_neg (by simp [hfake])] at h
  by_cases hlen : block.uncles.length > maxUncles
  · rw [if_pos hlen] at h
    cases h
  rw [if_neg hlen] at h
  refine ⟨Nat.le_of_not_lt hlen, fun u hu => ?_⟩
  obtain ⟨hnew, hnot, hpar⟩ := checkUncles_ok h u hu
  have hself : hash u ≠ hash block.header := fun he => hnew (List.mem_append_right _ (by simp [he]))
  refine ⟨fun hm => hnew (List.mem_append_left _ hm), hself, ?_, hpar⟩
  rwa [Function.update_of_ne hself] at hnot

end

/-! ## Along a chain -/

/-- `chain` runs from a genesis block, oldest first: the block at each
position has that number and is the child of the block before it. -/
structure Linked (hash : Header → Hash) (chain : List Block) : Prop where
  number : ∀ j (hj : j < chain.length), chain[j].number = j
  parent : ∀ j (hj : j + 1 < chain.length), chain[j + 1].parentHash = hash chain[j].header

/-- The chain reader finds each block of `chain` by its hash and number. -/
def ReadsChain (hash : Header → Hash) (getBlock : Hash → Nat → Option Block) (chain : List Block) : Prop :=
  ∀ j (hj : j < chain.length), getBlock (hash chain[j].header) chain[j].number = some chain[j]

section

variable {hash : Header → Hash} {getBlock : Hash → Nat → Option Block} {chain : List Block}

theorem gatherAncestors_none (k : Nat) (parent : Hash) (uncles : List Hash) (ancestors : Hash → Option Header) :
    gatherAncestors hash getBlock k parent none uncles ancestors = (uncles, ancestors) := by
  cases k <;> rfl

/-- The ancestor loop from the block at position `m` of a chain, for `k`
steps: it adds the blocks from position `m` down to `m - k + 1`, and their
uncles. -/
theorem gatherAncestors_chain (hl : Linked hash chain) (hr : ReadsChain hash getBlock chain) (k : Nat) :
    ∀ {m} (hm : m < chain.length) {uncles uncles' : List Hash} {ancestors ancestors' : Hash → Option Header},
      gatherAncestors hash getBlock k (hash chain[m].header) (some chain[m].number) uncles ancestors =
        (uncles', ancestors') →
      (∀ x, x ∈ uncles' ↔ x ∈ uncles ∨
        ∃ j, ∃ hj : j < chain.length, j ≤ m ∧ m < j + k ∧ x ∈ chain[j].uncles.map hash) ∧
      (∀ x X, ancestors' x = some X → ancestors x = some X ∨
        ∃ j, ∃ hj : j < chain.length, j ≤ m ∧ m < j + k ∧ X = chain[j].header ∧ x = hash X) ∧
      (∀ x, ancestors x ≠ none → ancestors' x ≠ none) ∧
      (∀ j (hj : j < chain.length), j ≤ m → m < j + k → ancestors' (hash chain[j].header) ≠ none) := by
  induction k with
  | zero =>
    intro m hm uncles uncles' ancestors ancestors' h
    obtain ⟨rfl, rfl⟩ := Prod.mk.inj h
    refine ⟨fun x => ?_, fun x X hx => .inl hx, fun x hx => hx, fun j _ hjm hmj => by omega⟩
    constructor
    · exact .inl
    · rintro (hx | ⟨j, hj, hjm, hmj, -⟩)
      · exact hx
      · omega
  | succ k ih =>
    intro m hm uncles uncles' ancestors ancestors' h
    rw [gatherAncestors, Option.bind_some, hr m hm] at h
    dsimp only at h
    rw [Option.bind_some] at h
    -- what the rest of the loop adds after the block at `m`: the blocks below it
    have hR : (∀ x, x ∈ uncles' ↔ x ∈ uncles ++ chain[m].uncles.map hash ∨
          ∃ j, ∃ hj : j < chain.length, j < m ∧ m < j + (k + 1) ∧ x ∈ chain[j].uncles.map hash) ∧
        (∀ x X, ancestors' x = some X →
          Function.update ancestors (hash chain[m].header) (some chain[m].header) x = some X ∨
            ∃ j, ∃ hj : j < chain.length, j < m ∧ m < j + (k + 1) ∧ X = chain[j].header ∧ x = hash X) ∧
        (∀ x, Function.update ancestors (hash chain[m].header) (some chain[m].header) x ≠ none →
          ancestors' x ≠ none) ∧
        (∀ j (hj : j < chain.length), j < m → m < j + (k + 1) → ancestors' (hash chain[j].header) ≠ none) := by
      cases m with
      | zero =>
        -- below the genesis block the number wraps and the loop stops
        rw [hl.number 0 hm, decNumber, if_pos rfl, gatherAncestors_none] at h
        obtain ⟨rfl, rfl⟩ := Prod.mk.inj h
        exact ⟨fun x => by simp, fun x X hx => .inl hx, fun x hx => hx, fun j _ hj => by omega⟩
      | succ m =>
        -- the parent is the block at `m`, one number down
        have hm' : m < chain.length := by omega
        rw [hl.parent m hm, hl.number (m + 1) hm, decNumber, if_neg (by omega), Nat.add_sub_cancel] at h
        have h' : gatherAncestors hash getBlock k (hash chain[m].header) (some chain[m].number)
            (uncles ++ chain[m + 1].uncles.map hash)
            (Function.update ancestors (hash chain[m + 1].header) (some chain[m + 1].header)) =
              (uncles', ancestors') := by
          rw [hl.number m hm']
          exact h
        obtain ⟨h1, h2, h3, h4⟩ := ih hm' h'
        refine ⟨fun x => ?_, fun x X hx => ?_, h3, fun j hj hjm hmj => h4 j hj (by omega) (by omega)⟩
        · rw [h1 x]
          constructor
          · rintro (hx | ⟨j, hj, hjm, hmj, hx⟩)
            · exact .inl hx
            · exact .inr ⟨j, hj, by omega, by omega, hx⟩
          · rintro (hx | ⟨j, hj, hjm, hmj, hx⟩)
            · exact .inl hx
            · exact .inr ⟨j, hj, by omega, by omega, hx⟩
        · rcases h2 x X hx with hx | ⟨j, hj, hjm, hmj, hX⟩
          · exact .inl hx
          · exact .inr ⟨j, hj, by omega, by omega, hX⟩
    obtain ⟨h1, h2, h3, h4⟩ := hR
    refine ⟨fun x => ?_, fun x X hx => ?_, fun x hx => h3 x ?_, fun j hj hjm hmj => ?_⟩
    · rw [h1 x, List.mem_append]
      constructor
      · rintro ((hx | hx) | ⟨j, hj, hjm, hmj, hx⟩)
        · exact .inl hx
        · exact .inr ⟨m, hm, le_rfl, by omega, hx⟩
        · exact .inr ⟨j, hj, by omega, hmj, hx⟩
      · rintro (hx | ⟨j, hj, hjm, hmj, hx⟩)
        · exact .inl (.inl hx)
        · rcases Nat.lt_or_eq_of_le hjm with hlt | rfl
          · exact .inr ⟨j, hj, hlt, hmj, hx⟩
          · exact .inl (.inr hx)
    · rcases h2 x X hx with hx | ⟨j, hj, hjm, hmj, hX⟩
      · rw [Function.update_apply] at hx
        split_ifs at hx with hxm
        · cases hx
          exact .inr ⟨m, hm, le_rfl, by omega, rfl, hxm⟩
        · exact .inl hx
      · exact .inr ⟨j, hj, by omega, hmj, hX⟩
    · rw [Function.update_apply]
      split_ifs <;> simp [hx]
    · rcases Nat.lt_or_eq_of_le hjm with hlt | rfl
      · exact h4 j hj hlt hmj
      · exact h3 _ (by simp)

/-- The window of the block at position `i`: the blocks at the seven
positions below it, and their uncles. -/
theorem ancestorWindow_chain (hl : Linked hash chain) (hr : ReadsChain hash getBlock chain) {i : Nat}
    (hi : i < chain.length) :
    (∀ x, x ∈ (ancestorWindow hash getBlock chain[i]).1 ↔
      ∃ j, ∃ hj : j < chain.length, j < i ∧ i ≤ j + 7 ∧ x ∈ chain[j].uncles.map hash) ∧
    (∀ x X, (ancestorWindow hash getBlock chain[i]).2 x = some X →
      ∃ j, ∃ hj : j < chain.length, j < i ∧ i ≤ j + 7 ∧ X = chain[j].header ∧ x = hash X) ∧
    (∀ j (hj : j < chain.length), j < i → i ≤ j + 7 →
      (ancestorWindow hash getBlock chain[i]).2 (hash chain[j].header) ≠ none) := by
  cases i with
  | zero =>
    -- below the genesis block there is nothing to gather
    have hw : ancestorWindow hash getBlock chain[0] = ([], fun _ => none) := by
      rw [ancestorWindow, hl.number 0 hi, decNumber, if_pos rfl, gatherAncestors_none]
    rw [hw]
    exact ⟨fun x => by simp, fun x X hx => (by cases hx), fun j _ hj => by omega⟩
  | succ i =>
    have hi' : i < chain.length := by omega
    generalize hw : ancestorWindow hash getBlock chain[i + 1] = w
    obtain ⟨U, A⟩ := w
    have hg : gatherAncestors hash getBlock 7 (hash chain[i].header) (some chain[i].number) [] (fun _ => none) =
        (U, A) := by
      rw [← hw, ancestorWindow, hl.parent i hi, hl.number (i + 1) hi, decNumber, if_neg (by omega),
        Nat.add_sub_cancel, hl.number i hi']
    obtain ⟨h1, h2, -, h4⟩ := gatherAncestors_chain hl hr 7 hi' hg
    refine ⟨fun x => ?_, fun x X hx => ?_, fun j hj hji hij => h4 j hj (by omega) (by omega)⟩
    · rw [h1 x]
      constructor
      · rintro (hx | ⟨j, hj, hji, hij, hx⟩)
        · cases hx
        · exact ⟨j, hj, by omega, by omega, hx⟩
      · rintro ⟨j, hj, hji, hij, hx⟩
        exact .inr ⟨j, hj, by omega, by omega, hx⟩
    · rcases h2 x X hx with hx | ⟨j, hj, hji, hij, hX⟩
      · cases hx
      · exact ⟨j, hj, by omega, by omega, hX⟩

variable {rules : HeaderRules} {engine : Engine}

/-- An uncle of the block at position `i` of a verified chain is the child of
a block two to seven positions below, so it is numbered one to six below the
block; and its hash is none of the window's uncles or blocks, nor the block's. -/
theorem verifiedUncle (hfake : engine.fakeFull = false) (hl : Linked hash chain)
    (hr : ReadsChain hash getBlock chain) {i : Nat} (hi : i < chain.length)
    (hv : VerifyUncles hash engine rules getBlock chain[i] = .ok ())
    (hself : ∀ u ∈ chain[i].uncles, u.parentHash ≠ hash chain[i].header) {u : Header} (hu : u ∈ chain[i].uncles) :
    i ≤ u.number + 6 ∧ u.number + 1 ≤ i ∧ hash u ≠ hash chain[i].header ∧
      ∀ j (hj : j < chain.length), j < i → i ≤ j + 7 →
        hash u ∉ chain[j].uncles.map hash ∧ hash u ≠ hash chain[j].header := by
  obtain ⟨-, hver⟩ := verifyUncles_ok hfake hv
  obtain ⟨hnew, hne, hnot, parent, hpar, hdang, hhead⟩ := hver u hu
  obtain ⟨w1, w2, w3⟩ := ancestorWindow_chain hl hr hi
  -- the parent is a block of the window, not the block itself
  rw [Function.update_of_ne (hself u hu)] at hpar
  obtain ⟨k, hk, hki, hik, rfl, hpk⟩ := w2 _ _ hpar
  -- nor the block's parent
  have hk2 : k + 1 ≠ i := by
    rintro rfl
    exact hdang (hpk.trans (hl.parent k hi).symm)
  have hnum : u.number = k + 1 := by
    rw [verifyHeader_number hhead]
    exact congrArg (· + 1) (hl.number k hk)
  refine ⟨by omega, by omega, hne, fun j hj hji hij => ⟨fun hm => hnew ((w1 _).2 ⟨j, hj, hji, hij, hm⟩), ?_⟩⟩
  intro he
  exact w3 j hj hji hij (he ▸ hnot)

end

/-- The reward of an uncle one to six numbers below its includer lies
between a quarter and seven eighths of the block reward. -/
theorem uncleReward_bounds {number : Nat} {uncle : Header} (hlo : number ≤ uncle.number + 6)
    (hhi : uncle.number + 1 ≤ number) :
    blockReward / 4 ≤ uncleReward number uncle ∧ uncleReward number uncle ≤ 7 * blockReward / 8 := by
  unfold uncleReward blockReward
  omega

section

variable (H : Hashing) (env : Env)

/-- The uncle loop of `AccumulateRewards` credits each uncle's coinbase with
its reward and adds a 32nd of the block reward per uncle. -/
theorem foldl_rewardUncle (number : Nat) (uncles : List Header) :
    ∀ {s : StateDB} (reward : Int), s.WellKeyed →
      (∀ a, (uncles.foldl (rewardUncle H env number) (s, reward)).1.balanceOf env a =
        s.balanceOf env a + ((uncles.filter fun u => u.coinbase = a).map (uncleReward number)).sum) ∧
      (uncles.foldl (rewardUncle H env number) (s, reward)).2 = reward + uncles.length * (blockReward / 32) ∧
      (uncles.foldl (rewardUncle H env number) (s, reward)).1.WellKeyed := by
  induction uncles with
  | nil => intro s reward hw; simpa using hw
  | cons u us ih =>
    intro s reward hw
    obtain ⟨hbal, hw'⟩ := StateDB.AddBalance_balanceOf H env hw u.coinbase (uncleReward number u)
    obtain ⟨h1, h2, h3⟩ := ih (reward + blockReward / 32) hw'
    refine ⟨fun a => ?_, ?_, h3⟩
    · rw [List.foldl_cons, rewardUncle, h1 a, hbal, List.filter_cons]
      by_cases ha : a = u.coinbase
      · subst ha
        simp only [Function.update_self, decide_true, if_true, List.map_cons, List.sum_cons]
        ring
      · rw [Function.update_of_ne ha, if_neg (by simpa using Ne.symm ha)]
    · rw [List.foldl_cons, rewardUncle, h2, List.length_cons]
      push_cast
      ring

/-- `AccumulateRewards` credits each uncle's coinbase with the uncle's reward
and the block's coinbase with the block reward and a 32nd of it per uncle. -/
theorem AccumulateRewards_balanceOf {s : StateDB} (hw : s.WellKeyed) (header : Header)
    (uncles : List Header) (a : Address) :
    (AccumulateRewards H env s header uncles).balanceOf env a =
      s.balanceOf env a + ((uncles.filter fun u => u.coinbase = a).map (uncleReward header.number)).sum +
        if a = header.coinbase then blockReward + uncles.length * (blockReward / 32) else 0 := by
  obtain ⟨h1, h2, h3⟩ := foldl_rewardUncle H env header.number uncles blockReward hw
  rw [AccumulateRewards, (StateDB.AddBalance_balanceOf H env h3 _ _).1, h2]
  by_cases ha : a = header.coinbase
  · subst ha
    rw [Function.update_self, h1, if_pos rfl]
  · rw [Function.update_of_ne ha, h1, if_neg ha, add_zero]

end

section

variable {hash : Header → Hash} {getBlock : Hash → Nat → Option Block} {chain : List Block}
  {rules : HeaderRules} {engine : Engine}

/-- Uncle rewards are paid once and bounded. On a chain from the genesis
block, read back by the chain reader, whose every block passes `VerifyUncles`
of an engine that is not a full faker, with hashes that do not collide on
its blocks and uncles and no uncle whose parent is its own includer: no hash
is an uncle of two blocks, no uncle is an ancestor of (or is) its includer,
and each block has at most two uncles, each rewarded with a value in
`[blockReward/4, 7*blockReward/8]`, and its coinbase
`blockReward * (32 + k) / 32` for its `k` uncles. -/
theorem verifyUncles_chain_rewards (hfake : engine.fakeFull = false) (hl : Linked hash chain)
    (hr : ReadsChain hash getBlock chain)
    (hinj : Set.InjOn hash {h | ∃ b ∈ chain, h = b.header ∨ h ∈ b.uncles})
    (hself : ∀ b ∈ chain, ∀ u ∈ b.uncles, u.parentHash ≠ hash b.header)
    (hver : ∀ b ∈ chain, VerifyUncles hash engine rules getBlock b = .ok ()) :
    (∀ i j (hi : i < chain.length) (hj : j < chain.length), i < j →
      ∀ u ∈ chain[i].uncles, ∀ v ∈ chain[j].uncles, hash u ≠ hash v) ∧
    (∀ i j (hi : i < chain.length) (hj : j < chain.length), j ≤ i →
      ∀ u ∈ chain[i].uncles, hash u ≠ hash chain[j].header) ∧
    (∀ b ∈ chain, b.uncles.length ≤ maxUncles ∧
      (∀ u ∈ b.uncles, blockReward / 4 ≤ uncleReward b.number u ∧ uncleReward b.number u ≤ 7 * blockReward / 8) ∧
      ∀ (H : Hashing) (env : Env) (s : StateDB), s.WellKeyed → ∀ a,
        (AccumulateRewards H env s b.header b.uncles).balanceOf env a =
          s.balanceOf env a + ((b.uncles.filter fun u => u.coinbase = a).map (uncleReward b.number)).sum +
            if a = b.header.coinbase then blockReward * (32 + b.uncles.length) / 32 else 0) := by
  -- the facts `VerifyUncles` gives about each uncle of the block at position `i`
  have hunc : ∀ i (hi : i < chain.length), ∀ u ∈ chain[i].uncles,
      i ≤ u.number + 6 ∧ u.number + 1 ≤ i ∧ hash u ≠ hash chain[i].header ∧
        ∀ j (hj : j < chain.length), j < i → i ≤ j + 7 →
          hash u ∉ chain[j].uncles.map hash ∧ hash u ≠ hash chain[j].header := fun i hi u hu =>
    verifiedUncle hfake hl hr hi (hver _ (List.getElem_mem hi)) (hself _ (List.getElem_mem hi)) hu
  refine ⟨?_, ?_, ?_⟩
  · -- an uncle of two blocks would be in the window of the later one
    intro i j hi hj hij u hu v hv heq
    obtain ⟨-, hiu, -⟩ := hunc i hi u hu
    obtain ⟨hjv, -, -, hwin⟩ := hunc j hj v hv
    obtain rfl : u = v := hinj ⟨_, List.getElem_mem hi, .inr hu⟩ ⟨_, List.getElem_mem hj, .inr hv⟩ heq
    exact (hwin i hi hij (by omega)).1 (List.mem_map_of_mem hu)
  · -- an ancestor in the window is excluded by `VerifyUncles`, one below it
    -- by its number
    intro i j hi hj hji u hu heq
    obtain ⟨hlo, hhi, hne, hwin⟩ := hunc i hi u hu
    rcases Nat.eq_or_lt_of_le hji with rfl | hlt
    · exact hne heq
    by_cases hnear : i ≤ j + 7
    · exact (hwin j hj hlt hnear).2 heq
    · obtain rfl : u = chain[j].header :=
        hinj ⟨_, List.getElem_mem hi, .inr hu⟩ ⟨_, List.getElem_mem hj, .inl rfl⟩ heq
      have := hl.number j hj
      simp only [Block.number] at this
      omega
  · intro b hb
    obtain ⟨i, hi, rfl⟩ := List.getElem_of_mem hb
    have hnum : chain[i].number = i := hl.number i hi
    refine ⟨(verifyUncles_ok hfake (hver _ hb)).1, fun u hu => ?_, fun H env s hw a => ?_⟩
    · obtain ⟨hlo, hhi, -⟩ := hunc i hi u hu
      exact uncleReward_bounds (by omega) (by omega)
    · have hk : blockReward + (chain[i].uncles.length : Int) * (blockReward / 32) =
          blockReward * (32 + chain[i].uncles.length) / 32 := by
        unfold blockReward
        omega
      rw [AccumulateRewards_balanceOf H env hw, hk]
      rfl

end

/-- Headers hashed by their times, for runs on small chains. -/
def timeHash (h : Header) : Hash := BitVec.ofNat 256 h.time

/-- A chain reader over a list of blocks, finding a block by hash and number. -/
def readChain (hash : Header → Hash) (chain : List Block) (h : Hash) (n : Nat) : Option Block :=
  chain.find? fun b => hash b.header = h ∧ b.number = n

/-- Rules with difficulty one and no seal or fork checks. -/
def lenientRules : HeaderRules := ⟨fun _ _ => 1, fun _ => .ok (), fun _ _ => .ok (), 0⟩

/-- `G ← B1 ← B2`, where `B2` includes an uncle mined by account 7: a second
child of `G`. -/
def uncleChain : List Block :=
  [⟨⟨0, 0, 1, 0, 5120000, 0, 1, [], 0⟩, [], []⟩, ⟨⟨1, 0, 1, 1, 5120000, 0, 2, [], 0⟩, [], []⟩,
    ⟨⟨2, 0, 1, 2, 5120000, 0, 3, [], 0⟩, [], [⟨1, 7, 1, 1, 5120000, 0, 5, [], 0⟩]⟩]

/-- The headers and uncles of a chain are distinct when their times are. -/
theorem timeHash_injOn_uncleChain :
    Set.InjOn timeHash {h | ∃ b ∈ uncleChain, h = b.header ∨ h ∈ b.uncles} := by
  have hmem : ∀ h ∈ {h | ∃ b ∈ uncleChain, h = b.header ∨ h ∈ b.uncles},
      h = ⟨0, 0, 1, 0, 5120000, 0, 1, [], 0⟩ ∨ h = ⟨1, 0, 1, 1, 5120000, 0, 2, [], 0⟩ ∨
        h = ⟨2, 0, 1, 2, 5120000, 0, 3, [], 0⟩ ∨ h = ⟨1, 7, 1, 1, 5120000, 0, 5, [], 0⟩ := by
    rintro h ⟨b, hb, hh⟩
    simp only [uncleChain, List.mem_cons, List.not_mem_nil, or_false] at hb
    rcases hb with rfl | rfl | rfl <;> simp_all
  intro x hx y hy hxy
  rcases hmem x hx with rfl | rfl | rfl | rfl <;> rcases hmem y hy with rfl | rfl | rfl | rfl <;>
    first | rfl | exact absurd hxy (by decide)

/-- The chain `uncleChain` meets every assumption of
`verifyUncles_chain_rewards`. -/
theorem verifyUncles_chain_rewards_uncleChain :
    (⟨false⟩ : Engine).fakeFull = false ∧ Linked timeHash uncleChain ∧
      ReadsChain timeHash (readChain timeHash uncleChain) uncleChain ∧
      Set.InjOn timeHash {h | ∃ b ∈ uncleChain, h = b.header ∨ h ∈ b.uncles} ∧
      (∀ b ∈ uncleChain, ∀ u ∈ b.uncles, u.parentHash ≠ timeHash b.header) ∧
      (∀ b ∈ uncleChain, VerifyUncles timeHash ⟨false⟩ lenientRules (readChain timeHash uncleChain) b = .ok ()) ∧
      ((∀ i j (hi : i < uncleChain.length) (hj : j < uncleChain.length), i < j →
        ∀ u ∈ uncleChain[i].uncles, ∀ v ∈ uncleChain[j].uncles, timeHash u ≠ timeHash v) ∧
      (∀ i j (hi : i < uncleChain.length) (hj : j < uncleChain.length), j ≤ i →
        ∀ u ∈ uncleChain[i].uncles, timeHash u ≠ timeHash uncleChain[j].header) ∧
      (∀ b ∈ uncleChain, b.uncles.length ≤ maxUncles ∧
        (∀ u ∈ b.uncles, blockReward / 4 ≤ uncleReward b.number u ∧ uncleReward b.number u ≤ 7 * blockReward / 8) ∧
        ∀ (H : Hashing) (env : Env) (s : StateDB), s.WellKeyed → ∀ a,
          (AccumulateRewards H env s b.header b.uncles).balanceOf env a =
            s.balanceOf env a + ((b.uncles.filter fun u => u.coinbase = a).map (uncleReward b.number)).sum +
              if a = b.header.coinbase then blockReward * (32 + b.uncles.length) / 32 else 0)) :=
  have hl : Linked timeHash uncleChain := ⟨by decide, fun j hj => by
    have hj' : j < 2 := Nat.lt_of_succ_lt_succ hj
    interval_cases j <;> rfl⟩
  have hr : ReadsChain timeHash (readChain timeHash uncleChain) uncleChain := by
    unfold ReadsChain
    decide
  have hself : ∀ b ∈ uncleChain, ∀ u ∈ b.uncles, u.parentHash ≠ timeHash b.header := by decide
  have hver : ∀ b ∈ uncleChain,
      VerifyUncles timeHash ⟨false⟩ lenientRules (readChain timeHash uncleChain) b = .ok () := by decide
  ⟨rfl, hl, hr, timeHash_injOn_uncleChain, hself, hver,
    verifyUncles_chain_rewards rfl hl hr timeHash_injOn_uncleChain hself hver⟩

end Bzhash

end Bazacoin
