import Bazacoin.Consensus.Uncles

/-!
# The miner's gas limit (`core/block_validator.go`)

`CalcGasLimit` picks the gas limit of the block to mine from its parent's
limit `P` and gas used `U`. It moves `P` down by `P/1024 - 1` and up by
`(3U/2)/1024`, clamps at `MinGasLimit`, and while the result is below the
target (`params.TargetGasLimit`, `GenesisGasLimit` unless the
`--targetgaslimit` flag sets it) climbs as fast as the consensus rule lets it,
up to the target.

`verifyHeader` accepts a gas limit that differs from the parent's by less
than `P/1024` and is at least `MinGasLimit` (`gasLimitValid_of_verifyHeader`).
Every limit `CalcGasLimit` picks passes when the target is at least `5124`,
the default among them (`calcGasLimit_valid`). Below that, a parent with limit
and gas used `5119` moves up by `(3·5119/2)/1024 - 3 = 4 = P/1024`, and the
block is rejected (`calcGasLimit_rejected_below_5124`).
-/

namespace Bazacoin

namespace Core

open Bazacoin.Types Bazacoin.Bzhash

/-- `params.GenesisGasLimit`, the default of `params.TargetGasLimit`. -/
def GenesisGasLimit : Nat := 4712388

/-- `CalcGasLimit`, over `big.Int`; the target is the package variable
`params.TargetGasLimit`. -/
def CalcGasLimit (TargetGasLimit : Nat) (parent : Block) : Int :=
  -- contrib = (parentGasUsed * 3 / 2) / 1024
  let contrib : Int := (parent.header.gasUsed : Int) * 3 / 2 / GasLimitBoundDivisor
  -- decay = parentGasLimit / 1024 - 1
  let decay : Int := (parent.header.gasLimit : Int) / GasLimitBoundDivisor - 1
  let gl : Int := max ((parent.header.gasLimit : Int) - decay + contrib) MinGasLimit
  -- below the target, climb as much as the rule allows, up to the target
  if gl < TargetGasLimit then min ((parent.header.gasLimit : Int) + decay) TargetGasLimit else gl

/-- The gas-limit check of `verifyHeader`: the limit moves by less than a
1024th of the parent's, and is at least `MinGasLimit`. -/
def gasLimitValid (parentGasLimit : Nat) (gasLimit : Int) : Prop :=
  (parentGasLimit - gasLimit).natAbs < parentGasLimit / GasLimitBoundDivisor ∧ MinGasLimit ≤ gasLimit

instance (parentGasLimit : Nat) (gasLimit : Int) : Decidable (gasLimitValid parentGasLimit gasLimit) :=
  inferInstanceAs (Decidable (_ ∧ _))

/-- A header `verifyHeader` accepts has a valid gas limit. -/
theorem gasLimitValid_of_verifyHeader {rules : HeaderRules} {header parent : Header}
    {uncle checkSeal : Bool} (h : verifyHeader rules header parent uncle checkSeal = .ok ()) :
    gasLimitValid parent.gasLimit header.gasLimit := by
  by_contra hinvalid
  have hcheck : ((parent.gasLimit : Int) - header.gasLimit).natAbs ≥
      parent.gasLimit / GasLimitBoundDivisor ∨ header.gasLimit < MinGasLimit := by
    unfold gasLimitValid at hinvalid
    omega
  -- every branch before the gas-limit check rejects, and that check does
  unfold verifyHeader at h
  split_ifs at h

/-! ## The limits `CalcGasLimit` picks -/

section

variable {TargetGasLimit : Nat} {parent : Block}

/-- Below the target the limit climbs by `P/1024 - 1`, up to the target. -/
theorem calcGasLimit_of_lt
    (h : max ((parent.header.gasLimit : Int) - (parent.header.gasLimit / 1024 - 1) +
      parent.header.gasUsed * 3 / 2 / 1024) 5000 < TargetGasLimit) :
    CalcGasLimit TargetGasLimit parent =
      min ((parent.header.gasLimit : Int) + (parent.header.gasLimit / 1024 - 1)) TargetGasLimit := by
  unfold CalcGasLimit
  dsimp only
  split
  case isTrue => rfl
  case isFalse hge => exact absurd h hge

/-- At or above the target the limit is the decayed one raised by the usage,
clamped at `MinGasLimit`. -/
theorem calcGasLimit_of_ge
    (h : TargetGasLimit ≤ max ((parent.header.gasLimit : Int) - (parent.header.gasLimit / 1024 - 1) +
      parent.header.gasUsed * 3 / 2 / 1024) 5000) :
    CalcGasLimit TargetGasLimit parent =
      max ((parent.header.gasLimit : Int) - (parent.header.gasLimit / 1024 - 1) +
        parent.header.gasUsed * 3 / 2 / 1024) 5000 := by
  unfold CalcGasLimit
  dsimp only
  split
  case isTrue hlt => exact absurd h (not_le.2 hlt)
  case isFalse => rfl

end

/-- The usage term stays below twice the decay once the parent's limit is at
least `5 * 1024`: a full parent raises its limit by less than `P/1024`. -/
theorem contrib_lt {P U : Int} (hU : U ≤ P) (hq : 5 ≤ P / 1024) :
    U * 3 / 2 / 1024 < 2 * (P / 1024) - 1 := by
  omega

/-- With a target of at least `5124`, every limit `CalcGasLimit` picks for a
parent within the rules passes `verifyHeader`'s gas-limit check. The
default target, `GenesisGasLimit`, is one. -/
theorem calcGasLimit_valid {TargetGasLimit : Nat} (hT : 5124 ≤ TargetGasLimit) (parent : Block)
    (hmin : MinGasLimit ≤ parent.header.gasLimit)
    (hused : parent.header.gasUsed ≤ parent.header.gasLimit) :
    gasLimitValid parent.header.gasLimit (CalcGasLimit TargetGasLimit parent) := by
  have hP : (5000 : Int) ≤ parent.header.gasLimit := by
    unfold MinGasLimit at hmin
    exact_mod_cast hmin
  have hU : (parent.header.gasUsed : Int) ≤ parent.header.gasLimit := by exact_mod_cast hused
  unfold gasLimitValid
  simp only [GasLimitBoundDivisor, MinGasLimit, Nat.cast_ofNat, Nat.cast_ofNat]
  by_cases hclimb : max ((parent.header.gasLimit : Int) - (parent.header.gasLimit / 1024 - 1) +
      parent.header.gasUsed * 3 / 2 / 1024) 5000 < TargetGasLimit
  case pos =>
    -- climbing: by `P/1024 - 1`, or to a target above the decayed limit
    rw [calcGasLimit_of_lt hclimb]
    omega
  case neg =>
    rw [calcGasLimit_of_ge (not_lt.1 hclimb)]
    -- at `P/1024 = 4` the decayed limit is at most `5123`, below the target
    have hq : 5 ≤ (parent.header.gasLimit : Int) / 1024 := by omega
    have hc := contrib_lt hU hq
    omega

theorem calcGasLimit_valid_genesis_target :
    5124 ≤ GenesisGasLimit ∧ gasLimitValid 5119 (CalcGasLimit GenesisGasLimit ⟨⟨0, 0, 1, 0, 5119, 5119, 0, [], 0⟩, [], []⟩) :=
  ⟨by decide, @calcGasLimit_valid GenesisGasLimit (by decide) ⟨⟨0, 0, 1, 0, 5119, 5119, 0, [], 0⟩, [], []⟩
    (by decide) (by decide)⟩

/-- With a target of at most `5123`, a parent whose limit and gas used are
both `5119` gets the limit `5123`, `P/1024 = 4` above its own, and every
block with that limit is rejected. -/
theorem calcGasLimit_rejected_below_5124 {TargetGasLimit : Nat} (hT : TargetGasLimit ≤ 5123)
    {parent : Block} (hlimit : parent.header.gasLimit = 5119) (hused : parent.header.gasUsed = 5119)
    {header : Header} (hheader : (header.gasLimit : Int) = CalcGasLimit TargetGasLimit parent)
    (rules : HeaderRules) (uncle checkSeal : Bool) :
    CalcGasLimit TargetGasLimit parent = 5123 ∧
      verifyHeader rules header parent.header uncle checkSeal ≠ .ok () := by
  have hdecayed : CalcGasLimit TargetGasLimit parent = 5123 := by
    rw [calcGasLimit_of_ge (by rw [hlimit, hused]; norm_num; omega), hlimit, hused]
    norm_num
  refine ⟨hdecayed, fun hok => ?_⟩
  have hvalid := gasLimitValid_of_verifyHeader hok
  rw [hheader, hdecayed, hlimit] at hvalid
  exact absurd hvalid (by decide)

theorem calcGasLimit_rejected_below_5124_target_5000 :
    CalcGasLimit 5000 ⟨⟨0, 0, 1, 0, 5119, 5119, 0, [], 0⟩, [], []⟩ = 5123 ∧
      verifyHeader ⟨fun _ _ => 1, fun _ => .ok (), fun _ _ => .ok (), 1⟩ ⟨0, 0, 1, 1, 5123, 0, 1, [], 0⟩
        ⟨0, 0, 1, 0, 5119, 5119, 0, [], 0⟩ false true ≠ .ok () :=
  @calcGasLimit_rejected_below_5124 5000 (by decide) ⟨⟨0, 0, 1, 0, 5119, 5119, 0, [], 0⟩, [], []⟩ rfl rfl
    ⟨0, 0, 1, 1, 5123, 0, 1, [], 0⟩ (by decide) ⟨fun _ _ => 1, fun _ => .ok (), fun _ _ => .ok (), 1⟩
    false true

end Core

end Bazacoin
