import Bazacoin.Core.Types

/-!
# Difficulty adjustment (`consensus/bzhash/consensus.go`)

`CalcDifficulty` gives the difficulty of a block mined at `time` on `parent`:
the parent's difficulty moved by a 2048th of itself, up for a quick block and
down for a slow one, clamped at `MinimumDifficulty`, plus the exponential
bomb of the block's period. Homestead scales the move by the block time in
steps of ten seconds, down to `-99`; Frontier moves one step up or down at
thirteen seconds.

The code works on `big.Int`s that it overwrites as it goes. `difficultySpec`
states the rule as the specification writes it, with `max` and floor
division, and `calcDifficulty_eq_spec` shows that the code computes it. The
laws are proved of the specification: the difficulty is at least
`MinimumDifficulty` (`minimumDifficulty_le_spec`) and does not increase with
the block time (`difficultySpec_antitone`).
-/

namespace Bazacoin

namespace Bzhash

open Bazacoin.Types

/-- `params.DifficultyBoundDivisor`. -/
def DifficultyBoundDivisor : Int := 2048

/-- `params.MinimumDifficulty`. -/
def MinimumDifficulty : Int := 131072

/-- `params.DurationLimit`. -/
def DurationLimit : Int := 13

/-- `expDiffPeriod`. -/
def expDiffPeriod : Int := 100000

/-- `params.ChainConfig`, with the one fork block difficulty reads; `none`
is a nil block, never forked. -/
structure ChainConfig where
  HomesteadBlock : Option Nat
  deriving DecidableEq, Repr

/-- `ChainConfig.IsHomestead`, through `isForked`. -/
def ChainConfig.IsHomestead (c : ChainConfig) (num : Nat) : Bool :=
  match c.HomesteadBlock with
  | none => false
  | some s => decide (s ≤ num)

/-- `calcDifficultyHomestead` (EIP-2). -/
def calcDifficultyHomestead (time : UInt64) (parent : Header) : Int :=
  -- 1 - (block_timestamp - parent_timestamp) // 10
  let x : Int := 1 - ((time.toNat : Int) - parent.time) / 10
  -- max(1 - (block_timestamp - parent_timestamp) // 10, -99)
  let x := if x < -99 then -99 else x
  -- parent_diff + parent_diff // 2048 * x
  let y : Int := parent.difficulty / DifficultyBoundDivisor
  let x := parent.difficulty + y * x
  -- the minimum difficulty before the exponential factor
  let x := if x < MinimumDifficulty then MinimumDifficulty else x
  let periodCount : Int := (parent.number + 1) / expDiffPeriod
  -- the bomb: diff + 2^(periodCount - 2)
  if periodCount > 1 then x + 2 ^ (periodCount - 2).toNat else x

/-- `calcDifficultyFrontier`. -/
def calcDifficultyFrontier (time : UInt64) (parent : Header) : Int :=
  let adjust : Int := parent.difficulty / DifficultyBoundDivisor
  let diff : Int :=
    if (time.toNat : Int) - parent.time < DurationLimit then parent.difficulty + adjust
    else parent.difficulty - adjust
  let diff := if diff < MinimumDifficulty then MinimumDifficulty else diff
  let periodCount : Int := (parent.number + 1) / expDiffPeriod
  if periodCount > 1 then max (diff + 2 ^ (periodCount - 2).toNat) MinimumDifficulty else diff

/-- `CalcDifficulty`: the rules of the block's own number decide. -/
def CalcDifficulty (config : ChainConfig) (time : UInt64) (parent : Header) : Int :=
  if config.IsHomestead (parent.number + 1) then calcDifficultyHomestead time parent
  else calcDifficultyFrontier time parent

/-! ## The rule as specified -/

/-- The bomb of the block after `number`: `2^(⌊(number+1)/100000⌋ - 2)` from
the second period on. -/
def bomb (number : Nat) : Int :=
  if 2 ≤ (number + 1) / 100000 then 2 ^ ((number + 1) / 100000 - 2) else 0

/-- The difficulty rule as specified, before the bomb: Homestead's move of
`max(1 - ⌊(t - T)/10⌋, -99)` 2048ths, Frontier's one 2048th up below thirteen
seconds and down from there, both clamped at `MinimumDifficulty`. -/
def adjustedSpec (homestead : Bool) (t : Int) (parent : Header) : Int :=
  let P : Int := parent.difficulty
  let Δ : Int := t - parent.time
  if homestead then max (P + P / 2048 * max (1 - Δ / 10) (-99)) MinimumDifficulty
  else max (if Δ < 13 then P + P / 2048 else P - P / 2048) MinimumDifficulty

/-- The difficulty rule as specified. -/
def difficultySpec (homestead : Bool) (t : Int) (parent : Header) : Int :=
  adjustedSpec homestead t parent + bomb parent.number

theorem bomb_nonneg (number : Nat) : 0 ≤ bomb number := by
  unfold bomb
  split
  · positivity
  · exact le_rfl

/-- The period count the code computes is the specification's, and the code's
bomb condition is the specification's. -/
theorem periodCount_eq (number : Nat) :
    ((number : Int) + 1) / expDiffPeriod = ((number + 1) / 100000 : Nat) := by
  simp only [expDiffPeriod]
  omega

/-- The code's clamps, `if x < b { x = b }`, are `max`es. -/
theorem clamp_eq_max (a b : Int) : (if a < b then b else a) = max a b := by
  rw [max_def]
  split_ifs <;> omega

theorem calcDifficultyHomestead_eq_spec (time : UInt64) (parent : Header) :
    calcDifficultyHomestead time parent = difficultySpec true time.toNat parent := by
  unfold calcDifficultyHomestead difficultySpec adjustedSpec bomb
  dsimp only
  simp only [clamp_eq_max, periodCount_eq, if_true]
  by_cases hbomb : 2 ≤ (parent.number + 1) / 100000
  case pos =>
    have hk : (((parent.number + 1) / 100000 : Nat) - 2 : Int).toNat =
        (parent.number + 1) / 100000 - 2 := by omega
    rw [if_pos (by omega), if_pos hbomb, hk]
    rfl
  case neg =>
    rw [if_neg (by omega), if_neg hbomb, add_zero]
    rfl

theorem calcDifficultyFrontier_eq_spec (time : UInt64) (parent : Header) :
    calcDifficultyFrontier time parent = difficultySpec false time.toNat parent := by
  unfold calcDifficultyFrontier difficultySpec adjustedSpec bomb
  dsimp only
  simp only [clamp_eq_max, periodCount_eq, Bool.false_eq_true, if_false]
  by_cases hbomb : 2 ≤ (parent.number + 1) / 100000
  case pos =>
    have hk : (((parent.number + 1) / 100000 : Nat) - 2 : Int).toNat =
        (parent.number + 1) / 100000 - 2 := by omega
    rw [if_pos (by omega), if_pos hbomb, hk]
    -- the bomb is positive, so the last clamp does nothing
    have hpos : (0 : Int) < 2 ^ ((parent.number + 1) / 100000 - 2) := by positivity
    rw [max_eq_left (le_add_of_le_of_nonneg (le_max_right _ _) hpos.le)]
    rfl
  case neg =>
    rw [if_neg (by omega), if_neg hbomb, add_zero]
    rfl

theorem calcDifficulty_eq_spec (config : ChainConfig) (time : UInt64) (parent : Header) :
    CalcDifficulty config time parent =
      difficultySpec (config.IsHomestead (parent.number + 1)) time.toNat parent := by
  unfold CalcDifficulty
  split
  case isTrue h => rw [h, calcDifficultyHomestead_eq_spec]
  case isFalse h => rw [Bool.not_eq_true] at h; rw [h, calcDifficultyFrontier_eq_spec]

/-! ## The laws of the rule -/

theorem minimumDifficulty_le_adjusted (homestead : Bool) (t : Int) (parent : Header) :
    MinimumDifficulty ≤ adjustedSpec homestead t parent := by
  unfold adjustedSpec
  cases homestead <;> exact le_max_right _ _

theorem minimumDifficulty_le_spec (homestead : Bool) (t : Int) (parent : Header) :
    MinimumDifficulty ≤ difficultySpec homestead t parent :=
  le_add_of_le_of_nonneg (minimumDifficulty_le_adjusted homestead t parent) (bomb_nonneg parent.number)

/-- A later block moves the difficulty by no more: Homestead's factor
`max(1 - ⌊(t - T)/10⌋, -99)` falls with `t`, and Frontier's move turns from up
to down at thirteen seconds. -/
theorem adjustedSpec_antitone (homestead : Bool) (parent : Header) {t₁ t₂ : Int} (h : t₁ ≤ t₂) :
    adjustedSpec homestead t₂ parent ≤ adjustedSpec homestead t₁ parent := by
  unfold adjustedSpec
  have hy : (0 : Int) ≤ (parent.difficulty : Int) / 2048 := Int.ediv_nonneg (by omega) (by norm_num)
  cases homestead
  case true =>
    have hΔ : (t₁ - parent.time) / 10 ≤ (t₂ - parent.time) / 10 :=
      Int.ediv_le_ediv (by norm_num) (by omega)
    have hfactor : max (1 - (t₂ - parent.time) / 10) (-99) ≤ max (1 - (t₁ - parent.time) / 10) (-99) :=
      max_le_max (by omega) le_rfl
    exact max_le_max (add_le_add_right (mul_le_mul_of_nonneg_left hfactor hy) _) le_rfl
  case false =>
    refine max_le_max ?_ le_rfl
    split_ifs <;> omega

theorem difficultySpec_antitone (homestead : Bool) (parent : Header) {t₁ t₂ : Int} (h : t₁ ≤ t₂) :
    difficultySpec homestead t₂ parent ≤ difficultySpec homestead t₁ parent := by
  unfold difficultySpec
  exact add_le_add_left (adjustedSpec_antitone homestead parent h) _

theorem calcDifficulty_follows_spec (config : ChainConfig) (parent : Header) (time : UInt64) :
    CalcDifficulty config time parent =
        difficultySpec (config.IsHomestead (parent.number + 1)) time.toNat parent ∧
      MinimumDifficulty ≤ CalcDifficulty config time parent ∧
      ∀ time' : UInt64, time ≤ time' →
        CalcDifficulty config time' parent ≤ CalcDifficulty config time parent := by
  refine ⟨calcDifficulty_eq_spec config time parent, ?_, fun time' hlater => ?_⟩
  · rw [calcDifficulty_eq_spec]
    exact minimumDifficulty_le_spec _ _ _
  · have ht : (time.toNat : Int) ≤ time'.toNat := by
      have := UInt64.le_iff_toNat_le.mp hlater
      omega
    rw [calcDifficulty_eq_spec, calcDifficulty_eq_spec]
    exact difficultySpec_antitone _ parent ht

end Bzhash

end Bazacoin
