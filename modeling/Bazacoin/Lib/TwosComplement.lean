import Mathlib.Data.Int.Bitwise
import Mathlib.Algebra.Order.Ring.Abs
import Mathlib.Tactic.Ring

/-!
# Two's complement on unbounded integers

Arbitrary-precision integers (Go's `big.Int`) do bitwise operations on the
infinite two's complement of their values: `x.Not(x)` is `-x - 1`, and a
negative number has all its high bits set. Code that works in a fixed width
with them masks with `2^t - 1` and ors with its complement.

- `land_mask`: anding a natural with `2^t - 1` keeps its low `t` bits.
- `lor_lnot_mask`: oring it with `^(2^t - 1)` sets every bit from `t` on, a
  negative number: the low `t` bits less `2^t`. Its one step is
  `ldiff_two_pow_sub_one` on naturals.
- `tdiv_eq_abs_div_mul`: division truncated toward zero is the quotient of the
  absolute values with the sign of the product.
-/

namespace Nat

/-- The bits of `2^t - 1` that `n` does not have: `2^t - 1 - n % 2^t`. -/
theorem ldiff_two_pow_sub_one (t n : Nat) : ldiff (2 ^ t - 1) n = 2 ^ t - 1 - n % 2 ^ t := by
  induction t generalizing n with
  | zero => simp [ldiff]
  | succ t ih =>
    have hpos := Nat.one_le_two_pow (n := t)
    have hmask : 2 ^ (t + 1) - 1 = bit true (2 ^ t - 1) := by
      rw [bit_val, Nat.pow_succ]
      simp only [Bool.toNat_true]
      omega
    have hlt : n / 2 % 2 ^ t < 2 ^ t := mod_lt _ (Nat.two_pow_pos t)
    have hsplit : n % 2 ^ (t + 1) = n % 2 + 2 * (n / 2 % 2 ^ t) := by
      rw [Nat.pow_succ, mul_comm, mod_mul]
    have hbodd := mod_two_of_bodd n
    -- peel the lowest bit off both operands
    have hbits : ldiff (2 ^ (t + 1) - 1) n = ldiff (bit true (2 ^ t - 1)) (bit n.bodd n.div2) := by
      rw [← hmask, bit_bodd_div2]
    rw [hbits, ldiff_bit, ih, bit_val, div2_val, hsplit, Nat.pow_succ]
    cases h : n.bodd <;> simp only [h, Bool.not_true, Bool.not_false, Bool.and_true,
      Bool.and_false, Bool.toNat_true, Bool.toNat_false] at hbodd ⊢ <;> omega

end Nat

namespace Int

theorem land_mask (n t : Nat) : land (n : Int) ((2 ^ t - 1 : Nat) : Int) = ((n % 2 ^ t : Nat) : Int) := by
  show (((n &&& (2 ^ t - 1)) : Nat) : Int) = _
  rw [Nat.and_two_pow_sub_one_eq_mod]

theorem lor_lnot_mask (n t : Nat) :
    lor (n : Int) (lnot ((2 ^ t - 1 : Nat) : Int)) = ((n % 2 ^ t : Nat) : Int) - 2 ^ t := by
  show negSucc (Nat.ldiff (2 ^ t - 1) n) = _
  rw [Nat.ldiff_two_pow_sub_one, negSucc_eq]
  have hlt := Nat.mod_lt n (Nat.two_pow_pos t)
  have hpos := Nat.one_le_two_pow (n := t)
  rw [Nat.cast_sub (by omega), Nat.cast_sub hpos]
  push_cast
  ring

/-- Truncated division by the signs of its operands. -/
theorem tdiv_eq_abs_div_mul (x y : Int) : tdiv x y = |x| / |y| * (if x * y < 0 then -1 else 1) := by
  rcases lt_trichotomy x 0 with hx | rfl | hx <;> rcases lt_trichotomy y 0 with hy | rfl | hy
  case inl.inl =>
    have hxy : ¬ x * y < 0 := not_lt.2 (mul_nonneg_of_nonpos_of_nonpos hx.le hy.le)
    rw [if_neg hxy, abs_of_neg hx, abs_of_neg hy, mul_one, ← Int.neg_tdiv_neg,
      tdiv_eq_ediv_of_nonneg (by omega)]
  case inl.inr.inr =>
    have hxy : x * y < 0 := mul_neg_of_neg_of_pos hx hy
    rw [if_pos hxy, abs_of_neg hx, abs_of_pos hy, ← tdiv_eq_ediv_of_nonneg (by omega), Int.neg_tdiv]
    ring
  case inr.inr.inl =>
    have hxy : x * y < 0 := mul_neg_of_pos_of_neg hx hy
    rw [if_pos hxy, abs_of_pos hx, abs_of_neg hy, ← tdiv_eq_ediv_of_nonneg hx.le, Int.tdiv_neg]
    ring
  case inr.inr.inr =>
    have hxy : ¬ x * y < 0 := not_lt.2 (mul_nonneg hx.le hy.le)
    rw [if_neg hxy, abs_of_pos hx, abs_of_pos hy, mul_one, tdiv_eq_ediv_of_nonneg hx.le]
  all_goals simp

end Int
