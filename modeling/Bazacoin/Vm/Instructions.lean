import Mathlib.Data.Nat.Digits.Lemmas
import Mathlib.Data.Int.ModEq
import Bazacoin.Lib.TwosComplement

/-!
# Signed and byte-level opcodes (`core/vm/instructions.go`, `common/math/big.go`)

The EVM's words are `big.Int`s in `[0, 2^256)`. The signed opcodes read them
as two's complement numbers (`math.S256`), compute on the unbounded integers
with `big.Int`'s operations, and wrap the result back (`math.U256`).
`SIGNEXTEND` masks and ors with `big.Int`'s infinite two's complement, `BYTE`
reads a byte out of the 64-bit words of `big.Int.Bits`, and `math.Exp`
squares and multiplies over those words, wrapping each product.

Each opcode computes the value the specification gives: `SDIV` truncated
division, `SMOD` the remainder with the dividend's sign, `SLT`/`SGT` the
signed order, `SIGNEXTEND` sign extension from bit `8b + 7`, `BYTE` the
`i`-th most significant byte and `EXP` the power modulo `2^256`
(`signed_ops_twos_complement`), and every value pushed is a word.
-/

namespace Bazacoin

namespace Math

/-- `math.U256`: `x.And(x, tt256m1)` keeps the low 256 bits of the two's
complement of `x`, which is its Euclidean remainder by `2^256`. -/
def U256 (x : Int) : Int := x % 2 ^ 256

/-- `math.S256`. -/
def S256 (x : Int) : Int := if x < 2 ^ 255 then x else x - 2 ^ 256

/-- `bigEndianByteAt`: byte `n`, counted from the least significant end, of
the 64-bit words `bigint.Bits()` (the digits of `|bigint|` in base `2^64`). -/
def bigEndianByteAt (bigint : Int) (n : Nat) : Nat :=
  let words := Nat.digits (2 ^ 64) bigint.natAbs
  let i := n / 8
  if i ≥ words.length then 0
  else
    let word := words.getD i 0
    let shift := 8 * (n % 8)
    -- byte(word >> shift)
    (word >>> shift) % 256

/-- `math.Byte`: byte `n` of the `padlength`-byte big-endian encoding. -/
def Byte (bigint : Int) (padlength n : Nat) : Nat :=
  if n ≥ padlength then 0 else bigEndianByteAt bigint (padlength - 1 - n)

/-- `wordBits`. -/
def wordBits : Nat := 64

/-- The inner loop of `math.Exp` over the `i` bits left of one word: the
result and the base so far. -/
def expWord : Nat → Nat → Int × Int → Int × Int
  | 0, _, acc => acc
  | i + 1, word, (result, base) =>
    let result := if word % 2 = 1 then U256 (result * base) else result
    expWord i (word / 2) (result, U256 (base * base))

/-- `math.Exp`: square and multiply over the 64-bit words of the exponent,
least significant first. -/
def Exp (base exponent : Int) : Int :=
  ((Nat.digits (2 ^ 64) exponent.natAbs).foldl (fun acc word => expWord wordBits word acc) (1, base)).1

/-! ## Words -/

/-- A value of a stack slot: `0 ≤ x < 2^256`. -/
def IsWord (x : Int) : Prop := 0 ≤ x ∧ x < 2 ^ 256

theorem isWord_U256 (x : Int) : IsWord (U256 x) :=
  ⟨Int.emod_nonneg _ (by norm_num), Int.emod_lt_of_pos _ (by norm_num)⟩

theorem U256_modEq (x : Int) : U256 x ≡ x [ZMOD 2 ^ 256] := Int.mod_modEq x _

/-- A word read as a signed number reads the same again. -/
theorem S256_S256 {y : Int} (hy : IsWord y) : S256 (S256 y) = S256 y := by
  unfold S256 IsWord at *
  split_ifs <;> omega

/-! ## Exponentiation -/

/-- One word of `math.Exp`: over `i` bits of `w`, the result gains the factor
`b^(w mod 2^i)` and the base is raised to `2^i`, both modulo `2^256`. -/
theorem expWord_spec (i w : Nat) {r : Int} (b : Int) (hr : IsWord r) :
    IsWord (expWord i w (r, b)).1 ∧
      (expWord i w (r, b)).1 ≡ r * b ^ (w % 2 ^ i) [ZMOD 2 ^ 256] ∧
      (expWord i w (r, b)).2 ≡ b ^ (2 ^ i) [ZMOD 2 ^ 256] := by
  induction i generalizing w r b with
  | zero =>
    refine ⟨hr, ?_, ?_⟩
    · rw [Nat.pow_zero, Nat.mod_one, pow_zero, mul_one]
      exact Int.ModEq.refl _
    · rw [Nat.pow_zero, pow_one]
      exact Int.ModEq.refl _
  | succ i ih =>
    -- the lowest bit decides the multiplication, the rest is the next word
    set r₁ : Int := if w % 2 = 1 then U256 (r * b) else r with hr₁
    have hr₁word : IsWord r₁ := by
      rw [hr₁]
      split
      · exact isWord_U256 _
      · exact hr
    have hr₁eq : r₁ ≡ r * b ^ (w % 2) [ZMOD 2 ^ 256] := by
      rw [hr₁]
      split
      case isTrue h => rw [h, pow_one]; exact U256_modEq _
      case isFalse h => rw [show w % 2 = 0 by omega, pow_zero, mul_one]
    have hb₁ : U256 (b * b) ≡ b ^ 2 [ZMOD 2 ^ 256] := by rw [sq]; exact U256_modEq _
    obtain ⟨hword, hres, hbase⟩ := ih (w / 2) (U256 (b * b)) hr₁word
    have hsplit : w % 2 ^ (i + 1) = w % 2 + 2 * (w / 2 % 2 ^ i) := by
      rw [Nat.pow_succ, mul_comm, Nat.mod_mul]
    refine ⟨hword, ?_, ?_⟩
    · calc (expWord (i + 1) w (r, b)).1
          ≡ r₁ * U256 (b * b) ^ (w / 2 % 2 ^ i) [ZMOD 2 ^ 256] := hres
        _ ≡ r * b ^ (w % 2) * (b ^ 2) ^ (w / 2 % 2 ^ i) [ZMOD 2 ^ 256] :=
          hr₁eq.mul (hb₁.pow _)
        _ = r * b ^ (w % 2 ^ (i + 1)) := by rw [hsplit, pow_add, pow_mul, mul_assoc]
    · calc (expWord (i + 1) w (r, b)).2
          ≡ U256 (b * b) ^ (2 ^ i) [ZMOD 2 ^ 256] := hbase
        _ ≡ (b ^ 2) ^ (2 ^ i) [ZMOD 2 ^ 256] := hb₁.pow _
        _ = b ^ (2 ^ (i + 1)) := by rw [← pow_mul, Nat.pow_succ, mul_comm]

/-- Over a list of 64-bit words, least significant first, the result gains
the factor `b` to the number they spell. -/
theorem foldl_expWord_spec (ws : List Nat) (hws : ∀ w ∈ ws, w < 2 ^ 64) {r : Int} (b : Int)
    (hr : IsWord r) :
    IsWord (ws.foldl (fun acc word => expWord wordBits word acc) (r, b)).1 ∧
      (ws.foldl (fun acc word => expWord wordBits word acc) (r, b)).1 ≡
        r * b ^ Nat.ofDigits (2 ^ 64) ws [ZMOD 2 ^ 256] := by
  induction ws generalizing r b with
  | nil => simp [hr, Int.ModEq.refl]
  | cons w ws ih =>
    obtain ⟨hword, hres, hbase⟩ := expWord_spec wordBits w b hr
    have hw : w % 2 ^ wordBits = w := Nat.mod_eq_of_lt (hws w List.mem_cons_self)
    obtain ⟨hword', hres'⟩ := ih (fun v hv => hws v (List.mem_cons_of_mem w hv))
      (expWord wordBits w (r, b)).2 hword
    refine ⟨hword', ?_⟩
    calc (List.foldl (fun acc word => expWord wordBits word acc) (r, b) (w :: ws)).1
        ≡ (expWord wordBits w (r, b)).1 * (expWord wordBits w (r, b)).2 ^ Nat.ofDigits (2 ^ 64) ws
          [ZMOD 2 ^ 256] := hres'
      _ ≡ r * b ^ w * (b ^ 2 ^ 64) ^ Nat.ofDigits (2 ^ 64) ws [ZMOD 2 ^ 256] := by
        rw [hw] at hres
        exact hres.mul (hbase.pow _)
      _ = r * b ^ Nat.ofDigits (2 ^ 64) (w :: ws) := by
        rw [Nat.ofDigits_cons, pow_add, pow_mul, mul_assoc]

/-- `math.Exp` is the power modulo `2^256`. -/
theorem Exp_eq (base exponent : Int) : Exp base exponent = base ^ exponent.natAbs % 2 ^ 256 := by
  have hdigits : ∀ w ∈ Nat.digits (2 ^ 64) exponent.natAbs, w < 2 ^ 64 :=
    fun w hw => Nat.digits_lt_base (by norm_num) hw
  obtain ⟨hword, hres⟩ := foldl_expWord_spec _ hdigits base (r := 1) ⟨by norm_num, by norm_num⟩
  rw [Nat.ofDigits_digits, one_mul] at hres
  unfold Exp
  rw [← Int.emod_eq_of_lt hword.1 hword.2]
  exact hres

/-! ## Bytes -/

/-- `bigEndianByteAt` reads byte `n` of the number, counted from the least
significant end: the word holds it at the same shift. -/
theorem bigEndianByteAt_eq (v : Int) (n : Nat) :
    bigEndianByteAt v n = v.natAbs / 2 ^ (8 * n) % 256 := by
  unfold bigEndianByteAt
  dsimp only
  have hsplit : 8 * n = 64 * (n / 8) + 8 * (n % 8) := by omega
  split
  case isTrue hlen =>
    -- past the last word the number has no bits left
    have hlt : v.natAbs < (2 ^ 64) ^ (Nat.digits (2 ^ 64) v.natAbs).length :=
      Nat.lt_base_pow_length_digits (by norm_num)
    have hsmall : v.natAbs < 2 ^ (8 * n) := by
      refine lt_of_lt_of_le hlt ?_
      rw [← pow_mul]
      exact Nat.pow_le_pow_right (by norm_num) (by omega)
    rw [Nat.div_eq_of_lt hsmall]
  case isFalse hlen =>
    have hs : 8 * (n % 8) + 8 ≤ 64 := by omega
    -- the word is the number shifted down by whole words, cut at 64 bits
    have hword : 2 ^ 64 = 2 ^ (8 * (n % 8)) * 2 ^ (64 - 8 * (n % 8)) := by
      rw [← pow_add]
      congr 1
      omega
    have hdvd : 256 ∣ 2 ^ (64 - 8 * (n % 8)) :=
      ⟨2 ^ (64 - 8 * (n % 8) - 8), by rw [show (256 : Nat) = 2 ^ 8 from rfl, ← pow_add]; congr 1; omega⟩
    rw [Nat.getD_digits _ _ (by norm_num), Nat.shiftRight_eq_div_pow, hword,
      Nat.mod_mul_right_div_self, Nat.mod_mod_of_dvd _ hdvd, ← hword, Nat.div_div_eq_div_mul,
      ← pow_mul, ← pow_add, ← hsplit]

/-- `math.Byte(v, 32, n)` is the `n`-th most significant byte of the 32-byte
encoding. -/
theorem Byte_eq (v : Int) {n : Nat} (hn : n < 32) :
    Byte v 32 n = v.natAbs / 2 ^ (8 * (31 - n)) % 256 := by
  rw [Byte, if_neg (by omega), bigEndianByteAt_eq]

end Math

namespace Vm

open Math

/-- The interpreter's stack of `big.Int` words, top first. -/
abbrev Stack := List Int

/-- `opSdiv`. -/
def opSdiv : Stack → Option Stack
  | x :: y :: rest =>
    let x := S256 x
    let y := S256 y
    if y.sign = 0 then some (0 :: rest)
    else
      let n : Int := if (x * y).sign < 0 then -1 else 1
      -- x.Div(x.Abs(x), y.Abs(y)), then res.Mul(res, n)
      some (U256 (|x| / |y| * n) :: rest)
  | _ => none

/-- `opSmod`. -/
def opSmod : Stack → Option Stack
  | x :: y :: rest =>
    let x := S256 x
    let y := S256 y
    if y.sign = 0 then some (0 :: rest)
    else
      let n : Int := if x.sign < 0 then -1 else 1
      -- x.Mod(x.Abs(x), y.Abs(y)), then res.Mul(res, n)
      some (U256 (|x| % |y| * n) :: rest)
  | _ => none

/-- `opExp`. -/
def opExp : Stack → Option Stack
  | base :: exponent :: rest => some (Exp base exponent :: rest)
  | _ => none

/-- `opSignExtend`: from `back >= 31` on only `back` is popped, and the
number below it stays as it is. -/
def opSignExtend : Stack → Option Stack
  | back :: rest =>
    if back < 31 then
      match rest with
      | num :: rest =>
        let bit := back.toNat * 8 + 7
        let mask : Int := 2 ^ bit - 1
        let num := if num.testBit bit then Int.lor num (Int.lnot mask) else Int.land num mask
        some (U256 num :: rest)
      | [] => none
    else some rest
  | [] => none

/-- `opSlt`; `y` goes through `math.S256` twice. -/
def opSlt : Stack → Option Stack
  | x :: y :: rest =>
    let x := S256 x
    let y := S256 y
    some ((if x < S256 y then 1 else 0) :: rest)
  | _ => none

/-- `opSgt`. -/
def opSgt : Stack → Option Stack
  | x :: y :: rest =>
    let x := S256 x
    let y := S256 y
    some ((if x > y then 1 else 0) :: rest)
  | _ => none

/-- `opByte`: the top is replaced in place. -/
def opByte : Stack → Option Stack
  | th :: val :: rest =>
    if th < 32 then some ((Byte val 32 th.toNat : Int) :: rest) else some (0 :: rest)
  | _ => none

/-! ## The values the opcodes push -/

/-- Sign extension of the low `t + 1` bits of `x` to 256 bits: the low bits
stay, and bit `t` fills every bit above it. -/
def signExtendSpec (t x : Nat) : Nat :=
  if x.testBit t then x % 2 ^ (t + 1) + (2 ^ 256 - 2 ^ (t + 1)) else x % 2 ^ (t + 1)

theorem signExtendSpec_lt {t : Nat} (ht : t < 256) (x : Nat) : signExtendSpec t x < 2 ^ 256 := by
  have hlt : x % 2 ^ (t + 1) < 2 ^ (t + 1) := Nat.mod_lt _ (Nat.two_pow_pos _)
  have hle : 2 ^ (t + 1) ≤ 2 ^ 256 := Nat.pow_le_pow_right (by norm_num) ht
  unfold signExtendSpec
  split <;> omega

theorem opSdiv_eq (x y : Int) (rest : Stack) :
    opSdiv (x :: y :: rest) = some (U256 (Int.tdiv (S256 x) (S256 y)) :: rest) := by
  unfold opSdiv
  dsimp only
  split
  case isTrue hy =>
    rw [Int.sign_eq_zero_iff_zero.mp hy, Int.tdiv_zero]
    rfl
  case isFalse hy =>
    -- the sign test on the product is the sign of the truncated quotient
    rw [Int.tdiv_eq_abs_div_mul]
    simp only [Int.sign_neg_iff]

theorem opSmod_eq (x y : Int) (rest : Stack) :
    opSmod (x :: y :: rest) =
      some ((if S256 y = 0 then 0 else U256 (Int.sign (S256 x) * (|S256 x| % |S256 y|))) :: rest) := by
  unfold opSmod
  dsimp only
  by_cases hy : S256 y = 0
  case pos => rw [if_pos (by rw [hy]; rfl), if_pos hy]
  case neg =>
    rw [if_neg (by rwa [Int.sign_eq_zero_iff_zero]), if_neg hy]
    simp only [Int.sign_neg_iff]
    -- the sign of the dividend, on either side of the remainder
    rcases lt_trichotomy (S256 x) 0 with hx | hx | hx
    · rw [if_pos hx, Int.sign_eq_neg_one_of_neg hx, mul_comm]
    · rw [hx]
      simp
    · rw [if_neg (not_lt.2 hx.le), Int.sign_eq_one_of_pos hx, mul_one, one_mul]

theorem opSlt_eq (x : Int) {y : Int} (hy : IsWord y) (rest : Stack) :
    opSlt (x :: y :: rest) = some ((if S256 x < S256 y then 1 else 0) :: rest) := by
  unfold opSlt
  dsimp only
  rw [S256_S256 hy]

theorem opSgt_eq (x y : Int) (rest : Stack) :
    opSgt (x :: y :: rest) = some ((if S256 x > S256 y then 1 else 0) :: rest) := rfl

theorem opExp_eq (x : Int) {y : Int} (hy : IsWord y) (rest : Stack) :
    opExp (x :: y :: rest) = some (x ^ y.toNat % 2 ^ 256 :: rest) := by
  have habs : y.natAbs = y.toNat := by
    have := hy.1
    omega
  rw [opExp, Exp_eq, habs]

theorem opByte_eq {i v : Int} (hi : IsWord i) (hv : IsWord v) (rest : Stack) :
    opByte (i :: v :: rest) =
      some ((if i < 32 then (v.toNat / 2 ^ (8 * (31 - i.toNat)) % 256 : Nat) else 0 : Int) :: rest) := by
  have habs : v.natAbs = v.toNat := by
    have := hv.1
    omega
  rw [opByte]
  split
  case isTrue hlt =>
    rw [Byte_eq v (by have := hi.1; omega), habs]
  case isFalse => rfl

/-- Sign extension below byte 31 is `big.Int`'s mask or its complement. -/
theorem opSignExtend_eq (b : Int) {x : Int} (hx : IsWord x) (rest : Stack) :
    opSignExtend (b :: x :: rest) =
      some ((if b < 31 then (signExtendSpec (8 * b.toNat + 7) x.toNat : Int) else x) :: rest) := by
  rw [opSignExtend]
  split
  case isFalse => rfl
  case isTrue hb =>
    dsimp only
    obtain ⟨n, rfl⟩ := Int.eq_ofNat_of_zero_le hx.1
    set t := b.toNat * 8 + 7 with ht
    have hP : 2 ^ t < 2 ^ 256 := Nat.pow_lt_pow_right (by norm_num) (by omega)
    have hmask : (2 : Int) ^ t - 1 = ((2 ^ t - 1 : Nat) : Int) := by
      rw [Nat.cast_sub Nat.one_le_two_pow]
      push_cast
      rfl
    have hcast : (2 : Int) ^ t = ((2 ^ t : Nat) : Int) := by push_cast; rfl
    have hlow : n % 2 ^ t < 2 ^ t := Nat.mod_lt _ (Nat.two_pow_pos t)
    -- bit `t` splits the low `t + 1` bits
    have hsplit : n % 2 ^ (t + 1) = n % 2 ^ t + 2 ^ t * (n / 2 ^ t % 2) := Nat.mod_pow_succ
    rw [hmask, show 8 * b.toNat + 7 = t by omega, Int.toNat_natCast]
    show some (U256 (if n.testBit t then _ else _) :: rest) = _
    unfold signExtendSpec U256
    split
    case isTrue hbit =>
      -- the or sets every bit from `t` on: a negative number, wrapped
      have hone : n / 2 ^ t % 2 = 1 := by
        rw [Nat.testBit_eq_decide_div_mod_eq] at hbit
        simpa using hbit
      have htop : 2 ^ (t + 1) = 2 ^ t * 2 := Nat.pow_succ 2 t
      have hP₁ : 2 ^ (t + 1) ≤ 2 ^ 256 := Nat.pow_le_pow_right (by norm_num) (by omega)
      have hnat : n % 2 ^ (t + 1) + (2 ^ 256 - 2 ^ (t + 1)) = n % 2 ^ t + (2 ^ 256 - 2 ^ t) := by
        rw [hsplit, hone, mul_one]
        omega
      rw [Int.lor_lnot_mask, hnat, hcast]
      congr 2
      generalize n % 2 ^ t = a at hlow ⊢
      generalize 2 ^ t = P at hlow hP ⊢
      omega
    case isFalse hbit =>
      -- the and keeps the bits below `t`, and bit `t` is clear
      have hzero : n / 2 ^ t % 2 = 0 := by
        rw [Nat.testBit_eq_decide_div_mod_eq] at hbit
        simp only [decide_eq_true_eq] at hbit
        omega
      have hnat : n % 2 ^ (t + 1) = n % 2 ^ t := by rw [hsplit, hzero, mul_zero, add_zero]
      have hword : ((n % 2 ^ t : Nat) : Int) < 2 ^ 256 := by exact_mod_cast (by omega : n % 2 ^ t < 2 ^ 256)
      rw [Int.land_mask, hnat]
      congr 2
      exact Int.emod_eq_of_lt (by positivity) hword

/-- What each opcode pushes for words `x` on top and `y` below it. -/
theorem signed_ops_twos_complement {x y : Int} (hx : IsWord x) (hy : IsWord y) (rest : Stack) :
    opSdiv (x :: y :: rest) = some (U256 (Int.tdiv (S256 x) (S256 y)) :: rest) ∧
      opSmod (x :: y :: rest) =
        some ((if S256 y = 0 then 0 else U256 (Int.sign (S256 x) * (|S256 x| % |S256 y|))) :: rest) ∧
      opSlt (x :: y :: rest) = some ((if S256 x < S256 y then 1 else 0) :: rest) ∧
      opSgt (x :: y :: rest) = some ((if S256 x > S256 y then 1 else 0) :: rest) ∧
      opSignExtend (x :: y :: rest) =
        some ((if x < 31 then (signExtendSpec (8 * x.toNat + 7) y.toNat : Int) else y) :: rest) ∧
      opByte (x :: y :: rest) =
        some ((if x < 32 then (y.toNat / 2 ^ (8 * (31 - x.toNat)) % 256 : Nat) else 0 : Int) :: rest) ∧
      opExp (x :: y :: rest) = some (x ^ y.toNat % 2 ^ 256 :: rest) ∧
      ∀ op ∈ [opSdiv, opSmod, opSlt, opSgt, opSignExtend, opByte, opExp], ∀ v rest',
        op (x :: y :: rest) = some (v :: rest') → IsWord v := by
  refine ⟨opSdiv_eq x y rest, opSmod_eq x y rest, opSlt_eq x hy rest, opSgt_eq x y rest,
    opSignExtend_eq x hy rest, opByte_eq hx hy rest, opExp_eq x hy rest, ?_⟩
  -- every pushed value is a word
  have hbit : ∀ c : Prop, [Decidable c] → IsWord (if c then 1 else 0) := by
    intro c _
    split
    · exact ⟨by norm_num, by norm_num⟩
    · exact ⟨le_rfl, by norm_num⟩
  have hsmod : IsWord (if S256 y = 0 then 0 else U256 (Int.sign (S256 x) * (|S256 x| % |S256 y|))) := by
    split
    · exact ⟨le_rfl, by norm_num⟩
    · exact isWord_U256 _
  have hext : IsWord (if x < 31 then (signExtendSpec (8 * x.toNat + 7) y.toNat : Int) else y) := by
    split
    · exact ⟨by positivity, by exact_mod_cast signExtendSpec_lt (by omega) _⟩
    · exact hy
  have hbyte : IsWord (if x < 32 then (y.toNat / 2 ^ (8 * (31 - x.toNat)) % 256 : Nat) else 0 : Int) := by
    split
    · exact ⟨by positivity, by exact_mod_cast (Nat.mod_lt _ (by norm_num)).trans (by norm_num)⟩
    · exact ⟨le_rfl, by norm_num⟩
  have hexp : IsWord (x ^ y.toNat % 2 ^ 256) :=
    ⟨Int.emod_nonneg _ (by norm_num), Int.emod_lt_of_pos _ (by norm_num)⟩
  intro op hop v rest' hrun
  simp only [List.mem_cons, List.not_mem_nil, or_false] at hop
  rcases hop with rfl | rfl | rfl | rfl | rfl | rfl | rfl
  · rw [opSdiv_eq] at hrun
    obtain ⟨rfl, -⟩ := List.cons.inj (Option.some.inj hrun)
    exact isWord_U256 _
  · rw [opSmod_eq] at hrun
    obtain ⟨rfl, -⟩ := List.cons.inj (Option.some.inj hrun)
    exact hsmod
  · rw [opSlt_eq x hy] at hrun
    obtain ⟨rfl, -⟩ := List.cons.inj (Option.some.inj hrun)
    exact hbit _
  · rw [opSgt_eq] at hrun
    obtain ⟨rfl, -⟩ := List.cons.inj (Option.some.inj hrun)
    exact hbit _
  · rw [opSignExtend_eq x hy] at hrun
    obtain ⟨rfl, -⟩ := List.cons.inj (Option.some.inj hrun)
    exact hext
  · rw [opByte_eq hx hy] at hrun
    obtain ⟨rfl, -⟩ := List.cons.inj (Option.some.inj hrun)
    exact hbyte
  · rw [opExp_eq x hy] at hrun
    obtain ⟨rfl, -⟩ := List.cons.inj (Option.some.inj hrun)
    exact hexp

theorem signed_ops_twos_complement_minus_one_two :
    IsWord (2 ^ 256 - 1) ∧ IsWord 2 ∧
      opSdiv [2 ^ 256 - 1, 2] = some [U256 (Int.tdiv (S256 (2 ^ 256 - 1)) (S256 2))] :=
  ⟨⟨by norm_num, by norm_num⟩, ⟨by norm_num, by norm_num⟩,
    (@signed_ops_twos_complement (2 ^ 256 - 1) 2 ⟨by norm_num, by norm_num⟩ ⟨by norm_num, by norm_num⟩ []).1⟩

end Vm

end Bazacoin
