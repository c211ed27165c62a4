import Mathlib.Tactic

/-!
# Big-endian byte strings of naturals

Fixed-width big-endian encodings of natural numbers as byte lists, the
decoding fold, and the least width that holds a value. The facts that make
encoding and decoding inverse are the two bounds on `width`
(`lt_pow_width`, `pow_width_le`); from them the minimal encoding decodes back
(`ofBytes_minimal`) and pads to every wider fixed encoding
(`replicate_append_minimal`).
-/

namespace BigEndian

/-- The `k` low-order bytes of `i`, most significant first. -/
def toFixed : Nat → Nat → List UInt8
  | 0, _ => []
  | k + 1, i => toFixed k (i / 256) ++ [UInt8.ofNat (i % 256)]

/-- Big-endian value of a byte list. -/
def ofBytes (bs : List UInt8) : Nat :=
  bs.foldl (fun acc b => acc * 256 + b.toNat) 0

/-- Number of bytes needed to hold `i`, at least one. -/
def width (i : Nat) : Nat :=
  if i / 256 = 0 then 1 else width (i / 256) + 1
termination_by i
decreasing_by omega

/-- The minimal big-endian bytes of `i`: empty for zero. -/
def minimal (i : Nat) : List UInt8 :=
  if i = 0 then [] else toFixed (width i) i

@[simp] theorem length_toFixed (k i : Nat) : (toFixed k i).length = k := by
  induction k generalizing i with
  | zero => rfl
  | succ k ih => simp [toFixed, ih]

theorem toFixed_succ (k i : Nat) :
    toFixed (k + 1) i = UInt8.ofNat (i / 256 ^ k % 256) :: toFixed k i := by
  induction k generalizing i with
  | zero => simp [toFixed]
  | succ k ih =>
    rw [toFixed, ih, toFixed, Nat.div_div_eq_div_mul, ← Nat.pow_succ']
    rfl

/-- The last `k` bytes of a longer fixed-width encoding are the `k`-byte
encoding. -/
theorem drop_toFixed_add (j k i : Nat) : (toFixed (j + k) i).drop j = toFixed k i := by
  induction j with
  | zero => simp
  | succ j ih =>
    rw [Nat.add_right_comm, toFixed_succ, List.drop_succ_cons, ih]

/-! ## Decoding -/

/-- The fold's accumulator contributes one factor of 256 per further byte. -/
theorem foldl_acc (ys : List UInt8) (a : Nat) :
    ys.foldl (fun acc b => acc * 256 + b.toNat) a
      = a * 256 ^ ys.length + ofBytes ys := by
  induction ys generalizing a with
  | nil => simp [ofBytes]
  | cons y ys ih =>
    simp only [List.foldl_cons, ofBytes, List.length_cons]
    rw [ih, ih (0 * 256 + y.toNat)]
    ring

theorem ofBytes_append (xs ys : List UInt8) :
    ofBytes (xs ++ ys) = ofBytes xs * 256 ^ ys.length + ofBytes ys := by
  rw [ofBytes, List.foldl_append, foldl_acc]
  rfl

@[simp] theorem ofBytes_nil : ofBytes [] = 0 := rfl

@[simp] theorem ofBytes_singleton (b : UInt8) : ofBytes [b] = b.toNat := by
  simp [ofBytes]

theorem ofBytes_cons (b : UInt8) (bs : List UInt8) :
    ofBytes (b :: bs) = b.toNat * 256 ^ bs.length + ofBytes bs := by
  rw [← List.singleton_append, ofBytes_append, ofBytes_singleton]

theorem ofBytes_toFixed (k i : Nat) : ofBytes (toFixed k i) = i % 256 ^ k := by
  induction k generalizing i with
  | zero => simp [toFixed, Nat.mod_one]
  | succ k ih =>
    have h256 : (UInt8.ofNat (i % 256)).toNat = i % 256 := by simp
    rw [toFixed, ofBytes_append, ih, ofBytes_singleton, h256,
      List.length_singleton, pow_one, Nat.pow_succ, Nat.mul_comm (256 ^ k), Nat.mod_mul]
    ring

theorem ofBytes_toFixed_of_lt {k i : Nat} (h : i < 256 ^ k) : ofBytes (toFixed k i) = i := by
  rw [ofBytes_toFixed, Nat.mod_eq_of_lt h]

theorem ofBytes_lt (bs : List UInt8) : ofBytes bs < 256 ^ bs.length := by
  induction bs using List.reverseRecOn with
  | nil => simp
  | append_singleton bs b ih =>
    rw [ofBytes_append, ofBytes_singleton, List.length_append, List.length_singleton,
      pow_one, Nat.pow_succ]
    have hb := b.toNat_lt
    have : ofBytes bs + 1 ≤ 256 ^ bs.length := ih
    nlinarith

/-- A non-zero leading byte bounds the value from below. -/
theorem pow_le_ofBytes_cons (b : UInt8) (bs : List UInt8) (hb : b ≠ 0) :
    256 ^ bs.length ≤ ofBytes (b :: bs) := by
  have : 1 ≤ b.toNat := by
    rcases Nat.eq_zero_or_pos b.toNat with h | h
    · exact absurd (UInt8.toNat_inj.mp (by simpa using h)) hb
    · exact h
  rw [ofBytes_cons]
  exact Nat.le_add_right_of_le (Nat.le_mul_of_pos_left _ this)

/-- A byte list is the fixed-width encoding of its own value. -/
theorem toFixed_ofBytes (bs : List UInt8) : toFixed bs.length (ofBytes bs) = bs := by
  induction bs using List.reverseRecOn with
  | nil => rfl
  | append_singleton bs b ih =>
    have hb := b.toNat_lt
    have hdiv : ofBytes (bs ++ [b]) / 256 = ofBytes bs := by
      rw [ofBytes_append, ofBytes_singleton, List.length_singleton, pow_one]
      omega
    have hmod : ofBytes (bs ++ [b]) % 256 = b.toNat := by
      rw [ofBytes_append, ofBytes_singleton, List.length_singleton, pow_one]
      omega
    rw [List.length_append, List.length_singleton, toFixed, hdiv, hmod, ih]
    simp

/-! ## The least width -/

theorem width_pos (i : Nat) : 0 < width i := by
  unfold width
  split <;> omega

theorem lt_pow_width (i : Nat) : i < 256 ^ width i := by
  induction i using Nat.strong_induction_on with
  | _ i ih =>
    unfold width
    split
    · omega
    · have := ih (i / 256) (by omega)
      rw [Nat.pow_succ]
      omega

theorem pow_width_le (i : Nat) (hi : 0 < i) : 256 ^ (width i - 1) ≤ i := by
  induction i using Nat.strong_induction_on with
  | _ i ih =>
    unfold width
    split
    · simp
      omega
    · have := ih (i / 256) (by omega) (by omega)
      have hw := width_pos (i / 256)
      rw [Nat.add_sub_cancel, show width (i / 256) = (width (i / 256) - 1) + 1 by omega,
        Nat.pow_succ]
      omega

/-- The minimal-width encoding of a positive value starts with a non-zero byte. -/
theorem head_toFixed_width (i : Nat) (hi : 0 < i) :
    ∃ b bs, toFixed (width i) i = b :: bs ∧ b ≠ 0 := by
  have hw := width_pos i
  have hlt := lt_pow_width i
  have hle := pow_width_le i hi
  obtain ⟨k, hk⟩ : ∃ k, width i = k + 1 := ⟨width i - 1, by omega⟩
  rw [hk] at hlt hle ⊢
  rw [Nat.add_sub_cancel] at hle
  refine ⟨_, _, toFixed_succ k i, fun h0 => ?_⟩
  have hq : i / 256 ^ k < 256 := by
    rw [Nat.div_lt_iff_lt_mul (by positivity), ← Nat.pow_succ']
    exact hlt
  have hq1 : 1 ≤ i / 256 ^ k := (Nat.le_div_iff_mul_le (by positivity)).mpr (by simpa using hle)
  have := congrArg UInt8.toNat h0
  simp [Nat.mod_eq_of_lt hq] at this
  omega

@[simp] theorem ofBytes_toFixed_width (i : Nat) : ofBytes (toFixed (width i) i) = i := by
  rw [ofBytes_toFixed, Nat.mod_eq_of_lt (lt_pow_width i)]

@[simp] theorem ofBytes_minimal (i : Nat) : ofBytes (minimal i) = i := by
  unfold minimal
  split
  · simp [*]
  · exact ofBytes_toFixed_width i

/-! ## Padding -/

/-- Above the bytes that hold `i`, a fixed-width encoding is zeros. -/
theorem toFixed_add_of_lt (j : Nat) {k i : Nat} (h : i < 256 ^ k) :
    toFixed (j + k) i = List.replicate j 0 ++ toFixed k i := by
  induction j with
  | zero => simp
  | succ j ih =>
    rw [Nat.add_right_comm, toFixed_succ, ih, List.replicate_succ, List.cons_append]
    have hle : 256 ^ k ≤ 256 ^ (j + k) := Nat.pow_le_pow_right (by norm_num) (by omega)
    rw [Nat.div_eq_of_lt (lt_of_lt_of_le h hle)]
    rfl

theorem width_le_of_lt {k i : Nat} (hi : 0 < i) (h : i < 256 ^ k) : width i ≤ k := by
  have hle := pow_width_le i hi
  by_contra hlt
  have : 256 ^ k ≤ 256 ^ (width i - 1) := Nat.pow_le_pow_right (by norm_num) (by omega)
  omega

/-- The minimal bytes of `i` copied to the end of `k` zero bytes are the
`k`-byte encoding of `i`. -/
theorem replicate_append_minimal {k i : Nat} (h : i < 256 ^ k) :
    List.replicate (k - (minimal i).length) 0 ++ minimal i = toFixed k i := by
  unfold minimal
  split
  · next hzero =>
    subst hzero
    have hzeros := toFixed_add_of_lt k (k := 0) (i := 0) (by norm_num)
    rw [Nat.add_zero] at hzeros
    simpa [toFixed] using hzeros.symm
  · next hzero =>
    have hw := width_le_of_lt (Nat.pos_of_ne_zero hzero) h
    rw [length_toFixed, ← toFixed_add_of_lt (k - width i) (lt_pow_width i), Nat.sub_add_cancel hw]

end BigEndian
