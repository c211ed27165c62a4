import Mathlib.Data.Nat.Bitwise

/-!
# Bitmaps in bytes

A set of positions stored as the bits of a byte list: position `i` is bit
`i % 8` of byte `i / 8`. `Bitmap.set` ors the bit in and `Bitmap.test` masks
it out, as code writes `m[i/8] |= 1 << (i % 8)` and
`m[i/8] & (1 << (i % 8)) != 0`.

A bitmap of zeros holds nothing (`test_zeros`), and setting a position in
range adds exactly that position (`test_set`). These two lemmas are all a
proof about a bitmap-filling loop needs.
-/

namespace Bitmap

/-- The mask of bit `i % 8`. -/
def mask (i : Nat) : UInt8 := 1 <<< UInt8.ofNat (i % 8)

/-- `m[i/8] |= 1 << (i % 8)`. -/
def set (m : List UInt8) (i : Nat) : List UInt8 := m.modify (i / 8) (· ||| mask i)

/-- `m[i/8] & (1 << (i % 8)) != 0`. -/
def test (m : List UInt8) (i : Nat) : Bool := (m.getD (i / 8) 0 &&& mask i) != 0

theorem toNat_mask (i : Nat) : (mask i).toNat = 2 ^ (i % 8) := by
  have hlt : i % 8 < 8 := Nat.mod_lt _ (by omega)
  have hofNat : (UInt8.ofNat (i % 8)).toNat = i % 8 :=
    UInt8.toNat_ofNat_of_lt' (by omega : i % 8 < 2 ^ 8)
  rw [mask, UInt8.toNat_shiftLeft, hofNat, Nat.mod_eq_of_lt hlt]
  simp only [UInt8.reduceToNat, Nat.one_shiftLeft]
  exact Nat.mod_eq_of_lt (Nat.pow_lt_pow_right (by omega) hlt)

/-- Masking a byte tests its bit. -/
theorem and_mask_ne_zero (x : UInt8) (i : Nat) :
    ((x &&& mask i) != 0) = x.toNat.testBit (i % 8) := by
  have hand : (x &&& mask i).toNat = (x.toNat.testBit (i % 8)).toNat * 2 ^ (i % 8) := by
    rw [UInt8.toNat_and, toNat_mask, Nat.and_two_pow]
  have hpos : 0 < 2 ^ (i % 8) := Nat.two_pow_pos _
  cases hbit : x.toNat.testBit (i % 8)
  case false =>
    rw [hbit, Bool.toNat_false, Nat.zero_mul] at hand
    have hz : x &&& mask i = 0 := UInt8.toNat_inj.mp hand
    simp [hz]
  case true =>
    rw [hbit, Bool.toNat_true, Nat.one_mul] at hand
    have hnz : x &&& mask i ≠ 0 := fun hz => by
      rw [hz, UInt8.toNat_zero] at hand
      omega
    simp [hnz]

/-- Oring the mask in sets its bit and keeps the others. -/
theorem testBit_or_mask (x : UInt8) (i k : Nat) :
    (x ||| mask i).toNat.testBit k = (x.toNat.testBit k || decide (i % 8 = k)) := by
  rw [UInt8.toNat_or, toNat_mask, Nat.testBit_or, Nat.testBit_two_pow]

theorem test_eq_testBit (m : List UInt8) (i : Nat) :
    test m i = (m.getD (i / 8) 0).toNat.testBit (i % 8) :=
  and_mask_ne_zero _ i

@[simp] theorem test_zeros (n i : Nat) : test (List.replicate n 0) i = false := by
  rw [test_eq_testBit, List.getD_eq_getElem?_getD, List.getElem?_replicate]
  split <;> simp

@[simp] theorem length_set (m : List UInt8) (i : Nat) : (set m i).length = m.length :=
  List.length_modify _ _ _

/-- Setting a position in range adds exactly that position. -/
theorem test_set {m : List UInt8} {i : Nat} (hi : i / 8 < m.length) (j : Nat) :
    test (set m i) j = (test m j || decide (i = j)) := by
  rw [test_eq_testBit, test_eq_testBit, set, List.getD_eq_getElem?_getD, List.getElem?_modify,
    List.getD_eq_getElem?_getD]
  cases hbyte : m[j / 8]? with
  | none =>
    -- byte `j / 8` is past the end, so `j` is not `i`
    have hj : m.length ≤ j / 8 := List.getElem?_eq_none_iff.mp hbyte
    have hne : i ≠ j := by
      rintro rfl
      omega
    simp [hne]
  | some b =>
    simp only [Option.map_eq_map, Option.map_some, Option.getD_some]
    by_cases hsame : i / 8 = j / 8
    case pos =>
      rw [if_pos hsame, testBit_or_mask]
      -- in one byte, two positions are equal when their bits are
      have hiff : (i % 8 = j % 8) ↔ i = j := by omega
      simp only [hiff]
    case neg =>
      rw [if_neg hsame]
      have hne : i ≠ j := fun h => hsame (h ▸ rfl)
      simp [hne]

end Bitmap
