import Mathlib.Data.Nat.Size
import Bazacoin.Lib.Bitmap
import Bazacoin.State.Object

/-!
# Jump destinations (`core/vm/analysis.go`)

`JUMP` and `JUMPI` may only land on a `JUMPDEST` that is an instruction, not a
byte of a push's immediate data. `jumpdests` scans the code once, skipping
the data of every `PUSH1`..`PUSH32`, and marks each `JUMPDEST` it meets in a
bitmap; `destinations.has` caches the bitmap by the code's hash and tests a
destination in it.

The instruction boundaries are the least set of positions that holds `0` and
is closed under stepping over an instruction with its immediates
(`Boundary`). The scan from a boundary marks exactly the `JUMPDEST`s among
the positions it steps through (`test_jumpdestsFrom`), which are the
boundaries from there on (`boundary_iff_reach`). So `has` accepts exactly the
`JUMPDEST`s at boundaries (`has_iff_boundary`), for a cache that holds the
analysis of each code under its hash (`CacheSound`) and for codes of up to
`2^62` bytes; in a longer code the destinations of `BitLen` 63 and more are
instructions that `has` rejects.
-/

namespace Bazacoin

namespace Vm

open State

/-- `JUMPDEST`. -/
def JUMPDEST : UInt8 := 0x5b

/-- `PUSH1`. -/
def PUSH1 : UInt8 := 0x60

/-- `PUSH32`. -/
def PUSH32 : UInt8 := 0x7f

/-- The loop of `jumpdests` from `pc`, with the bitmap `m` filled so far.
`pc` stays below `len(code) + 33`, so the `uint64` counter never wraps. -/
def jumpdestsFrom (code : List UInt8) (m : List UInt8) (pc : Nat) : List UInt8 :=
  if h : pc < code.length then
    let op := code[pc]
    if op = JUMPDEST then jumpdestsFrom code (Bitmap.set m pc) (pc + 1)
    else if op ≥ PUSH1 ∧ op ≤ PUSH32 then
      let a := op.toNat - PUSH1.toNat + 1
      -- `pc += a`, then the loop's own `pc++`
      jumpdestsFrom code m (pc + a + 1)
    else jumpdestsFrom code m (pc + 1)
  else m
termination_by code.length - pc

/-- `jumpdests`: the bitmap of the code's jump destinations. -/
def jumpdests (code : List UInt8) : List UInt8 :=
  jumpdestsFrom code (List.replicate (code.length / 8 + 1) 0) 0

/-- `destinations`: the analysis of each code, under the code's hash. -/
abbrev destinations := Hash → Option (List UInt8)

/-- `destinations.has`: whether `dest` is a jump destination of `code`, and
the cache with `code`'s analysis in it. `dest.Uint64()` is `dest % 2^64` and
`dest.BitLen()` is `Nat.size dest`; a cached bitmap shorter than the code,
where Go would index past its end, reads as zeros. -/
def has (d : destinations) (codehash : Hash) (code : List UInt8) (dest : Nat) :
    Bool × destinations :=
  let udest := dest % 2 ^ 64
  if Nat.size dest ≥ 63 ∨ udest ≥ code.length then (false, d)
  else
    match d codehash with
    | some m => (Bitmap.test m udest, d)
    | none =>
      let m := jumpdests code
      (Bitmap.test m udest, Function.update d codehash (some m))

/-! ## Instruction boundaries -/

/-- The number of immediate bytes of `op`: `op - PUSH1 + 1` for the pushes. -/
def immediates (op : UInt8) : Nat :=
  if PUSH1 ≤ op ∧ op ≤ PUSH32 then op.toNat - PUSH1.toNat + 1 else 0

/-- The position after the instruction at `q` and its immediates. -/
def next (code : List UInt8) (q : Nat) : Nat := q + 1 + immediates (code.getD q 0)

/-- The instruction boundaries: the least set of positions holding `0` and
closed under `next` within the code. -/
inductive Boundary (code : List UInt8) : Nat → Prop
  | zero : Boundary code 0
  | next {q : Nat} : Boundary code q → q < code.length → Boundary code (next code q)

/-- The positions the scan steps through from `p`, stepping from the front. -/
inductive Reach (code : List UInt8) : Nat → Nat → Prop
  | refl (p : Nat) : Reach code p p
  | step {p q : Nat} : p < code.length → Reach code (next code p) q → Reach code p q

theorem lt_next (code : List UInt8) (q : Nat) : q < next code q := by
  unfold next
  omega

theorem Reach.le {code : List UInt8} {p q : Nat} (h : Reach code p q) : p ≤ q := by
  induction h with
  | refl => exact le_rfl
  | step _ _ ih => exact (lt_next code _).le.trans ih

/-- From a position in the code, the scan reaches the position itself and
what it reaches from the next instruction. -/
theorem reach_iff {code : List UInt8} {p : Nat} (hp : p < code.length) (q : Nat) :
    Reach code p q ↔ q = p ∨ Reach code (next code p) q := by
  constructor
  · intro h
    cases h with
    | refl => exact Or.inl rfl
    | step _ hnext => exact Or.inr hnext
  · rintro (rfl | hnext)
    · exact Reach.refl q
    · exact Reach.step hp hnext

theorem Reach.snoc {code : List UInt8} {p q : Nat} (h : Reach code p q) (hq : q < code.length) :
    Reach code p (next code q) := by
  induction h with
  | refl => exact Reach.step hq (Reach.refl _)
  | step hp _ ih => exact Reach.step hp (ih hq)

theorem Reach.boundary {code : List UInt8} {p q : Nat} (h : Reach code p q) (hp : Boundary code p) :
    Boundary code q := by
  induction h with
  | refl => exact hp
  | step hlt _ ih => exact ih (Boundary.next hp hlt)

/-- The boundaries are the positions the scan reaches from `0`. -/
theorem boundary_iff_reach (code : List UInt8) (q : Nat) : Boundary code q ↔ Reach code 0 q := by
  constructor
  · intro h
    induction h with
    | zero => exact Reach.refl 0
    | next _ hlt ih => exact ih.snoc hlt
  · intro h
    exact h.boundary Boundary.zero

/-! ## The scan -/

theorem immediates_JUMPDEST : immediates JUMPDEST = 0 := by decide

/-- The loop marks exactly the `JUMPDEST`s among the positions it reaches. -/
theorem test_jumpdestsFrom (code m : List UInt8) (pc : Nat) (hm : m.length = code.length / 8 + 1)
    (j : Nat) :
    Bitmap.test (jumpdestsFrom code m pc) j = true ↔
      Bitmap.test m j = true ∨ (j < code.length ∧ code.getD j 0 = JUMPDEST ∧ Reach code pc j) := by
  induction m, pc using jumpdestsFrom.induct code with
  | case1 m pc hpc op hop ih =>
    -- a `JUMPDEST`: marked, and the scan goes on at the next byte
    have hdest : code[pc] = JUMPDEST := hop
    have hnext : next code pc = pc + 1 := by
      rw [next, List.getD_eq_getElem _ _ hpc, hdest, immediates_JUMPDEST]
    rw [jumpdestsFrom, dif_pos hpc, if_pos hdest, ih (by rw [Bitmap.length_set, hm]),
      Bitmap.test_set (by omega), Bool.or_eq_true, decide_eq_true_iff, reach_iff hpc, hnext]
    constructor
    · rintro ((hold | rfl) | hlater)
      · exact Or.inl hold
      · exact Or.inr ⟨hpc, by rw [List.getD_eq_getElem _ _ hpc, hdest], Or.inl rfl⟩
      · exact Or.inr ⟨hlater.1, hlater.2.1, Or.inr hlater.2.2⟩
    · rintro (hold | ⟨hj, hjd, rfl | hlater⟩)
      · exact Or.inl (Or.inl hold)
      · exact Or.inl (Or.inr rfl)
      · exact Or.inr ⟨hj, hjd, hlater⟩
  | case2 m pc hpc op hop hpush a ih =>
    -- a push: its immediates are skipped
    have hnot : ¬code[pc] = JUMPDEST := hop
    have hrange : code[pc] ≥ PUSH1 ∧ code[pc] ≤ PUSH32 := hpush
    have hnext : pc + a + 1 = next code pc := by
      simp only [a, op]
      rw [next, List.getD_eq_getElem _ _ hpc, immediates, if_pos ⟨hrange.1, hrange.2⟩]
      omega
    rw [jumpdestsFrom, dif_pos hpc, if_neg hnot, if_pos hrange]
    show Bitmap.test (jumpdestsFrom code m (pc + a + 1)) j = true ↔ _
    rw [ih hm, reach_iff hpc, ← hnext]
    constructor
    · rintro (hold | ⟨hj, hjd, hlater⟩)
      · exact Or.inl hold
      · exact Or.inr ⟨hj, hjd, Or.inr hlater⟩
    · rintro (hold | ⟨hj, hjd, rfl | hlater⟩)
      · exact Or.inl hold
      · rw [List.getD_eq_getElem _ _ hpc] at hjd
        exact absurd hjd hnot
      · exact Or.inr ⟨hj, hjd, hlater⟩
  | case3 m pc hpc op hop hpush ih =>
    -- any other instruction: one byte
    have hnot : ¬code[pc] = JUMPDEST := hop
    have hrange : ¬(code[pc] ≥ PUSH1 ∧ code[pc] ≤ PUSH32) := hpush
    have hnext : next code pc = pc + 1 := by
      rw [next, List.getD_eq_getElem _ _ hpc, immediates, if_neg (fun h => hrange ⟨h.1, h.2⟩)]
    rw [jumpdestsFrom, dif_pos hpc, if_neg hnot, if_neg hrange, ih hm, reach_iff hpc, hnext]
    constructor
    · rintro (hold | ⟨hj, hjd, hlater⟩)
      · exact Or.inl hold
      · exact Or.inr ⟨hj, hjd, Or.inr hlater⟩
    · rintro (hold | ⟨hj, hjd, rfl | hlater⟩)
      · exact Or.inl hold
      · rw [List.getD_eq_getElem _ _ hpc] at hjd
        exact absurd hjd hnot
      · exact Or.inr ⟨hj, hjd, hlater⟩
  | case4 m pc hpc =>
    -- past the end: nothing more is marked, and nothing in the code is reached
    rw [jumpdestsFrom, dif_neg hpc]
    constructor
    · exact Or.inl
    · rintro (hold | ⟨hj, _, hreach⟩)
      · exact hold
      · exact absurd (hreach.le.trans_lt hj) hpc

/-- `jumpdests` marks exactly the `JUMPDEST`s at instruction boundaries. -/
theorem test_jumpdests (code : List UInt8) (j : Nat) :
    Bitmap.test (jumpdests code) j = true ↔
      j < code.length ∧ code.getD j 0 = JUMPDEST ∧ Boundary code j := by
  rw [jumpdests, test_jumpdestsFrom _ _ _ (List.length_replicate ..), Bitmap.test_zeros,
    boundary_iff_reach]
  simp

/-! ## The cache and the test -/

/-- Every analysis in the cache is that of the code whose hash is its key. -/
def CacheSound (H : List UInt8 → Hash) (d : destinations) : Prop :=
  ∀ code m, d (H code) = some m → m = jumpdests code

theorem cacheSound_empty (H : List UInt8 → Hash) : CacheSound H (fun _ => none) := by
  intro code m h
  cases h

/-- A destination of `2^62` or more has a bit length of `63` or more. -/
theorem has_fst_of_le {d : destinations} {codehash : Hash} {code : List UInt8} {dest : Nat}
    (h : 2 ^ 62 ≤ dest) : (has d codehash code dest).1 = false := by
  have hsize : 63 ≤ Nat.size dest := Nat.lt_size.mpr h
  unfold has
  rw [if_pos (Or.inl hsize)]

theorem has_fst_of_length_le {d : destinations} {codehash : Hash} {code : List UInt8} {dest : Nat}
    (hdest : dest < 2 ^ 62) (h : code.length ≤ dest) : (has d codehash code dest).1 = false := by
  have hmod : dest % 2 ^ 64 = dest := Nat.mod_eq_of_lt (by omega)
  unfold has
  rw [hmod, if_pos (Or.inr h)]

/-- Within the code and below `2^62`, `has` tests the code's analysis. -/
theorem has_fst_of_lt {H : List UInt8 → Hash} {d : destinations} (hd : CacheSound H d)
    {code : List UInt8} {dest : Nat} (hdest : dest < 2 ^ 62) (h : dest < code.length) :
    (has d (H code) code dest).1 = Bitmap.test (jumpdests code) dest := by
  have hmod : dest % 2 ^ 64 = dest := Nat.mod_eq_of_lt (by omega)
  have hsize : ¬ 63 ≤ Nat.size dest := by
    rw [not_le, Nat.lt_succ_iff, Nat.size_le]
    exact hdest
  unfold has
  rw [hmod, if_neg (by omega)]
  dsimp only
  split
  case h_1 m hm => rw [hd code m hm]
  case h_2 => rfl

/-- For codes of up to `2^62` bytes, `has` accepts exactly the `JUMPDEST`s at
instruction boundaries. -/
theorem has_iff_boundary (H : List UInt8 → Hash) {d : destinations} (hd : CacheSound H d)
    (code : List UInt8) (hlen : code.length ≤ 2 ^ 62) (p : Nat) :
    (has d (H code) code p).1 = true ↔
      p < code.length ∧ code.getD p 0 = JUMPDEST ∧ Boundary code p := by
  by_cases hin : p < code.length
  case pos =>
    rw [has_fst_of_lt hd (by omega) hin, test_jumpdests]
  case neg =>
    -- past the code: rejected by the bit length or by the length test
    have hfalse : (has d (H code) code p).1 = false := by
      by_cases hbig : 2 ^ 62 ≤ p
      case pos => exact has_fst_of_le hbig
      case neg => exact has_fst_of_length_le (by omega) (by omega)
    rw [hfalse]
    simp [hin]

/-- The `JUMPDEST` after a `PUSH1` and its data byte, itself a `JUMPDEST`. -/
theorem has_iff_boundary_push_data :
    CacheSound (fun _ => 0) (fun _ => none) ∧ [0x60, 0x5b, 0x5b].length ≤ 2 ^ 62 ∧
      ((has (fun _ => none) 0 [0x60, 0x5b, 0x5b] 2).1 = true ↔
        2 < [0x60, 0x5b, 0x5b].length ∧ [0x60, 0x5b, 0x5b].getD 2 0 = JUMPDEST ∧
          Boundary [0x60, 0x5b, 0x5b] 2) :=
  ⟨cacheSound_empty _, by decide,
    @has_iff_boundary (fun _ => 0) (fun _ => none) (cacheSound_empty _) [0x60, 0x5b, 0x5b] (by decide) 2⟩

end Vm

end Bazacoin
