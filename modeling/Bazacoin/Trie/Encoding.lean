import Bazacoin.Rlp.Raw

/-!
# Trie key encodings (`trie/encoding.go`)

Trie keys come in three encodings. KEYBYTES is the key itself. HEX has one
byte per nibble and an optional trailing terminator `16` marking a key that
ends at a value; nodes in memory use it. COMPACT (hex-prefix) packs the
nibbles two per byte behind a flag nibble holding the terminator and parity
bits; nodes on disk use it.

The results here are the round trip `compactToHex (hexToCompact h) = h` for
every well-formed hex key (`compactToHex_hexToCompact`) and the shape of
`keybytesToHex`: nibbles below 16 followed by one terminator.

`compactToHex` indexes the first nibble without a check; on an empty compact key
it panics, which the model reports as `none`. `decodeNibbles` is only called on
an even number of nibbles.
-/

namespace Bazacoin

namespace Trie

/-- `keybytesToHex`: two nibbles per byte, high nibble first, then the
terminator 16. -/
def keybytesToHex (str : Bytes) : Bytes :=
  str.flatMap (fun b => [b / 16, b % 16]) ++ [16]

/-- `hasTerm`: whether a hex key ends with the terminator. -/
def hasTerm (s : Bytes) : Bool :=
  s.getLast? = some 16

/-- `decodeNibbles`: pack nibble pairs into bytes. -/
def decodeNibbles : Bytes → Bytes
  | n₀ :: n₁ :: rest => (n₀ <<< 4 ||| n₁) :: decodeNibbles rest
  | _ => []

/-- `hexToCompact`. -/
def hexToCompact (hex : Bytes) : Bytes :=
  let terminator : UInt8 := if hasTerm hex then 1 else 0
  let hex := if hasTerm hex then hex.dropLast else hex
  -- the flag byte; an odd key also moves its first nibble into it
  let flag := terminator <<< 5
  if hex.length % 2 = 1 then (flag ||| (1 : UInt8) <<< 4 ||| hex.headD 0) :: decodeNibbles hex.tail
  else flag :: decodeNibbles hex

/-- `compactToHex`; `none` is the panic on an empty key. -/
def compactToHex (compact : Bytes) : Option Bytes :=
  let base := (keybytesToHex compact).dropLast
  match base with
  | [] => none
  | b₀ :: _ =>
    -- apply terminator flag
    let base := if b₀ ≥ 2 then base ++ [16] else base
    -- apply odd flag
    let chop := 2 - (b₀ &&& 1)
    some (base.drop chop.toNat)

/-- `hexToKeybytes`, for keys of even length; `none` is the panic on an odd
one. -/
def hexToKeybytes (hex : Bytes) : Option Bytes :=
  let hex := if hasTerm hex then hex.dropLast else hex
  if hex.length % 2 ≠ 0 then none else some (decodeNibbles hex)

/-- `prefixLen`: the length of the common prefix of `a` and `b`. -/
def prefixLen : Bytes → Bytes → Nat
  | x :: xs, y :: ys => if x = y then prefixLen xs ys + 1 else 0
  | _, _ => 0

/-! ## Round trips -/

/-- Every byte is a nibble: the hex form of a key without its terminator. -/
def Nibbles (ns : Bytes) : Prop := ∀ n ∈ ns, n < 16

theorem nibbles_tail {n : UInt8} {ns : Bytes} (hv : Nibbles (n :: ns)) : Nibbles ns :=
  fun m hm => hv m (List.mem_cons_of_mem n hm)

/-- The two nibbles of a byte. -/
theorem nibble_bounds (b : UInt8) : b / 16 < 16 ∧ b % 16 < 16 := by
  have := b.toNat_lt
  simp only [UInt8.lt_iff_toNat_lt, UInt8.toNat_div, UInt8.toNat_mod, UInt8.toNat_ofNat,
    Nat.reducePow, Nat.reduceMod]
  omega

/-- A byte is determined by its two nibbles. -/
theorem eq_of_nibbles {a b : UInt8} (h₁ : a / 16 = b / 16) (h₂ : a % 16 = b % 16) : a = b := by
  have e₁ := congrArg UInt8.toNat h₁
  have e₂ := congrArg UInt8.toNat h₂
  simp only [UInt8.toNat_div, UInt8.toNat_mod, UInt8.toNat_ofNat, Nat.reducePow,
    Nat.reduceMod] at e₁ e₂
  apply UInt8.toNat_inj.mp
  omega

/-- Splitting a packed nibble pair gives the pair back. -/
theorem split_pack {a b : UInt8} (ha : a < 16) (hb : b < 16) :
    [(a <<< 4 ||| b) / 16, (a <<< 4 ||| b) % 16] = [a, b] := by
  -- a closed check over all nibble pairs, instantiated at `a` and `b`
  have key : ∀ i j : Fin 16,
      [(UInt8.ofNat i <<< 4 ||| UInt8.ofNat j) / 16, (UInt8.ofNat i <<< 4 ||| UInt8.ofNat j) % 16]
        = [UInt8.ofNat i, UInt8.ofNat j] := by decide
  have := key ⟨a.toNat, ha⟩ ⟨b.toNat, hb⟩
  simpa using this

/-- The flag byte of an odd-length key carries the parity bit, the terminator
bit and the first nibble. -/
theorem split_oddFlag {h : UInt8} (hh : h < 16) (t : UInt8) (ht : t < 2) :
    [(t <<< 5 ||| (1 : UInt8) <<< 4 ||| h) / 16, (t <<< 5 ||| (1 : UInt8) <<< 4 ||| h) % 16]
      = [2 * t + 1, h] := by
  have key : ∀ i : Fin 16, ∀ j : Fin 2,
      [(UInt8.ofNat j <<< 5 ||| (1 : UInt8) <<< 4 ||| UInt8.ofNat i) / 16,
        (UInt8.ofNat j <<< 5 ||| (1 : UInt8) <<< 4 ||| UInt8.ofNat i) % 16]
        = [2 * UInt8.ofNat j + 1, UInt8.ofNat i] := by decide
  have := key ⟨h.toNat, hh⟩ ⟨t.toNat, ht⟩
  simpa using this

/-- Unpacking what `decodeNibbles` packed gives the nibbles back. -/
theorem flatMap_decodeNibbles {ns : Bytes} (hv : Nibbles ns) (hev : ns.length % 2 = 0) :
    (decodeNibbles ns).flatMap (fun b => [b / 16, b % 16]) = ns := by
  induction ns using decodeNibbles.induct with
  | case1 n₀ n₁ rest ih =>
    have h₀ : n₀ < 16 := hv n₀ (by simp)
    have h₁ : n₁ < 16 := hv n₁ (by simp)
    rw [decodeNibbles, List.flatMap_cons, split_pack h₀ h₁,
      ih (fun n hn => hv n (by simp [hn])) (by simp at hev; omega)]
    rfl
  | case2 ns hns =>
    -- an even list that is not a pair followed by more is empty
    match ns, hns with
    | [], _ => rfl
    | [_], _ => simp at hev
    | n₀ :: n₁ :: rest, hns => exact absurd rfl (hns n₀ n₁ rest)

theorem nibbles_flatMap (k : Bytes) : Nibbles (k.flatMap (fun b => [b / 16, b % 16])) := by
  intro n hn
  obtain ⟨b, -, hb⟩ := List.mem_flatMap.mp hn
  simp only [List.mem_cons, List.not_mem_nil, or_false] at hb
  rcases hb with rfl | rfl
  · exact (nibble_bounds b).1
  · exact (nibble_bounds b).2

@[simp]
theorem hasTerm_append_term (ns : Bytes) : hasTerm (ns ++ [16]) = true := by
  simp [hasTerm]

theorem hasTerm_of_nibbles {ns : Bytes} (hv : Nibbles ns) : hasTerm ns = false := by
  cases h : ns.getLast? with
  | none => simp [hasTerm, h]
  | some n =>
    have hn : n < 16 := hv n (List.mem_of_getLast? h)
    have hne : n ≠ 16 := by
      intro he
      rw [he] at hn
      exact absurd hn (by decide)
    simp [hasTerm, h, hne]

theorem keybytesToHex_cons (b : UInt8) (bs : Bytes) :
    keybytesToHex (b :: bs) = b / 16 :: b % 16 :: keybytesToHex bs := by
  simp [keybytesToHex]

theorem dropLast_keybytesToHex (bs : Bytes) :
    (keybytesToHex bs).dropLast = bs.flatMap (fun b => [b / 16, b % 16]) := by
  simp [keybytesToHex]

/-- The hex form of a key is its nibbles followed by one terminator. -/
theorem keybytesToHex_eq (k : Bytes) :
    ∃ ns, Nibbles ns ∧ keybytesToHex k = ns ++ [16] :=
  ⟨_, nibbles_flatMap k, rfl⟩

/-- Different keys have different hex paths. -/
theorem keybytesToHex_inj {k₁ k₂ : Bytes} (h : keybytesToHex k₁ = keybytesToHex k₂) :
    k₁ = k₂ := by
  induction k₁ generalizing k₂ with
  | nil =>
    cases k₂ with
    | nil => rfl
    | cons b bs => simp [keybytesToHex] at h
  | cons a as ih =>
    cases k₂ with
    | nil => simp [keybytesToHex] at h
    | cons b bs =>
      simp only [keybytesToHex_cons, List.cons.injEq] at h
      obtain ⟨h₁, h₂, h₃⟩ := h
      rw [eq_of_nibbles h₁ h₂, ih h₃]

theorem decodeNibbles_flatMap (k : Bytes) :
    decodeNibbles (k.flatMap (fun b => [b / 16, b % 16])) = k := by
  induction k with
  | nil => rfl
  | cons b bs ih =>
    have hb := nibble_bounds b
    -- packing the two nibbles of `b` gives `b`
    have hpack : ((b / 16) <<< 4 ||| b % 16) = b := by
      have h := split_pack hb.1 hb.2
      simp only [List.cons.injEq, and_true] at h
      exact eq_of_nibbles h.1 h.2
    rw [List.flatMap_cons, List.cons_append, List.cons_append, List.nil_append, decodeNibbles,
      hpack, ih]

theorem length_dropLast_keybytesToHex (k : Bytes) :
    (keybytesToHex k).dropLast.length = 2 * k.length := by
  simp [keybytesToHex, List.length_flatMap, Nat.mul_comm]

/-- `hexToKeybytes` takes the hex form of a key back to the key. -/
theorem hexToKeybytes_keybytesToHex (k : Bytes) : hexToKeybytes (keybytesToHex k) = some k := by
  have hterm : hasTerm (keybytesToHex k) = true := hasTerm_append_term _
  have hev : (keybytesToHex k).dropLast.length % 2 = 0 := by
    rw [length_dropLast_keybytesToHex]
    omega
  dsimp only [hexToKeybytes]
  rw [if_pos hterm, if_neg (by omega), dropLast_keybytesToHex, decodeNibbles_flatMap]

/-- `compactToHex` of a flag byte followed by packed nibbles. -/
theorem compactToHex_flag {rest : Bytes} (hv : Nibbles rest) (hev : rest.length % 2 = 0)
    (flag : UInt8) :
    compactToHex (flag :: decodeNibbles rest)
      = some ((if flag / 16 ≥ 2 then flag / 16 :: flag % 16 :: rest ++ [16]
          else flag / 16 :: flag % 16 :: rest).drop (2 - (flag / 16 &&& 1)).toNat) := by
  simp only [compactToHex, dropLast_keybytesToHex, List.flatMap_cons,
    flatMap_decodeNibbles hv hev]
  rfl

/-- **Compact round trip**: decoding the compact form of a hex key, with or
without terminator, gives the key back. -/
theorem compactToHex_hexToCompact {ns : Bytes} (hv : Nibbles ns) (term : Bool) :
    compactToHex (hexToCompact (if term then ns ++ [16] else ns))
      = some (if term then ns ++ [16] else ns) := by
  have hkey : (if hasTerm (if term then ns ++ [16] else ns) then
      (if term then ns ++ [16] else ns).dropLast else (if term then ns ++ [16] else ns)) = ns := by
    cases term
    · simp [hasTerm_of_nibbles hv]
    · simp
  have hflag : (if hasTerm (if term then ns ++ [16] else ns) then (1 : UInt8) else 0)
      = if term then 1 else 0 := by
    cases term
    · simp [hasTerm_of_nibbles hv]
    · simp
  simp only [hexToCompact, hkey, hflag]
  rcases Nat.mod_two_eq_zero_or_one ns.length with hev | hodd
  · -- even length: the flag byte holds only the terminator bit
    rw [if_neg (by omega), compactToHex_flag hv hev]
    cases term <;> rfl
  · -- odd length: the first nibble moves into the flag byte
    obtain ⟨h, rest, rfl⟩ : ∃ h rest, ns = h :: rest := by
      cases ns with
      | nil => simp at hodd
      | cons h rest => exact ⟨h, rest, rfl⟩
    have hh : h < 16 := hv h (by simp)
    have hrest := nibbles_tail hv
    have hev : rest.length % 2 = 0 := by simp at hodd; omega
    rw [if_pos hodd, List.headD_cons, List.tail_cons]
    simp only [compactToHex, dropLast_keybytesToHex, List.flatMap_cons,
      flatMap_decodeNibbles hrest hev]
    cases term
    · rw [if_neg (by decide : ¬ (false = true)), split_oddFlag hh 0 (by decide)]
      rfl
    · rw [if_pos (rfl : true = true), split_oddFlag hh 1 (by decide)]
      rfl

example : compactToHex (hexToCompact [1, 2, 3, 4, 5, 16]) = some [1, 2, 3, 4, 5, 16] := by decide

/-- `prefixLen` is a common prefix. -/
theorem take_prefixLen (a b : Bytes) : a.take (prefixLen a b) = b.take (prefixLen a b) := by
  induction a generalizing b with
  | nil => simp [prefixLen]
  | cons x xs ih =>
    cases b with
    | nil => simp [prefixLen]
    | cons y ys =>
      by_cases h : x = y
      · simp [prefixLen, h, ih ys]
      · simp [prefixLen, h]

theorem prefixLen_le_left (a b : Bytes) : prefixLen a b ≤ a.length := by
  induction a generalizing b with
  | nil => simp [prefixLen]
  | cons x xs ih =>
    cases b with
    | nil => simp [prefixLen]
    | cons y ys =>
      unfold prefixLen
      split <;> simp [ih ys]

theorem prefixLen_le_right (a b : Bytes) : prefixLen a b ≤ b.length := by
  induction a generalizing b with
  | nil => simp [prefixLen]
  | cons x xs ih =>
    cases b with
    | nil => simp [prefixLen]
    | cons y ys =>
      unfold prefixLen
      split <;> simp [ih ys]

/-- Where the common prefix stops, both keys still have a nibble and they differ. -/
theorem getElem_prefixLen_ne {a b : Bytes} (ha : prefixLen a b < a.length)
    (hb : prefixLen a b < b.length) : a[prefixLen a b] ≠ b[prefixLen a b] := by
  induction a generalizing b with
  | nil => simp at ha
  | cons x xs ih =>
    cases b with
    | nil => simp at hb
    | cons y ys =>
      by_cases h : x = y
      · simp only [prefixLen, h, if_true, List.length_cons] at ha hb ⊢
        simpa using ih (by omega) (by omega)
      · simp [prefixLen, h]

end Trie

end Bazacoin
