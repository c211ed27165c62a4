import Bazacoin.Abi.Pack
import Bazacoin.Lib.Outcome

/-!
# Unpacking return values (`accounts/abi/abi.go`)

`ABI.Unpack` into a `[]interface{}` reads output `i` with `toGoType(i, …)`:
an elementary value from the word at byte `32*i`; `bytes` and `string` from
the offset in that word, a length word and the data; a slice likewise from an
offset; and a fixed array `T[k]` from `k` words starting at byte `32*i`.
Every position assumes that each earlier output took one word of head.
`readInteger` decodes the Go integer kinds from the word's low bytes, and
every other integer, whatever its sign, with `SetBytes`, as unsigned.

Slicing is Go's: an index outside the slice panics (`sliceBytes`). The
offsets and lengths read from the data are `int`s of their low eight bytes,
and the sums and products the code forms from them wrap as Go's 64-bit `int`
does (`goInt`). The positions `32*i` of the outputs and the sizes `32*k` of
fixed arrays come from the method, not from the data, and are taken as they
are.

Three consequences are proved for every input of the shapes below
(`abi_pack_unpack_diverges`): a negative `intN` whose Go type is `*big.Int`
comes back as `v + 2^256`; after a fixed array `uint256[k]` with `k ≥ 2`, the
next `uint256` comes back as the array's second element; and a `bytes`
argument after such an array is given the offset `64` where the standard
layout puts its data at `32 * (k + 1)`.

The guards on offsets and sizes compare wrapped sums with the length of the
data, so crafted return data reaches a slice expression with bounds outside
it and `Unpack` panics (`unpack_crafted_output_panics`): a size word
`2^64 - 1` (size `-1`) or an offset word `2^63 - 1` (`offset + 32` wraps) for
`string` and `bytes`, and a size word `2^59` (`size * 32` wraps to `0`) or an
offset word `2^64 - 40` (offset `-40`) for slices.
-/

namespace Bazacoin

namespace Abi

/-- Go's `b[lo:hi]`: a panic outside `0 ≤ lo ≤ hi ≤ len(b)`. -/
def sliceBytes (b : Bytes) (lo hi : Int) : Outcome AbiError Bytes :=
  if 0 ≤ lo ∧ lo ≤ hi ∧ hi ≤ b.length then .ok ((b.drop lo.toNat).take (hi - lo).toNat)
  else .panic "runtime error: slice bounds out of range"

/-- The `w`-bit two's complement value of `x`. -/
def toSigned (w x : Nat) : Int := if x < 2 ^ (w - 1) then x else (x : Int) - 2 ^ w

/-- `int(binary.BigEndian.Uint64(b))` of an eight-byte slice. -/
def readOffset (b : Bytes) : Int := toSigned 64 (BigEndian.ofBytes b)

/-- Go's `int` arithmetic: the result wrapped to 64-bit two's complement. -/
def goInt (x : Int) : Int := toSigned 64 (x % 2 ^ 64).toNat

/-- `readInteger`: the Go integer kinds from the low bytes of the word, and
`new(big.Int).SetBytes(b)`, unsigned, for `*big.Int`. -/
def readInteger (kind : IntKind) (b : Bytes) : Int :=
  match kind with
  | .uint8 => BigEndian.ofBytes (b.drop (b.length - 1))
  | .uint16 => BigEndian.ofBytes (b.drop (b.length - 2))
  | .uint32 => BigEndian.ofBytes (b.drop (b.length - 4))
  | .uint64 => BigEndian.ofBytes (b.drop (b.length - 8))
  | .int8 => toSigned 8 (BigEndian.ofBytes (b.drop (b.length - 1)))
  | .int16 => toSigned 16 (BigEndian.ofBytes (b.drop (b.length - 2)))
  | .int32 => toSigned 32 (BigEndian.ofBytes (b.drop (b.length - 4)))
  | .int64 => toSigned 64 (BigEndian.ofBytes (b.drop (b.length - 8)))
  | .ptr => BigEndian.ofBytes b

/-- `allZero`. -/
def allZero (b : Bytes) : Bool := b.all (· == 0)

/-- `common.BytesToAddress`: the last 20 bytes, right-aligned. -/
def bytesToAddress (b : Bytes) : Bytes := leftPadBytes (b.drop (b.length - 20)) 20

/-- The conversion of one word to an elementary value: `readInteger`, the
bool, the address, or the word itself for `bytesN`. -/
def readElem (t : ElemType) (w : Bytes) : ElemValue :=
  match t with
  | .int _ | .uint _ => .int (readInteger t.kind w)
  | .bool => .bool !(allZero w)
  | .address => .address (bytesToAddress w)
  | .fixedBytes _ => .fixedBytes w

/-- The loop of `toGoSlice` from element `i` on, `n` more elements: each is
`slice[i*32 : i*32+32]`, a panic past the end of `slice`. -/
def readElemsFrom (t : ElemType) (slice : Bytes) : Nat → Nat → Outcome AbiError (List ElemValue)
  | 0, _ => .ok []
  | n + 1, i =>
    (sliceBytes slice (i * 32) (i * 32 + 32)).bind fun w =>
      (readElemsFrom t slice n (i + 1)).map (readElem t w :: ·)

/-- The loop of `toGoSlice` over the `size` words of `slice`. -/
def readElems (t : ElemType) (slice : Bytes) (size : Nat) : Outcome AbiError (List ElemValue) :=
  readElemsFrom t slice size 0

/-- `toGoSlice` for output `i` of element type `t`: a slice (`isSlice`) from
its offset, or a fixed array of `k` elements in place. -/
def toGoSlice (i : Nat) (t : ElemType) (isSlice : Bool) (k : Nat) (output : Bytes) :
    Outcome AbiError Value :=
  let index : Int := i * 32
  if index + 32 > output.length then .error (.sliceSize output.length (index + 32))
  else if isSlice then do
    let offset := readOffset (← sliceBytes output (index + 24) (index + 32))
    if goInt (offset + 32) > output.length then .error (.sliceOffset output.length (goInt (offset + 32)))
    else
      let slice ← sliceBytes output offset output.length
      let size := readOffset (← sliceBytes slice 24 32)
      let slice ← sliceBytes slice 32 slice.length
      if goInt (size * 32) > slice.length then
        .error (.sliceSize output.length (goInt (offset + 32 + size * 32)))
      else
        let slice ← sliceBytes slice 0 (goInt (size * 32))
        (readElems t slice size.toNat).map .list
  else if index + 32 * k > output.length then .error (.arrayOffset output.length (index + 32 * k))
  else do
    let slice ← sliceBytes output index (index + k * 32)
    (readElems t slice k).map .list

/-- The `StringTy`/`BytesTy` case of `toGoType`: the data behind the offset in
word `i`. -/
def readDynamic (i : Nat) (output : Bytes) : Outcome AbiError Bytes :=
  let index : Int := i * 32
  if index + 32 > output.length then .error (.typeLength output.length (index + 32))
  else do
    let offset := readOffset (← sliceBytes output (index + 24) (index + 32))
    if goInt (offset + 32) > output.length then .error (.typeLength output.length (goInt (offset + 32)))
    else
      let size := readOffset (← sliceBytes output (goInt (offset + 24)) (goInt (offset + 32)))
      if goInt (offset + 32 + size) > output.length then
        .error (.typeLength output.length (goInt (offset + 32 + size)))
      else sliceBytes output (goInt (offset + 32)) (goInt (offset + 32 + size))

/-- `toGoType` for output `i`. -/
def toGoType (i : Nat) : AbiType → Bytes → Outcome AbiError Value
  | .array t k, output => toGoSlice i t false k output
  | .slice t, output => toGoSlice i t true 0 output
  | .string, output => (readDynamic i output).map .string
  | .bytes, output => (readDynamic i output).map .bytes
  | .elem t, output =>
    let index : Int := i * 32
    if index + 32 > output.length then .error (.typeLength output.length (index + 32))
    else (sliceBytes output index (index + 32)).map fun w => .elem (readElem t w)

/-- The outputs from the `i`-th on. -/
def unpackFrom (output : Bytes) : Nat → List AbiType → Outcome AbiError (List Value)
  | _, [] => .ok []
  | i, t :: ts => (toGoType i t output).bind fun v => (unpackFrom output (i + 1) ts).map (v :: ·)

/-- `ABI.Unpack` of a method's outputs into a `[]interface{}`. A method
without outputs has no `Outputs[0]`. -/
def Unpack (outputs : List AbiType) (output : Bytes) : Outcome AbiError (List Value) :=
  if output.length = 0 then .error .emptyOutput
  else if outputs = [] then .panic "runtime error: index out of range"
  else unpackFrom output 0 outputs

/-! ## Reading words back -/

theorem sliceBytes_ok {b : Bytes} {lo hi : Int} (h : 0 ≤ lo ∧ lo ≤ hi ∧ hi ≤ b.length) :
    sliceBytes b lo hi = .ok ((b.drop lo.toNat).take (hi - lo).toNat) := by
  rw [sliceBytes, if_pos h]

/-- `SetBytes` of a word is its value modulo `2^256`, whatever the sign of the
packed integer. -/
theorem readInteger_ptr_U256 (v : Int) : readInteger .ptr (U256 v) = v % 2 ^ 256 := by
  have h0 : 0 ≤ v % 2 ^ 256 := Int.emod_nonneg _ (by norm_num)
  rw [readInteger, ofBytes_U256, Int.toNat_of_nonneg h0]

/-- Words laid one after the other take 32 bytes each. -/
theorem length_flatten_words : ∀ {ws : List Bytes}, (∀ w ∈ ws, w.length = 32) →
    ws.flatten.length = ws.length * 32
  | [], _ => rfl
  | w :: ws, hlen => by
    rw [List.flatten_cons, List.length_append, hlen w List.mem_cons_self,
      length_flatten_words (fun w' hw' => hlen w' (List.mem_cons_of_mem w hw')), List.length_cons]
    ring

/-- Word `j` of words laid one after the other. The induction is on the
words. -/
theorem take_drop_flatten : ∀ {ws : List Bytes}, (∀ w ∈ ws, w.length = 32) →
    ∀ j (hj : j < ws.length), (ws.flatten.drop (j * 32)).take 32 = ws[j]
  | w :: ws, hlen, 0, _ => by
    simp only [List.flatten_cons, Nat.zero_mul, List.drop_zero, List.getElem_cons_zero]
    exact List.take_left' (hlen w List.mem_cons_self)
  | w :: ws, hlen, j + 1, hj => by
    have hw := hlen w List.mem_cons_self
    have hrest := take_drop_flatten (fun w' hw' => hlen w' (List.mem_cons_of_mem w hw')) j
      (by simpa using hj)
    rw [List.flatten_cons, Nat.succ_mul, Nat.add_comm, ← hw, List.drop_length_add_append,
      List.getElem_cons_succ]
    simpa only [hw] using hrest

/-- The loop over words laid one after the other reads them word by word,
from word `i` to the last. The induction is on the words left. -/
theorem readElemsFrom_flatten (t : ElemType) {ws : List Bytes} (hlen : ∀ w ∈ ws, w.length = 32) :
    ∀ n i, i + n = ws.length → readElemsFrom t ws.flatten n i = .ok ((ws.drop i).map (readElem t))
  | 0, i, hi => by
    rw [readElemsFrom, List.drop_of_length_le (by omega), List.map_nil]
  | n + 1, i, hi => by
    have hflat := length_flatten_words hlen
    have hword : sliceBytes ws.flatten ((i : Int) * 32) ((i : Int) * 32 + 32) = .ok ws[i] := by
      rw [sliceBytes_ok (by omega), show ((i : Int) * 32).toNat = i * 32 by omega,
        show ((i : Int) * 32 + 32 - (i : Int) * 32).toNat = 32 by omega,
        take_drop_flatten hlen i (by omega)]
    rw [readElemsFrom, hword, Outcome.bind_ok, readElemsFrom_flatten t hlen n (i + 1) (by omega),
      Outcome.map_ok, List.drop_eq_getElem_cons (by omega : i < ws.length), List.map_cons]

/-- The elements read from words laid one after the other are read word by
word. -/
theorem readElems_flatten (t : ElemType) {ws : List Bytes} (hlen : ∀ w ∈ ws, w.length = 32) :
    readElems t ws.flatten ws.length = .ok (ws.map (readElem t)) := by
  rw [readElems, readElemsFrom_flatten t hlen ws.length 0 (by omega), List.drop_zero]

/-- An elementary output `j` is read from word `j`. -/
theorem toGoType_elem_word (t : ElemType) {ws : List Bytes} (hlen : ∀ w ∈ ws, w.length = 32) (j : Nat)
    (hj : j < ws.length) : toGoType j (.elem t) ws.flatten = .ok (.elem (readElem t ws[j])) := by
  have hflat := length_flatten_words hlen
  have hlo : ((j : Int) * 32).toNat = j * 32 := by omega
  have hwidth : ((j : Int) * 32 + 32 - (j : Int) * 32).toNat = 32 := by omega
  simp only [toGoType]
  rw [if_neg (by omega), sliceBytes_ok (by omega), hlo, hwidth, take_drop_flatten hlen j hj]
  rfl

/-- A fixed array output `0` of `k` elements is read from the first `k`
words. -/
theorem toGoType_array_first (t : ElemType) {ws : List Bytes} (hlen : ∀ w ∈ ws, w.length = 32)
    (rest : Bytes) (h32 : 32 ≤ (ws.flatten ++ rest).length) :
    toGoType 0 (.array t ws.length) (ws.flatten ++ rest) = .ok (.list (ws.map (readElem t))) := by
  have hflat := length_flatten_words hlen
  have hall : (ws.flatten ++ rest).length = ws.length * 32 + rest.length := by
    rw [List.length_append, hflat]
  simp only [toGoType, toGoSlice, Nat.cast_zero, Bool.false_eq_true, ↓reduceIte]
  rw [if_neg (by omega), if_neg (by omega), sliceBytes_ok (by omega)]
  have hlo : ((0 : Int) * 32).toNat = 0 := by omega
  have hcut : ((0 : Int) * 32 + ws.length * 32 - 0 * 32).toNat = ws.flatten.length := by omega
  simp only [hlo, hcut, List.drop_zero, List.take_left, Outcome.bind_eq_bind, Outcome.bind_ok,
    readElems_flatten t hlen, Outcome.map_ok]

/-- A single elementary output is read from its word. -/
theorem Unpack_elem (t : ElemType) {w : Bytes} (hw : w.length = 32) :
    Unpack [.elem t] w = .ok [.elem (readElem t w)] := by
  have hlen : ∀ x ∈ [w], x.length = 32 := by simpa using hw
  have hword := toGoType_elem_word t hlen 0 (by simp)
  simp only [List.flatten_cons, List.flatten_nil, List.append_nil, List.getElem_cons_zero] at hword
  simp [Unpack, unpackFrom, hw, hword]

/-! ## Where the round trip fails -/

/-- A negative `intN` whose Go type is `*big.Int` packs into its two's
complement word and comes back as that word's unsigned value. -/
theorem unpack_pack_negative_bigInt {N : Nat} (hN : reflectIntKind false N = .ptr) {v : Int}
    (hv : -2 ^ 256 ≤ v ∧ v < 0) :
    methodPack [.elem (.int N)] [.elem (.int v)] = .ok (U256 v) ∧
    Unpack [.elem (.int N)] (U256 v) = .ok [.elem (.int (v + 2 ^ 256))] := by
  refine ⟨by simp [methodPack, packArgs, AbiType.pack, packElement, AbiType.requiresLengthPrefix], ?_⟩
  have hmod : v % 2 ^ 256 = v + 2 ^ 256 := by omega
  rw [Unpack_elem _ (length_U256 v), readElem, ElemType.kind, hN, readInteger_ptr_U256, hmod]

/-- A `uint256[k]` packs into its elements' words. -/
theorem pack_array_uint (a : List Int) :
    (AbiType.array (.uint 256) a.length).pack (.list (a.map .int)) = .ok (a.map U256).flatten := by
  rw [AbiType.pack, if_pos (by simp)]
  exact packElements_int (fun _ => rfl) a

/-- The packed words of a `uint256[k]` followed by a `uint256`. -/
theorem methodPack_array_uint (a : List Int) (b : Int) :
    methodPack [.array (.uint 256) a.length, .elem (.uint 256)] [.list (a.map .int), .elem (.int b)] =
      .ok ((a.map U256).flatten ++ U256 b) := by
  unfold methodPack
  rw [if_neg (by simp)]
  simp only [packArgs, pack_array_uint, AbiType.requiresLengthPrefix, Bool.false_eq_true, ↓reduceIte]
  simp [AbiType.pack, packElement]

/-- Unpacking reads the `uint256` after a `uint256[k]` at byte 32, inside the
array: for `k ≥ 2` it is the array's second element. -/
theorem unpack_array_uint {a : List Int} (ha : 2 ≤ a.length) (hrange : ∀ x ∈ a, 0 ≤ x ∧ x < 2 ^ 256)
    (b : Int) :
    Unpack [.array (.uint 256) a.length, .elem (.uint 256)] ((a.map U256).flatten ++ U256 b) =
      .ok [.list (a.map .int), .elem (.int (a.get ⟨1, by omega⟩))] := by
  -- the packed bytes are the array's words and then `b`'s
  have hws : (a.map U256).flatten ++ U256 b = (a.map U256 ++ [U256 b]).flatten := by
    rw [List.flatten_append]
    simp only [List.flatten_cons, List.flatten_nil, List.append_nil]
  have hlen : ∀ w ∈ a.map U256 ++ [U256 b], w.length = 32 := by
    intro w hw
    rcases List.mem_append.mp hw with hw | hw
    · obtain ⟨x, -, rfl⟩ := List.mem_map.mp hw
      exact length_U256 x
    · rw [List.mem_singleton.mp hw]
      exact length_U256 b
  have hlen' : ∀ w ∈ a.map U256, w.length = 32 := fun w hw => hlen w (List.mem_append_left _ hw)
  have htotal := length_flatten_words hlen
  rw [← hws] at htotal
  -- a word of an in-range `uint256` reads back as itself
  have hread : ∀ x ∈ a, readElem (.uint 256) (U256 x) = .int x := by
    intro x hx
    simp only [readElem, ElemType.kind, reflectIntKind, readInteger_ptr_U256]
    rw [Int.emod_eq_of_lt (hrange x hx).1 (hrange x hx).2]
  have hmap : (a.map U256).map (readElem (.uint 256)) = a.map .int := by
    rw [List.map_map]
    exact List.map_congr_left fun x hx => hread x hx
  have harr : toGoType 0 (.array (.uint 256) a.length) ((a.map U256).flatten ++ U256 b) =
      .ok (.list (a.map .int)) := by
    have h := toGoType_array_first (.uint 256) hlen' (U256 b)
      (by rw [htotal, List.length_append, List.length_map]; simp only [List.length_singleton]; omega)
    rw [List.length_map, hmap] at h
    exact h
  have hword : toGoType 1 (.elem (.uint 256)) ((a.map U256).flatten ++ U256 b) =
      .ok (.elem (.int (a.get ⟨1, by omega⟩))) := by
    rw [hws, toGoType_elem_word _ hlen 1 (by simp; omega)]
    simp only [List.getElem_append_left (by simp; omega : 1 < (a.map U256).length), List.getElem_map,
      List.get_eq_getElem]
    rw [hread _ (List.getElem_mem _)]
  have hne : ((a.map U256).flatten ++ U256 b).length ≠ 0 := by
    rw [htotal]
    simp
  simp only [Unpack, hne, reduceCtorEq, ↓reduceIte, unpackFrom, harr, hword, Outcome.bind_ok,
    Outcome.map_ok]

/-- A `bytes` argument after a `uint256[k]`: `Method.pack` writes the offset
`2 * 32`, the standard layout the end of a head of `k + 1` words. -/
theorem methodPack_array_bytes (a : List Int) (c : Bytes) :
    methodPack [.array (.uint 256) a.length, .bytes] [.list (a.map .int), .bytes c] =
      .ok ((a.map U256).flatten ++ U256 64 ++ packBytesSlice c c.length) ∧
    (packAll [.array (.uint 256) a.length, .bytes] [.list (a.map .int), .bytes c]).map
        (standardEncode [.array (.uint 256) a.length, .bytes]) =
      .ok ((a.map U256).flatten ++ U256 (32 * a.length + 32) ++ packBytesSlice c c.length) := by
  constructor
  · unfold methodPack
    rw [if_neg (by simp)]
    simp only [packArgs, pack_array_uint, AbiType.requiresLengthPrefix, Bool.false_eq_true, ↓reduceIte]
    simp [AbiType.pack]
  · simp only [packAll, pack_array_uint]
    simp [AbiType.pack, Except.map, standardEncode, layout, AbiType.headSize, AbiType.requiresLengthPrefix]

/-- Packing and unpacking diverge from the standard encoding and from each
other: a negative `intN` of Go type `*big.Int` comes back as `v + 2^256`; the
`uint256` after a `uint256[k]`, `k ≥ 2`, comes back as the array's second
element; and a `bytes` after such an array gets an offset other than the
standard one. -/
theorem abi_pack_unpack_diverges {N : Nat} (hN : reflectIntKind false N = .ptr) (hN256 : N ≤ 256)
    {v : Int} (hv : -2 ^ (N - 1) ≤ v ∧ v < 0) {a : List Int} (ha : 2 ≤ a.length) (ha63 : a.length < 2 ^ 63)
    (hrange : ∀ x ∈ a, 0 ≤ x ∧ x < 2 ^ 256) (b : Int) (c : Bytes) :
    (∃ p, methodPack [.elem (.int N)] [.elem (.int v)] = .ok p ∧
      Unpack [.elem (.int N)] p = .ok [.elem (.int (v + 2 ^ 256))]) ∧
    (∃ p, methodPack [.array (.uint 256) a.length, .elem (.uint 256)] [.list (a.map .int), .elem (.int b)] =
        .ok p ∧
      Unpack [.array (.uint 256) a.length, .elem (.uint 256)] p =
        .ok [.list (a.map .int), .elem (.int (a.get ⟨1, by omega⟩))]) ∧
    methodPack [.array (.uint 256) a.length, .bytes] [.list (a.map .int), .bytes c] ≠
      (packAll [.array (.uint 256) a.length, .bytes] [.list (a.map .int), .bytes c]).map
        (standardEncode [.array (.uint 256) a.length, .bytes]) := by
  have hpow : (2 : Int) ^ (N - 1) ≤ 2 ^ 256 := pow_le_pow_right₀ (by norm_num) (by omega)
  obtain ⟨hpack, hunpack⟩ := unpack_pack_negative_bigInt hN (v := v) ⟨by omega, hv.2⟩
  refine ⟨⟨_, hpack, hunpack⟩, ⟨_, methodPack_array_uint a b, unpack_array_uint ha hrange b⟩, ?_⟩
  -- the two encodings differ in the word after the array
  obtain ⟨hgo, hstd⟩ := methodPack_array_bytes a c
  rw [hgo, hstd]
  intro heq
  have hflat : ((a.map U256).flatten).length = a.length * 32 :=
    (length_flatten_words (by simp)).trans (by rw [List.length_map])
  have hword := congrArg (fun p : Except AbiError Bytes => match p with
    | .ok p => BigEndian.ofBytes (((p.drop (a.length * 32)).take 32))
    | .error _ => 0) heq
  simp only [List.append_assoc, List.drop_append_of_le_length (le_of_eq hflat.symm),
    List.drop_eq_nil_of_le (le_of_eq hflat), List.nil_append] at hword
  rw [List.take_left' (length_U256 _), List.take_left' (length_U256 _), ofBytes_U256, ofBytes_U256] at hword
  omega

/-- `int256` `-1`, the array `[1, 2]` with `3` after it, and an empty `bytes`
after the same array. -/
theorem abi_pack_unpack_diverges_int256 :
    reflectIntKind false 256 = .ptr ∧ 256 ≤ 256 ∧ (-2 ^ (256 - 1) ≤ (-1 : Int) ∧ (-1 : Int) < 0) ∧
      2 ≤ [(1 : Int), 2].length ∧ [(1 : Int), 2].length < 2 ^ 63 ∧
      (∀ x ∈ [(1 : Int), 2], 0 ≤ x ∧ x < 2 ^ 256) ∧
    ((∃ p, methodPack [.elem (.int 256)] [.elem (.int (-1))] = .ok p ∧
      Unpack [.elem (.int 256)] p = .ok [.elem (.int (-1 + 2 ^ 256))]) ∧
    (∃ p, methodPack [.array (.uint 256) 2, .elem (.uint 256)] [.list [.int 1, .int 2], .elem (.int 3)] =
        .ok p ∧
      Unpack [.array (.uint 256) 2, .elem (.uint 256)] p = .ok [.list [.int 1, .int 2], .elem (.int 2)]) ∧
    methodPack [.array (.uint 256) 2, .bytes] [.list [.int 1, .int 2], .bytes []] ≠
      (packAll [.array (.uint 256) 2, .bytes] [.list [.int 1, .int 2], .bytes []]).map
        (standardEncode [.array (.uint 256) 2, .bytes])) :=
  ⟨rfl, le_refl _, by norm_num, by decide, by norm_num, by decide,
    abi_pack_unpack_diverges (a := [1, 2]) rfl (by norm_num) (by norm_num) (by decide) (by norm_num)
      (by decide) 3 []⟩

/-! ## Crafted return data

The guards compare wrapped sums with the length of the output; a negative
size, or an offset whose sum with `32` wraps, passes them and becomes a slice
bound. -/

/-- Slicing after a prefix is slicing the rest, at the positions shifted by
the prefix's length. -/
theorem sliceBytes_append_left (pre l : Bytes) {lo hi : Int} (hlo : 0 ≤ lo) :
    sliceBytes (pre ++ l) (pre.length + lo) (pre.length + hi) = sliceBytes l lo hi := by
  have hlen : ((pre ++ l).length : Int) = pre.length + l.length := by simp
  unfold sliceBytes
  by_cases h : 0 ≤ lo ∧ lo ≤ hi ∧ hi ≤ l.length
  · rw [if_pos (by omega), if_pos h, show (pre.length + lo : Int).toNat = pre.length + lo.toNat by omega,
      List.drop_length_add_append, show (pre.length : Int) + hi - (pre.length + lo) = hi - lo by ring]
  · rw [if_neg (by omega), if_neg h]

/-- The low eight bytes of a word, where `int(binary.BigEndian.Uint64(…))`
reads an offset or a size. -/
theorem sliceBytes_low_word (x : Int) (rest : Bytes) :
    sliceBytes (U256 x ++ rest) 24 32 = .ok (BigEndian.toFixed 8 (x % 2 ^ 256).toNat) := by
  rw [sliceBytes_ok (by simp)]
  have hdrop : (U256 x ++ rest).drop (24 : Int).toNat = BigEndian.toFixed 8 (x % 2 ^ 256).toNat ++ rest := by
    rw [List.drop_append_of_le_length (by simp), U256, show (24 : Int).toNat = 24 from rfl,
      BigEndian.drop_toFixed_add 24 8]
  rw [hdrop, show ((32 : Int) - 24).toNat = 8 from rfl,
    List.take_left' (BigEndian.length_toFixed 8 _)]

/-- The offset or size a word gives: its value modulo `2^64`, as a signed
`int`. -/
theorem readOffset_low_word (n : Nat) : readOffset (BigEndian.toFixed 8 n) = toSigned 64 (n % 2 ^ 64) := by
  rw [readOffset, BigEndian.ofBytes_toFixed, show (256 : Nat) ^ 8 = 2 ^ 64 by norm_num]

/-- A word below `2^64` gives itself when below `2^63`, and itself minus
`2^64` above. -/
theorem readOffset_low_word_of_lt {x : Int} (h0 : 0 ≤ x) (h : x < 2 ^ 64) :
    readOffset (BigEndian.toFixed 8 (x % 2 ^ 256).toNat) = if x < 2 ^ 63 then x else x - 2 ^ 64 := by
  have hmod : x.toNat % 2 ^ 64 = x.toNat := Nat.mod_eq_of_lt (by omega)
  rw [readOffset_low_word, Int.emod_eq_of_lt h0 (by omega), hmod, toSigned]
  split_ifs <;> omega

/-- Go's `int` arithmetic gives `y` for any `x` congruent to it modulo
`2^64`, when `y` is in the range of `int`. -/
theorem goInt_eq_of_emod {x y : Int} (hxy : x % 2 ^ 64 = y % 2 ^ 64) (hy : -2 ^ 63 ≤ y ∧ y < 2 ^ 63) :
    goInt x = y := by
  have hlo : 0 ≤ x % 2 ^ 64 := Int.emod_nonneg _ (by norm_num)
  have hcast : (((x % 2 ^ 64).toNat : Nat) : Int) = x % 2 ^ 64 := Int.toNat_of_nonneg hlo
  unfold goInt toSigned
  split_ifs with h <;> omega

/-- A method whose first output fails at the head fails the same way,
whatever the outputs after it. -/
theorem Unpack_of_first_panic {t : AbiType} {output : Bytes} {m : String} (ts : List AbiType)
    (hne : output ≠ []) (h : toGoType 0 t output = .panic m) : Unpack (t :: ts) output = .panic m := by
  have hlen : output.length ≠ 0 := fun h0 => hne (List.eq_nil_of_length_eq_zero h0)
  simp only [Unpack, hlen, reduceCtorEq, ↓reduceIte, unpackFrom, h, Outcome.bind_panic]

/-- A `string` or `bytes` output at offset `32` with size word `2^64 - 1`:
the size is `-1`, `offset + 32 + size = 63` passes the guard, and
`output[64:63]` panics. -/
theorem readDynamic_negative_size (rest : Bytes) :
    readDynamic 0 (U256 32 ++ U256 (2 ^ 64 - 1) ++ rest) = .panic "runtime error: slice bounds out of range" := by
  have hlen : ((U256 32 ++ U256 (2 ^ 64 - 1) ++ rest).length : Int) = 64 + rest.length := by simp; ring
  have hoffset : readOffset (BigEndian.toFixed 8 ((32 : Int) % 2 ^ 256).toNat) = 32 := by
    rw [readOffset_low_word_of_lt (by norm_num) (by norm_num), if_pos (by norm_num)]
  have hsizeWord : sliceBytes (U256 32 ++ U256 (2 ^ 64 - 1) ++ rest) 56 64 =
      .ok (BigEndian.toFixed 8 ((2 ^ 64 - 1 : Int) % 2 ^ 256).toNat) := by
    have h : sliceBytes (U256 32 ++ (U256 (2 ^ 64 - 1) ++ rest)) ((U256 32).length + 24)
        ((U256 32).length + 32) = sliceBytes (U256 (2 ^ 64 - 1) ++ rest) 24 32 :=
      sliceBytes_append_left _ _ (by norm_num)
    rw [length_U256, sliceBytes_low_word] at h
    rw [List.append_assoc]
    exact h
  have hsize : readOffset (BigEndian.toFixed 8 ((2 ^ 64 - 1 : Int) % 2 ^ 256).toNat) = -1 := by
    rw [readOffset_low_word_of_lt (by norm_num) (by norm_num), if_neg (by norm_num)]
    norm_num
  simp only [readDynamic, Nat.cast_zero, zero_mul, zero_add]
  rw [if_neg (by omega), List.append_assoc, sliceBytes_low_word, ← List.append_assoc]
  rw [Outcome.bind_eq_bind, Outcome.bind_ok, hoffset,
    goInt_eq_of_emod (x := 32 + 32) (y := 64) (by norm_num) (by norm_num), if_neg (by omega),
    goInt_eq_of_emod (x := 32 + 24) (y := 56) (by norm_num) (by norm_num), hsizeWord, Outcome.bind_eq_bind,
    Outcome.bind_ok, hsize, goInt_eq_of_emod (x := 32 + 32 + -1) (y := 63) (by norm_num) (by norm_num),
    if_neg (by omega), sliceBytes, if_neg (by omega)]

/-- A `string` or `bytes` output whose offset word is `2^63 - 1`: the sum
`offset + 32` wraps to a negative `int`, passes the guard, and the size is
read at a negative index. -/
theorem readDynamic_offset_overflow (rest : Bytes) :
    readDynamic 0 (U256 (2 ^ 63 - 1) ++ rest) = .panic "runtime error: slice bounds out of range" := by
  have hlen : ((U256 (2 ^ 63 - 1) ++ rest).length : Int) = 32 + rest.length := by simp
  have hoffset : readOffset (BigEndian.toFixed 8 ((2 ^ 63 - 1 : Int) % 2 ^ 256).toNat) = 2 ^ 63 - 1 := by
    rw [readOffset_low_word_of_lt (by norm_num) (by norm_num), if_pos (by norm_num)]
  simp only [readDynamic, Nat.cast_zero, zero_mul, zero_add]
  rw [if_neg (by omega), sliceBytes_low_word, Outcome.bind_eq_bind, Outcome.bind_ok, hoffset,
    goInt_eq_of_emod (x := 2 ^ 63 - 1 + 32) (y := 31 - 2 ^ 63) (by norm_num) (by norm_num), if_neg (by omega),
    goInt_eq_of_emod (x := 2 ^ 63 - 1 + 24) (y := 23 - 2 ^ 63) (by norm_num) (by norm_num),
    sliceBytes, if_neg (by omega), Outcome.bind_eq_bind, Outcome.bind_panic]

/-- `slice[lo:]` where `lo` is the length of a prefix: what follows it. -/
theorem sliceBytes_after {pre l : Bytes} {lo : Int} (h : (pre.length : Int) = lo) :
    sliceBytes (pre ++ l) lo (pre ++ l).length = .ok l := by
  have hlen : ((pre ++ l).length : Int) = pre.length + l.length := by simp
  rw [sliceBytes_ok (by omega), show lo.toNat = pre.length by omega, List.drop_left,
    List.take_of_length_le (by omega)]

/-- The loop of `toGoSlice` over an empty slice panics at its first
element. -/
theorem readElems_nil_panic (t : ElemType) {n : Nat} (hn : 0 < n) :
    readElems t [] n = .panic "runtime error: slice bounds out of range" := by
  obtain ⟨m, rfl⟩ := Nat.exists_eq_add_of_lt hn
  rw [readElems, readElemsFrom, sliceBytes, if_neg (by simp), Outcome.bind_panic]

/-- A slice output at offset `32` with size word `2^59`: `size * 32` wraps
to `0`, passes the guard, and the loop reads `2^59` elements from an empty
slice. -/
theorem toGoSlice_size_overflow (t : ElemType) (rest : Bytes) :
    toGoType 0 (.slice t) (U256 32 ++ U256 (2 ^ 59) ++ rest) =
      .panic "runtime error: slice bounds out of range" := by
  have hlen : ((U256 32 ++ U256 (2 ^ 59) ++ rest).length : Int) = 64 + rest.length := by simp; ring
  have hoffset : readOffset (BigEndian.toFixed 8 ((32 : Int) % 2 ^ 256).toNat) = 32 := by
    rw [readOffset_low_word_of_lt (by norm_num) (by norm_num), if_pos (by norm_num)]
  have hsize : readOffset (BigEndian.toFixed 8 ((2 ^ 59 : Int) % 2 ^ 256).toNat) = 2 ^ 59 := by
    rw [readOffset_low_word_of_lt (by norm_num) (by norm_num), if_pos (by norm_num)]
  have hrest : sliceBytes (U256 32 ++ U256 (2 ^ 59) ++ rest) 32 (U256 32 ++ U256 (2 ^ 59) ++ rest).length =
      .ok (U256 (2 ^ 59) ++ rest) := by
    rw [List.append_assoc]
    exact sliceBytes_after (by simp)
  have hdata : sliceBytes rest 0 0 = .ok [] := by
    rw [sliceBytes_ok (by simp)]
    simp
  simp only [toGoType, toGoSlice, Nat.cast_zero, zero_mul, zero_add, ↓reduceIte]
  rw [if_neg (by omega), List.append_assoc, sliceBytes_low_word, ← List.append_assoc, Outcome.bind_eq_bind,
    Outcome.bind_ok, hoffset, goInt_eq_of_emod (x := 32 + 32) (y := 64) (by norm_num) (by norm_num),
    if_neg (by omega), hrest,
    Outcome.bind_eq_bind, Outcome.bind_ok, sliceBytes_low_word, Outcome.bind_eq_bind, Outcome.bind_ok, hsize,
    sliceBytes_after (by simp), Outcome.bind_eq_bind, Outcome.bind_ok,
    goInt_eq_of_emod (x := 2 ^ 59 * 32) (y := 0) (by norm_num) (by norm_num), if_neg (by omega), hdata,
    Outcome.bind_eq_bind, Outcome.bind_ok, readElems_nil_panic t (by norm_num), Outcome.map_panic]

/-- A slice output whose offset word is `2^64 - 40`: the offset is `-40`,
`offset + 32 = -8` passes the guard, and `output[-40:]` panics. -/
theorem toGoSlice_negative_offset (t : ElemType) (rest : Bytes) :
    toGoType 0 (.slice t) (U256 (2 ^ 64 - 40) ++ rest) = .panic "runtime error: slice bounds out of range" := by
  have hlen : ((U256 (2 ^ 64 - 40) ++ rest).length : Int) = 32 + rest.length := by simp
  have hoffset : readOffset (BigEndian.toFixed 8 ((2 ^ 64 - 40 : Int) % 2 ^ 256).toNat) = -40 := by
    rw [readOffset_low_word_of_lt (by norm_num) (by norm_num), if_neg (by norm_num)]
    norm_num
  simp only [toGoType, toGoSlice, Nat.cast_zero, zero_mul, zero_add, ↓reduceIte]
  rw [if_neg (by omega), sliceBytes_low_word, Outcome.bind_eq_bind, Outcome.bind_ok, hoffset,
    goInt_eq_of_emod (x := -40 + 32) (y := -8) (by norm_num) (by norm_num), if_neg (by omega),
    sliceBytes, if_neg (by omega), Outcome.bind_eq_bind, Outcome.bind_panic]

/-- Return data of an arbitrary contract can crash `Unpack`: offsets and
sizes read from it are not kept in the range where the guards mean what
they say. A negative size, an offset whose sum wraps, a size whose product
wraps, and a negative offset each reach a slice expression with bounds
outside the data, whatever the other outputs and the rest of the data. -/
theorem unpack_crafted_output_panics (ts : List AbiType) (rest : Bytes) (e : ElemType) :
    (∀ t ∈ [AbiType.string, .bytes],
      Unpack (t :: ts) (U256 32 ++ U256 (2 ^ 64 - 1) ++ rest) =
        .panic "runtime error: slice bounds out of range" ∧
      Unpack (t :: ts) (U256 (2 ^ 63 - 1) ++ rest) = .panic "runtime error: slice bounds out of range") ∧
    Unpack (.slice e :: ts) (U256 32 ++ U256 (2 ^ 59) ++ rest) =
      .panic "runtime error: slice bounds out of range" ∧
    Unpack (.slice e :: ts) (U256 (2 ^ 64 - 40) ++ rest) = .panic "runtime error: slice bounds out of range" := by
  have hne : ∀ (x : Int) (y : Bytes), U256 x ++ y ≠ [] := fun x y h => by simpa using congrArg List.length h
  have hne2 : ∀ x y : Int, U256 x ++ U256 y ++ rest ≠ [] := fun x y => by
    rw [List.append_assoc]
    exact hne x _
  refine ⟨?_, Unpack_of_first_panic ts (hne2 _ _) (toGoSlice_size_overflow e rest),
    Unpack_of_first_panic ts (hne _ _) (toGoSlice_negative_offset e rest)⟩
  intro t ht
  -- `string` and `bytes` read their data the same way, with `readDynamic`
  have hdyn : ∀ output, toGoType 0 t output = (readDynamic 0 output).map
      (if t = .string then .string else .bytes) := by
    intro output
    rcases List.mem_pair.mp ht with rfl | rfl <;> rfl
  refine ⟨Unpack_of_first_panic ts (hne2 _ _) ?_, Unpack_of_first_panic ts (hne _ _) ?_⟩
  · rw [hdyn, readDynamic_negative_size, Outcome.map_panic]
  · rw [hdyn, readDynamic_offset_overflow, Outcome.map_panic]

end Abi

end Bazacoin
