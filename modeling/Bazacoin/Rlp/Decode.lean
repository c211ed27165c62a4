import Bazacoin.Rlp.Stream

/-!
# Typed decoding (`rlp/decode.go`, `makeDecoder`)

The decoders `makeDecoder` selects by reflection, for the Go types `Ty` of
`Encode.lean`: unsigned integers, `bool`, `string`, `*big.Int`, byte slices and
byte arrays, slices, arrays and structs of these.

`decodeSliceElems` loops until the stream reports `EOL`; nothing in the loop
bounds its number of iterations, so every decoder takes a `fuel` argument,
spent on each nested decoder and each loop iteration, and returns `none` when
the fuel runs out. With enough fuel the model returns what Go returns; a loop
that never reaches `EOL` runs out of fuel at every bound.

The decoders return the decoded value instead of writing into an existing one:
on success Go overwrites every part of the target, so the result does not
depend on the target's previous contents.
-/

namespace Bazacoin

namespace Rlp

/-- `wrapStreamError`: the stream errors that become a `*decodeError` naming
the target type. -/
def wrapStreamError (err : Error) (typ : Ty) : Error :=
  match err with
  | .canonInt => .decode "non-canonical integer (leading zero bytes)" typ.goName []
  | .canonSize => .decode "non-canonical size information" typ.goName []
  | .expectedList => .decode "expected input list" typ.goName []
  | .expectedString => .decode "expected input string or byte" typ.goName []
  | .uintOverflow => .decode "input string too long" typ.goName []
  | .notAtEOL => .decode "input list has too many elements" typ.goName []
  | e => e

/-- `addErrorContext`: extend the context path of a `*decodeError`. -/
def addErrorContext (err : Error) (ctx : String) : Error :=
  match err with
  | .decode msg typ c => .decode msg typ (c ++ [ctx])
  | e => e

/-- `decodeUint`. -/
def decodeUint (bits : Nat) (s : Stream) : Except Error Val × Stream :=
  match s.uint bits with
  | (.error e, s) => (.error (wrapStreamError e (.uint bits)), s)
  | (.ok n, s) => (.ok (.uint n), s)

/-- Decoding an integer only consumes input. -/
theorem decodeUint_input (bits : Nat) (s : Stream) :
    List.IsSuffix (decodeUint bits s).2.input s.input := by
  unfold decodeUint
  have h := s.uint_input bits
  split <;> next s' _ hu => rw [hu] at h; exact h

/-- `decodeBool`. -/
def decodeBool (s : Stream) : Except Error Val × Stream :=
  match s.bool with
  | (.error e, s) => (.error (wrapStreamError e .bool), s)
  | (.ok b, s) => (.ok (.bool b), s)

/-- `decodeString`: the bytes of an RLP string, taken as they are. -/
def decodeString (s : Stream) : Except Error Val × Stream :=
  match s.bytes with
  | (.error e, s) => (.error (wrapStreamError e .string), s)
  | (.ok b, s) => (.ok (.string b), s)

/-- `decodeBigInt`: an RLP string read as a big-endian integer; a leading zero
byte is rejected. -/
def decodeBigInt (s : Stream) : Except Error Val × Stream :=
  match s.bytes with
  | (.error e, s) => (.error (wrapStreamError e .bigInt), s)
  | (.ok b, s) =>
    -- Reject leading zero bytes
    if b.head? = some 0 then (.error (wrapStreamError .canonInt .bigInt), s)
    else (.ok (.bigInt (BigEndian.ofBytes b)), s)

/-- `decodeByteSlice`. -/
def decodeByteSlice (s : Stream) : Except Error Val × Stream :=
  match s.bytes with
  | (.error e, s) => (.error (wrapStreamError e .bytes), s)
  | (.ok b, s) => (.ok (.bytes b), s)

/-- `decodeByteArray`: an RLP string (or single byte) of exactly `vlen` bytes.
The single-byte path reads the byte with `s.Uint()` and ignores its error. -/
def decodeByteArray (vlen : Nat) (s : Stream) : Except Error Val × Stream :=
  let typ := Ty.byteArray vlen
  match s.kind with
  | (.error e, s) => (.error e, s)
  | (.ok (.byte, _), s) =>
    if vlen = 0 then (.error (.decode "input string too long" typ.goName []), s)
    else if vlen > 1 then (.error (.decode "input string too short" typ.goName []), s)
    else
      -- bv, _ := s.Uint()
      match s.uint 64 with
      | (r, s) => (.ok (.bytes [UInt8.ofNat ((r.toOption).getD 0)]), s)
  | (.ok (.string, size), s) =>
    if vlen < size then (.error (.decode "input string too long" typ.goName []), s)
    else if vlen > size then (.error (.decode "input string too short" typ.goName []), s)
    else
      match s.readFull vlen with
      | (.error e, s) => (.error e, s)
      | (.ok slice, s) =>
        -- Reject cases where single byte encoding should have been used.
        if size = 1 ∧ slice.head?.any (· < 128) then
          (.error (wrapStreamError .canonSize typ), s)
        else (.ok (.bytes slice), s)
  | (.ok (.list, _), s) => (.error (wrapStreamError .expectedString typ), s)

mutual
/-- `makeDecoder`'s decoder for `ty`. -/
def decodeValue : Nat → Ty → Stream → Option (Except Error Val × Stream)
  | 0, _, _ => none
  | _ + 1, .uint bits, s => some (decodeUint bits s)
  | _ + 1, .bool, s => some (decodeBool s)
  | _ + 1, .string, s => some (decodeString s)
  | _ + 1, .bigInt, s => some (decodeBigInt s)
  | _ + 1, .bytes, s => some (decodeByteSlice s)
  | _ + 1, .byteArray n, s => some (decodeByteArray n s)
  | fuel + 1, .slice t, s => decodeListSlice fuel t s
  | fuel + 1, .array t n, s => decodeListArray fuel t n s
  | fuel + 1, .struct name fields, s => decodeStruct fuel name fields s
termination_by structural fuel => fuel

/-- `decodeListSlice`: a list decoded element by element into a slice. -/
def decodeListSlice : Nat → Ty → Stream → Option (Except Error Val × Stream)
  | 0, _, _ => none
  | fuel + 1, t, s =>
    match s.list with
    | (.error e, s) => some (.error (wrapStreamError e (.slice t)), s)
    | (.ok 0, s) =>
      match s.listEnd with
      | (r, s) => some (r.map fun _ => .list [], s)
    | (.ok _, s) =>
      match decodeSliceElems fuel t s 0 [] with
      | none => none
      | some (.error e, s) => some (.error e, s)
      | some (.ok vs, s) =>
        match s.listEnd with
        | (r, s) => some (r.map fun _ => .list vs, s)
termination_by structural fuel => fuel

/-- `decodeSliceElems`: decode elements until `EOL`; element `i` is being
decoded, the elements before it are `acc`. -/
def decodeSliceElems : Nat → Ty → Stream → Nat → List Val →
    Option (Except Error (List Val) × Stream)
  | 0, _, _, _, _ => none
  | fuel + 1, t, s, i, acc =>
    match decodeValue fuel t s with
    | none => none
    | some (.error .eol, s) => some (.ok acc, s)
    | some (.error e, s) => some (.error (addErrorContext e ("[" ++ toString i ++ "]")), s)
    | some (.ok v, s) => decodeSliceElems fuel t s (i + 1) (acc ++ [v])
termination_by structural fuel => fuel

/-- `decodeListArray`: a list of exactly `vlen` elements. -/
def decodeListArray : Nat → Ty → Nat → Stream → Option (Except Error Val × Stream)
  | 0, _, _, _ => none
  | fuel + 1, t, vlen, s =>
    match s.list with
    | (.error e, s) => some (.error (wrapStreamError e (.array t vlen)), s)
    | (.ok _, s) =>
      match decodeArrayElems fuel t vlen s 0 [] with
      | none => none
      | some (.error e, s) => some (.error e, s)
      | some (.ok vs, s) =>
        if vs.length < vlen then
          some (.error (.decode "input list has too few elements" (Ty.array t vlen).goName []), s)
        else
          match s.listEnd with
          | (.error e, s) => some (.error (wrapStreamError e (.array t vlen)), s)
          | (.ok (), s) => some (.ok (.list vs), s)
termination_by structural fuel => fuel

/-- The element loop of `decodeListArray`: elements `i` to `vlen - 1`, stopping
early at `EOL`. -/
def decodeArrayElems : Nat → Ty → Nat → Stream → Nat → List Val →
    Option (Except Error (List Val) × Stream)
  | 0, _, _, _, _, _ => none
  | fuel + 1, t, vlen, s, i, acc =>
    if i < vlen then
      match decodeValue fuel t s with
      | none => none
      | some (.error .eol, s) => some (.ok acc, s)
      | some (.error e, s) => some (.error (addErrorContext e ("[" ++ toString i ++ "]")), s)
      | some (.ok v, s) => decodeArrayElems fuel t vlen s (i + 1) (acc ++ [v])
    else some (.ok acc, s)
termination_by structural fuel => fuel

/-- `makeStructDecoder`: a list with one element per field. -/
def decodeStruct : Nat → String → List (String × Ty) → Stream →
    Option (Except Error Val × Stream)
  | 0, _, _, _ => none
  | fuel + 1, name, fields, s =>
    match s.list with
    | (.error e, s) => some (.error (wrapStreamError e (.struct name fields)), s)
    | (.ok _, s) =>
      match decodeFields fuel name fields fields s [] with
      | none => none
      | some (.error e, s) => some (.error e, s)
      | some (.ok vs, s) =>
        match s.listEnd with
        | (.error e, s) => some (.error (wrapStreamError e (.struct name fields)), s)
        | (.ok (), s) => some (.ok (.list vs), s)
termination_by structural fuel => fuel

/-- The field loop of `makeStructDecoder`; `all` are the struct's fields, for
its type name. -/
def decodeFields : Nat → String → List (String × Ty) → List (String × Ty) → Stream →
    List Val → Option (Except Error (List Val) × Stream)
  | 0, _, _, _, _, _ => none
  | _ + 1, _, _, [], s, acc => some (.ok acc, s)
  | fuel + 1, name, all, (fname, fty) :: rest, s, acc =>
    match decodeValue fuel fty s with
    | none => none
    | some (.error .eol, s) =>
      some (.error (.decode "too few elements" (Ty.struct name all).goName []), s)
    | some (.error e, s) => some (.error (addErrorContext e ("." ++ fname)), s)
    | some (.ok v, s) => decodeFields fuel name all rest s (acc ++ [v])
termination_by structural fuel => fuel
end

/-- `Stream.Decode`: decode one value; a `*decodeError` with a context path
also names the target type. -/
def decode (fuel : Nat) (ty : Ty) (s : Stream) : Option (Except Error Val × Stream) :=
  (decodeValue fuel ty s).map fun (r, s) =>
    match r with
    | .error (.decode msg typ ctx) =>
      if ctx = [] then (.error (.decode msg typ ctx), s)
      else (.error (.decode msg typ (ctx ++ ["(" ++ ty.goName ++ ")"])), s)
    | r => (r, s)

/-- `DecodeBytes`: decode one value from `b`, which must hold nothing else. -/
def decodeBytes (fuel : Nat) (b : Bytes) (ty : Ty) : Option (Except Error Val) :=
  (decode fuel ty (Stream.new b b.length)).map fun (r, s) =>
    match r with
    | .error e => .error e
    | .ok v => if s.input.length > 0 then .error .moreThanOneValue else .ok v

/-! ## The single-byte path of `decodeByteArray` -/

/-- A stream whose kind cache holds the single byte zero, without error: the
state `decodeByteArray` leaves after reading a zero byte into a `[1]byte`. -/
def Stream.StaleZero (s : Stream) : Prop :=
  s.kindAhead = some .byte ∧ s.kinderr = none ∧ s.byteval = 0
/-- `Kind` answers from the cache. -/
theorem Stream.kind_of_staleZero {s : Stream} (h : s.StaleZero) :
    s.kind = (.ok (.byte, s.size), s) := by
  obtain ⟨hk, he, -⟩ := h
  simp [Stream.kind, hk, Stream.cached, he]
/-- `uint` rejects the cached zero byte (`ErrCanonInt`) and does not re-arm the
cache. -/
theorem Stream.uint_of_staleZero {s : Stream} (h : s.StaleZero) (maxbits : Nat) :
    s.uint maxbits = (.error .canonInt, s) := by
  simp [Stream.uint, Stream.kind_of_staleZero h, h.2.2]
/-- Decoding a `[1]byte` from a cached zero byte yields `[0]` and leaves the
stream as it was: the error of `s.Uint()` is dropped, and nothing re-arms
`Kind`. -/
theorem decodeByteArray_staleZero {s : Stream} (h : s.StaleZero) :
    decodeByteArray 1 s = (.ok (.bytes [0]), s) := by
  simp [decodeByteArray, Stream.kind_of_staleZero h, Stream.uint_of_staleZero h]
  rfl
/-- Hence the element loop for `[1]byte` elements never reaches `EOL` from such
a stream: every element is the same stale zero byte. -/
theorem decodeSliceElems_staleZero {s : Stream} (h : s.StaleZero) :
    ∀ fuel i acc, decodeSliceElems fuel (.byteArray 1) s i acc = none := by
  intro fuel
  induction fuel with
  | zero => intro i acc; rfl
  | succ fuel ih =>
    intro i acc
    cases fuel with
    | zero => rfl
    | succ fuel =>
      rw [decodeSliceElems, decodeValue]
      simp only [decodeByteArray_staleZero h]
      exact ih (i + 1) (acc ++ [.bytes [0]])

/-- `DecodeBytes` of the encoding of the `[][1]byte` value `{{0x00}, {0x05}}`
never returns: after the first element the stream is stale, and the element
loop spins for every amount of fuel. -/
theorem decodeBytes_byteArray_slice_diverges :
    ∀ fuel, decodeBytes fuel (encodeToBytes (.list [.bytes [0], .bytes [5]]))
      (.slice (.byteArray 1)) = none := by
  intro fuel
  have henc : encodeToBytes (.list [.bytes [0], .bytes [5]]) = [0xC2, 0x00, 0x05] := by
    decide +kernel
  -- after `List`, the stream is inside the two-byte list
  let s₁ : Stream := ⟨[0x00, 0x05], 2, true, none, 0, 0, none, [⟨0, 2⟩]⟩
  -- reading the first element's tag leaves the zero byte in the kind cache
  let s₂ : Stream := ⟨[0x05], 1, true, some .byte, 0, 0, none, [⟨1, 2⟩]⟩
  have hlist : (Stream.new [0xC2, 0x00, 0x05] 3).list = (.ok 2, s₁) := by decide +kernel
  have hkind : s₁.kind = (.ok (.byte, 0), s₂) := by decide +kernel
  have hstale : s₂.StaleZero := ⟨rfl, rfl, rfl⟩
  have hfirst : decodeByteArray 1 s₁ = (.ok (.bytes [0]), s₂) := by
    simp only [decodeByteArray, hkind, Stream.uint_of_staleZero hstale]
    rfl
  rw [henc]
  have hrest : ∀ fuel, decodeSliceElems (fuel + 1) (.byteArray 1) s₁ 0 [] = none := by
    intro fuel
    cases fuel with
    | zero => rfl
    | succ fuel =>
      rw [decodeSliceElems, decodeValue]
      simp only [hfirst]
      exact decodeSliceElems_staleZero hstale (fuel + 1) _ _
  rcases fuel with _ | _ | _ | fuel
  · rfl
  · rfl
  · simp only [decodeBytes, decode, decodeValue, decodeListSlice]
    rfl
  · simp [decodeBytes, decode, decodeValue, decodeListSlice, hlist, hrest]
end Rlp

end Bazacoin
