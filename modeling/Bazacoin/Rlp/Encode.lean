import Bazacoin.Rlp.Raw

/-!
# The RLP encode buffer (`rlp/encode.go`)

`encbuf` collects an encoding in two parts: `str` holds everything except the
list headers, and `lheads` records, for every list, the offset in `str` where
its header belongs and, once the list is closed, its payload size. A list's
size is not known when its header position is reached, so `list` records the
running header size `lhsize` in the new entry and `listEnd` turns it into the
payload size: the bytes written since the list began, less the headers of the
lists nested in it. `toBytes` interleaves `str` with the encoded headers.

The Go writers are selected by the static type of the value; the model's
`writeVal` dispatches on the decoded-value shape `Val`, which determines the
same writer for every type the model covers. `list` returns the index of its
entry in `lheads`, where Go returns a pointer to it.
-/

namespace Bazacoin

namespace Rlp

/-! ## Go types and values -/

/-- The Go types the model decodes and encodes. -/
inductive Ty where
  /-- `uint8`, `uint16`, `uint32`, `uint64` (and `uint`), by bit size. -/
  | uint (bits : Nat)
  | bool
  | string
  /-- `*big.Int` (and `big.Int`). -/
  | bigInt
  /-- `[]byte`. -/
  | bytes
  /-- `[n]byte`. -/
  | byteArray (n : Nat)
  /-- `[]T`. -/
  | slice (elem : Ty)
  /-- `[n]T` with `T` not a byte. -/
  | array (elem : Ty) (n : Nat)
  /-- A struct type: its name and its exported fields, in order. -/
  | struct (name : String) (fields : List (String × Ty))
deriving Repr

/-- Decoded Go values: integers, booleans, byte strings, and the elements of
slices, arrays and structs. -/
inductive Val where
  | uint (n : Nat)
  | bool (b : Bool)
  | string (s : Bytes)
  | bigInt (n : Nat)
  | bytes (b : Bytes)
  | list (vs : List Val)
deriving Repr

/-- How Go prints the type in an error message. -/
def Ty.goName : Ty → String
  | .uint bits => "uint" ++ toString bits
  | .bool => "bool"
  | .string => "string"
  | .bigInt => "*big.Int"
  | .bytes => "[]uint8"
  | .byteArray n => "[" ++ toString n ++ "]uint8"
  | .slice t => "[]" ++ t.goName
  | .array t n => "[" ++ toString n ++ "]" ++ t.goName
  | .struct name _ => name

/-! ## The buffer -/

/-- `intsize`: the minimum number of bytes required to store `i`. -/
def intsize (i : Nat) : Nat := BigEndian.width i

/-- `putint`: `i` in big-endian order, in the least number of bytes needed to
represent it (one byte for zero). -/
def putint (i : Nat) : Bytes := BigEndian.toFixed (intsize i) i

/-- `headsize`: the size of a list or string header for a value of the given
size. -/
def headsize (size : Nat) : Nat :=
  if size < 56 then 1 else 1 + intsize size

/-- `puthead`: a list or string header. -/
def puthead (smalltag largetag : UInt8) (size : Nat) : Bytes :=
  if size < 56 then [smalltag + UInt8.ofNat size]
  else (largetag + UInt8.ofNat (putint size).length) :: putint size

/-- `listhead`: where a list header goes in `str`, and the list's payload size. -/
structure ListHead where
  offset : Nat
  size : Nat
deriving DecidableEq, Repr

/-- `listhead.encode`. -/
def ListHead.encode (head : ListHead) : Bytes := puthead 0xC0 0xF7 head.size

/-- `encbuf`. -/
structure Encbuf where
  /-- String data, everything except list headers. -/
  str : Bytes
  /-- All list headers. -/
  lheads : List ListHead
  /-- Sum of the sizes of all encoded list headers. -/
  lhsize : Nat
deriving DecidableEq, Repr

namespace Encbuf

/-- A reset buffer. -/
def empty : Encbuf := ⟨[], [], 0⟩

/-- `size`: the size of the encoding so far. -/
def size (w : Encbuf) : Nat := w.str.length + w.lhsize

/-- `encodeStringHeader`. -/
def encodeStringHeader (w : Encbuf) (size : Nat) : Encbuf :=
  if size < 56 then { w with str := w.str ++ [0x80 + UInt8.ofNat size] }
  else
    let sizesize := (putint size).length
    { w with str := w.str ++ ((0xB7 + UInt8.ofNat sizesize) :: putint size) }

/-- `encodeString`: a byte string, as a single byte when it is one byte below
`0x80`. -/
def encodeString (w : Encbuf) (b : Bytes) : Encbuf :=
  match b with
  | [c] =>
    if c ≤ 0x7F then { w with str := w.str ++ [c] }
    else { w.encodeStringHeader 1 with str := (w.encodeStringHeader 1).str ++ [c] }
  | b => { w.encodeStringHeader b.length with str := (w.encodeStringHeader b.length).str ++ b }

/-- `list`: open a list; returns the index of its header entry. -/
def list (w : Encbuf) : Nat × Encbuf :=
  (w.lheads.length, { w with lheads := w.lheads ++ [⟨w.str.length, w.lhsize⟩] })

/-- `listEnd`: close the list whose header entry is `idx`. -/
def listEnd (w : Encbuf) (idx : Nat) : Encbuf :=
  let lh := w.lheads.getD idx ⟨0, 0⟩
  let size := w.size - lh.offset - lh.size
  let w := { w with lheads := w.lheads.set idx { lh with size := size } }
  if size < 56 then { w with lhsize := w.lhsize + 1 } -- length encoded into kind tag
  else { w with lhsize := w.lhsize + 1 + intsize size }

/-- The output of `toBytes` from string position `strpos` on, with the headers
`heads` still to place. -/
def toBytesFrom (w : Encbuf) : List ListHead → Nat → Bytes
  | [], strpos => w.str.drop strpos
  | head :: heads, strpos =>
    -- write string data before header, then the header
    ((w.str.drop strpos).take (head.offset - strpos) ++ head.encode) ++
      toBytesFrom w heads head.offset

/-- `toBytes`: the encoding, string data interleaved with list headers. -/
def toBytes (w : Encbuf) : Bytes := w.toBytesFrom w.lheads 0

end Encbuf

/-- `writeUint`. -/
def writeUint (i : Nat) (w : Encbuf) : Encbuf :=
  if i = 0 then { w with str := w.str ++ [0x80] }
  else if i < 128 then { w with str := w.str ++ [UInt8.ofNat i] } -- fits single byte
  else { w with str := w.str ++ ((0x80 + UInt8.ofNat (putint i).length) :: putint i) }

/-- `writeBool`. -/
def writeBool (b : Bool) (w : Encbuf) : Encbuf :=
  if b then { w with str := w.str ++ [0x01] } else { w with str := w.str ++ [0x80] }

/-- `writeBigInt` for a non-negative integer: zero is the empty string, other
values their minimal big-endian bytes. -/
def writeBigInt (i : Nat) (w : Encbuf) : Encbuf :=
  if i = 0 then { w with str := w.str ++ [0x80] }
  else w.encodeString (BigEndian.minimal i)

/-- `writeString`. -/
def writeString (s : Bytes) (w : Encbuf) : Encbuf :=
  match s with
  | [c] =>
    if c ≤ 0x7F then { w with str := w.str ++ [c] } -- fits single byte, no string header
    else { w.encodeStringHeader 1 with str := (w.encodeStringHeader 1).str ++ [c] }
  | s => { w.encodeStringHeader s.length with str := (w.encodeStringHeader s.length).str ++ s }

mutual
/-- The writer `makeWriter` selects for a value: `writeBytes` and
`writeByteArray` for byte strings, the slice, array and struct writers for
lists. -/
def writeVal : Val → Encbuf → Encbuf
  | .uint n, w => writeUint n w
  | .bool b, w => writeBool b w
  | .string s, w => writeString s w
  | .bigInt n, w => writeBigInt n w
  | .bytes b, w => w.encodeString b
  | .list vs, w =>
    let (lh, w) := w.list
    (writeVals vs w).listEnd lh

/-- The element loop of the slice and struct writers. -/
def writeVals : List Val → Encbuf → Encbuf
  | [], w => w
  | v :: vs, w => writeVals vs (writeVal v w)
end

/-- `EncodeToBytes`. -/
def encodeToBytes (v : Val) : Bytes := (writeVal v Encbuf.empty).toBytes

end Rlp

end Bazacoin
