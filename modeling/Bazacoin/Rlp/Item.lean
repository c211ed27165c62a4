import Bazacoin.Rlp.Raw

/-!
# The RLP format as a tree

An RLP value is a byte string or a list of values. `Item.encode` is the
format's definition: a single byte below `0x80` stands for itself, other
strings and all lists carry a header giving the payload length, in one byte
below 56 and as a minimal big-endian length behind a length-of-length byte
otherwise.

The encoder and the decoders of the `rlp` package are compared with this
definition. The first fact proved here is that the slice splitter reads the
header of every encoding back: `split (it.encode ++ rest)` returns the item's
kind, its payload, and `rest` (`split_encode`), whenever the payload lengths
fit the eight length bytes the format allows (`Item.Fits`).
-/

namespace Bazacoin

namespace Rlp

/-- An RLP value: a byte string or a list of values. -/
inductive Item where
  | str (b : Bytes)
  | list (items : List Item)
deriving Repr

/-- The header for a payload of `len` bytes: `offset + len` below 56, else
`offset + 55 + w` followed by the `w` minimal big-endian bytes of `len`. -/
def encodeLength (len : Nat) (offset : UInt8) : Bytes :=
  if len < 56 then [offset + UInt8.ofNat len]
  else (offset + 55 + UInt8.ofNat (BigEndian.width len)) ::
    BigEndian.toFixed (BigEndian.width len) len

/-- The encoding of a byte string. -/
def encodeString (b : Bytes) : Bytes :=
  match b with
  | [c] => if c < 0x80 then [c] else encodeLength 1 0x80 ++ [c]
  | _ => encodeLength b.length 0x80 ++ b

mutual
/-- The RLP encoding of an item. -/
def Item.encode : Item → Bytes
  | .str b => encodeString b
  | .list items => encodeLength (Item.encodeAll items).length 0xC0 ++ Item.encodeAll items

/-- The concatenated encodings of a list of items: a list's payload. -/
def Item.encodeAll : List Item → Bytes
  | [] => []
  | it :: its => it.encode ++ Item.encodeAll its
end

/-- The kind a reader reports for an item. -/
def Item.kind : Item → Kind
  | .str [c] => if c < 0x80 then .byte else .string
  | .str _ => .string
  | .list _ => .list

/-- The content a reader returns for an item: the string, or the list payload. -/
def Item.content : Item → Bytes
  | .str b => b
  | .list items => Item.encodeAll items

mutual
/-- Every payload length of the item fits the format's eight length bytes. -/
def Item.Fits : Item → Prop
  | .str b => b.length < 256 ^ 8
  | .list items => (Item.encodeAll items).length < 256 ^ 8 ∧ Item.FitsAll items

/-- `Item.Fits` for every item of a list. -/
def Item.FitsAll : List Item → Prop
  | [] => True
  | it :: its => it.Fits ∧ Item.FitsAll its
end

@[simp] theorem encodeAll_nil : Item.encodeAll [] = [] := by
  simp [Item.encodeAll]

@[simp] theorem encodeAll_cons (it : Item) (its : List Item) :
    Item.encodeAll (it :: its) = it.encode ++ Item.encodeAll its := by
  simp [Item.encodeAll]

@[simp] theorem encodeAll_append (xs ys : List Item) :
    Item.encodeAll (xs ++ ys) = Item.encodeAll xs ++ Item.encodeAll ys := by
  induction xs with
  | nil => simp
  | cons it its ih => simp [ih]


/-! ## Reading headers back -/

theorem width_le_eight {len : Nat} (h : len < 256 ^ 8) : BigEndian.width len ≤ 8 := by
  rcases Nat.eq_zero_or_pos len with rfl | hpos
  · unfold BigEndian.width
    simp
  · have hle := BigEndian.pow_width_le len hpos
    have hw := BigEndian.width_pos len
    have : 256 ^ (BigEndian.width len - 1) < 256 ^ 8 := lt_of_le_of_lt hle h
    have := (Nat.pow_lt_pow_iff_right (by norm_num)).mp this
    omega

/-- A long-form size written by `encodeLength` is read back by `readSize`. -/
theorem readSize_toFixed_width {len : Nat} (h56 : 56 ≤ len) (tail : Bytes) :
    readSize (BigEndian.toFixed (BigEndian.width len) len ++ tail) (BigEndian.width len)
      = .ok len := by
  obtain ⟨b, bs, hbs, hb⟩ := BigEndian.head_toFixed_width len (by omega)
  have htake : (BigEndian.toFixed (BigEndian.width len) len ++ tail).take
      (BigEndian.width len) = BigEndian.toFixed (BigEndian.width len) len := by
    rw [List.take_left' (BigEndian.length_toFixed _ _)]
  unfold readSize
  rw [if_neg (by simp), htake, BigEndian.ofBytes_toFixed_width, if_neg]
  rw [hbs]
  simp only [List.cons_append, List.head?_cons, Option.some.injEq, not_or]
  exact ⟨by omega, hb⟩

/-- The value of a header byte `offset + n` that does not wrap. -/
theorem tag_toNat {offset : UInt8} {n : Nat} (h : offset.toNat + n < 256) :
    (offset + UInt8.ofNat n).toNat = offset.toNat + n := by
  simp only [UInt8.toNat_add, UInt8.toNat_ofNat']
  omega

theorem readHeader_long_string {len : Nat} (h56 : 56 ≤ len) (hfit : len < 256 ^ 8)
    (tail : Bytes) :
    readHeader (encodeLength len 0x80 ++ tail)
      = .ok (.string, BigEndian.width len + 1, len) := by
  have hw8 := width_le_eight hfit
  have hw1 := BigEndian.width_pos len
  have ht : ((0x80 : UInt8) + 55 + UInt8.ofNat (BigEndian.width len)).toNat
      = 183 + BigEndian.width len := tag_toNat (by simp; omega)
  have hs : ((0x80 : UInt8) + 55 + UInt8.ofNat (BigEndian.width len) - 0xB7).toNat
      = BigEndian.width len := by
    rw [UInt8.toNat_sub_of_le _ _ (by simp only [UInt8.le_iff_toNat_le, ht, UInt8.toNat_ofNat]; omega), ht]
    simp
  unfold encodeLength
  rw [if_neg (by omega)]
  simp only [List.cons_append, readHeader]
  rw [if_neg (by simp only [UInt8.lt_iff_toNat_lt, ht, UInt8.toNat_ofNat]; omega),
    if_neg (by simp only [UInt8.lt_iff_toNat_lt, ht, UInt8.toNat_ofNat]; omega),
    if_pos (by simp only [UInt8.lt_iff_toNat_lt, ht, UInt8.toNat_ofNat]; omega),
    hs, readSize_toFixed_width h56]
  rfl

theorem readHeader_long_list {len : Nat} (h56 : 56 ≤ len) (hfit : len < 256 ^ 8)
    (tail : Bytes) :
    readHeader (encodeLength len 0xC0 ++ tail)
      = .ok (.list, BigEndian.width len + 1, len) := by
  have hw8 := width_le_eight hfit
  have hw1 := BigEndian.width_pos len
  have ht : ((0xC0 : UInt8) + 55 + UInt8.ofNat (BigEndian.width len)).toNat
      = 247 + BigEndian.width len := tag_toNat (by simp; omega)
  have hs : ((0xC0 : UInt8) + 55 + UInt8.ofNat (BigEndian.width len) - 0xF7).toNat
      = BigEndian.width len := by
    rw [UInt8.toNat_sub_of_le _ _ (by simp only [UInt8.le_iff_toNat_le, ht, UInt8.toNat_ofNat]; omega), ht]
    simp
  unfold encodeLength
  rw [if_neg (by omega)]
  simp only [List.cons_append, readHeader]
  rw [if_neg (by simp only [UInt8.lt_iff_toNat_lt, ht, UInt8.toNat_ofNat]; omega),
    if_neg (by simp only [UInt8.lt_iff_toNat_lt, ht, UInt8.toNat_ofNat]; omega),
    if_neg (by simp only [UInt8.lt_iff_toNat_lt, ht, UInt8.toNat_ofNat]; omega),
    if_neg (by simp only [UInt8.lt_iff_toNat_lt, ht, UInt8.toNat_ofNat]; omega),
    hs, readSize_toFixed_width h56]
  rfl

theorem readHeader_short_list {len : Nat} (h56 : len < 56) (tail : Bytes) :
    readHeader (encodeLength len 0xC0 ++ tail) = .ok (.list, 1, len) := by
  have ht : ((0xC0 : UInt8) + UInt8.ofNat len).toNat = 192 + len := tag_toNat (by simp; omega)
  unfold encodeLength
  rw [if_pos h56]
  simp only [List.cons_append, List.nil_append, readHeader]
  rw [if_neg (by simp only [UInt8.lt_iff_toNat_lt, ht, UInt8.toNat_ofNat]; omega),
    if_neg (by simp only [UInt8.lt_iff_toNat_lt, ht, UInt8.toNat_ofNat]; omega),
    if_neg (by simp only [UInt8.lt_iff_toNat_lt, ht, UInt8.toNat_ofNat]; omega),
    if_pos (by simp only [UInt8.lt_iff_toNat_lt, ht, UInt8.toNat_ofNat]; omega)]
  have hs : ((0xC0 : UInt8) + UInt8.ofNat len - 0xC0).toNat = len := by
    rw [UInt8.toNat_sub_of_le _ _ (by simp only [UInt8.le_iff_toNat_le, ht, UInt8.toNat_ofNat]; omega), ht]
    simp
  rw [hs]

theorem readHeader_short_string {len : Nat} (h56 : len < 56) (h1 : len ≠ 1) (tail : Bytes) :
    readHeader (encodeLength len 0x80 ++ tail) = .ok (.string, 1, len) := by
  have ht : ((0x80 : UInt8) + UInt8.ofNat len).toNat = 128 + len := tag_toNat (by simp; omega)
  have hs : ((0x80 : UInt8) + UInt8.ofNat len - 0x80).toNat = len := by
    rw [UInt8.toNat_sub_of_le _ _ (by simp only [UInt8.le_iff_toNat_le, ht, UInt8.toNat_ofNat]; omega), ht]
    simp
  unfold encodeLength
  rw [if_pos h56]
  simp only [List.cons_append, List.nil_append, readHeader]
  rw [if_neg (by simp only [UInt8.lt_iff_toNat_lt, ht, UInt8.toNat_ofNat]; omega),
    if_pos (by simp only [UInt8.lt_iff_toNat_lt, ht, UInt8.toNat_ofNat]; omega), hs, if_neg h1]

/-- `readKind` accepts a header followed by a payload of the announced size. -/
theorem readKind_of_readHeader {hdr payload rest : Bytes} {k : Kind} {ts : Nat}
    (h : readHeader (hdr ++ payload ++ rest) = .ok (k, ts, payload.length))
    (hts : ts = hdr.length) :
    readKind (hdr ++ payload ++ rest) = .ok (k, ts, payload.length) := by
  rw [readKind, h, Outcome.bind_ok]
  dsimp only
  rw [if_neg (by simp [hts])]

theorem split_of_readHeader {hdr payload rest : Bytes} {k : Kind}
    (h : readHeader (hdr ++ payload ++ rest) = .ok (k, hdr.length, payload.length)) :
    split (hdr ++ payload ++ rest) = .ok (k, payload, rest) := by
  rw [split, readKind_of_readHeader h rfl, Outcome.map_ok]
  simp [List.drop_append]

theorem length_encodeLength_long {len : Nat} (h56 : 56 ≤ len) (offset : UInt8) :
    (encodeLength len offset).length = BigEndian.width len + 1 := by
  simp [encodeLength, if_neg (show ¬ len < 56 by omega)]
theorem length_encodeLength_short {len : Nat} (h56 : len < 56) (offset : UInt8) :
    (encodeLength len offset).length = 1 := by
  simp [encodeLength, h56]

/-- The header of a string of any length other than one. -/
theorem split_encodeLength_string (b : Bytes) (h1 : b.length ≠ 1) (hfit : b.length < 256 ^ 8)
    (rest : Bytes) :
    split (encodeLength b.length 0x80 ++ b ++ rest) = .ok (.string, b, rest) := by
  apply split_of_readHeader
  by_cases h56 : b.length < 56
  · rw [List.append_assoc, readHeader_short_string h56 h1, length_encodeLength_short h56]
  · rw [List.append_assoc, readHeader_long_string (by omega) hfit,
      length_encodeLength_long (by omega)]

theorem split_encodeString (b : Bytes) (hfit : b.length < 256 ^ 8) (rest : Bytes) :
    split (encodeString b ++ rest) = .ok ((Item.str b).kind, b, rest) := by
  match b with
  | [] => exact split_encodeLength_string [] (by simp) hfit rest
  | [c] =>
    by_cases hc : c < 0x80
    · -- a single byte below 0x80 is its own encoding
      have h : readHeader ([] ++ [c] ++ rest) = .ok (.byte, ([] : Bytes).length, [c].length) := by
        simp [readHeader, hc]
      simpa [encodeString, Item.kind, hc] using split_of_readHeader h
    · -- any other single byte sits behind the header 0x81
      have h : readHeader ([0x81] ++ [c] ++ rest) = .ok (.string, [0x81].length, [c].length) := by
        simp [readHeader, hc]
      simpa [encodeString, Item.kind, hc, encodeLength] using split_of_readHeader h
  | c₁ :: c₂ :: cs =>
    exact split_encodeLength_string (c₁ :: c₂ :: cs) (by simp) hfit rest

theorem split_encodeList (items : List Item) (hfit : (Item.encodeAll items).length < 256 ^ 8)
    (rest : Bytes) :
    split ((Item.list items).encode ++ rest) = .ok (.list, Item.encodeAll items, rest) := by
  rw [Item.encode]
  apply split_of_readHeader
  by_cases h56 : (Item.encodeAll items).length < 56
  · rw [List.append_assoc, readHeader_short_list h56, length_encodeLength_short h56]
  · rw [List.append_assoc, readHeader_long_list (by omega) hfit,
      length_encodeLength_long (by omega)]

/-- **The splitter reads every encoding back**: the kind and content of an
item whose payload fits, and the bytes after it. -/
theorem split_encode (it : Item) (hfit : it.content.length < 256 ^ 8) (rest : Bytes) :
    split (it.encode ++ rest) = .ok (it.kind, it.content, rest) := by
  cases it with
  | str b => exact split_encodeString b hfit rest
  | list items => exact split_encodeList items hfit rest

/-- The content of an item is part of its encoding. -/
theorem length_content_le_encode (it : Item) : it.content.length ≤ it.encode.length := by
  cases it with
  | str b =>
    match b with
    | [c] => by_cases hc : c < 0x80 <;> simp [Item.encode, encodeString, Item.content, hc]
    | [] => simp [Item.encode, encodeString, Item.content]
    | _ :: _ :: _ => simp [Item.encode, encodeString, Item.content]
  | list items => simp [Item.encode, Item.content]

/-- No encoding is empty. -/
theorem encode_ne_nil (it : Item) : it.encode ≠ [] := by
  cases it with
  | str b =>
    match b with
    | [c] => by_cases hc : c < 0x80 <;> simp [Item.encode, encodeString, hc, encodeLength]
    | [] => simp [Item.encode, encodeString, encodeLength]
    | _ :: _ :: _ => simp [Item.encode, encodeString]
  | list items =>
    simp only [Item.encode, ne_eq, List.append_eq_nil_iff, not_and]
    intro h
    unfold encodeLength at h
    split at h <;> simp at h

/-- `SplitString` reads back the encoding of a string. -/
theorem splitString_encodeString (b : Bytes) (hfit : b.length < 256 ^ 8) (rest : Bytes) :
    splitString (encodeString b ++ rest) = .ok (b, rest) := by
  rw [splitString, split_encodeString b hfit rest, Outcome.bind_ok]
  dsimp only
  rw [if_neg]
  unfold Item.kind
  split
  · split <;> simp
  · simp
  · simp_all

/-- `SplitList` reads back the encoding of a list: the concatenated
encodings of its items. -/
theorem splitList_encodeList (items : List Item) (hfit : (Item.encodeAll items).length < 256 ^ 8)
    (rest : Bytes) : splitList ((Item.list items).encode ++ rest) = .ok (Item.encodeAll items, rest) := by
  rw [splitList, split_encodeList items hfit rest, Outcome.bind_ok]
  rfl

/-- `CountValues` of a list payload counts its items. The induction is on the
items, each read by `readKind` as `split_encode` finds it. -/
theorem countValues_encodeAll :
    ∀ items : List Item, (∀ it ∈ items, it.content.length < 256 ^ 8) →
      countValues (Item.encodeAll items) = .ok items.length
  | [], _ => by simp [countValues]
  | it :: its, hfit => by
    have hsplit := split_encode it (hfit it List.mem_cons_self) (Item.encodeAll its)
    obtain ⟨⟨k, ts, cs⟩, hk, he⟩ := Outcome.map_eq_ok.mp hsplit
    simp only [Prod.mk.injEq] at he
    have hrest := countValues_encodeAll its (fun it' h' => hfit it' (List.mem_cons_of_mem it h'))
    rw [encodeAll_cons, countValues, if_neg (by simp [encode_ne_nil])]
    split
    · next k' ts' cs' hk' =>
      rw [hk] at hk'
      simp only [Outcome.ok.injEq, Prod.mk.injEq] at hk'
      obtain ⟨-, rfl, rfl⟩ := hk'
      rw [he.2.2, hrest, Outcome.map_ok, List.length_cons]
    · next e hk' => rw [hk] at hk'; cases hk'
    · next m hk' => rw [hk] at hk'; cases hk'

/-- The encoding of an item of a list is part of the list's payload. -/
theorem length_encode_le_encodeAll {it : Item} {items : List Item} (h : it ∈ items) :
    it.encode.length ≤ (Item.encodeAll items).length := by
  induction items with
  | nil => simp at h
  | cons it' its ih =>
    rw [encodeAll_cons, List.length_append]
    rcases List.mem_cons.mp h with rfl | h'
    · omega
    · have := ih h'
      omega

/-- In a list whose encoding fits the length bytes, the payload and the
content of every item fit too. -/
theorem fits_of_encode_list {items : List Item} (h : (Item.list items).encode.length < 256 ^ 8) :
    (Item.encodeAll items).length < 256 ^ 8 ∧ ∀ it ∈ items, it.content.length < 256 ^ 8 := by
  have hpay := length_content_le_encode (.list items)
  simp only [Item.content] at hpay
  refine ⟨by omega, fun it hit => ?_⟩
  have hit₁ := length_content_le_encode it
  have hit₂ := length_encode_le_encodeAll hit
  omega

end Rlp

end Bazacoin
