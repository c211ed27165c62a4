import Bazacoin.Rlp.Output
import Bazacoin.Rlp.Item

/-!
# The encode buffer writes the format (`rlp/encode.go`)

`encbuf` does not write a list header where it belongs: the payload size of a
list is known only when the list is closed, so `list` records where the
header goes, `listEnd` records its size, and `toBytes` interleaves the
headers with the string data at the end. This module proves that what comes
out is the format's encoding (`Item.encode`) of the item the value stands for
(`Val.toItem`): every header lands at the start of its list, with the size of
the payload that follows it (`encodeToBytes_canonical`).

The proof reads the buffer in segments. What a writer adds to a buffer,
string data and the headers of the lists it closed, renders on its own to
the value's encoding (`writeVal_encode`), and the segments of consecutive
writers render one after the other (`toBytesFrom_appends`).

`writeUint` takes a `uint64`; the model computes its header from the length
of its bytes, which is the format's header for integers below `2 ^ 64`, the
values Go's type holds (`Val.Uint64`).
-/

namespace Bazacoin

namespace Rlp

/-! ## What a value stands for -/

mutual
/-- The RLP item a value stands for: an integer as its minimal big-endian
bytes (none for zero), a boolean as `01` or nothing, a byte string as it is,
and the elements of a slice, array or struct as a list. -/
def Val.toItem : Val → Item
  | .uint n => .str (BigEndian.minimal n)
  | .bool b => .str (if b then [1] else [])
  | .string s => .str s
  | .bigInt n => .str (BigEndian.minimal n)
  | .bytes b => .str b
  | .list vs => .list (Val.toItems vs)

/-- `Val.toItem` of each element. -/
def Val.toItems : List Val → List Item
  | [] => []
  | v :: vs => v.toItem :: Val.toItems vs
end

mutual
/-- Every unsigned integer in the value fits a `uint64`. -/
def Val.Uint64 : Val → Prop
  | .uint n => n < 2 ^ 64
  | .list vs => Val.Uint64s vs
  | _ => True

/-- `Val.Uint64` for every element. -/
def Val.Uint64s : List Val → Prop
  | [] => True
  | v :: vs => v.Uint64 ∧ Val.Uint64s vs
end

/-! ## Headers -/

/-- `puthead` writes the format's header. -/
theorem puthead_eq (offset : UInt8) (size : Nat) :
    puthead offset (offset + 55) size = encodeLength size offset := by
  unfold puthead encodeLength putint intsize
  split
  · rfl
  · simp only [BigEndian.length_toFixed]

theorem ListHead.encode_eq (head : ListHead) : head.encode = encodeLength head.size 0xC0 :=
  puthead_eq 0xC0 head.size

/-- No string is read as a list. -/
theorem kind_str_ne_list (b : Bytes) : (Item.str b).kind ≠ .list := by
  unfold Item.kind
  split
  · split <;> simp
  · simp
  · simp at *

/-- The minimal bytes of a value have no leading zero. -/
theorem head_minimal_ne_zero (i : Nat) : (BigEndian.minimal i).head? ≠ some 0 := by
  unfold BigEndian.minimal
  split_ifs with h0
  · simp
  · obtain ⟨b, bs, hb, hb0⟩ := BigEndian.head_toFixed_width i (by omega)
    simp [hb, hb0]

/-- The encoding of a string that is not a single byte below `0x80`, of a
short length: one header byte, then the bytes. -/
theorem encodeString_short {b : Bytes} (hb : ∀ c, b = [c] → ¬ c < 0x80) (h56 : b.length < 56) :
    encodeString b = (0x80 + UInt8.ofNat b.length) :: b := by
  match b, hb with
  | [c], hb => simp [encodeString, hb c rfl, encodeLength]
  | [], _ => simp [encodeString, encodeLength]
  | _ :: _ :: _, _ =>
    simp only [List.length_cons] at h56
    simp [encodeString, encodeLength, h56]

namespace Encbuf

theorem encodeStringHeader_eq (w : Encbuf) (size : Nat) :
    w.encodeStringHeader size = { w with str := w.str ++ encodeLength size 0x80 } := by
  unfold encodeStringHeader encodeLength putint intsize
  split
  · rfl
  · simp only [BigEndian.length_toFixed]
    rfl

/-- `encodeString` appends the format's encoding of the string. -/
theorem encodeString_eq (w : Encbuf) (b : Bytes) :
    w.encodeString b = { w with str := w.str ++ Rlp.encodeString b } := by
  match b with
  | [c] =>
    by_cases hc : c < 0x80
    · have hc' : c ≤ 0x7F := by
        simp only [UInt8.lt_iff_toNat_lt, UInt8.le_iff_toNat_le] at hc ⊢
        simp at hc ⊢
        omega
      simp [Encbuf.encodeString, Rlp.encodeString, hc, hc']
    · have hc' : ¬ c ≤ 0x7F := by
        simp only [UInt8.lt_iff_toNat_lt, UInt8.le_iff_toNat_le] at hc ⊢
        simp at hc ⊢
        omega
      simp [Encbuf.encodeString, Rlp.encodeString, hc, hc', encodeStringHeader_eq]
  | [] => simp [Encbuf.encodeString, Rlp.encodeString, encodeStringHeader_eq]
  | c₁ :: c₂ :: cs => simp [Encbuf.encodeString, Rlp.encodeString, encodeStringHeader_eq]

end Encbuf

theorem writeString_eq (s : Bytes) (w : Encbuf) :
    writeString s w = { w with str := w.str ++ encodeString s } := by
  rw [← Encbuf.encodeString_eq]
  match s with
  | [_] => rfl
  | [] => rfl
  | _ :: _ :: _ => rfl

theorem writeBool_eq (b : Bool) (w : Encbuf) :
    writeBool b w = { w with str := w.str ++ encodeString (if b then [1] else []) } := by
  cases b <;> simp [writeBool, encodeString, encodeLength]

theorem writeBigInt_eq (i : Nat) (w : Encbuf) :
    writeBigInt i w = { w with str := w.str ++ encodeString (BigEndian.minimal i) } := by
  unfold writeBigInt
  split_ifs with hi
  · simp [hi, BigEndian.minimal, encodeString, encodeLength]
  · exact Encbuf.encodeString_eq w _

/-- `writeUint` writes the format's encoding of a `uint64`: the byte itself
below `0x80`, else a one-byte header and the minimal bytes. -/
theorem writeUint_eq {i : Nat} (hi : i < 2 ^ 64) (w : Encbuf) :
    writeUint i w = { w with str := w.str ++ encodeString (BigEndian.minimal i) } := by
  unfold writeUint
  split_ifs with h0 h128
  · simp [h0, BigEndian.minimal, encodeString, encodeLength]
  · -- one byte below `0x80`
    have hw : BigEndian.width i = 1 := by
      unfold BigEndian.width
      simp [show i / 256 = 0 by omega]
    have hc : UInt8.ofNat i < 0x80 := by
      simp only [UInt8.lt_iff_toNat_lt, UInt8.toNat_ofNat]
      simp
      omega
    simp [BigEndian.minimal, h0, hw, BigEndian.toFixed, encodeString, hc, Nat.mod_eq_of_lt (show i < 256 by omega)]
  · -- the minimal bytes behind a header holding their number
    have hpos : 0 < i := Nat.pos_of_ne_zero h0
    have hlen : (putint i).length < 56 := by
      have : BigEndian.width i ≤ 8 := BigEndian.width_le_of_lt hpos (by simpa using hi)
      simp [putint, intsize]
      omega
    have hmin : BigEndian.minimal i = putint i := by simp [BigEndian.minimal, h0, putint, intsize]
    have hsingle : ∀ c, putint i = [c] → ¬ c < 0x80 := by
      intro c hc hlt
      have hw : BigEndian.width i = 1 := by simpa [putint, intsize] using congrArg List.length hc
      have hi256 : i < 256 := by simpa [hw] using BigEndian.lt_pow_width i
      have hci : c = UInt8.ofNat i := by
        simpa [putint, intsize, hw, BigEndian.toFixed, Nat.mod_eq_of_lt hi256] using hc.symm
      subst hci
      simp only [UInt8.lt_iff_toNat_lt, UInt8.toNat_ofNat] at hlt
      simp at hlt
      omega
    rw [hmin, encodeString_short hsingle hlen]

/-! ## Reading the buffer in segments -/

namespace Encbuf

@[simp] theorem str_listEnd (w : Encbuf) (idx : Nat) : (w.listEnd idx).str = w.str := by
  rw [listEnd_eq]

/-- `toBytesFrom` reads only the string data. -/
theorem toBytesFrom_congr {w w' : Encbuf} (h : w'.str = w.str) : w'.toBytesFrom = w.toBytesFrom := by
  funext heads strpos
  induction heads generalizing strpos with
  | nil => simp [toBytesFrom, h]
  | cons head heads ih => simp [toBytesFrom, h, ih]

/-- The data before the first header can be read in two parts. -/
theorem toBytesFrom_skip (w : Encbuf) {heads : List ListHead} {strpos p : Nat}
    (hp : ∀ head ∈ heads, p ≤ head.offset) (hle : strpos ≤ p) :
    w.toBytesFrom heads strpos = (w.str.drop strpos).take (p - strpos) ++ w.toBytesFrom heads p := by
  cases heads with
  | nil =>
    have hd : w.str.drop p = (w.str.drop strpos).drop (p - strpos) := by
      rw [List.drop_drop]
      congr 1
      omega
    simp only [toBytesFrom, hd, List.take_append_drop]
  | cons head heads =>
    have hhead := hp head List.mem_cons_self
    have hsplit : head.offset - strpos = (p - strpos) + (head.offset - p) := by omega
    have hd : w.str.drop p = (w.str.drop strpos).drop (p - strpos) := by
      rw [List.drop_drop]
      congr 1
      omega
    simp only [toBytesFrom, hsplit, List.take_add, hd, List.append_assoc]

/-- **The segments of a longer buffer**: with headers `H₁` inside the data of
`w` and headers `H₂` after it, a buffer extending `w` reads as `w` reads
with `H₁`, followed by its own reading of `H₂` from where `w` ends. -/
theorem toBytesFrom_append_heads {w w' : Encbuf} (hpre : w.str <+: w'.str) :
    ∀ {H₁ H₂ : List ListHead} {strpos : Nat}, (H₁.map ListHead.offset).Pairwise (· ≤ ·) →
      (∀ head ∈ H₁, strpos ≤ head.offset ∧ head.offset ≤ w.str.length) →
      (∀ head ∈ H₂, w.str.length ≤ head.offset) → strpos ≤ w.str.length →
      w'.toBytesFrom (H₁ ++ H₂) strpos = w.toBytesFrom H₁ strpos ++ w'.toBytesFrom H₂ w.str.length
  | [], H₂, strpos, _, _, h₂, hle => by
    obtain ⟨e, he⟩ := hpre
    rw [List.nil_append, w'.toBytesFrom_skip h₂ hle, ← he]
    simp [toBytesFrom, List.drop_append_of_le_length hle]
  | head :: H₁, H₂, strpos, hsorted, h₁, h₂, hle => by
    obtain ⟨e, he⟩ := hpre
    rw [List.map_cons, List.pairwise_cons] at hsorted
    have hhead := h₁ head List.mem_cons_self
    have hrest : ∀ head' ∈ H₁, head.offset ≤ head'.offset ∧ head'.offset ≤ w.str.length :=
      fun head' h => ⟨hsorted.1 _ (List.mem_map_of_mem h), (h₁ head' (List.mem_cons_of_mem _ h)).2⟩
    have ih := toBytesFrom_append_heads ⟨e, he⟩ hsorted.2 hrest h₂ hhead.2
    -- the data before this header lies inside `w`
    have htake : (w'.str.drop strpos).take (head.offset - strpos) =
        (w.str.drop strpos).take (head.offset - strpos) := by
      rw [← he, List.drop_append_of_le_length hle, List.take_append_of_le_length (by simp; omega)]
    simp only [List.cons_append, toBytesFrom, ih, htake, List.append_assoc]

/-- Consecutive writers: the reading of what the two added is the reading of
what the first added, then of what the second added. -/
theorem toBytesFrom_appends {w w₁ w₂ : Encbuf} {hs₁ hs₂ : List ListHead} (h₁ : Appends w hs₁ w₁)
    (h₂ : Appends w₁ hs₂ w₂) :
    w₂.toBytesFrom (hs₁ ++ hs₂) w.str.length =
      w₁.toBytesFrom hs₁ w.str.length ++ w₂.toBytesFrom hs₂ w₁.str.length :=
  toBytesFrom_append_heads h₂.str_prefix h₁.sorted h₁.offset_mem (fun head h => (h₂.offset_mem head h).1)
    h₁.str_prefix.length_le

end Encbuf

/-! ## The writers -/

/-- A writer that appends bytes to the string data adds them as its segment. -/
theorem appends_str (w : Encbuf) (b : Bytes) :
    Encbuf.Appends w [] { w with str := w.str ++ b } ∧
      ({ w with str := w.str ++ b } : Encbuf).toBytesFrom [] w.str.length = b :=
  ⟨Encbuf.appends_of_str (List.prefix_append _ _) rfl rfl, by simp [Encbuf.toBytesFrom]⟩

mutual
/-- **Every writer adds the value's encoding**: what `writeVal` appends to a
buffer, string data and the headers of the lists it closed, reads as the
format's encoding of the value. -/
theorem writeVal_encode : ∀ (v : Val), v.Uint64 → ∀ (w : Encbuf), ∃ hs,
    Encbuf.Appends w hs (writeVal v w) ∧ (writeVal v w).toBytesFrom hs w.str.length = v.toItem.encode
  | .uint n, hn, w => by
    rw [writeVal, writeUint_eq hn]
    exact ⟨[], appends_str w _⟩
  | .bool b, _, w => by
    rw [writeVal, writeBool_eq]
    exact ⟨[], appends_str w _⟩
  | .string s, _, w => by
    rw [writeVal, writeString_eq]
    exact ⟨[], appends_str w _⟩
  | .bigInt n, _, w => by
    rw [writeVal, writeBigInt_eq]
    exact ⟨[], appends_str w _⟩
  | .bytes b, _, w => by
    rw [writeVal, Encbuf.encodeString_eq]
    exact ⟨[], appends_str w _⟩
  | .list vs, hvs, w => by
    obtain ⟨hs, happ, henc⟩ := writeVals_encode vs hvs (w.list).2
    refine ⟨_, Encbuf.appends_listEnd happ, ?_⟩
    -- the size `listEnd` gives the header is the length of what the elements added
    have hlen : (Item.encodeAll (Val.toItems vs)).length =
        (writeVals vs (w.list).2).str.length - w.str.length + Encbuf.headBytes hs := by
      rw [← henc]
      exact Encbuf.length_toBytesFrom _ happ.sorted happ.offset_mem happ.str_prefix.length_le
    have hstr : ((w.list).2).str = w.str := rfl
    rw [hstr] at henc
    show ((writeVals vs (w.list).2).listEnd (w.list).1).toBytesFrom
      (⟨w.str.length, (writeVals vs (w.list).2).str.length - w.str.length + Encbuf.headBytes hs⟩ :: hs)
        w.str.length = _
    rw [Encbuf.toBytesFrom_congr (Encbuf.str_listEnd _ _)]
    simp only [Encbuf.toBytesFrom, Nat.sub_self, List.take_zero, List.nil_append, henc,
      ListHead.encode_eq, Val.toItem, Item.encode, hlen]

/-- The element loop adds the encodings of the elements, one after another. -/
theorem writeVals_encode : ∀ (vs : List Val), Val.Uint64s vs → ∀ (w : Encbuf), ∃ hs,
    Encbuf.Appends w hs (writeVals vs w) ∧
      (writeVals vs w).toBytesFrom hs w.str.length = Item.encodeAll (Val.toItems vs)
  | [], _, w => ⟨[], Encbuf.Appends.refl w, by simp [writeVals, Encbuf.toBytesFrom, Val.toItems]⟩
  | v :: vs, hvs, w => by
    obtain ⟨hs₁, h₁, e₁⟩ := writeVal_encode v hvs.1 w
    obtain ⟨hs₂, h₂, e₂⟩ := writeVals_encode vs hvs.2 (writeVal v w)
    refine ⟨hs₁ ++ hs₂, h₁.trans h₂, ?_⟩
    rw [writeVals, Encbuf.toBytesFrom_appends h₁ h₂, e₁, e₂, Val.toItems, encodeAll_cons]
end

/-- **`EncodeToBytes` writes the canonical RLP encoding** of every value whose
integers fit a `uint64`: the string data with each list header inserted at
the start of its list, carrying the size of its payload. -/
theorem encodeToBytes_canonical (v : Val) (hv : v.Uint64) : encodeToBytes v = v.toItem.encode := by
  obtain ⟨hs, happ, henc⟩ := writeVal_encode v hv Encbuf.empty
  have hheads : (writeVal v Encbuf.empty).lheads = hs := by simpa [Encbuf.empty] using happ.lheads_eq
  rw [encodeToBytes, Encbuf.toBytes, hheads]
  exact henc

/-- A list holding an integer, a nested list and a zero big integer. -/
theorem encodeToBytes_canonical_nested :
    encodeToBytes (.list [.uint 1024, .list [.bool true, .string [0x61]], .bigInt 0]) =
      (Val.list [.uint 1024, .list [.bool true, .string [0x61]], .bigInt 0]).toItem.encode :=
  encodeToBytes_canonical _ (by simp [Val.Uint64, Val.Uint64s])

end Rlp

end Bazacoin
