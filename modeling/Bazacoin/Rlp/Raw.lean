import Bazacoin.Lib.BigEndian
import Bazacoin.Lib.Outcome

/-!
# Splitting RLP byte slices (`rlp/raw.go`)

The slice-level RLP reader: `readKind` parses the header at the front of a
byte slice into a kind, a header size and a content size, applying the
canonicity rules of the format (no single byte below `0x80` behind a `0x81`
header, no long-form size below 56, no leading zero in a size); `split`
cuts the first value off a slice, and `countValues` counts the values of a
concatenation by repeated splitting.

The slice `buf[1]` read by the canonical-single-byte check is taken without a
bounds check in the source; on the one-byte input `0x81` the model panics there,
as Go does.
-/

namespace Bazacoin

/-- Go's `[]byte`. -/
abbrev Bytes := List UInt8

namespace Rlp

/-- The kind of value contained in an RLP stream (`rlp.Kind`). -/
inductive Kind where
  | byte
  | string
  | list
deriving DecidableEq, Repr

/-- The errors of the `rlp` package and of the readers it uses. -/
inductive Error where
  /-- `EOL`: the end of the current list has been reached. -/
  | eol
  /-- `ErrExpectedString`. -/
  | expectedString
  /-- `ErrExpectedList`. -/
  | expectedList
  /-- `ErrCanonInt`: non-canonical integer format. -/
  | canonInt
  /-- `ErrCanonSize`: non-canonical size information. -/
  | canonSize
  /-- `ErrElemTooLarge`: element is larger than containing list. -/
  | elemTooLarge
  /-- `ErrValueTooLarge`: value size exceeds available input length. -/
  | valueTooLarge
  /-- `ErrMoreThanOneValue`: input contains more than one value. -/
  | moreThanOneValue
  /-- `errNotInList`: call of `ListEnd` outside of any list. -/
  | notInList
  /-- `errNotAtEOL`: call of `ListEnd` not positioned at EOL. -/
  | notAtEOL
  /-- `errUintOverflow`. -/
  | uintOverflow
  /-- `io.EOF`. -/
  | eof
  /-- `io.ErrUnexpectedEOF`. -/
  | unexpectedEOF
  /-- A `*decodeError`: message, Go type of the target, and context path. -/
  | decode (msg : String) (typ : String) (ctx : List String)
  /-- `rlp: invalid boolean value: %d`. -/
  | invalidBool (n : Nat)
deriving DecidableEq, Repr

/-- The text Go prints for each error constant. -/
def Error.text : Error → String
  | .eol => "rlp: end of list"
  | .expectedString => "rlp: expected String or Byte"
  | .expectedList => "rlp: expected List"
  | .canonInt => "rlp: non-canonical integer format"
  | .canonSize => "rlp: non-canonical size information"
  | .elemTooLarge => "rlp: element is larger than containing list"
  | .valueTooLarge => "rlp: value size exceeds available input length"
  | .moreThanOneValue => "rlp: input contains more than one value"
  | .notInList => "rlp: call of ListEnd outside of any list"
  | .notAtEOL => "rlp: call of ListEnd not positioned at EOL"
  | .uintOverflow => "rlp: uint overflow"
  | .eof => "EOF"
  | .unexpectedEOF => "unexpected EOF"
  | .decode msg typ _ => "rlp: " ++ msg ++ " for " ++ typ
  | .invalidBool _ => "rlp: invalid boolean value"

/-- The panic message of an out-of-range slice index. -/
def indexOutOfRange : String := "runtime error: index out of range"

/-- `readSize`: the `slen`-byte big-endian size at the front of `b`, rejecting
sizes below 56 and sizes with a leading zero byte. -/
def readSize (b : Bytes) (slen : Nat) : Outcome Error Nat :=
  if slen > b.length then .error .unexpectedEOF
  else
    let s := BigEndian.ofBytes (b.take slen)
    -- Reject sizes < 56 (shouldn't have separate size) and sizes with
    -- leading zero bytes.
    if s < 56 ∨ b.head? = some 0 then .error .canonSize else .ok s

/-- The header fields of `readKind` before the size check: kind, tag size,
content size. -/
def readHeader : Bytes → Outcome Error (Kind × Nat × Nat)
  | [] => .error .unexpectedEOF
  | b :: rest =>
    if b < 0x80 then .ok (.byte, 0, 1)
    else if b < 0xB8 then
      -- Reject strings that should've been single bytes; `buf[1]` is read
      -- without a bounds check.
      if (b - 0x80).toNat = 1 then
        match rest with
        | [] => .panic indexOutOfRange
        | c :: _ => if c < 128 then .error .canonSize else .ok (.string, 1, 1)
      else .ok (.string, 1, (b - 0x80).toNat)
    else if b < 0xC0 then
      (readSize rest (b - 0xB7).toNat).map fun cs => (.string, (b - 0xB7).toNat + 1, cs)
    else if b < 0xF8 then .ok (.list, 1, (b - 0xC0).toNat)
    else (readSize rest (b - 0xF7).toNat).map fun cs => (.list, (b - 0xF7).toNat + 1, cs)

/-- `readKind`: the header of the first value of `buf`, rejecting values
larger than the input slice. -/
def readKind (buf : Bytes) : Outcome Error (Kind × Nat × Nat) :=
  (readHeader buf).bind fun (k, tagsize, contentsize) =>
    if contentsize > buf.length - tagsize then .error .valueTooLarge
    else .ok (k, tagsize, contentsize)

/-- `Split`: the kind and content of the first RLP value of `b`, and the
bytes after it. On an error Go also returns `(0, nil, b)`. -/
def split (b : Bytes) : Outcome Error (Kind × Bytes × Bytes) :=
  (readKind b).map fun (k, ts, cs) => (k, (b.drop ts).take cs, b.drop (ts + cs))

/-- `SplitString`: the content of an RLP string (or single byte). -/
def splitString (b : Bytes) : Outcome Error (Bytes × Bytes) :=
  (split b).bind fun (k, content, rest) =>
    if k = .list then .error .expectedString else .ok (content, rest)

/-- `SplitList`: the content of an RLP list. -/
def splitList (b : Bytes) : Outcome Error (Bytes × Bytes) :=
  (split b).bind fun (k, content, rest) =>
    if k ≠ .list then .error .expectedList else .ok (content, rest)

/-- A successful `readSize` read `slen` bytes and found a long-form size. -/
theorem readSize_ok {b : Bytes} {slen s : Nat} (h : readSize b slen = .ok s) :
    slen ≤ b.length ∧ 56 ≤ s := by
  unfold readSize at h
  split at h
  · cases h
  · dsimp only at h
    split at h
    · cases h
    · cases h
      omega

/-- Everything a successful header read can be, one case per branch of
`readKind`: a single byte, a short string (whose one content byte, if that is
all, is at least `0x80`), a long string, a short list, a long list. -/
theorem readHeader_cons_ok {b : UInt8} {rest : Bytes} {k : Kind} {ts cs : Nat}
    (h : readHeader (b :: rest) = .ok (k, ts, cs)) :
    (b < 0x80 ∧ k = .byte ∧ ts = 0 ∧ cs = 1) ∨
    (¬ b < 0x80 ∧ b < 0xB8 ∧ k = .string ∧ ts = 1 ∧ cs = (b - 0x80).toNat ∧
      (cs = 1 → ∃ x tl, rest = x :: tl ∧ ¬ x < 128)) ∨
    (¬ b < 0x80 ∧ ¬ b < 0xB8 ∧ b < 0xC0 ∧ k = .string ∧ ts = (b - 0xB7).toNat + 1 ∧
      readSize rest (b - 0xB7).toNat = .ok cs) ∨
    (¬ b < 0x80 ∧ ¬ b < 0xB8 ∧ ¬ b < 0xC0 ∧ b < 0xF8 ∧ k = .list ∧ ts = 1 ∧ cs = (b - 0xC0).toNat) ∨
    (¬ b < 0x80 ∧ ¬ b < 0xB8 ∧ ¬ b < 0xC0 ∧ ¬ b < 0xF8 ∧ k = .list ∧ ts = (b - 0xF7).toNat + 1 ∧
      readSize rest (b - 0xF7).toNat = .ok cs) := by
  simp only [readHeader] at h
  by_cases c1 : b < 0x80
  · rw [if_pos c1] at h
    cases h
    exact .inl ⟨c1, rfl, rfl, rfl⟩
  by_cases c2 : b < 0xB8
  · rw [if_neg c1, if_pos c2] at h
    refine .inr (.inl ⟨c1, c2, ?_⟩)
    split at h
    · -- the canonical check reads the content byte
      rename_i hone
      split at h
      · cases h
      · rename_i x tl
        split at h
        · cases h
        · rename_i hx
          cases h
          exact ⟨rfl, rfl, hone.symm, fun _ => ⟨x, tl, rfl, hx⟩⟩
    · rename_i hone
      cases h
      exact ⟨rfl, rfl, rfl, fun h1 => absurd h1 hone⟩
  by_cases c3 : b < 0xC0
  · rw [if_neg c1, if_neg c2, if_pos c3] at h
    obtain ⟨sz, hsz, he⟩ := Outcome.map_eq_ok.mp h
    cases he
    exact .inr (.inr (.inl ⟨c1, c2, c3, rfl, rfl, hsz⟩))
  by_cases c4 : b < 0xF8
  · rw [if_neg c1, if_neg c2, if_neg c3, if_pos c4] at h
    cases h
    exact .inr (.inr (.inr (.inl ⟨c1, c2, c3, c4, rfl, rfl, rfl⟩)))
  · rw [if_neg c1, if_neg c2, if_neg c3, if_neg c4] at h
    obtain ⟨sz, hsz, he⟩ := Outcome.map_eq_ok.mp h
    cases he
    exact .inr (.inr (.inr (.inr ⟨c1, c2, c3, c4, rfl, rfl, hsz⟩)))

/-- A successful header read stays inside the slice and announces a value of at
least one byte. -/
theorem readHeader_bounds {buf : Bytes} {k : Kind} {ts cs : Nat}
    (h : readHeader buf = .ok (k, ts, cs)) : 0 < ts + cs ∧ ts ≤ buf.length := by
  cases buf with
  | nil => cases h
  | cons b rest =>
    rcases readHeader_cons_ok h with
      ⟨-, -, rfl, rfl⟩ | ⟨-, -, -, rfl, -⟩ | ⟨-, -, -, -, rfl, hsz⟩ | ⟨-, -, -, -, -, rfl, -⟩ |
        ⟨-, -, -, -, -, rfl, hsz⟩
    · simp
    · simp
    · have := readSize_ok hsz
      simp only [List.length_cons]
      omega
    · simp
    · have := readSize_ok hsz
      simp only [List.length_cons]
      omega

/-- A successful `readKind` consumes at least one byte and stays inside `buf`. -/
theorem readKind_bounds {buf : Bytes} {k : Kind} {ts cs : Nat}
    (h : readKind buf = .ok (k, ts, cs)) : 0 < ts + cs ∧ ts + cs ≤ buf.length := by
  obtain ⟨⟨k', ts', cs'⟩, hh, hc⟩ := Outcome.bind_eq_ok.mp h
  have := readHeader_bounds hh
  dsimp only at hc
  split at hc
  · cases hc
  · cases hc
    omega

/-- `CountValues`: the number of encoded values in `b`. -/
def countValues (b : Bytes) : Outcome Error Nat :=
  if b.length = 0 then .ok 0
  else
    match h : readKind b with
    | .ok (_, ts, cs) =>
      have := readKind_bounds h
      (countValues (b.drop (ts + cs))).map (· + 1)
    | .error e => .error e
    | .panic m => .panic m
termination_by b.length
decreasing_by simp only [List.length_drop]; omega

/-- Only a single byte has an empty header. -/
theorem readHeader_tag_pos {buf : Bytes} {k : Kind} {ts cs : Nat}
    (h : readHeader buf = .ok (k, ts, cs)) (hk : k ≠ .byte) : 1 ≤ ts := by
  cases buf with
  | nil => cases h
  | cons b rest =>
    rcases readHeader_cons_ok h with
      ⟨-, rfl, -⟩ | ⟨-, -, -, rfl, -⟩ | ⟨-, -, -, -, rfl, -⟩ | ⟨-, -, -, -, -, rfl, -⟩ |
        ⟨-, -, -, -, -, rfl, -⟩
    · exact absurd rfl hk
    all_goals omega

/-- `split` consumes at least one byte, and a string or list header at least
one more than its content. -/
theorem split_lengths {b content rest : Bytes} {k : Kind} (h : split b = .ok (k, content, rest)) :
    rest.length < b.length ∧ content.length + rest.length ≤ b.length ∧
      (k ≠ .byte → content.length + rest.length < b.length) := by
  obtain ⟨⟨k', ts, cs⟩, hk, he⟩ := Outcome.map_eq_ok.mp h
  simp only [Prod.mk.injEq] at he
  obtain ⟨rfl, rfl, rfl⟩ := he
  have hb := readKind_bounds hk
  obtain ⟨⟨k'', ts', cs'⟩, hh, hc⟩ := Outcome.bind_eq_ok.mp hk
  refine ⟨?_, ?_, ?_⟩
  · simp only [List.length_drop]
    omega
  · simp only [List.length_drop, List.length_take]
    omega
  · intro hne
    dsimp only at hc
    split at hc
    · cases hc
    · cases hc
      have := readHeader_tag_pos hh hne
      simp only [List.length_drop, List.length_take]
      omega

/-! ## Where the slice reader panics

Every read of `readSize` is behind its length check, and every other read of
`readKind` is of `buf[0]` on a non-empty slice. The one unchecked read is
`buf[1]` in the canonical-single-byte check, which a short-string header of
content size one reaches on any slice; only the slice holding that header
alone has no byte there. -/

/-- `readSize` checks `slen` against the slice before it reads. -/
theorem readSize_ne_panic (b : Bytes) (slen : Nat) (m : String) :
    readSize b slen ≠ .panic m := by
  unfold readSize
  split
  · simp
  · dsimp only
    split <;> simp

/-- The short-string header of content size one is the byte `0x81`. -/
theorem short_string_size_one {x : UInt8} (h1 : ¬ x < 0x80) (h : (x - 0x80).toNat = 1) :
    x = 0x81 := by
  have hle : (0x80 : UInt8) ≤ x := UInt8.not_lt.mp h1
  rw [UInt8.toNat_sub_of_le _ _ hle] at h
  apply UInt8.toNat_inj.mp
  simp only [UInt8.reduceToNat] at h ⊢
  omega

/-- The header read panics exactly on the slice `0x81`. -/
theorem readHeader_panic_iff (buf : Bytes) :
    (∃ m, readHeader buf = .panic m) ↔ buf = [0x81] := by
  refine ⟨?_, fun h => h ▸ ⟨_, rfl⟩⟩
  rintro ⟨m, h⟩
  cases buf with
  | nil => simp [readHeader] at h
  | cons b rest =>
    simp only [readHeader] at h
    by_cases c1 : b < 0x80
    · simp [c1] at h
    by_cases c2 : b < 0xB8
    · rw [if_neg c1, if_pos c2] at h
      split at h
      · rename_i hone
        -- the canonical check: it panics only when there is no byte to read
        cases rest with
        | nil => rw [short_string_size_one c1 hone]
        | cons c tl =>
          dsimp only at h
          split at h <;> simp at h
      · simp at h
    by_cases c3 : b < 0xC0
    · rw [if_neg c1, if_neg c2, if_pos c3, Outcome.map_eq_panic] at h
      exact absurd h (readSize_ne_panic _ _ _)
    by_cases c4 : b < 0xF8
    · simp [c1, c2, c3, c4] at h
    · rw [if_neg c1, if_neg c2, if_neg c3, if_neg c4, Outcome.map_eq_panic] at h
      exact absurd h (readSize_ne_panic _ _ _)

/-- The size check after the header read never panics, so `readKind` panics
where the header read does. -/
theorem readKind_panic_iff (buf : Bytes) :
    (∃ m, readKind buf = .panic m) ↔ buf = [0x81] := by
  rw [← readHeader_panic_iff]
  constructor
  · rintro ⟨m, h⟩
    rcases Outcome.bind_eq_panic.mp h with h | ⟨⟨k, ts, cs⟩, _, hc⟩
    · exact ⟨m, h⟩
    · dsimp only at hc
      split at hc <;> simp at hc
  · rintro ⟨m, h⟩
    exact ⟨m, by rw [readKind, h, Outcome.bind_panic]⟩

/-- `Split`, `SplitString` and `SplitList` panic exactly on the one-byte slice
`0x81`; on every other slice they return, with a value or an error. -/
theorem split_panic_iff_eq_0x81 (b : Bytes) :
    ((∃ m, split b = .panic m) ↔ b = [0x81]) ∧
    ((∃ m, splitString b = .panic m) ↔ b = [0x81]) ∧
    ((∃ m, splitList b = .panic m) ↔ b = [0x81]) := by
  have hsplit : (∃ m, split b = .panic m) ↔ b = [0x81] := by
    simp only [split, Outcome.map_eq_panic]
    exact readKind_panic_iff b
  -- the kind checks of `SplitString` and `SplitList` return on every value
  have hkind (g : Kind × Bytes × Bytes → Outcome Error (Bytes × Bytes))
      (hg : ∀ v m, g v ≠ .panic m) : (∃ m, (split b).bind g = .panic m) ↔ b = [0x81] := by
    rw [← hsplit]
    constructor
    · rintro ⟨m, h⟩
      rcases Outcome.bind_eq_panic.mp h with h | ⟨v, _, hv⟩
      · exact ⟨m, h⟩
      · exact absurd hv (hg v m)
    · rintro ⟨m, h⟩
      exact ⟨m, by rw [h, Outcome.bind_panic]⟩
  refine ⟨hsplit, hkind _ ?_, hkind _ ?_⟩
  all_goals
    intro ⟨k, content, rest⟩ m
    dsimp only
    split <;> simp

end Rlp

end Bazacoin
