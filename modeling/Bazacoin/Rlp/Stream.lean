import Bazacoin.Rlp.Encode

/-!
# The RLP decoding stream (`rlp/decode.go`, `Stream`)

`Stream` reads RLP values piecemeal from a byte reader. The model reads from a
`bytes.Reader`, the reader `DecodeBytes` builds: its unread bytes are the field
`input`. Every method is a function `Stream → Except Error α × Stream`, since Go
mutates the stream also on the paths that return an error: `willRead` re-arms
the kind cache and advances the list position before it fails, and `Kind` caches
the kind, size and error of `readKind`, so that an error is sticky until a read
re-arms the cache.

Go's `kind` field holds `-1` when the cache is re-armed; the model's
`kindAhead` is `none` there. `Uint()` is `uint(64)` and appears as such. The
list stack keeps the innermost list first.
-/

namespace Bazacoin

namespace Rlp

/-- `listpos`: position in and size of an open list. -/
structure ListPos where
  pos : Nat
  size : Nat
deriving DecidableEq, Repr

/-- The decoding state of a `Stream` over a `bytes.Reader`. -/
structure Stream where
  /-- The unread bytes of the underlying reader. -/
  input : Bytes
  /-- Number of bytes remaining to be read from the reader. -/
  remaining : Nat
  limited : Bool
  /-- `kind`: kind of value ahead; `none` is Go's `-1`. -/
  kindAhead : Option Kind
  /-- Size of value ahead. -/
  size : Nat
  /-- Value of the single byte in the type tag. -/
  byteval : UInt8
  /-- Error from the last `readKind`. -/
  kinderr : Option Error
  /-- The open lists, innermost first. -/
  stack : List ListPos
deriving DecidableEq, Repr

namespace Stream

/-- `NewStream(bytes.NewReader(b), inputLimit)`: the limit is the explicit one
when positive, and the reader's length otherwise. -/
def new (b : Bytes) (inputLimit : Nat) : Stream where
  input := b
  remaining := if inputLimit > 0 then inputLimit else b.length
  limited := true
  kindAhead := none
  size := 0
  byteval := 0
  kinderr := none
  stack := []

/-- The limit check of `willRead`. -/
def consume (s : Stream) (n : Nat) : Except Error Unit × Stream :=
  if s.limited then
    if n > s.remaining then (.error .valueTooLarge, s)
    else (.ok (), { s with remaining := s.remaining - n })
  else (.ok (), s)

/-- `willRead`: re-arm `Kind`, check that `n` bytes fit the innermost list and
the input limit, and count them. -/
def willRead (s : Stream) (n : Nat) : Except Error Unit × Stream :=
  let s := { s with kindAhead := none }
  match s.stack with
  | tos :: rest =>
    -- check list overflow
    if n > tos.size - tos.pos then (.error .elemTooLarge, s)
    else consume { s with stack := { tos with pos := tos.pos + n } :: rest } n
  | [] => consume s n

/-- `readByte`; an `io.EOF` of the reader becomes `io.ErrUnexpectedEOF`. -/
def readByte (s : Stream) : Except Error UInt8 × Stream :=
  match s.willRead 1 with
  | (.error e, s) => (.error e, s)
  | (.ok (), s) =>
    match s.input with
    | [] => (.error .unexpectedEOF, s)
    | b :: rest => (.ok b, { s with input := rest })

/-- `readFull` of an `n`-byte buffer: a short reader leaves the input empty
and reports `io.ErrUnexpectedEOF`. -/
def readFull (s : Stream) (n : Nat) : Except Error Bytes × Stream :=
  match s.willRead n with
  | (.error e, s) => (.error e, s)
  | (.ok (), s) =>
    if n ≤ s.input.length then (.ok (s.input.take n), { s with input := s.input.drop n })
    else (.error .unexpectedEOF, { s with input := [] })

/-- `readUint`: a big-endian integer of `size` bytes; callers pass at most 8.
A leading zero byte is `ErrCanonSize`. -/
def readUint (s : Stream) (size : Nat) : Except Error Nat × Stream :=
  match size with
  | 0 => (.ok 0, { s with kindAhead := none })
  | 1 =>
    match s.readByte with
    | (r, s) => (r.map UInt8.toNat, s)
  | size =>
    match s.readFull size with
    | (.error e, s) => (.error e, s)
    | (.ok bs, s) =>
      if bs.head? = some 0 then (.error .canonSize, s)
      else (.ok (BigEndian.ofBytes bs), s)

/-- A long-form size of `slen` bytes read by `readKind`; below 56 it is not
canonical. Go returns the size together with the error. -/
def readLongSize (s : Stream) (slen : Nat) : (Nat × Option Error) × Stream :=
  match s.readUint slen with
  | (.error e, s) => ((0, some e), s)
  | (.ok size, s) => if size < 56 then ((size, some .canonSize), s) else ((size, none), s)

/-- `readKind`: the kind and size of the next value from its type tag, with
Go's error return. At top level an end of input is reported as `io.EOF`. -/
def readKind (s : Stream) : (Kind × Nat × Option Error) × Stream :=
  match s.readByte with
  | (.error err, s) =>
    let err :=
      if s.stack = [] then
        match err with
        | .unexpectedEOF => .eof
        | .valueTooLarge => .eof
        | e => e
      else err
    ((.byte, 0, some err), s)
  | (.ok b, s) =>
    let s := { s with byteval := 0 }
    if b < 0x80 then
      -- a single byte in [0x00, 0x7F] is its own RLP encoding
      ((.byte, 0, none), { s with byteval := b })
    else if b < 0xB8 then ((.string, (b - 0x80).toNat, none), s)
    else if b < 0xC0 then
      match s.readLongSize (b - 0xB7).toNat with
      | ((size, err), s) => ((.string, size, err), s)
    else if b < 0xF8 then ((.list, (b - 0xC0).toNat, none), s)
    else
      match s.readLongSize (b - 0xF7).toNat with
      | ((size, err), s) => ((.list, size, err), s)

/-- The result `Kind` returns from the cache. -/
def cached (s : Stream) (k : Kind) : Except Error (Kind × Nat) :=
  match s.kinderr with
  | some e => .error e
  | none => .ok (k, s.size)

/-- The size checks `Kind` applies after a successful `readKind`: against the
remaining input at top level, against the innermost list otherwise. -/
def checkSize (s : Stream) : Stream :=
  match s.stack with
  | [] => if s.limited ∧ s.size > s.remaining then { s with kinderr := some .valueTooLarge } else s
  | tos :: _ =>
    if s.size > tos.size - tos.pos then { s with kinderr := some .elemTooLarge } else s

/-- `Kind`: the kind and size of the next value. The first call reads the type
tag and caches kind, size and error; later calls return the cache until a read
re-arms it. At the end of the innermost list it reports `EOL`. -/
def kind (s : Stream) : Except Error (Kind × Nat) × Stream :=
  match s.kindAhead with
  | some k => (s.cached k, s)
  | none =>
    let s := { s with kinderr := none }
    match s.stack with
    | tos :: _ =>
      if tos.pos = tos.size then (.error .eol, s)
      else
        match s.readKind with
        | ((k, size, err), s) =>
          let s := { s with kindAhead := some k, size := size, kinderr := err }
          let s := if err = none then s.checkSize else s
          (s.cached k, s)
    | [] =>
      match s.readKind with
      | ((k, size, err), s) =>
        let s := { s with kindAhead := some k, size := size, kinderr := err }
        let s := if err = none then s.checkSize else s
        (s.cached k, s)

/-- `Bytes`: the content of an RLP string. A string of one byte below `0x80`
is not canonical (it should have been a single byte). -/
def bytes (s : Stream) : Except Error Bytes × Stream :=
  match s.kind with
  | (.error e, s) => (.error e, s)
  | (.ok (.byte, _), s) => (.ok [s.byteval], { s with kindAhead := none })
  | (.ok (.string, size), s) =>
    match s.readFull size with
    | (.error e, s) => (.error e, s)
    | (.ok b, s) =>
      if size = 1 ∧ b.head?.any (· < 128) then (.error .canonSize, s) else (.ok b, s)
  | (.ok (.list, _), s) => (.error .expectedString, s)

/-- `Raw`: the next value with its type information; the header is rebuilt in
front of the content. -/
def raw (s : Stream) : Except Error Bytes × Stream :=
  match s.kind with
  | (.error e, s) => (.error e, s)
  | (.ok (.byte, _), s) => (.ok [s.byteval], { s with kindAhead := none })
  | (.ok (k, size), s) =>
    match s.readFull size with
    | (.error e, s) => (.error e, s)
    | (.ok content, s) =>
      let head := if k = .string then puthead 0x80 0xB8 size else puthead 0xC0 0xF7 size
      (.ok (head ++ content), s)

/-- `uint(maxbits)`: an RLP string of at most `maxbits / 8` bytes read as an
integer, in canonical form only. -/
def uint (s : Stream) (maxbits : Nat) : Except Error Nat × Stream :=
  match s.kind with
  | (.error e, s) => (.error e, s)
  | (.ok (.byte, _), s) =>
    if s.byteval = 0 then (.error .canonInt, s)
    else (.ok s.byteval.toNat, { s with kindAhead := none })
  | (.ok (.string, size), s) =>
    if size > maxbits / 8 then (.error .uintOverflow, s)
    else
      match s.readUint size with
      -- Adjust error because we're not reading a size right now.
      | (.error .canonSize, s) => (.error .canonInt, s)
      | (.error e, s) => (.error e, s)
      | (.ok v, s) => if size > 0 ∧ v < 128 then (.error .canonSize, s) else (.ok v, s)
  | (.ok (.list, _), s) => (.error .expectedString, s)

/-- `Bool`: an RLP string of at most one byte holding 0 or 1. -/
def bool (s : Stream) : Except Error Bool × Stream :=
  match s.uint 8 with
  | (.error e, s) => (.error e, s)
  | (.ok 0, s) => (.ok false, s)
  | (.ok 1, s) => (.ok true, s)
  | (.ok n, s) => (.error (.invalidBool n), s)

/-- `List`: enter an RLP list, returning its content size. -/
def list (s : Stream) : Except Error Nat × Stream :=
  match s.kind with
  | (.error e, s) => (.error e, s)
  | (.ok (.list, size), s) =>
    (.ok size, { s with stack := ⟨0, size⟩ :: s.stack, kindAhead := none, size := 0 })
  | (.ok _, s) => (.error .expectedList, s)

/-- `ListEnd`: leave the innermost list, which must be fully read; the
enclosing list advances by its size. -/
def listEnd (s : Stream) : Except Error Unit × Stream :=
  match s.stack with
  | [] => (.error .notInList, s)
  | tos :: rest =>
    if tos.pos ≠ tos.size then (.error .notAtEOL, s)
    else
      let rest := match rest with
        | [] => []
        | parent :: up => { parent with pos := parent.pos + tos.size } :: up
      (.ok (), { s with stack := rest, kindAhead := none, size := 0 })

/-! ### Reading only consumes input -/

theorem consume_input (s : Stream) (n : Nat) : (s.consume n).2.input = s.input := by
  unfold consume
  split
  · split <;> rfl
  · rfl

theorem willRead_input (s : Stream) (n : Nat) : (s.willRead n).2.input = s.input := by
  unfold willRead
  dsimp only
  split
  · split
    · rfl
    · exact consume_input _ n
  · exact consume_input _ n

theorem readByte_input (s : Stream) : List.IsSuffix (s.readByte).2.input s.input := by
  unfold readByte
  have h := willRead_input s 1
  split
  · next s₁ _ hw => rw [hw] at h; exact h ▸ List.suffix_refl _
  · next s₁ hw =>
    rw [hw] at h
    split
    · exact h ▸ List.suffix_refl _
    · next b rest hin => rw [← h, hin]; exact List.suffix_cons b rest

theorem readFull_input (s : Stream) (n : Nat) : List.IsSuffix (s.readFull n).2.input s.input := by
  unfold readFull
  have h := willRead_input s n
  split
  · next s₁ _ hw => rw [hw] at h; exact h ▸ List.suffix_refl _
  · next s₁ hw =>
    rw [hw] at h
    split
    · rw [← h]; exact List.drop_suffix n _
    · exact List.nil_suffix

theorem readUint_input (s : Stream) (size : Nat) : List.IsSuffix (s.readUint size).2.input s.input := by
  unfold readUint
  split
  · exact List.suffix_refl _
  · exact readByte_input s
  · have h := readFull_input s size
    split
    · next s₁ _ hf => rw [hf] at h; exact h
    · next s₁ _ hf =>
      rw [hf] at h
      split <;> exact h

theorem readLongSize_input (s : Stream) (slen : Nat) :
    List.IsSuffix (s.readLongSize slen).2.input s.input := by
  unfold readLongSize
  have h := readUint_input s slen
  split
  · next s₁ _ hr => rw [hr] at h; exact h
  · next s₁ _ hr =>
    rw [hr] at h
    split <;> exact h

theorem readKind_input (s : Stream) : List.IsSuffix (s.readKind).2.input s.input := by
  unfold readKind
  have h := readByte_input s
  split
  · next s₁ _ hr => rw [hr] at h; exact h
  · next b s₁ hr =>
    rw [hr] at h
    split
    · exact h
    · split
      · exact h
      · split
        · exact (readLongSize_input _ _).trans h
        · split
          · exact h
          · exact (readLongSize_input _ _).trans h

theorem checkSize_input (s : Stream) : s.checkSize.input = s.input := by
  unfold checkSize
  split
  · split <;> rfl
  · split <;> rfl

theorem ite_checkSize_input (c : Prop) [Decidable c] (s : Stream) :
    (if c then s.checkSize else s).input = s.input := by
  split
  · exact checkSize_input s
  · rfl

theorem kind_input (s : Stream) : List.IsSuffix (s.kind).2.input s.input := by
  unfold kind
  split
  · exact List.suffix_refl _
  · have h := readKind_input { s with kinderr := none }
    dsimp only
    split
    · split
      · exact List.suffix_refl _
      · simp only [ite_checkSize_input]
        exact h
    · simp only [ite_checkSize_input]
      exact h

theorem uint_input (s : Stream) (maxbits : Nat) : List.IsSuffix (s.uint maxbits).2.input s.input := by
  rcases hk : s.kind with ⟨r, s₁⟩
  have h₁ : List.IsSuffix s₁.input s.input := by simpa [hk] using kind_input s
  unfold uint
  rw [hk]
  rcases r with e | ⟨k, size⟩
  · exact h₁
  · cases k with
    | byte =>
      dsimp only
      split <;> exact h₁
    | string =>
      dsimp only
      split
      · exact h₁
      · rcases hr : s₁.readUint size with ⟨r', s₂⟩
        have h₂ : List.IsSuffix s₂.input s₁.input := by simpa [hr] using readUint_input s₁ size
        rcases r' with e | v
        · cases e <;> exact h₂.trans h₁
        · dsimp only
          split <;> exact h₂.trans h₁
    | list => exact h₁
/-! ### At top level the limit counts the unread bytes

A stream over a `bytes.Reader` at top level is limited by the reader's length,
and every read counts what it takes off the limit: the limit stays the number
of unread bytes, also on the paths that fail (`Tight`). -/

/-- The limit is the number of unread bytes, and no list is open. -/
structure Tight (s : Stream) : Prop where
  limited : s.limited = true
  top : s.stack = []
  remaining_eq : s.remaining = s.input.length

/-- `Tight` looks only at the input, the limit and the open lists. -/
theorem Tight.congr {s s' : Stream} (h : s.Tight) (hl : s'.limited = s.limited)
    (hi : s'.input = s.input) (hr : s'.remaining = s.remaining) (hs : s'.stack = s.stack) :
    s'.Tight :=
  ⟨hl ▸ h.limited, hs ▸ h.top, by rw [hr, hi]; exact h.remaining_eq⟩

theorem tight_new (b : Bytes) (inputLimit : Nat) (h : inputLimit = 0 ∨ inputLimit = b.length) :
    (new b inputLimit).Tight := by
  refine ⟨rfl, rfl, ?_⟩
  rcases h with rfl | rfl <;> simp [new]

/-- `willRead` at top level checks against the limit and counts down. -/
theorem willRead_tight {s : Stream} (h : s.Tight) (n : Nat) :
    s.willRead n = if n > s.remaining then (.error .valueTooLarge, { s with kindAhead := none })
      else (.ok (), { s with kindAhead := none, remaining := s.remaining - n }) := by
  simp [willRead, consume, h.top, h.limited]

theorem readByte_tight {s : Stream} (h : s.Tight) : (s.readByte).2.Tight := by
  have hr := h.remaining_eq
  unfold readByte
  rw [willRead_tight h]
  split_ifs with hn
  · exact h.congr rfl rfl rfl rfl
  · dsimp only
    split
    · next hin =>
      refine ⟨h.limited, h.top, ?_⟩
      simp only at hin ⊢
      simp only [hin, List.length_nil] at hr ⊢
      omega
    · next b rest hin =>
      refine ⟨h.limited, h.top, ?_⟩
      simp only at hin ⊢
      simp only [hin, List.length_cons] at hr ⊢
      omega

theorem readFull_tight {s : Stream} (h : s.Tight) (n : Nat) : (s.readFull n).2.Tight := by
  have hr := h.remaining_eq
  unfold readFull
  rw [willRead_tight h]
  split_ifs with hn
  · exact h.congr rfl rfl rfl rfl
  · dsimp only
    split_ifs with hle
    · refine ⟨h.limited, h.top, ?_⟩
      simp only [List.length_drop]
      omega
    · -- a short reader: the limit was larger than what is left, which `willRead` rules out
      refine ⟨h.limited, h.top, ?_⟩
      simp only [not_le] at hle
      omega

theorem readUint_tight {s : Stream} (h : s.Tight) (size : Nat) : (s.readUint size).2.Tight := by
  unfold readUint
  split
  · exact h.congr rfl rfl rfl rfl
  · exact readByte_tight h
  · have h₁ := readFull_tight h size
    split
    · next s₁ _ hf => rw [hf] at h₁; exact h₁
    · next s₁ _ hf =>
      rw [hf] at h₁
      split <;> exact h₁

theorem readLongSize_tight {s : Stream} (h : s.Tight) (slen : Nat) :
    (s.readLongSize slen).2.Tight := by
  unfold readLongSize
  have h₁ := readUint_tight h slen
  split
  · next s₁ _ hr => rw [hr] at h₁; exact h₁
  · next s₁ _ hr =>
    rw [hr] at h₁
    split <;> exact h₁

theorem readKind_tight {s : Stream} (h : s.Tight) : (s.readKind).2.Tight := by
  unfold readKind
  have h₁ := readByte_tight h
  split
  · next s₁ _ hr => rw [hr] at h₁; exact h₁
  · next b s₁ hr =>
    rw [hr] at h₁
    have h₂ : ({ s₁ with byteval := 0 } : Stream).Tight := h₁.congr rfl rfl rfl rfl
    split
    · exact h₁.congr rfl rfl rfl rfl
    · split
      · exact h₂
      · split
        · exact readLongSize_tight h₂ _
        · split
          · exact h₂
          · exact readLongSize_tight h₂ _

theorem checkSize_tight {s : Stream} (h : s.Tight) : s.checkSize.Tight := by
  unfold checkSize
  split <;> split
  all_goals first | exact h | exact h.congr rfl rfl rfl rfl

theorem kind_tight {s : Stream} (h : s.Tight) : (s.kind).2.Tight := by
  unfold kind
  split
  · exact h
  · have h₀ : ({ s with kinderr := none } : Stream).Tight := h.congr rfl rfl rfl rfl
    have h₁ := readKind_tight h₀
    dsimp only
    split
    · next tos rest hst => exact absurd (h.top ▸ hst) (by simp)
    · split
      · exact checkSize_tight (h₁.congr rfl rfl rfl rfl)
      · exact h₁.congr rfl rfl rfl rfl

theorem uint_tight {s : Stream} (h : s.Tight) (maxbits : Nat) : (s.uint maxbits).2.Tight := by
  rcases hk : s.kind with ⟨r, s₁⟩
  have h₁ : s₁.Tight := by simpa [hk] using kind_tight h
  unfold uint
  rw [hk]
  rcases r with e | ⟨k, size⟩
  · exact h₁
  · cases k with
    | byte =>
      dsimp only
      split
      · exact h₁
      · exact h₁.congr rfl rfl rfl rfl
    | string =>
      dsimp only
      split
      · exact h₁
      · rcases hr : s₁.readUint size with ⟨r', s₂⟩
        have h₂ : s₂.Tight := by simpa [hr] using readUint_tight h₁ size
        rcases r' with e | v
        · cases e <;> exact h₂
        · dsimp only
          split <;> exact h₂
    | list => exact h₁

end Stream

end Rlp

end Bazacoin
