import Bazacoin.Rlp.Decode

/-!
# The slice reader and the stream agree (`rlp/raw.go`, `rlp/decode.go`)

`rlp.Split` and `CountValues` read RLP values from a byte slice; the `Stream`
reads them through a byte reader. The two are written independently, so this
module runs the stream alongside the slice reader and compares them.

- `Stream.Reading s buf`: the stream stands at the start of `buf`, and the
  innermost open list (or the input limit at top level) ends exactly where
  `buf` ends. Every read keeps it, moving `buf` on by what it consumed.
- `Stream.kind_reading`, `Stream.bytes_reading`, `Stream.list_reading`,
  `Stream.raw_reading`: **on a value the slice reader accepts, the stream
  reads the same kind, the same content, and stops at the same place.**
- `rawSliceElems_countValues`: the stream reads, one `Raw` at a time,
  exactly the values `CountValues` counts (the run of the element loop of
  `decodeSliceElems`), and then reports `EOL`.

The converse fails in two places. The stream checks the canonical form of a
one-byte string when it reads the content, while `readKind` checks it in the
header: `Kind` and `Raw` accept `81 05`, which `Split` rejects, and only
`Bytes` rejects it. And `readKind` reads `buf[1]` behind a `0x81` tag without
a bounds check: a lone `0x81` at the end of a slice makes `Split` and
`CountValues` panic where the stream reports the value too large
(`countValues_panics_where_stream_errors`).
-/

namespace Bazacoin

namespace Rlp

/-! ## Reading a prefix of a longer slice -/


/-- `readSize` looks only at its `slen` bytes. -/
theorem readSize_append {b : Bytes} {slen s : Nat} (h : readSize b slen = .ok s) (d : Bytes) :
    readSize (b ++ d) slen = .ok s := by
  obtain ⟨hle, -⟩ := readSize_ok h
  cases b with
  | nil =>
    -- no size bytes: the size read is zero, below 56
    have : slen = 0 := by simpa using hle
    subst this
    simp [readSize, BigEndian.ofBytes] at h
  | cons x b =>
    unfold readSize at h ⊢
    rw [if_neg (by simp at hle ⊢; omega)]
    rw [if_neg (by omega)] at h
    rw [List.take_append_of_le_length hle]
    simpa using h

/-- A header read from a slice reads the same from any extension of it. -/
theorem readHeader_append {c : Bytes} {r : Kind × Nat × Nat} (h : readHeader c = .ok r) (d : Bytes) :
    readHeader (c ++ d) = .ok r := by
  cases c with
  | nil => cases h
  | cons b rest =>
    simp only [List.cons_append, readHeader] at h ⊢
    split_ifs at h ⊢ with h1 h2 h3 h4 h5
    · exact h
    · cases rest with
      | nil => cases h
      | cons x rest => exact h
    · exact h
    · obtain ⟨cs, hcs, rfl⟩ := Outcome.map_eq_ok.mp h
      rw [readSize_append hcs]
      rfl
    · exact h
    · obtain ⟨cs, hcs, rfl⟩ := Outcome.map_eq_ok.mp h
      rw [readSize_append hcs]
      rfl

/-- `readKind` accepts a value in any extension of a slice it accepts it in. -/
theorem readKind_append {c : Bytes} {r : Kind × Nat × Nat} (h : readKind c = .ok r) (d : Bytes) :
    readKind (c ++ d) = .ok r := by
  obtain ⟨⟨k, ts, cs⟩, hh, hc⟩ := Outcome.bind_eq_ok.mp h
  have hb := readKind_bounds h
  rw [readKind, readHeader_append hh, Outcome.bind_ok]
  dsimp only at hc ⊢
  split at hc
  · cases hc
  · rw [if_neg (by simp; omega)]
    exact hc

/-- After any run of values `CountValues` accepts, a lone `0x81` tag makes it
read `buf[1]` past the end of the slice. -/
theorem countValues_append_single {c : Bytes} {n : Nat} (h : countValues c = .ok n) :
    countValues (c ++ [0x81]) = .panic indexOutOfRange := by
  induction hlen : c.length using Nat.strong_induction_on generalizing c n with
  | _ len ih =>
    rw [countValues] at h
    split_ifs at h with h0
    · -- after the last value, the lone 0x81 tag is read past the end
      rw [List.length_eq_zero_iff.mp h0]
      decide +kernel
    · split at h
      · rename_i k ts cs hk
        obtain ⟨m, hm, -⟩ := Outcome.map_eq_ok.mp h
        have hb := readKind_bounds hk
        have hrest : (c ++ [0x81]).drop (ts + cs) = c.drop (ts + cs) ++ [0x81] :=
          List.drop_append_of_le_length hb.2
        have hnext := ih _ (by simp; omega) hm rfl
        rw [countValues, if_neg (by simp)]
        split
        · rename_i k' ts' cs' hk'
          rw [readKind_append hk] at hk'
          cases hk'
          rw [hrest, hnext]
          rfl
        · rename_i e he
          rw [readKind_append hk] at he
          cases he
        · rename_i m' hm'
          rw [readKind_append hk] at hm'
          cases hm'
      · cases h
      · cases h

/-! ## The stream reading a slice -/

namespace Stream

def cap (s : Stream) : Nat :=
  match s.stack with
  | tos :: _ => tos.size - tos.pos
  | [] => s.remaining

def bump : List ListPos → Nat → List ListPos
  | tos :: rest, n => { tos with pos := tos.pos + n } :: rest
  | [], _ => []

def advance (s : Stream) (n : Nat) : Stream :=
  { s with kindAhead := none, input := s.input.drop n, remaining := s.remaining - n,
           stack := bump s.stack n }

structure Reading (s : Stream) (buf : Bytes) : Prop where
  limited : s.limited = true
  input : buf <+: s.input
  capEq : s.cap = buf.length
  fits : s.cap ≤ s.remaining
  inList : ∀ tos ∈ s.stack.head?, tos.pos ≤ tos.size

/-! ### The open lists stay open

No read changes how many lists are open; only `List` and `ListEnd` do. -/

theorem bump_length (st : List ListPos) (n : Nat) : (bump st n).length = st.length := by
  cases st <;> rfl

theorem willRead_stack (s : Stream) (n : Nat) : (s.willRead n).2.stack.length = s.stack.length := by
  unfold willRead consume
  cases s.stack <;> simp only <;> split_ifs <;> simp

theorem readByte_stack (s : Stream) : (s.readByte).2.stack.length = s.stack.length := by
  unfold readByte
  have := willRead_stack s 1
  split
  · simpa [*] using this
  · split <;> simp_all

theorem readFull_stack (s : Stream) (n : Nat) : (s.readFull n).2.stack.length = s.stack.length := by
  unfold readFull
  have := willRead_stack s n
  split
  · simp_all
  · split <;> simp_all

theorem readUint_stack (s : Stream) (n : Nat) : (s.readUint n).2.stack.length = s.stack.length := by
  unfold readUint
  split
  · rfl
  · exact readByte_stack s
  · have := readFull_stack s n
    split
    · simp_all
    · split <;> simp_all

theorem readLongSize_stack (s : Stream) (n : Nat) :
    (s.readLongSize n).2.stack.length = s.stack.length := by
  unfold readLongSize
  have := readUint_stack s n
  split
  · simp_all
  · split <;> simp_all

theorem readKind_stack (s : Stream) : (s.readKind).2.stack.length = s.stack.length := by
  unfold readKind
  have := readByte_stack s
  split
  · simp_all
  · rename_i b s₁ hb
    have h₁ : s₁.stack.length = s.stack.length := by simp [hb] at this; exact this
    dsimp only
    split_ifs
    · simpa using h₁
    · simpa using h₁
    · simpa using (readLongSize_stack { s₁ with byteval := 0 } _).trans h₁
    · simpa using h₁
    · simpa using (readLongSize_stack { s₁ with byteval := 0 } _).trans h₁

theorem checkSize_stack (s : Stream) : s.checkSize.stack = s.stack := by
  unfold checkSize
  split <;> (split_ifs <;> rfl)

theorem kind_stack (s : Stream) : (s.kind).2.stack.length = s.stack.length := by
  unfold kind
  split
  · rfl
  · dsimp only
    have := readKind_stack { s with kinderr := none }
    cases hs : s.stack with
    | nil =>
      simp only
      split_ifs <;> simp_all [checkSize_stack]
    | cons tos rest =>
      simp only
      split_ifs
      · simp
      · simp_all [checkSize_stack]
      · simp_all

theorem raw_stack (s : Stream) : (s.raw).2.stack.length = s.stack.length := by
  unfold raw
  rcases hk : s.kind with ⟨r, s₁⟩
  have h₁ : s₁.stack.length = s.stack.length := by simpa [hk] using kind_stack s
  rcases r with e | ⟨k, size⟩
  · exact h₁
  · cases k with
    | byte => simpa using h₁
    | _ =>
      dsimp only
      rcases hf : s₁.readFull size with ⟨r', s₂⟩
      have h₂ : s₂.stack.length = s₁.stack.length := by simpa [hf] using readFull_stack s₁ size
      cases r' <;> simpa using h₂.trans h₁

theorem Reading.advance {s : Stream} {buf : Bytes} (h : s.Reading buf) {n : Nat} (hn : n ≤ buf.length) :
    (s.advance n).Reading (buf.drop n) := by
  obtain ⟨hl, ⟨tl, hin⟩, hcap, hfits, hlist⟩ := h
  refine ⟨hl, ⟨tl, ?_⟩, ?_, ?_, ?_⟩
  · simp [Stream.advance, ← hin, List.drop_append_of_le_length hn]
  all_goals
    unfold Stream.advance Stream.cap at *
    cases hs : s.stack with
    | nil => simp_all [bump]; try omega
    | cons tos rest => simp_all [bump]; omega

theorem willRead_reading {s : Stream} {buf : Bytes} (h : s.Reading buf) {n : Nat} (hn : n ≤ buf.length) :
    s.willRead n = (.ok (), { s.advance n with input := s.input }) := by
  obtain ⟨hl, -, hcap, hfits, -⟩ := h
  unfold willRead consume
  unfold Stream.cap at hcap hfits
  cases hs : s.stack with
  | nil =>
    simp only [hs] at hcap hfits
    simp [hl, Stream.advance, hs, bump]
    omega
  | cons tos rest =>
    simp only [hs] at hcap hfits
    have h₁ : ¬ tos.size - tos.pos < n := by omega
    have h₂ : ¬ s.remaining < n := by omega
    simp [hl, Stream.advance, hs, bump, h₁, h₂]

theorem readByte_reading {s : Stream} {b : UInt8} {buf : Bytes} (h : s.Reading (b :: buf)) :
    s.readByte = (.ok b, s.advance 1) := by
  obtain ⟨tl, hin⟩ := h.input
  unfold readByte
  rw [willRead_reading h (by simp)]
  simp [Stream.advance, ← hin]

theorem readFull_reading {s : Stream} {buf : Bytes} (h : s.Reading buf) {n : Nat} (hn : n ≤ buf.length) :
    s.readFull n = (.ok (buf.take n), s.advance n) := by
  obtain ⟨tl, hin⟩ := h.input
  unfold readFull
  rw [willRead_reading h hn]
  have hlen : n ≤ buf.length + tl.length := by omega
  simp [Stream.advance, ← hin, List.take_append_of_le_length hn, hlen]

theorem readLongSize_ok {s : Stream} {rest : Bytes} (h : s.Reading rest) {slen sz : Nat}
    (hs : readSize rest slen = .ok sz) : s.readLongSize slen = ((sz, none), s.advance slen) := by
  obtain ⟨hle, h56⟩ := readSize_ok hs
  unfold readSize at hs
  rw [if_neg (by omega)] at hs
  dsimp only at hs
  split_ifs at hs with hc
  cases hs
  simp only [not_or] at hc
  match slen, rest, hle with
  | 0, _, _ => simp [BigEndian.ofBytes] at h56
  | 1, x :: rest, _ =>
    simp only [readLongSize, readUint, readByte_reading h, Except.map]
    simp_all [BigEndian.ofBytes_singleton]
  | n + 2, x :: rest, hle =>
    simp only [readLongSize, readUint, readFull_reading h hle]
    simp_all

/-- `Reading` looks only at the input, the limit and the open lists. -/
theorem Reading.congr {s s' : Stream} {buf : Bytes} (h : s.Reading buf) (hl : s'.limited = s.limited)
    (hi : s'.input = s.input) (hr : s'.remaining = s.remaining) (hs : s'.stack = s.stack) :
    s'.Reading buf := by
  have hc : s'.cap = s.cap := by simp [Stream.cap, hr, hs]
  exact ⟨hl ▸ h.limited, hi ▸ h.input, hc ▸ h.capEq, hc ▸ hr ▸ h.fits, hs ▸ h.inList⟩

@[simp] theorem reading_byteval {s : Stream} {buf : Bytes} {b : UInt8} :
    ({ s with byteval := b } : Stream).Reading buf ↔ s.Reading buf :=
  ⟨fun h => h.congr rfl rfl rfl rfl, fun h => h.congr rfl rfl rfl rfl⟩

@[simp] theorem reading_kindAhead {s : Stream} {buf : Bytes} {k : Option Kind} :
    ({ s with kindAhead := k } : Stream).Reading buf ↔ s.Reading buf :=
  ⟨fun h => h.congr rfl rfl rfl rfl, fun h => h.congr rfl rfl rfl rfl⟩

theorem readKind_reading {s : Stream} {buf : Bytes} {k : Kind} {ts cs : Nat} (h : s.Reading buf)
    (hh : readHeader buf = .ok (k, ts, cs)) :
    ∃ s', s.readKind = ((k, if k = .byte then 0 else cs, none), s') ∧
      s'.Reading (buf.drop (if k = .byte then 1 else ts)) ∧ (k = .byte → buf.head? = some s'.byteval) := by
  cases buf with
  | nil => cases hh
  | cons b rest =>
    have h₁ : (s.advance 1).Reading rest := h.advance (show 1 ≤ _ by simp)
    have h₂ : ({ s.advance 1 with byteval := 0 } : Stream).Reading rest := by simpa using h₁
    simp only [readKind, readByte_reading h]
    -- the stream's tag ranges are the slice reader's
    rcases readHeader_cons_ok hh with
      ⟨c1, rfl, rfl, rfl⟩ | ⟨c1, c2, rfl, rfl, rfl, -⟩ | ⟨c1, c2, c3, rfl, rfl, hsz⟩ |
        ⟨c1, c2, c3, c4, rfl, rfl, rfl⟩ | ⟨c1, c2, c3, c4, rfl, rfl, hsz⟩
    · exact ⟨_, by rw [if_pos c1]; rfl, by simpa using h₁, fun _ => rfl⟩
    · exact ⟨_, by rw [if_neg c1, if_pos c2]; rfl, by simpa using h₁, by simp⟩
    · -- a long string: the size bytes follow the tag
      refine ⟨_, by rw [if_neg c1, if_neg c2, if_pos c3, readLongSize_ok h₂ hsz]; rfl, ?_, by simp⟩
      simpa [List.drop_succ_cons] using h₂.advance (readSize_ok hsz).1
    · exact ⟨_, by rw [if_neg c1, if_neg c2, if_neg c3, if_pos c4]; rfl, by simpa using h₁, by simp⟩
    · refine ⟨_, by rw [if_neg c1, if_neg c2, if_neg c3, if_neg c4, readLongSize_ok h₂ hsz]; rfl, ?_,
        by simp⟩
      simpa [List.drop_succ_cons] using h₂.advance (readSize_ok hsz).1

/-- A header of kind `Byte` is the byte itself. -/
theorem readHeader_byte {buf : Bytes} {ts cs : Nat} (h : readHeader buf = .ok (.byte, ts, cs)) :
    ts = 0 ∧ cs = 1 := by
  cases buf with
  | nil => cases h
  | cons b rest =>
    rcases readHeader_cons_ok h with
      ⟨-, -, rfl, rfl⟩ | ⟨-, -, h, -⟩ | ⟨-, -, -, h, -⟩ | ⟨-, -, -, -, h, -⟩ | ⟨-, -, -, -, h, -⟩
    · exact ⟨rfl, rfl⟩
    all_goals cases h

theorem checkSize_fits {s : Stream} (hfit : s.size ≤ s.cap) : s.checkSize = s := by
  unfold checkSize
  unfold Stream.cap at hfit
  cases hs : s.stack with
  | nil =>
    simp only [hs] at hfit
    simp only [ite_eq_right_iff]
    omega
  | cons tos rest =>
    simp only [hs] at hfit
    simp only [ite_eq_right_iff]
    omega

/-- A value larger than what is left is `ErrValueTooLarge` at top level and
`ErrElemTooLarge` inside a list. -/
theorem checkSize_over {s : Stream} (hover : s.cap < s.size) (hl : s.limited = true) :
    s.checkSize.kinderr = some (if s.stack = [] then .valueTooLarge else .elemTooLarge) := by
  unfold checkSize
  unfold Stream.cap at hover
  cases hs : s.stack with
  | nil =>
    simp only [hs] at hover
    simp [hl, hover]
  | cons tos rest =>
    simp only [hs] at hover
    simp [hover]

/-- What `Kind` does after a fresh `readKind`: cache kind, size and error, and
check the size when there is no error. -/
theorem kind_fresh {s : Stream} (hfresh : s.kindAhead = none) (hne : s.cap ≠ 0) :
    s.kind =
      let (r, s₁) := ({ s with kinderr := none } : Stream).readKind
      let s₂ : Stream := { s₁ with kindAhead := some r.1, size := r.2.1, kinderr := r.2.2 }
      let s₂ := if r.2.2 = none then s₂.checkSize else s₂
      (s₂.cached r.1, s₂) := by
  unfold kind
  rw [hfresh]
  unfold Stream.cap at hne
  cases hs : s.stack with
  | nil => rfl
  | cons tos rest =>
    simp only [hs] at hne
    simp only [if_neg (show tos.pos ≠ tos.size by omega)]

theorem kind_reading {s : Stream} {buf : Bytes} {k : Kind} {ts cs : Nat} (h : s.Reading buf)
    (hfresh : s.kindAhead = none) (hk : Rlp.readKind buf = .ok (k, ts, cs)) :
    ∃ s', s.kind = (.ok (k, if k = .byte then 0 else cs), s') ∧ s'.kindAhead = some k ∧
      s'.size = (if k = .byte then 0 else cs) ∧ s'.Reading (buf.drop (if k = .byte then 1 else ts)) ∧
      (k = .byte → buf.head? = some s'.byteval) := by
  obtain ⟨⟨k', ts', cs'⟩, hh, hc⟩ := Outcome.bind_eq_ok.mp hk
  dsimp only at hc
  split at hc
  · cases hc
  · rename_i hle
    cases hc
    have hb := readKind_bounds hk
    have h₀ : ({ s with kinderr := none } : Stream).Reading buf := h.congr rfl rfl rfl rfl
    obtain ⟨s₁, hr, h₁, hbyte⟩ := readKind_reading h₀ hh
    have hfit : (if k = .byte then 0 else cs) ≤ s₁.cap := by
      rw [h₁.capEq]
      split
      · simp
      · simp only [List.length_drop]
        omega
    refine ⟨{ s₁ with kindAhead := some k, size := if k = .byte then 0 else cs, kinderr := none },
      ?_, rfl, rfl, h₁.congr rfl rfl rfl rfl, hbyte⟩
    rw [kind_fresh hfresh (by rw [h.capEq]; omega), hr]
    simp only [if_true]
    rw [checkSize_fits hfit]
    rfl

/-- At the end of the innermost list `Kind` reports `EOL`. -/
theorem kind_eol {s : Stream} (h : s.Reading []) (hne : s.stack ≠ []) (hfresh : s.kindAhead = none) :
    s.kind = (.error .eol, { s with kinderr := none }) := by
  have hcap := h.capEq
  have hin := h.inList
  unfold kind
  rw [hfresh]
  unfold Stream.cap at hcap
  cases hs : s.stack with
  | nil => exact absurd hs hne
  | cons tos rest =>
    simp only [hs, List.head?_cons, Option.mem_def, Option.some.injEq, forall_eq'] at hcap hin
    simp only [show tos.pos = tos.size by simp at hcap; omega, if_true]

/-- The content of a one-byte string that `readHeader` accepts is at least `0x80`. -/
theorem readHeader_string_one {buf : Bytes} {ts : Nat} (h : readHeader buf = .ok (.string, ts, 1)) :
    ∃ x, (buf.drop ts).head? = some x ∧ ¬ x < 128 := by
  cases buf with
  | nil => cases h
  | cons b rest =>
    rcases readHeader_cons_ok h with
      ⟨-, h, -⟩ | ⟨-, -, -, rfl, -, hone⟩ | ⟨-, -, -, -, -, hsz⟩ | ⟨-, -, -, -, h, -⟩ | ⟨-, -, -, -, h, -⟩
    · cases h
    · obtain ⟨x, tl, rfl, hx⟩ := hone rfl
      exact ⟨x, rfl, hx⟩
    · -- a long-form size is at least 56
      have := (readSize_ok hsz).2
      omega
    all_goals cases h

/-- A stream reading `buf` from the start of a value returns the content `Split`
finds, with `Bytes`, for a string or a single byte. -/
theorem bytes_reading {s : Stream} {buf : Bytes} {k : Kind} {ts cs : Nat} (h : s.Reading buf)
    (hfresh : s.kindAhead = none) (hk : Rlp.readKind buf = .ok (k, ts, cs)) (hkl : k ≠ .list) :
    ∃ s', s.bytes = (.ok ((buf.drop ts).take cs), s') ∧ s'.Reading (buf.drop (ts + cs)) ∧
      s'.kindAhead = none := by
  obtain ⟨⟨k', ts', cs'⟩, hh, hc⟩ := Outcome.bind_eq_ok.mp hk
  have hb := readKind_bounds hk
  dsimp only at hc
  split at hc
  · cases hc
  cases hc
  obtain ⟨s₁, hr, -, -, h₁, hbyte⟩ := kind_reading h hfresh hk
  cases k with
  | list => exact absurd rfl hkl
  | byte =>
    -- the value is the tag byte itself
    obtain ⟨rfl, rfl⟩ := readHeader_byte hh
    cases buf with
    | nil => simp at hb
    | cons b rest =>
      have hbv : b = s₁.byteval := by simpa using hbyte rfl
      exact ⟨{ s₁ with kindAhead := none }, by simp only [bytes, hr]; rw [hbv]; rfl, by simpa using h₁, rfl⟩
  | string =>
    simp only [if_neg (show Kind.string ≠ .byte by decide)] at hr h₁
    have hcs : cs ≤ (buf.drop ts).length := by simp; omega
    refine ⟨s₁.advance cs, ?_, by simpa using h₁.advance hcs, rfl⟩
    simp only [bytes, hr, readFull_reading h₁ hcs]
    -- the canonical check of a one-byte string passed in `readHeader`
    by_cases hone : cs = 1
    · subst hone
      obtain ⟨x, hx, hx128⟩ := readHeader_string_one hh
      obtain ⟨tl, htl⟩ := List.head?_eq_some_iff.mp hx
      rw [htl]
      simp [hx128]
    · simp [hone]

/-- `List` enters a list that `Split` accepts: the stream then reads its content,
inside one more open list. -/
theorem list_reading {s : Stream} {buf : Bytes} {ts cs : Nat} (h : s.Reading buf)
    (hfresh : s.kindAhead = none) (hk : Rlp.readKind buf = .ok (.list, ts, cs)) :
    ∃ s', s.list = (.ok cs, s') ∧ s'.Reading ((buf.drop ts).take cs) ∧ s'.kindAhead = none ∧
      s'.stack.length = s.stack.length + 1 := by
  obtain ⟨s₁, hr, -, -, h₁, -⟩ := kind_reading h hfresh hk
  simp only [if_neg (show Kind.list ≠ .byte by decide)] at hr h₁
  have hb := readKind_bounds hk
  have hst : s₁.stack.length = s.stack.length := by simpa [hr] using kind_stack s
  refine ⟨{ s₁ with stack := ⟨0, cs⟩ :: s₁.stack, kindAhead := none, size := 0 }, by simp only [list, hr],
    ?_, rfl, by simp [hst]⟩
  obtain ⟨hl, ⟨tl, hin⟩, hcap, hfits, -⟩ := h₁
  refine ⟨hl, ⟨(buf.drop ts).drop cs ++ tl, ?_⟩, ?_, ?_, ?_⟩
  · rw [← hin, ← List.append_assoc, List.take_append_drop]
  · simp only [Stream.cap, List.length_take, List.length_drop]
    omega
  · simp only [Stream.cap]
    rw [hcap] at hfits
    simp only [List.length_drop] at hfits
    omega
  · simp

/-- `Raw` reads a value that `Split` accepts and moves past it. -/
theorem raw_reading {s : Stream} {buf : Bytes} {k : Kind} {ts cs : Nat} (h : s.Reading buf)
    (hfresh : s.kindAhead = none) (hk : Rlp.readKind buf = .ok (k, ts, cs)) :
    ∃ v s', s.raw = (.ok v, s') ∧ s'.Reading (buf.drop (ts + cs)) ∧ s'.kindAhead = none ∧
      s'.stack.length = s.stack.length := by
  obtain ⟨⟨k', ts', cs'⟩, hh, hc⟩ := Outcome.bind_eq_ok.mp hk
  have hb := readKind_bounds hk
  dsimp only at hc
  split at hc
  · cases hc
  cases hc
  obtain ⟨s₁, hr, -, -, h₁, -⟩ := kind_reading h hfresh hk
  suffices hs : ∃ v s', s.raw = (.ok v, s') ∧ s'.Reading (buf.drop (ts + cs)) ∧ s'.kindAhead = none by
    obtain ⟨v, s', hraw, hs₁, hs₂⟩ := hs
    exact ⟨v, s', hraw, hs₁, hs₂, by simpa [hraw] using raw_stack s⟩
  cases k with
  | byte =>
    obtain ⟨rfl, rfl⟩ := readHeader_byte hh
    exact ⟨[s₁.byteval], { s₁ with kindAhead := none }, by simp only [raw, hr], by simpa using h₁, rfl⟩
  | string =>
    simp only [if_neg (show Kind.string ≠ .byte by decide)] at hr h₁
    have hcs : cs ≤ (buf.drop ts).length := by simp; omega
    exact ⟨_, s₁.advance cs, by simp only [raw, hr, readFull_reading h₁ hcs]; rfl,
      by simpa using h₁.advance hcs, rfl⟩
  | list =>
    simp only [if_neg (show Kind.list ≠ .byte by decide)] at hr h₁
    have hcs : cs ≤ (buf.drop ts).length := by simp; omega
    exact ⟨_, s₁.advance cs, by simp only [raw, hr, readFull_reading h₁ hcs]; rfl,
      by simpa using h₁.advance hcs, rfl⟩

theorem readKind_reading_0x81 {s : Stream} (h : s.Reading [0x81]) :
    ∃ s₁, s.readKind = ((.string, 1, none), s₁) ∧ s₁.Reading [] ∧ s₁.stack.length = s.stack.length := by
  have hr : s.readKind = ((.string, 1, none), { s.advance 1 with byteval := 0 }) := by
    simp only [readKind, readByte_reading h]
    rfl
  refine ⟨_, hr, by simpa using h.advance (show 1 ≤ [(0x81 : UInt8)].length by simp), ?_⟩
  simpa [hr] using readKind_stack s

/-- A lone `0x81` tag announces a byte that is not there: `Kind` reports the
value too large for what is left. -/
theorem kind_reading_0x81 {s : Stream} (h : s.Reading [0x81]) (hfresh : s.kindAhead = none) :
    ∃ s', s.kind = (.error (if s.stack = [] then .valueTooLarge else .elemTooLarge), s') := by
  have h₀ : ({ s with kinderr := none } : Stream).Reading [0x81] := h.congr rfl rfl rfl rfl
  obtain ⟨s₁, hr, h₁, hst⟩ := readKind_reading_0x81 h₀
  rw [kind_fresh hfresh (by rw [h.capEq]; simp), hr]
  have hover : ({ s₁ with kindAhead := some .string, size := 1, kinderr := none } : Stream).cap <
      ({ s₁ with kindAhead := some .string, size := 1, kinderr := none } : Stream).size := by
    show s₁.cap < 1
    rw [h₁.capEq]
    simp
  have hnil : (s₁.stack = []) = (s.stack = []) := by
    simp only [← List.length_eq_zero_iff, hst]
  simp only [if_true, cached, checkSize_over hover h₁.limited, hnil]
  exact ⟨_, rfl⟩

/-- `Raw` passes on the error of `Kind`. -/
theorem raw_of_kind_error {s s' : Stream} {e : Error} (hk : s.kind = (.error e, s')) :
    s.raw = (.error e, s') := by
  simp only [raw, hk]

/-- `Uint` reads a string or byte that `Split` accepts as the integer of its
content, when the content is canonical: at most `maxbits / 8` bytes and no
leading zero. -/
theorem uint_reading {s : Stream} {buf : Bytes} {k : Kind} {ts cs maxbits : Nat} (h : s.Reading buf)
    (hfresh : s.kindAhead = none) (hk : Rlp.readKind buf = .ok (k, ts, cs)) (hkl : k ≠ .list)
    (hsize : cs ≤ maxbits / 8) (hzero : ((buf.drop ts).take cs).head? ≠ some 0) :
    ∃ s', s.uint maxbits = (.ok (BigEndian.ofBytes ((buf.drop ts).take cs)), s') ∧
      s'.Reading (buf.drop (ts + cs)) := by
  obtain ⟨⟨k', ts', cs'⟩, hh, hc⟩ := Outcome.bind_eq_ok.mp hk
  have hb := readKind_bounds hk
  dsimp only at hc
  split at hc
  · cases hc
  cases hc
  obtain ⟨s₁, hr, -, -, h₁, hbyte⟩ := kind_reading h hfresh hk
  cases k with
  | list => exact absurd rfl hkl
  | byte =>
    -- the value is the tag byte itself, which is not zero
    obtain ⟨rfl, rfl⟩ := readHeader_byte hh
    cases buf with
    | nil => simp at hb
    | cons b rest =>
      have hbv : b = s₁.byteval := by simpa using hbyte rfl
      have hb0 : s₁.byteval ≠ 0 := by simpa [← hbv] using hzero
      refine ⟨{ s₁ with kindAhead := none }, ?_, by simpa using h₁⟩
      simp only [uint, hr, if_neg hb0]
      simp [hbv]
  | string =>
    simp only [if_neg (show Kind.string ≠ .byte by decide)] at hr h₁
    have hcs : cs ≤ (buf.drop ts).length := by simp; omega
    -- `readUint` reads no byte, one byte, or the whole content
    rcases cs with _ | _ | n
    · -- no byte
      refine ⟨{ s₁ with kindAhead := none }, ?_, by simpa using h₁⟩
      simp [uint, hr, readUint]
    · -- a one-byte string holds a byte of at least `0x80`
      obtain ⟨x, hx, hx128⟩ := readHeader_string_one hh
      obtain ⟨tl, htl⟩ := List.head?_eq_some_iff.mp hx
      have hd : buf.drop (ts + 1) = tl := by rw [← List.drop_drop, htl]; rfl
      rw [htl] at h₁ ⊢
      refine ⟨s₁.advance 1, ?_, by simpa [hd] using h₁.advance (show 1 ≤ (x :: tl).length by simp)⟩
      have hsz : ¬ 1 > maxbits / 8 := by omega
      simp only [uint, hr, if_neg hsz, readUint, readByte_reading h₁]
      have hx' : 128 ≤ x.toNat := by
        simp only [UInt8.lt_iff_toNat_lt, UInt8.toNat_ofNat, not_lt] at hx128
        simpa using hx128
      simp [Except.map, hx']
    · -- more bytes, read whole
      refine ⟨s₁.advance (n + 2), ?_, by simpa using h₁.advance hcs⟩
      have hsz : ¬ n + 2 > maxbits / 8 := by omega
      simp only [uint, hr, if_neg hsz, readUint, readFull_reading h₁ hcs, if_neg hzero]
      -- two or more bytes with a non-zero head are at least `256`
      obtain ⟨x, xs, hxs⟩ : ∃ x xs, (buf.drop ts).take (n + 2) = x :: xs :=
        List.exists_cons_of_ne_nil (by simp; omega)
      have hx0 : x ≠ 0 := by simpa [hxs] using hzero
      have hlen : xs.length = n + 1 := by
        have := congrArg List.length hxs
        simp at this
        omega
      have hge := BigEndian.pow_le_ofBytes_cons x xs hx0
      rw [hlen] at hge
      have : ¬ BigEndian.ofBytes ((buf.drop ts).take (n + 2)) < 128 := by
        rw [hxs]
        have : 256 ≤ 256 ^ (n + 1) := Nat.le_self_pow (by omega) 256
        omega
      simp [this]

/-- At top level a stream that reads `buf` and whose limit counts its unread
bytes has exactly `buf` left. -/
theorem Tight.input_eq {s : Stream} {buf : Bytes} (ht : s.Tight) (h : s.Reading buf) :
    s.input = buf := by
  have hcap : s.cap = s.remaining := by simp [Stream.cap, ht.top]
  have hlen : s.input.length = buf.length := by rw [← ht.remaining_eq, ← hcap, h.capEq]
  exact (h.input.eq_of_length hlen.symm).symm

/-- The stream `DecodeBytes` reads from stands at the start of its input. -/
theorem reading_new (b : Bytes) : (new b b.length).Reading b := by
  refine ⟨rfl, List.prefix_refl b, ?_, ?_, ?_⟩
  · simp [Stream.cap, new]
  · simp [Stream.cap, new]
  · simp [new]

end Stream

/-! ## The element loop -/

/-- `decodeSliceElems` for a slice of `RawValue`, whose element decoder
`decodeRawValue` is `Raw`: the values of the list up to `EOL`. -/
def rawSliceElems : Nat → Stream → Nat → List Bytes → Option (Except Error (List Bytes) × Stream)
  | 0, _, _, _ => none
  | fuel + 1, s, i, acc =>
    match s.raw with
    | (.error .eol, s) => some (.ok acc, s)
    | (.error e, s) => some (.error (addErrorContext e ("[" ++ toString i ++ "]")), s)
    | (.ok v, s) => rawSliceElems fuel s (i + 1) (acc ++ [v])

theorem rawSliceElems_ok {s s' : Stream} {v : Bytes} (hr : s.raw = (.ok v, s')) (fuel i : Nat)
    (acc : List Bytes) : rawSliceElems (fuel + 1) s i acc = rawSliceElems fuel s' (i + 1) (acc ++ [v]) := by
  simp only [rawSliceElems, hr]

/-- The run of the element loop over the values `CountValues` counts: the
stream reads each of them with `Raw`, and stands after them. -/
theorem rawSliceElems_countValues {c : Bytes} {n : Nat} (hc : countValues c = .ok n) (d : Bytes) :
    ∀ {s : Stream}, s.Reading (c ++ d) → s.kindAhead = none →
      ∃ vs s', vs.length = n ∧ s'.Reading d ∧ s'.kindAhead = none ∧ s'.stack.length = s.stack.length ∧
        ∀ fuel i acc, rawSliceElems (fuel + n) s i acc = rawSliceElems fuel s' (i + n) (acc ++ vs) := by
  -- induction on the bytes left, as `CountValues` recurses
  induction hlen : c.length using Nat.strong_induction_on generalizing c n with
  | _ len ih =>
    intro s h hfresh
    rw [countValues] at hc
    split_ifs at hc with h0
    · -- nothing left to count
      cases hc
      rw [List.length_eq_zero_iff.mp h0] at h
      exact ⟨[], s, rfl, by simpa using h, hfresh, rfl, fun fuel i acc => by simp⟩
    · split at hc
      · rename_i k ts cs hk
        obtain ⟨m, hm, rfl⟩ := Outcome.map_eq_ok.mp hc
        have hb := readKind_bounds hk
        have hrest : (c ++ d).drop (ts + cs) = c.drop (ts + cs) ++ d :=
          List.drop_append_of_le_length hb.2
        obtain ⟨v, s₁, hr, h₁, hf₁, hst₁⟩ := Stream.raw_reading h hfresh (readKind_append hk d)
        rw [hrest] at h₁
        obtain ⟨vs, s', hlen', h', hf', hst', hrun⟩ := ih _ (by simp; omega) hm rfl h₁ hf₁
        refine ⟨v :: vs, s', by simp [hlen'], h', hf', hst'.trans hst₁, fun fuel i acc => ?_⟩
        rw [show fuel + (m + 1) = (fuel + m) + 1 by omega, rawSliceElems_ok hr, hrun]
        simp [Nat.add_assoc, Nat.add_comm 1 m]
      · cases hc
      · cases hc

/-! ## Agreement, and where it fails -/

/-- **`Split` and the stream agree on what `Split` accepts**: `Kind` reports
the same kind, and `Bytes` returns the same content for a string or a byte. -/
theorem stream_of_split {b c rest : Bytes} {k : Kind} (hs : split b = .ok (k, c, rest)) :
    ((Stream.new b b.length).kind).1 = .ok (k, if k = .byte then 0 else c.length) ∧
      (k ≠ .list → ((Stream.new b b.length).bytes).1 = .ok c) := by
  obtain ⟨⟨k', ts, cs⟩, hk, he⟩ := Outcome.map_eq_ok.mp hs
  simp only [Prod.mk.injEq] at he
  obtain ⟨rfl, rfl, rfl⟩ := he
  have hb := readKind_bounds hk
  obtain ⟨s', hr, -⟩ := Stream.kind_reading (Stream.reading_new b) rfl hk
  refine ⟨?_, fun hkl => ?_⟩
  · rw [hr]
    split <;> simp; omega
  · obtain ⟨s'', hr', -⟩ := Stream.bytes_reading (Stream.reading_new b) rfl hk hkl
    rw [hr']

/-- The string `82 01 02`: `Kind` reports a string of two bytes, and `Bytes`
returns them. -/
theorem stream_of_split_two_bytes :
    split [0x82, 1, 2] = .ok (.string, [1, 2], []) ∧
      ((Stream.new [0x82, 1, 2] 3).kind).1 = .ok (.string, if Kind.string = .byte then 0 else 2) ∧
      (Kind.string ≠ .list → ((Stream.new [0x82, 1, 2] 3).bytes).1 = .ok [1, 2]) :=
  ⟨rfl, @stream_of_split [0x82, 1, 2] [1, 2] [] .string rfl⟩

/-- **`CountValues` and the stream agree on the lists `Split` accepts**: when
`CountValues` counts `n` values in a list's content, the stream enters the
list and its element loop reads `n` values with `Raw` before `EOL`. -/
theorem rawSliceElems_of_countValues {b c rest : Bytes} {n : Nat}
    (hs : split b = .ok (.list, c, rest)) (hc : countValues c = .ok n) :
    ∃ s vs s', (Stream.new b b.length).list = (.ok c.length, s) ∧
      rawSliceElems (n + 1) s 0 [] = some (.ok vs, s') ∧ vs.length = n := by
  obtain ⟨⟨k', ts, cs⟩, hk, he⟩ := Outcome.map_eq_ok.mp hs
  simp only [Prod.mk.injEq] at he
  obtain ⟨rfl, rfl, rfl⟩ := he
  have hb := readKind_bounds hk
  obtain ⟨s, hl, h, hfresh, hst⟩ := Stream.list_reading (Stream.reading_new b) rfl hk
  obtain ⟨vs, s', hlen, h', hf', hst', hrun⟩ := rawSliceElems_countValues hc [] (by simpa using h) hfresh
  -- after the last value the list is at its end
  have hne : s'.stack ≠ [] := by
    intro hnil
    simp [hnil, Stream.new] at hst' hst
    omega
  refine ⟨s, vs, { s' with kinderr := none }, by rw [hl]; simp; omega, ?_, hlen⟩
  rw [Nat.add_comm, hrun]
  simp [rawSliceElems, Stream.raw_of_kind_error (Stream.kind_eol h' hne hf')]

/-- The list `C2 01 02` of two single bytes: `CountValues` counts two, and the
stream's element loop reads two values before `EOL`. -/
theorem rawSliceElems_of_countValues_two_bytes :
    split [0xC2, 1, 2] = .ok (.list, [1, 2], []) ∧ countValues [1, 2] = .ok 2 ∧
      ∃ s vs s', (Stream.new [0xC2, 1, 2] 3).list = (.ok 2, s) ∧
        rawSliceElems 3 s 0 [] = some (.ok vs, s') ∧ vs.length = 2 := by
  have hs : split [0xC2, 1, 2] = .ok (.list, [1, 2], []) := by decide
  -- `countValues` recurses on the length, which the kernel unfolds
  have hc : countValues [1, 2] = .ok 2 := by decide +kernel
  exact ⟨hs, hc, @rawSliceElems_of_countValues [0xC2, 1, 2] [1, 2] [] 2 hs hc⟩

/-- **The panic of `readKind`**: a list whose content is a run of values
followed by a lone `0x81` tag passes `Split`, but `CountValues` on its content
reads `buf[1]` past the end and panics, where the stream reading the same list
reads the values and then reports `ErrElemTooLarge`. -/
theorem countValues_panics_where_stream_errors {b c rest : Bytes} {n : Nat}
    (hs : split b = .ok (.list, c ++ [0x81], rest)) (hc : countValues c = .ok n) :
    countValues (c ++ [0x81]) = .panic indexOutOfRange ∧
      ∃ s s', (Stream.new b b.length).list = (.ok (c.length + 1), s) ∧
        rawSliceElems (n + 1) s 0 [] = some (.error .elemTooLarge, s') := by
  refine ⟨countValues_append_single hc, ?_⟩
  obtain ⟨⟨k', ts, cs⟩, hk, he⟩ := Outcome.map_eq_ok.mp hs
  simp only [Prod.mk.injEq] at he
  obtain ⟨rfl, hcontent, -⟩ := he
  have hb := readKind_bounds hk
  have hcs : cs = c.length + 1 := by
    have := congrArg List.length hcontent
    simp at this
    omega
  obtain ⟨s, hl, h, hfresh, hst⟩ := Stream.list_reading (Stream.reading_new b) rfl hk
  rw [hcontent] at h
  obtain ⟨vs, s', -, h', hf', hst', hrun⟩ := rawSliceElems_countValues hc [0x81] h hfresh
  have hne : s'.stack ≠ [] := by
    intro hnil
    simp [hnil, Stream.new] at hst' hst
    omega
  obtain ⟨s'', hk'⟩ := Stream.kind_reading_0x81 h' hf'
  refine ⟨s, s'', by rw [hl, hcs], ?_⟩
  rw [Nat.add_comm, hrun]
  simp [rawSliceElems, Stream.raw_of_kind_error hk', hne, addErrorContext]

/-- The list `C1 81`, whose content is the lone tag. -/
theorem countValues_panics_where_stream_errors_C1_81 :
    split [0xC1, 0x81] = .ok (.list, [] ++ [0x81], []) ∧ countValues [] = .ok 0 ∧
      countValues ([] ++ [0x81]) = .panic indexOutOfRange ∧
      ∃ s s', (Stream.new [0xC1, 0x81] 2).list = (.ok (0 + 1), s) ∧
        rawSliceElems (0 + 1) s 0 [] = some (.error .elemTooLarge, s') := by
  have hs : split [0xC1, 0x81] = .ok (.list, [] ++ [0x81], []) := by decide
  have hc : countValues [] = .ok 0 := by simp [countValues]
  exact ⟨hs, hc, countValues_panics_where_stream_errors hs hc⟩

end Rlp

end Bazacoin
