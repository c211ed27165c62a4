import Bazacoin.Rlp.Canonical
import Bazacoin.Rlp.Agree

/-!
# The decoder reads back what the encoder writes (`rlp/decode.go`)

`Canonical` shows that `EncodeToBytes` writes the canonical item of a value.
This module runs the `Stream` decoders over that item: for every value of its
Go type, `DecodeBytes` returns the value and finds no byte after it.

The stream decoders move through the input one read at a time. `Moved s s' n`
says that `s'` is `s` after `n` more bytes of the payload of the innermost open
list, with no kind cached; each read of `Stream` moves the stream that way, and
each decoder moves it over exactly the encoding of what it returns. The list
decoders are loops over the elements, one lemma each, by induction on the
elements, with fuel for every level.

A `[1]byte` array is left out of `Typed`: its decoder reads the byte through
`Uint`, which keeps a zero byte in the kind cache (`Decode.lean`, the
single-byte path).
-/

namespace Bazacoin
namespace Rlp
namespace Stream

/-! ## Streams at the same place -/

/-- `t` reads on from where `s` does: the same input and limits, the same open
lists. The kind cache and the other scratch fields may differ. -/
structure At (t s : Stream) : Prop where
  limited : t.limited = s.limited
  input : t.input = s.input
  remaining : t.remaining = s.remaining
  stack : t.stack = s.stack

theorem At.refl (s : Stream) : s.At s := ⟨rfl, rfl, rfl, rfl⟩

theorem At.trans {s t u : Stream} (h₁ : u.At t) (h₂ : t.At s) : u.At s :=
  ⟨h₁.limited.trans h₂.limited, h₁.input.trans h₂.input, h₁.remaining.trans h₂.remaining,
    h₁.stack.trans h₂.stack⟩

theorem At.symm {s t : Stream} (h : t.At s) : s.At t :=
  ⟨h.limited.symm, h.input.symm, h.remaining.symm, h.stack.symm⟩

theorem At.reading {s t : Stream} {buf : Bytes} (h : t.At s) (hs : s.Reading buf) : t.Reading buf :=
  hs.congr h.limited h.input h.remaining h.stack

theorem At.cap {s t : Stream} (h : t.At s) : t.cap = s.cap := by
  simp [Stream.cap, h.stack, h.remaining]

theorem At.advance {s t : Stream} (h : t.At s) (n : Nat) : (t.advance n).At (s.advance n) := by
  constructor <;> simp [Stream.advance, h.limited, h.input, h.remaining, h.stack]

theorem bump_bump (st : List ListPos) (a b : Nat) : bump (bump st a) b = bump st (a + b) := by
  cases st <;> simp [bump, Nat.add_assoc]

theorem cap_advance (s : Stream) (n : Nat) : (s.advance n).cap = s.cap - n := by
  cases hs : s.stack with
  | nil => simp [Stream.cap, Stream.advance, hs, bump]
  | cons tos rest =>
    simp [Stream.cap, Stream.advance, hs, bump]
    omega

theorem advance_advance (s : Stream) (a b : Nat) : ((s.advance a).advance b).At (s.advance (a + b)) := by
  constructor <;> simp [Stream.advance, List.drop_drop, Nat.sub_sub, bump_bump]

theorem advance_zero (s : Stream) : s.At (s.advance 0) := by
  constructor <;> cases hs : s.stack <;> simp [Stream.advance, hs, bump]

/-- `s'` is where `s` is after `n` more bytes, all of them within what is left
of the innermost open list (or of the input limit at the top level). -/
structure Moved (s s' : Stream) (n : Nat) : Prop where
  le_cap : n ≤ s.cap
  at_advance : s'.At (s.advance n)

theorem Moved.trans {s s₁ s₂ : Stream} {a b : Nat} (h₁ : Moved s s₁ a) (h₂ : Moved s₁ s₂ b) :
    Moved s s₂ (a + b) := by
  have hcap : s₁.cap = s.cap - a := by rw [h₁.at_advance.cap, cap_advance]
  have hb := h₂.le_cap
  have ha := h₁.le_cap
  exact ⟨by omega, h₂.at_advance.trans ((h₁.at_advance.advance b).trans (advance_advance s a b))⟩

theorem Moved.of_at {s s' t : Stream} {n : Nat} (h : Moved s s' n) (ht : t.At s') : Moved s t n :=
  ⟨h.le_cap, ht.trans h.at_advance⟩

theorem Moved.of_at_left {s t s' : Stream} {n : Nat} (h : Moved t s' n) (ht : s.At t) : Moved s s' n :=
  ⟨ht.cap ▸ h.le_cap, h.at_advance.trans (ht.advance n).symm⟩

theorem moved_zero {s t : Stream} (ht : t.At s) : Moved s t 0 :=
  ⟨Nat.zero_le _, ht.trans (advance_zero s)⟩

theorem Moved.eq_of_reading {s s' : Stream} {buf : Bytes} {n m : Nat} (hmv : Moved s s' n)
    (h : s.Reading buf) (h' : s'.Reading (buf.drop m)) (hm : m ≤ buf.length) : n = m := by
  have h1 := h'.capEq
  rw [hmv.at_advance.cap, cap_advance, h.capEq, List.length_drop] at h1
  have h2 := hmv.le_cap
  rw [h.capEq] at h2
  omega

theorem Reading.moved {s s' : Stream} {buf : Bytes} {n : Nat} (h : s.Reading buf) (hmv : Moved s s' n)
    (hn : n ≤ buf.length) : s'.Reading (buf.drop n) :=
  hmv.at_advance.reading (h.advance hn)

/-! ## Each read moves the stream -/

theorem willRead_ok {s s' : Stream} (hl : s.limited = true) {n : Nat} (h : s.willRead n = (.ok (), s')) :
    n ≤ s.cap ∧ s'.At { s.advance n with input := s.input } ∧ s'.kindAhead = none := by
  unfold willRead consume at h
  cases hs : s.stack with
  | nil =>
    simp only [hs, hl, if_true] at h
    split_ifs at h with h₁
    · simp at h
    obtain ⟨-, rfl⟩ := Prod.mk.inj h
    exact ⟨by simp [Stream.cap, hs]; omega, by constructor <;> simp [Stream.advance, hs, hl, bump], rfl⟩
  | cons tos rest =>
    simp only [hs, hl, if_true] at h
    split_ifs at h with h₁ h₂
    · simp at h
    · simp at h
    obtain ⟨-, rfl⟩ := Prod.mk.inj h
    exact ⟨by simp [Stream.cap, hs]; omega, by constructor <;> simp [Stream.advance, hs, hl, bump], rfl⟩

theorem readByte_moved {s s' : Stream} (hl : s.limited = true) {b : UInt8}
    (h : s.readByte = (.ok b, s')) : Moved s s' 1 ∧ s'.kindAhead = none := by
  unfold readByte at h
  rcases hw : s.willRead 1 with ⟨_ | ⟨⟩, s₁⟩
  · rw [hw] at h
    simp at h
  obtain ⟨hle, hat, hk⟩ := willRead_ok hl hw
  rw [hw] at h
  dsimp only at h
  split at h
  · simp at h
  · rename_i c rest hin
    obtain ⟨-, rfl⟩ := Prod.mk.inj h
    have hs : s.input = c :: rest := hat.input.symm.trans hin
    refine ⟨⟨hle, ?_⟩, hk⟩
    constructor
    · exact hat.limited
    · simp [Stream.advance, hs]
    · exact hat.remaining
    · exact hat.stack

theorem readFull_moved {s s' : Stream} (hl : s.limited = true) {n : Nat} {bs : Bytes}
    (h : s.readFull n = (.ok bs, s')) : Moved s s' n ∧ s'.kindAhead = none := by
  unfold readFull at h
  rcases hw : s.willRead n with ⟨_ | ⟨⟩, s₁⟩
  · rw [hw] at h
    simp at h
  obtain ⟨hle, hat, hk⟩ := willRead_ok hl hw
  rw [hw] at h
  dsimp only at h
  split_ifs at h with hn
  · obtain ⟨-, rfl⟩ := Prod.mk.inj h
    refine ⟨⟨hle, ?_⟩, hk⟩
    constructor
    · exact hat.limited
    · simp [Stream.advance, hat.input]
    · exact hat.remaining
    · exact hat.stack
  · simp at h

theorem readUint_moved {s s' : Stream} (hl : s.limited = true) {size v : Nat}
    (h : s.readUint size = (.ok v, s')) : Moved s s' size ∧ s'.kindAhead = none := by
  unfold readUint at h
  split at h
  · obtain ⟨-, rfl⟩ := Prod.mk.inj h
    exact ⟨moved_zero ⟨rfl, rfl, rfl, rfl⟩, rfl⟩
  · rcases hb : s.readByte with ⟨_ | b, s₁⟩
    · rw [hb] at h
      simp [Except.map] at h
    · rw [hb] at h
      obtain ⟨-, rfl⟩ := Prod.mk.inj h
      exact readByte_moved hl hb
  · rcases hf : s.readFull size with ⟨_ | bs, s₁⟩
    · rw [hf] at h
      simp at h
    · rw [hf] at h
      dsimp only at h
      split_ifs at h
      · simp at h
      · obtain ⟨-, rfl⟩ := Prod.mk.inj h
        exact readFull_moved hl hf

theorem readLongSize_moved {s s' : Stream} (hl : s.limited = true) {slen size : Nat}
    (h : s.readLongSize slen = ((size, none), s')) : Moved s s' slen := by
  unfold readLongSize at h
  rcases hu : s.readUint slen with ⟨_ | v, s₁⟩
  · rw [hu] at h
    simp at h
  · rw [hu] at h
    dsimp only at h
    split_ifs at h
    · simp at h
    · obtain ⟨-, rfl⟩ := Prod.mk.inj h
      exact (readUint_moved hl hu).1

theorem readKind_moved {s s' : Stream} (hl : s.limited = true) {k : Kind} {size : Nat}
    (h : s.readKind = ((k, size, none), s')) : ∃ n, Moved s s' n := by
  unfold readKind at h
  rcases hb : s.readByte with ⟨_ | b, s₁⟩
  · rw [hb] at h
    simp at h
  rw [hb] at h
  obtain ⟨hmv, -⟩ := readByte_moved hl hb
  have hl₁ : s₁.limited = true := hmv.at_advance.limited.trans hl
  dsimp only at h
  split_ifs at h
  · obtain ⟨-, rfl⟩ := Prod.mk.inj h
    exact ⟨1, hmv.of_at ⟨rfl, rfl, rfl, rfl⟩⟩
  · obtain ⟨-, rfl⟩ := Prod.mk.inj h
    exact ⟨1, hmv.of_at ⟨rfl, rfl, rfl, rfl⟩⟩
  · rcases hr : ({ s₁ with byteval := 0 } : Stream).readLongSize (b - 0xB7).toNat with ⟨⟨sz, err⟩, s₂⟩
    rw [hr] at h
    obtain ⟨h₁, rfl⟩ := Prod.mk.inj h
    simp only [Prod.mk.injEq] at h₁
    obtain ⟨-, -, rfl⟩ := h₁
    exact ⟨_, (hmv.of_at (t := { s₁ with byteval := 0 }) ⟨rfl, rfl, rfl, rfl⟩).trans
      (readLongSize_moved (s := { s₁ with byteval := 0 }) hl₁ hr)⟩
  · obtain ⟨-, rfl⟩ := Prod.mk.inj h
    exact ⟨1, hmv.of_at ⟨rfl, rfl, rfl, rfl⟩⟩
  · rcases hr : ({ s₁ with byteval := 0 } : Stream).readLongSize (b - 0xF7).toNat with ⟨⟨sz, err⟩, s₂⟩
    rw [hr] at h
    obtain ⟨h₁, rfl⟩ := Prod.mk.inj h
    simp only [Prod.mk.injEq] at h₁
    obtain ⟨-, -, rfl⟩ := h₁
    exact ⟨_, (hmv.of_at (t := { s₁ with byteval := 0 }) ⟨rfl, rfl, rfl, rfl⟩).trans
      (readLongSize_moved (s := { s₁ with byteval := 0 }) hl₁ hr)⟩

theorem checkSize_at (s : Stream) : s.checkSize.At s := by
  unfold checkSize
  split
  · split_ifs <;> exact ⟨rfl, rfl, rfl, rfl⟩
  · split_ifs <;> exact ⟨rfl, rfl, rfl, rfl⟩

/-- What `Kind` does fresh, when it succeeds: it reads the type tag and
nothing else. -/
theorem kind_moved {s s' : Stream} (hl : s.limited = true) (hfresh : s.kindAhead = none) (hne : s.cap ≠ 0)
    {r : Kind × Nat} (h : s.kind = (.ok r, s')) : ∃ n, Moved s s' n := by
  rw [kind_fresh hfresh hne] at h
  rcases hr : ({ s with kinderr := none } : Stream).readKind with ⟨⟨k, size, err⟩, s₁⟩
  rw [hr] at h
  cases err with
  | some e =>
    obtain ⟨h₁, -⟩ := Prod.mk.inj h
    simp [cached] at h₁
  | none =>
    dsimp only at h
    rw [if_pos rfl] at h
    obtain ⟨-, rfl⟩ := Prod.mk.inj h
    obtain ⟨n, hmv⟩ := readKind_moved (s := { s with kinderr := none }) hl hr
    have hat : (({ s₁ with kindAhead := some k, size := size, kinderr := none } : Stream).checkSize).At s₁ :=
      (checkSize_at _).trans ⟨rfl, rfl, rfl, rfl⟩
    exact ⟨n, (hmv.of_at_left (s := s) ⟨rfl, rfl, rfl, rfl⟩).of_at hat⟩

theorem bytes_moved {s s' : Stream} (hl : s.limited = true) (hfresh : s.kindAhead = none) (hne : s.cap ≠ 0)
    {b : Bytes}
    (h : s.bytes = (.ok b, s')) : ∃ n, Moved s s' n ∧ s'.kindAhead = none := by
  unfold bytes at h
  rcases hk : s.kind with ⟨_ | ⟨k, size⟩, s₁⟩
  · rw [hk] at h
    simp at h
  obtain ⟨n, hmv⟩ := kind_moved hl hfresh hne hk
  have hl₁ : s₁.limited = true := hmv.at_advance.limited.trans hl
  rw [hk] at h
  cases k with
  | byte =>
    obtain ⟨-, rfl⟩ := Prod.mk.inj h
    exact ⟨n, hmv.of_at ⟨rfl, rfl, rfl, rfl⟩, rfl⟩
  | string =>
    dsimp only at h
    rcases hf : s₁.readFull size with ⟨_ | bs, s₂⟩
    · rw [hf] at h
      simp at h
    rw [hf] at h
    dsimp only at h
    split_ifs at h
    · simp at h
    obtain ⟨-, rfl⟩ := Prod.mk.inj h
    obtain ⟨hmv₂, hk₂⟩ := readFull_moved hl₁ hf
    exact ⟨_, hmv.trans hmv₂, hk₂⟩
  | list => simp at h

theorem uint_moved {s s' : Stream} (hl : s.limited = true) (hfresh : s.kindAhead = none) (hne : s.cap ≠ 0)
    {maxbits v : Nat}
    (h : s.uint maxbits = (.ok v, s')) : ∃ n, Moved s s' n ∧ s'.kindAhead = none := by
  unfold uint at h
  rcases hk : s.kind with ⟨_ | ⟨k, size⟩, s₁⟩
  · rw [hk] at h
    simp at h
  obtain ⟨n, hmv⟩ := kind_moved hl hfresh hne hk
  have hl₁ : s₁.limited = true := hmv.at_advance.limited.trans hl
  rw [hk] at h
  cases k with
  | byte =>
    dsimp only at h
    split_ifs at h
    · simp at h
    obtain ⟨-, rfl⟩ := Prod.mk.inj h
    exact ⟨n, hmv.of_at ⟨rfl, rfl, rfl, rfl⟩, rfl⟩
  | string =>
    dsimp only at h
    split_ifs at h
    · simp at h
    rcases hr : s₁.readUint size with ⟨_ | w, s₂⟩
    · rw [hr] at h
      split at h
      · simp at h
      · simp at h
      · rename_i heq
        simp at heq
    rw [hr] at h
    dsimp only at h
    split_ifs at h
    · simp at h
    obtain ⟨-, rfl⟩ := Prod.mk.inj h
    obtain ⟨hmv₂, hk₂⟩ := readUint_moved hl₁ hr
    exact ⟨_, hmv.trans hmv₂, hk₂⟩
  | list => simp at h

/-- A stream reading `buf` moves on by `n ≤ buf.length` bytes with `advance`. -/
theorem Reading.moved_advance {s : Stream} {buf : Bytes} (h : s.Reading buf) {n : Nat} (hn : n ≤ buf.length) :
    Moved s (s.advance n) n :=
  ⟨by rw [h.capEq]; exact hn, At.refl _⟩

/-- Leaving a list whose payload was read in full moves the enclosing list on
past the whole list. -/
theorem listEnd_moved {s s₁ s₃ : Stream} {ts cs : Nat} (hmv : Moved s s₁ ts) (hcap : ts + cs ≤ s.cap)
    (h : Moved { s₁ with stack := ⟨0, cs⟩ :: s₁.stack, kindAhead := none, size := 0 } s₃ cs) :
    ∃ s₄, s₃.listEnd = (.ok (), s₄) ∧ Moved s s₄ (ts + cs) ∧ s₄.kindAhead = none := by
  have hst : s₃.stack = ⟨0 + cs, cs⟩ :: s₁.stack := by
    rw [h.at_advance.stack]
    rfl
  have hcap₁ : cs ≤ s₁.cap := by
    rw [hmv.at_advance.cap, cap_advance]
    omega
  refine ⟨{ s₃ with stack := bump s₁.stack cs, kindAhead := none, size := 0 }, ?_, hmv.trans ⟨hcap₁, ?_⟩, rfl⟩
  · simp only [listEnd, hst, Nat.zero_add, ne_eq, not_true_eq_false, if_false]
    -- the enclosing list counts the payload as read
    cases s₁.stack <;> rfl
  · constructor
    · exact h.at_advance.limited
    · simp [h.at_advance.input, Stream.advance]
    · simp [h.at_advance.remaining, Stream.advance]
    · simp [Stream.advance]

end Stream

/-! ## Reading values back -/

/-- The header `readKind` finds at the start of an item's encoding: the
item's kind and content length, behind a tag of the rest of the encoding. -/
theorem readKind_encode (it : Item) (hfit : it.content.length < 256 ^ 8) (rest : Bytes) :
    ∃ ts, readKind (it.encode ++ rest) = .ok (it.kind, ts, it.content.length) ∧
      ((it.encode ++ rest).drop ts).take it.content.length = it.content ∧
      ts + it.content.length = it.encode.length := by
  obtain ⟨⟨k, ts, cs⟩, hk, he⟩ := Outcome.map_eq_ok.mp (split_encode it hfit rest)
  simp only [Prod.mk.injEq] at he
  obtain ⟨rfl, hc, hr⟩ := he
  have hb := readKind_bounds hk
  have hcs : cs = it.content.length := by
    rw [← hc]
    simp only [List.length_take, List.length_drop]
    omega
  subst hcs
  refine ⟨ts, hk, hc, ?_⟩
  have hlen := congrArg List.length hr
  simp only [List.length_drop, List.length_append] at hlen hb
  omega

/-! ## Typed values -/

/-- `v` is a value of the Go type `ty` as the decoders build it: an integer
below `2 ^ bits` for a `uint` of `bits` bits (a whole number of bytes), a byte
array of its declared length, and slices, arrays and structs of such values,
with as many elements as an array has and one per field of a struct. A
`[1]byte` is left out: its decoder reads the single byte with `Uint` and
ignores the error, which leaves the kind cache stale when the byte is zero. -/
inductive Typed : Ty → Val → Prop
  | uint {bits n : Nat} : bits % 8 = 0 → n < 2 ^ bits → Typed (.uint bits) (.uint n)
  | bool (b : Bool) : Typed .bool (.bool b)
  | string (s : Bytes) : Typed .string (.string s)
  | bigInt (n : Nat) : Typed .bigInt (.bigInt n)
  | bytes (b : Bytes) : Typed .bytes (.bytes b)
  | byteArray {n : Nat} {b : Bytes} : b.length = n → n ≠ 1 → Typed (.byteArray n) (.bytes b)
  | slice {t : Ty} {vs : List Val} : (∀ v ∈ vs, Typed t v) → Typed (.slice t) (.list vs)
  | array {t : Ty} {n : Nat} {vs : List Val} : vs.length = n → (∀ v ∈ vs, Typed t v) →
      Typed (.array t n) (.list vs)
  | struct {name : String} {fields : List (String × Ty)} {vs : List Val} :
      vs.length = fields.length → (∀ p ∈ fields.zip vs, Typed p.1.2 p.2) → Typed (.struct name fields) (.list vs)

mutual
/-- Fuel enough for the decoders to read a value: one for an integer or a
string; for a list, one for each element and for each level of the decoder
and its loop, on top of what the elements need. -/
def Val.fuel : Val → Nat
  | .list vs => Val.fuels vs + vs.length + 5
  | _ => 1

/-- The fuel of the elements, added up. -/
def Val.fuels : List Val → Nat
  | [] => 0
  | v :: vs => v.fuel + Val.fuels vs
end

/-- The decoder of `ty` reads `v` back from its encoding: on a stream at the
start of the encoding, followed by anything, with the kind cache re-armed and
at least `v.fuel` fuel, it returns `v`, moves on past the encoding and leaves
the kind cache re-armed. -/
def Decodes (ty : Ty) (v : Val) : Prop :=
  ∀ fuel, v.fuel ≤ fuel → ∀ (s : Stream) (rest : Bytes), v.toItem.Fits →
    s.Reading (v.toItem.encode ++ rest) → s.kindAhead = none →
    ∃ s', decodeValue fuel ty s = some (.ok v, s') ∧ s.Moved s' v.toItem.encode.length ∧ s'.kindAhead = none

namespace Stream

/-- A stream at the start of an encoding has something left to read. -/
theorem Reading.cap_ne_zero {s : Stream} {it : Item} {rest : Bytes} (h : s.Reading (it.encode ++ rest)) :
    s.cap ≠ 0 := by
  rw [h.capEq]
  simp [encode_ne_nil it]

/-- `Bytes` reads the content of a string's encoding. -/
theorem bytes_encode {c : Bytes} (hfit : c.length < 256 ^ 8) {s : Stream} {rest : Bytes}
    (h : s.Reading ((Item.str c).encode ++ rest)) (hfresh : s.kindAhead = none) :
    ∃ s', s.bytes = (.ok c, s') ∧ s.Moved s' (Item.str c).encode.length ∧ s'.kindAhead = none := by
  obtain ⟨ts, hk, hc, hlen⟩ := readKind_encode (.str c) hfit rest
  obtain ⟨s', hb, h', hk'⟩ := bytes_reading h hfresh hk (kind_str_ne_list c)
  rw [hc] at hb
  obtain ⟨n, hmv, -⟩ := bytes_moved h.limited hfresh h.cap_ne_zero hb
  have hn := hmv.eq_of_reading h h' (by simp; omega)
  subst hn
  exact ⟨s', hb, hlen ▸ hmv, hk'⟩

/-- `Uint` reads the integer of a string's encoding, when the string is a
canonical integer of at most `maxbits / 8` bytes. -/
theorem uint_encode {c : Bytes} (maxbits : Nat) (hfit : c.length < 256 ^ 8) (hsize : c.length ≤ maxbits / 8)
    (hzero : c.head? ≠ some 0) {s : Stream} {rest : Bytes} (h : s.Reading ((Item.str c).encode ++ rest))
    (hfresh : s.kindAhead = none) :
    ∃ s', s.uint maxbits = (.ok (BigEndian.ofBytes c), s') ∧ s.Moved s' (Item.str c).encode.length ∧
      s'.kindAhead = none := by
  obtain ⟨ts, hk, hc, hlen⟩ := readKind_encode (.str c) hfit rest
  obtain ⟨s', hu, h'⟩ := uint_reading h hfresh hk (kind_str_ne_list c) hsize (by rw [hc]; exact hzero)
  rw [hc] at hu
  obtain ⟨n, hmv, hk'⟩ := uint_moved h.limited hfresh h.cap_ne_zero hu
  have hn := hmv.eq_of_reading h h' (by simp; omega)
  subst hn
  exact ⟨s', hu, hlen ▸ hmv, hk'⟩

/-- `List` enters the list an encoding starts with: it returns the payload
size, and the stream inside the list reads the payload. -/
theorem list_encode {items : List Item} (hfit : (Item.encodeAll items).length < 256 ^ 8) {s : Stream}
    {rest : Bytes} (h : s.Reading ((Item.list items).encode ++ rest)) (hfresh : s.kindAhead = none) :
    ∃ ts s₁, s.list = (.ok (Item.encodeAll items).length,
        { s₁ with stack := ⟨0, (Item.encodeAll items).length⟩ :: s₁.stack, kindAhead := none, size := 0 }) ∧
      s.Moved s₁ ts ∧ ts + (Item.encodeAll items).length = (Item.list items).encode.length ∧
      Reading { s₁ with stack := ⟨0, (Item.encodeAll items).length⟩ :: s₁.stack, kindAhead := none, size := 0 }
        (Item.encodeAll items) := by
  obtain ⟨ts, hk, hc, hts⟩ := readKind_encode (.list items) hfit rest
  simp only [Item.content, Item.kind] at hk hc hts
  have hb := readKind_bounds hk
  obtain ⟨s₁, hkind, -, -, h₁, -⟩ := kind_reading h hfresh hk
  simp only [reduceCtorEq, if_false] at hkind h₁
  obtain ⟨m, hmv⟩ := kind_moved h.limited hfresh h.cap_ne_zero hkind
  have hm := hmv.eq_of_reading h h₁ (by omega)
  subst hm
  have hlist : s.list = (.ok (Item.encodeAll items).length,
      { s₁ with stack := ⟨0, (Item.encodeAll items).length⟩ :: s₁.stack, kindAhead := none, size := 0 }) := by
    simp only [Stream.list, hkind]
  obtain ⟨s', hl, h', -, -⟩ := list_reading h hfresh hk
  rw [hlist] at hl
  obtain ⟨-, rfl⟩ := Prod.mk.inj hl
  rw [hc] at h'
  exact ⟨m, s₁, hlist, hmv, hts, h'⟩

end Stream

/-- At the end of a list every decoder reports `EOL` and leaves the stream
where it is. -/
theorem decodeValue_eol (ty : Ty) {fuel : Nat} (hfuel : 2 ≤ fuel) {s : Stream} (h : s.Reading [])
    (hne : s.stack ≠ []) (hfresh : s.kindAhead = none) :
    decodeValue fuel ty s = some (.error .eol, { s with kinderr := none }) := by
  have heol := Stream.kind_eol h hne hfresh
  obtain ⟨F, rfl⟩ : ∃ F, fuel = F + 2 := ⟨fuel - 2, by omega⟩
  cases ty <;> simp [decodeValue, decodeUint, decodeBool, decodeString, decodeBigInt, decodeByteSlice,
    decodeByteArray, decodeListSlice, decodeListArray, decodeStruct, Stream.uint, Stream.bool, Stream.bytes,
    Stream.list, heol, wrapStreamError]

/-! ## The decoders of strings -/

theorem decodes_uint {bits n : Nat} (h8 : bits % 8 = 0) (hn : n < 2 ^ bits) :
    Decodes (.uint bits) (.uint n) := by
  intro fuel hfuel s rest hfit h hfresh
  obtain ⟨F, rfl⟩ : ∃ F, fuel = F + 1 := ⟨fuel - 1, by simp only [Val.fuel] at hfuel; omega⟩
  -- a `uint` of `bits` bits holds `bits / 8` bytes
  have hsize : (BigEndian.minimal n).length ≤ bits / 8 := by
    unfold BigEndian.minimal
    split_ifs with h0
    · simp
    · have hpow : 2 ^ bits = 256 ^ (bits / 8) := by
        rw [show (256 : Nat) = 2 ^ 8 by norm_num, ← Nat.pow_mul, Nat.mul_div_cancel' (Nat.dvd_of_mod_eq_zero h8)]
      rw [BigEndian.length_toFixed]
      exact BigEndian.width_le_of_lt (Nat.pos_of_ne_zero h0) (hpow ▸ hn)
  obtain ⟨s', hu, hmv, hk⟩ := Stream.uint_encode _ hfit hsize (head_minimal_ne_zero n) h hfresh
  refine ⟨s', ?_, hmv, hk⟩
  simp [decodeValue, decodeUint, hu]

theorem decodes_bool (b : Bool) : Decodes .bool (.bool b) := by
  intro fuel hfuel s rest hfit h hfresh
  obtain ⟨F, rfl⟩ : ∃ F, fuel = F + 1 := ⟨fuel - 1, by simp only [Val.fuel] at hfuel; omega⟩
  cases b with
  | false =>
    obtain ⟨s', hu, hmv, hk⟩ := Stream.uint_encode (c := []) 8 (by simp) (by simp) (by simp) h hfresh
    exact ⟨s', by simp [decodeValue, decodeBool, Stream.bool, hu, BigEndian.ofBytes], hmv, hk⟩
  | true =>
    obtain ⟨s', hu, hmv, hk⟩ := Stream.uint_encode (c := [1]) 8 (by simp) (by simp) (by simp) h hfresh
    exact ⟨s', by simp [decodeValue, decodeBool, Stream.bool, hu, BigEndian.ofBytes], hmv, hk⟩

theorem decodes_string (c : Bytes) : Decodes .string (.string c) := by
  intro fuel hfuel s rest hfit h hfresh
  obtain ⟨F, rfl⟩ : ∃ F, fuel = F + 1 := ⟨fuel - 1, by simp only [Val.fuel] at hfuel; omega⟩
  obtain ⟨s', hb, hmv, hk⟩ := Stream.bytes_encode hfit h hfresh
  exact ⟨s', by simp [decodeValue, decodeString, hb], hmv, hk⟩

theorem decodes_bytes (c : Bytes) : Decodes .bytes (.bytes c) := by
  intro fuel hfuel s rest hfit h hfresh
  obtain ⟨F, rfl⟩ : ∃ F, fuel = F + 1 := ⟨fuel - 1, by simp only [Val.fuel] at hfuel; omega⟩
  obtain ⟨s', hb, hmv, hk⟩ := Stream.bytes_encode hfit h hfresh
  exact ⟨s', by simp [decodeValue, decodeByteSlice, hb], hmv, hk⟩

theorem decodes_bigInt (n : Nat) : Decodes .bigInt (.bigInt n) := by
  intro fuel hfuel s rest hfit h hfresh
  obtain ⟨F, rfl⟩ : ∃ F, fuel = F + 1 := ⟨fuel - 1, by simp only [Val.fuel] at hfuel; omega⟩
  obtain ⟨s', hb, hmv, hk⟩ := Stream.bytes_encode hfit h hfresh
  -- the minimal bytes have no leading zero, which the decoder rejects
  have hz := head_minimal_ne_zero n
  exact ⟨s', by simp [decodeValue, decodeBigInt, hb, hz], hmv, hk⟩

/-- A string of any length but one is read as a string, behind a header. -/
theorem kind_str_of_length_ne_one {b : Bytes} (h1 : b.length ≠ 1) : (Item.str b).kind = .string := by
  match b, h1 with
  | [], _ => rfl
  | _ :: _ :: _, _ => rfl

theorem decodes_byteArray {n : Nat} {b : Bytes} (hlen : b.length = n) (h1 : n ≠ 1) :
    Decodes (.byteArray n) (.bytes b) := by
  subst hlen
  intro fuel hfuel s rest hfit h hfresh
  obtain ⟨F, rfl⟩ : ∃ F, fuel = F + 1 := ⟨fuel - 1, by simp only [Val.fuel] at hfuel; omega⟩
  simp only [Val.toItem] at hfit h ⊢
  obtain ⟨ts, hk, hc, hts⟩ := readKind_encode (.str b) hfit rest
  simp only [Item.content, kind_str_of_length_ne_one h1] at hk hc hts
  have hb := readKind_bounds hk
  obtain ⟨s₁, hkind, -, -, h₁, -⟩ := Stream.kind_reading h hfresh hk
  simp only [reduceCtorEq, if_false] at hkind h₁
  obtain ⟨m, hmv⟩ := Stream.kind_moved h.limited hfresh h.cap_ne_zero hkind
  have hm := hmv.eq_of_reading h h₁ (by omega)
  subst hm
  -- the kind's size is the array's length: the whole content is read at once
  have hn : b.length ≤ (((Item.str b).encode ++ rest).drop m).length := by simp; omega
  have hread := Stream.readFull_reading h₁ hn
  refine ⟨s₁.advance b.length, ?_, hts ▸ hmv.trans (h₁.moved_advance hn), rfl⟩
  simp only [decodeValue, decodeByteArray, hkind, lt_irrefl, if_false, hread, hc, h1, false_and]

/-! ## The decoders of lists -/

/-- The first element of a payload is read back, and the stream then reads
the rest of the payload. -/
theorem Decodes.head {ty : Ty} {v : Val} (hd : Decodes ty v) {fuel : Nat} (hfuel : v.fuel ≤ fuel)
    (hfit : v.toItem.Fits) {s : Stream} {rest : Bytes} (h : s.Reading (v.toItem.encode ++ rest))
    (hfresh : s.kindAhead = none) :
    ∃ s', decodeValue fuel ty s = some (.ok v, s') ∧ s.Moved s' v.toItem.encode.length ∧
      s'.kindAhead = none ∧ s'.Reading rest ∧ s'.stack.length = s.stack.length := by
  obtain ⟨s', hdec, hmv, hk⟩ := hd fuel hfuel s rest hfit h hfresh
  have h' := h.moved hmv (by simp)
  rw [List.drop_left] at h'
  refine ⟨s', hdec, hmv, hk, h', ?_⟩
  rw [hmv.at_advance.stack]
  exact Stream.bump_length _ _

/-- The element loop of a slice reads every element back, up to `EOL`. -/
theorem decodeSliceElems_encode {t : Ty} : ∀ {vs : List Val}, (∀ v ∈ vs, Decodes t v) →
    Item.FitsAll (Val.toItems vs) → ∀ {fuel : Nat}, Val.fuels vs + vs.length + 3 ≤ fuel →
    ∀ {s : Stream} (i : Nat) (acc : List Val), s.Reading (Item.encodeAll (Val.toItems vs)) → s.stack ≠ [] →
      s.kindAhead = none →
      ∃ s', decodeSliceElems fuel t s i acc = some (.ok (acc ++ vs), s') ∧
        s.Moved s' (Item.encodeAll (Val.toItems vs)).length ∧ s'.kindAhead = none
  | [], _, _, fuel, hfuel, s, i, acc, h, hne, hfresh => by
    obtain ⟨F, rfl⟩ : ∃ F, fuel = F + 1 + 2 := ⟨fuel - 3, by simp only [Val.fuels] at hfuel; omega⟩
    -- at the end of the payload the element decoder reports `EOL`
    have heol := decodeValue_eol t (show 2 ≤ F + 2 by omega) h hne hfresh
    refine ⟨{ s with kinderr := none }, ?_, Stream.moved_zero ⟨rfl, rfl, rfl, rfl⟩, hfresh⟩
    rw [decodeSliceElems, heol]
    simp
  | v :: vs, hd, hfit, fuel, hfuel, s, i, acc, h, hne, hfresh => by
    obtain ⟨F, rfl⟩ : ∃ F, fuel = F + 1 := ⟨fuel - 1, by simp only [Val.fuels] at hfuel; simp at hfuel; omega⟩
    simp only [Val.toItems, encodeAll_cons, Item.FitsAll] at h hfit ⊢
    simp only [Val.fuels, List.length_cons] at hfuel
    have hv : v.fuel ≤ F := by omega
    have hvs : Val.fuels vs + vs.length + 3 ≤ F := by omega
    obtain ⟨s₁, hdec, hmv, hk, h₁, hst⟩ := (hd v List.mem_cons_self).head hv hfit.1 h hfresh
    have hne₁ : s₁.stack ≠ [] := by
      intro hnil
      rw [hnil] at hst
      exact hne (List.eq_nil_of_length_eq_zero hst.symm)
    obtain ⟨s', hrun, hmv', hk'⟩ := decodeSliceElems_encode (fun w hw => hd w (List.mem_cons_of_mem v hw))
      hfit.2 hvs (i + 1) (acc ++ [v]) h₁ hne₁ hk
    refine ⟨s', ?_, by simpa using hmv.trans hmv', hk'⟩
    rw [decodeSliceElems, hdec]
    simpa using hrun

/-- The element loop of an array reads its `vlen` elements back. -/
theorem decodeArrayElems_encode {t : Ty} {vlen : Nat} : ∀ {vs : List Val}, (∀ v ∈ vs, Decodes t v) →
    Item.FitsAll (Val.toItems vs) → ∀ {fuel : Nat}, Val.fuels vs + vs.length + 1 ≤ fuel →
    ∀ {s : Stream} (i : Nat) (acc : List Val), i + vs.length = vlen →
      s.Reading (Item.encodeAll (Val.toItems vs)) → s.kindAhead = none →
      ∃ s', decodeArrayElems fuel t vlen s i acc = some (.ok (acc ++ vs), s') ∧
        s.Moved s' (Item.encodeAll (Val.toItems vs)).length ∧ s'.kindAhead = none
  | [], _, _, fuel, hfuel, s, i, acc, hi, _, hfresh => by
    obtain ⟨F, rfl⟩ : ∃ F, fuel = F + 1 := ⟨fuel - 1, by simp only [Val.fuels] at hfuel; omega⟩
    refine ⟨s, ?_, Stream.moved_zero (Stream.At.refl s), hfresh⟩
    -- all `vlen` elements are read: the loop stops without reading more
    rw [decodeArrayElems, if_neg (by simp at hi; omega)]
    simp
  | v :: vs, hd, hfit, fuel, hfuel, s, i, acc, hi, h, hfresh => by
    obtain ⟨F, rfl⟩ : ∃ F, fuel = F + 1 := ⟨fuel - 1, by simp only [Val.fuels] at hfuel; simp at hfuel; omega⟩
    simp only [Val.toItems, encodeAll_cons, Item.FitsAll] at h hfit ⊢
    simp only [Val.fuels, List.length_cons] at hfuel hi
    have hv : v.fuel ≤ F := by omega
    have hvs : Val.fuels vs + vs.length + 1 ≤ F := by omega
    have hi₁ : i + 1 + vs.length = vlen := by omega
    obtain ⟨s₁, hdec, hmv, hk, h₁, -⟩ := (hd v List.mem_cons_self).head hv hfit.1 h hfresh
    obtain ⟨s', hrun, hmv', hk'⟩ := decodeArrayElems_encode (fun w hw => hd w (List.mem_cons_of_mem v hw))
      hfit.2 hvs (i + 1) (acc ++ [v]) hi₁ h₁ hk
    refine ⟨s', ?_, by simpa using hmv.trans hmv', hk'⟩
    rw [decodeArrayElems, if_pos (show i < vlen by omega), hdec]
    simpa using hrun

/-- The field loop of a struct reads one value back for each field. -/
theorem decodeFields_encode (name : String) (all : List (String × Ty)) :
    ∀ {fields : List (String × Ty)} {vs : List Val}, vs.length = fields.length →
      (∀ p ∈ fields.zip vs, Decodes p.1.2 p.2) → Item.FitsAll (Val.toItems vs) →
      ∀ {fuel : Nat}, Val.fuels vs + vs.length + 1 ≤ fuel →
      ∀ {s : Stream} (acc : List Val), s.Reading (Item.encodeAll (Val.toItems vs)) → s.kindAhead = none →
        ∃ s', decodeFields fuel name all fields s acc = some (.ok (acc ++ vs), s') ∧
          s.Moved s' (Item.encodeAll (Val.toItems vs)).length ∧ s'.kindAhead = none
  | [], [], _, _, _, fuel, hfuel, s, acc, _, hfresh => by
    obtain ⟨F, rfl⟩ : ∃ F, fuel = F + 1 := ⟨fuel - 1, by simp only [Val.fuels] at hfuel; omega⟩
    exact ⟨s, by simp [decodeFields], Stream.moved_zero (Stream.At.refl s), hfresh⟩
  | (fname, fty) :: fields, v :: vs, hlen, hd, hfit, fuel, hfuel, s, acc, h, hfresh => by
    obtain ⟨F, rfl⟩ : ∃ F, fuel = F + 1 := ⟨fuel - 1, by simp only [Val.fuels] at hfuel; simp at hfuel; omega⟩
    simp only [Val.toItems, encodeAll_cons, Item.FitsAll] at h hfit ⊢
    simp only [Val.fuels, List.length_cons] at hfuel hlen
    have hv : v.fuel ≤ F := by omega
    have hvs : Val.fuels vs + vs.length + 1 ≤ F := by omega
    obtain ⟨s₁, hdec, hmv, hk, h₁, -⟩ := (hd ((fname, fty), v) List.mem_cons_self).head hv hfit.1 h hfresh
    obtain ⟨s', hrun, hmv', hk'⟩ := decodeFields_encode name all (by omega)
      (fun p hp => hd p (List.mem_cons_of_mem _ hp)) hfit.2 hvs (acc ++ [v]) h₁ hk
    refine ⟨s', ?_, by simpa using hmv.trans hmv', hk'⟩
    rw [decodeFields, hdec]
    simpa using hrun
  | [], _ :: _, hlen, _, _, _, _, _, _, _, _ => by simp at hlen
  | _ :: _, [], hlen, _, _, _, _, _, _, _, _ => by simp at hlen

theorem decodes_slice {t : Ty} {vs : List Val} (hd : ∀ v ∈ vs, Decodes t v) :
    Decodes (.slice t) (.list vs) := by
  intro fuel hfuel s rest hfit h hfresh
  simp only [Val.toItem] at hfit h ⊢
  obtain ⟨F, rfl⟩ : ∃ F, fuel = F + 1 + 1 := ⟨fuel - 2, by simp only [Val.fuel] at hfuel; omega⟩
  simp only [Val.fuel] at hfuel
  obtain ⟨ts, s₁, hlist, hmv, hts, h₂⟩ := Stream.list_encode hfit.1 h hfresh
  have hcap : ts + (Item.encodeAll (Val.toItems vs)).length ≤ s.cap := by rw [h.capEq, hts]; simp
  rcases vs with _ | ⟨v, vs⟩
  · -- an empty payload: `ListEnd` right away
    obtain ⟨s₄, hend, hmv₄, hk₄⟩ := Stream.listEnd_moved hmv hcap (Stream.moved_zero (Stream.At.refl _))
    refine ⟨s₄, ?_, hts ▸ hmv₄, hk₄⟩
    simp only [Val.toItems, encodeAll_nil, List.length_nil] at hlist hend
    simp [decodeValue, decodeListSlice, hlist, hend, Except.map]
  · -- the elements, then `ListEnd`
    obtain ⟨k, hk⟩ : ∃ k, (Item.encodeAll (Val.toItems (v :: vs))).length = k + 1 :=
      ⟨_, (Nat.succ_pred_eq_of_pos (List.length_pos_of_ne_nil (by simp [Val.toItems, encode_ne_nil]))).symm⟩
    have hF : Val.fuels (v :: vs) + (v :: vs).length + 3 ≤ F := by omega
    obtain ⟨s₃, hrun, hmv₃, -⟩ := decodeSliceElems_encode hd hfit.2 hF 0 [] h₂ (by simp) rfl
    obtain ⟨s₄, hend, hmv₄, hk₄⟩ := Stream.listEnd_moved hmv hcap hmv₃
    refine ⟨s₄, ?_, hts ▸ hmv₄, hk₄⟩
    rw [hk] at hlist hrun
    simp [decodeValue, decodeListSlice, hlist, hrun, hend, Except.map]

theorem decodes_array {t : Ty} {n : Nat} {vs : List Val} (hlen : vs.length = n) (hd : ∀ v ∈ vs, Decodes t v) :
    Decodes (.array t n) (.list vs) := by
  intro fuel hfuel s rest hfit h hfresh
  simp only [Val.toItem] at hfit h ⊢
  obtain ⟨F, rfl⟩ : ∃ F, fuel = F + 1 + 1 := ⟨fuel - 2, by simp only [Val.fuel] at hfuel; omega⟩
  simp only [Val.fuel] at hfuel
  obtain ⟨ts, s₁, hlist, hmv, hts, h₂⟩ := Stream.list_encode hfit.1 h hfresh
  have hcap : ts + (Item.encodeAll (Val.toItems vs)).length ≤ s.cap := by rw [h.capEq, hts]; simp
  have hF : Val.fuels vs + vs.length + 1 ≤ F := by omega
  have hi : 0 + vs.length = n := by omega
  obtain ⟨s₃, hrun, hmv₃, -⟩ := decodeArrayElems_encode hd hfit.2 hF 0 [] hi h₂ rfl
  obtain ⟨s₄, hend, hmv₄, hk₄⟩ := Stream.listEnd_moved hmv hcap hmv₃
  refine ⟨s₄, ?_, hts ▸ hmv₄, hk₄⟩
  -- the loop read all `n` elements, so the length check passes
  simp [decodeValue, decodeListArray, hlist, hrun, hend, hlen]

theorem decodes_struct {name : String} {fields : List (String × Ty)} {vs : List Val}
    (hlen : vs.length = fields.length) (hd : ∀ p ∈ fields.zip vs, Decodes p.1.2 p.2) :
    Decodes (.struct name fields) (.list vs) := by
  intro fuel hfuel s rest hfit h hfresh
  simp only [Val.toItem] at hfit h ⊢
  obtain ⟨F, rfl⟩ : ∃ F, fuel = F + 1 + 1 := ⟨fuel - 2, by simp only [Val.fuel] at hfuel; omega⟩
  simp only [Val.fuel] at hfuel
  obtain ⟨ts, s₁, hlist, hmv, hts, h₂⟩ := Stream.list_encode hfit.1 h hfresh
  have hcap : ts + (Item.encodeAll (Val.toItems vs)).length ≤ s.cap := by rw [h.capEq, hts]; simp
  have hF : Val.fuels vs + vs.length + 1 ≤ F := by omega
  obtain ⟨s₃, hrun, hmv₃, -⟩ := decodeFields_encode name fields hlen hd hfit.2 hF [] h₂ rfl
  obtain ⟨s₄, hend, hmv₄, hk₄⟩ := Stream.listEnd_moved hmv hcap hmv₃
  refine ⟨s₄, ?_, hts ▸ hmv₄, hk₄⟩
  simp [decodeValue, decodeStruct, hlist, hrun, hend]

/-- Every value of its type is read back by the decoder: the induction follows
`Typed`, and its list cases are the three loops above. -/
theorem Typed.decodes {ty : Ty} {v : Val} (h : Typed ty v) : Decodes ty v := by
  induction h with
  | uint h8 hn => exact decodes_uint h8 hn
  | bool b => exact decodes_bool b
  | string c => exact decodes_string c
  | bigInt n => exact decodes_bigInt n
  | bytes c => exact decodes_bytes c
  | byteArray hlen h1 => exact decodes_byteArray hlen h1
  | slice _ ih => exact decodes_slice ih
  | array hlen _ ih => exact decodes_array hlen ih
  | struct hlen _ ih => exact decodes_struct hlen ih

/-- `DecodeBytes` reads back the canonical encoding of every value of its type,
and finds nothing after it. -/
theorem decodeBytes_canonical {ty : Ty} {v : Val} (hty : Typed ty v) (hfit : v.toItem.Fits) {fuel : Nat}
    (hfuel : v.fuel ≤ fuel) : decodeBytes fuel v.toItem.encode ty = some (.ok v) := by
  have h : (Stream.new v.toItem.encode v.toItem.encode.length).Reading (v.toItem.encode ++ []) := by
    simpa using Stream.reading_new v.toItem.encode
  obtain ⟨s', hdec, hmv, -⟩ := hty.decodes fuel hfuel _ [] hfit h rfl
  -- the stream has moved over the whole encoding, and the input held nothing else
  have hinput : s'.input = [] := by
    rw [hmv.at_advance.input]
    simp [Stream.advance, Stream.new]
  simp [decodeBytes, decode, hdec, hinput]

/-- A struct of a `uint64` and a slice of strings decodes from its encoding. -/
theorem decodeBytes_canonical_struct :
    decodeBytes 20 (Val.list [.uint 1024, .list [.string [0x61], .string []]]).toItem.encode
      (.struct "T" [("A", .uint 64), ("B", .slice .string)]) =
      some (.ok (.list [.uint 1024, .list [.string [0x61], .string []]])) :=
  decodeBytes_canonical
    (Typed.struct rfl (by
      intro p hp
      simp only [List.zip_cons_cons, List.zip_nil_right, List.mem_cons, List.not_mem_nil, or_false] at hp
      rcases hp with rfl | rfl
      · exact Typed.uint (by decide) (by decide)
      · exact Typed.slice (by
          intro v hv
          simp only [List.mem_cons, List.not_mem_nil, or_false] at hv
          rcases hv with rfl | rfl <;> exact Typed.string _)))
    (by simp [Val.toItem, Val.toItems, Item.Fits, Item.FitsAll, BigEndian.minimal, BigEndian.width, Item.encodeAll,
      Item.encode, encodeString, encodeLength, BigEndian.toFixed])
    (by simp [Val.fuel, Val.fuels])

end Rlp
end Bazacoin
