import Bazacoin.Rlp.Encode

/-!
# The three outputs of the encode buffer (`rlp/encode.go`)

An `encbuf` is read out in three ways: `toBytes` copies it into one slice
(`EncodeToBytes`), `toWriter` writes it to an `io.Writer` (`Encode`), and an
`encReader` hands it out through `Read` calls of whatever sizes the caller
asks (`EncodeToReader`). All three walk one sequence of pieces: the string
data up to a header's offset, the header, and after the last header the rest
of the string data. `toWriter` writes exactly these pieces, and the model
takes its writes as the sequence.

- `Appends`: what a writer does to the buffer. Every `writeVal` appends string
  data and closed headers that lie in it, in order (`appends_writeVal`).
- `toBytes_eq_flatten` and `length_toBytes`: for such a buffer `toBytes` is
  the pieces joined, and `size` is its length.
- `EncReader`: `next` hands out the pieces one by one (`remaining_next_some`),
  so every `Read` returns what is left less what it copied (`readLoop_spec`),
  and reading to EOF returns the pieces joined (`readUntilEOF_eq`), whatever
  the sizes of the caller's buffers.
-/

namespace Bazacoin

namespace Rlp

theorem ListHead.length_encode (head : ListHead) : head.encode.length = headsize head.size := by
  unfold ListHead.encode puthead headsize putint
  split <;> simp [Nat.add_comm]

namespace Encbuf

/-! ## What the writers do to the buffer -/

/-- The encoded size of closed list headers. -/
def headBytes (heads : List ListHead) : Nat := (heads.map fun head => head.encode.length).sum

@[simp] theorem headBytes_nil : headBytes [] = 0 := rfl

@[simp] theorem headBytes_cons (head : ListHead) (heads : List ListHead) :
    headBytes (head :: heads) = head.encode.length + headBytes heads := by
  simp [headBytes]

@[simp] theorem headBytes_append (heads heads' : List ListHead) :
    headBytes (heads ++ heads') = headBytes heads + headBytes heads' := by
  simp [headBytes]

/-- `w'` is `w` with string data and the closed headers `hs` appended: every
new header lies in the new data, in order, and `lhsize` counts their sizes. -/
structure Appends (w : Encbuf) (hs : List ListHead) (w' : Encbuf) : Prop where
  str_prefix : w.str <+: w'.str
  lheads_eq : w'.lheads = w.lheads ++ hs
  lhsize_eq : w'.lhsize = w.lhsize + headBytes hs
  sorted : (hs.map ListHead.offset).Pairwise (· ≤ ·)
  offset_mem : ∀ head ∈ hs, w.str.length ≤ head.offset ∧ head.offset ≤ w'.str.length

theorem Appends.refl (w : Encbuf) : Appends w [] w :=
  ⟨List.prefix_refl _, by simp, by simp, List.Pairwise.nil, by simp⟩

/-- A writer that only appends string data. -/
theorem appends_of_str {w w' : Encbuf} (hstr : w.str <+: w'.str) (hheads : w'.lheads = w.lheads)
    (hsize : w'.lhsize = w.lhsize) : Appends w [] w' :=
  ⟨hstr, by simp [hheads], by simp [hsize], List.Pairwise.nil, by simp⟩

theorem Appends.trans {w w₁ w₂ : Encbuf} {hs hs' : List ListHead} (h₁ : Appends w hs w₁)
    (h₂ : Appends w₁ hs' w₂) : Appends w (hs ++ hs') w₂ where
  str_prefix := h₁.str_prefix.trans h₂.str_prefix
  lheads_eq := by rw [h₂.lheads_eq, h₁.lheads_eq, List.append_assoc]
  lhsize_eq := by rw [h₂.lhsize_eq, h₁.lhsize_eq, headBytes_append, Nat.add_assoc]
  sorted := by
    rw [List.map_append, List.pairwise_append]
    refine ⟨h₁.sorted, h₂.sorted, ?_⟩
    -- the later headers lie after all of the earlier data
    intro a ha b hb
    obtain ⟨head, hhead, rfl⟩ := List.mem_map.mp ha
    obtain ⟨head', hhead', rfl⟩ := List.mem_map.mp hb
    exact (h₁.offset_mem head hhead).2.trans (h₂.offset_mem head' hhead').1
  offset_mem := by
    have hlen₁ := h₁.str_prefix.length_le
    have hlen₂ := h₂.str_prefix.length_le
    intro head hmem
    rcases List.mem_append.mp hmem with hmem | hmem
    · have := h₁.offset_mem head hmem
      omega
    · have := h₂.offset_mem head hmem
      omega

@[simp] theorem lheads_encodeStringHeader (w : Encbuf) (size : Nat) :
    (w.encodeStringHeader size).lheads = w.lheads := by
  unfold encodeStringHeader
  split <;> rfl

@[simp] theorem lhsize_encodeStringHeader (w : Encbuf) (size : Nat) :
    (w.encodeStringHeader size).lhsize = w.lhsize := by
  unfold encodeStringHeader
  split <;> rfl

theorem prefix_encodeStringHeader (w : Encbuf) (size : Nat) :
    w.str <+: (w.encodeStringHeader size).str := by
  unfold encodeStringHeader
  split <;> exact List.prefix_append _ _

/-- A string header followed by its data. -/
theorem appends_stringHeader_data (w : Encbuf) (size : Nat) (b : Bytes) :
    Appends w [] { w.encodeStringHeader size with str := (w.encodeStringHeader size).str ++ b } :=
  appends_of_str ((prefix_encodeStringHeader w size).trans (List.prefix_append _ _))
    (lheads_encodeStringHeader w size) (lhsize_encodeStringHeader w size)

theorem appends_encodeString (w : Encbuf) (b : Bytes) : Appends w [] (w.encodeString b) := by
  unfold encodeString
  split
  · split
    · exact appends_of_str (List.prefix_append _ _) rfl rfl
    · exact appends_stringHeader_data w 1 _
  · exact appends_stringHeader_data w _ _

/-- `listEnd` closes the header at `idx` with the bytes written after its
offset, less the running header size the entry kept, and counts the header. -/
theorem listEnd_eq (w : Encbuf) (idx : Nat) :
    w.listEnd idx =
      let lh := w.lheads.getD idx ⟨0, 0⟩
      let size := w.size - lh.offset - lh.size
      ⟨w.str, w.lheads.set idx ⟨lh.offset, size⟩, w.lhsize + headsize size⟩ := by
  unfold listEnd headsize
  dsimp only
  split
  case isTrue => rfl
  case isFalse => rw [Nat.add_assoc]

/-- Closing a list whose elements appended `hs` after its opening appends its
header, placed before them. -/
theorem appends_listEnd {w w' : Encbuf} {hs : List ListHead} (h : Appends (w.list).2 hs w') :
    Appends w (⟨w.str.length, w'.str.length - w.str.length + headBytes hs⟩ :: hs)
      (w'.listEnd (w.list).1) := by
  obtain ⟨hpre, hheads, hsize, hsorted, hmem⟩ := h
  simp only [list] at hpre hheads hsize hmem
  have hlen : w.str.length ≤ w'.str.length := hpre.length_le
  -- the entry `list` made is still open, at index `w.lheads.length`
  have hopen : w'.lheads.getD w.lheads.length ⟨0, 0⟩ = ⟨w.str.length, w.lhsize⟩ := by
    simp [hheads]
  have hbody : w'.size - w.str.length - w.lhsize = w'.str.length - w.str.length + headBytes hs := by
    simp only [size, hsize]
    omega
  rw [listEnd_eq]
  simp only [list, hopen, hbody]
  refine ⟨hpre, ?_, ?_, ?_, ?_⟩
  · simp [hheads]
  · simp [hsize, ListHead.length_encode]
    omega
  · simp only [List.map_cons, List.pairwise_cons, List.mem_map]
    refine ⟨?_, hsorted⟩
    rintro _ ⟨head, hhead, rfl⟩
    exact (hmem head hhead).1
  · intro head hhead
    rcases List.mem_cons.mp hhead with rfl | hhead
    · exact ⟨le_rfl, hlen⟩
    · exact hmem head hhead

theorem appends_writeUint (i : Nat) (w : Encbuf) : Appends w [] (writeUint i w) := by
  unfold writeUint
  split_ifs <;> exact appends_of_str (List.prefix_append _ _) rfl rfl

theorem appends_writeBool (b : Bool) (w : Encbuf) : Appends w [] (writeBool b w) := by
  unfold writeBool
  split_ifs <;> exact appends_of_str (List.prefix_append _ _) rfl rfl

theorem appends_writeBigInt (i : Nat) (w : Encbuf) : Appends w [] (writeBigInt i w) := by
  unfold writeBigInt
  split_ifs
  · exact appends_of_str (List.prefix_append _ _) rfl rfl
  · exact appends_encodeString w _

theorem appends_writeString (s : Bytes) (w : Encbuf) : Appends w [] (writeString s w) := by
  unfold writeString
  split
  · split
    · exact appends_of_str (List.prefix_append _ _) rfl rfl
    · exact appends_stringHeader_data w 1 _
  · exact appends_stringHeader_data w _ _

mutual
/-- Every writer appends string data and the closed headers of the lists it
wrote. -/
theorem appends_writeVal : (v : Val) → (w : Encbuf) → ∃ hs, Appends w hs (writeVal v w)
  | .uint n, w => ⟨[], appends_writeUint n w⟩
  | .bool b, w => ⟨[], appends_writeBool b w⟩
  | .string s, w => ⟨[], appends_writeString s w⟩
  | .bigInt n, w => ⟨[], appends_writeBigInt n w⟩
  | .bytes b, w => ⟨[], appends_encodeString w b⟩
  | .list vs, w => by
    obtain ⟨hs, h⟩ := appends_writeVals vs (w.list).2
    exact ⟨_, appends_listEnd h⟩

theorem appends_writeVals : (vs : List Val) → (w : Encbuf) → ∃ hs, Appends w hs (writeVals vs w)
  | [], w => ⟨[], Appends.refl w⟩
  | v :: vs, w => by
    obtain ⟨hs, h⟩ := appends_writeVal v w
    obtain ⟨hs', h'⟩ := appends_writeVals vs (writeVal v w)
    exact ⟨hs ++ hs', h.trans h'⟩
end

/-! ## The pieces -/

/-- `toWriter` into a writer that takes every write whole: the writes, in
order, from string position `strpos` on with the headers `heads` still to
place. String data before a header is written only when there is some. -/
def toWriterFrom (w : Encbuf) : List ListHead → Nat → List Bytes
  | [], strpos =>
    -- write string data after the last list header
    if strpos < w.str.length then [w.str.drop strpos] else []
  | head :: heads, strpos =>
    if head.offset - strpos > 0 then
      -- write string data before header, then the header
      (w.str.drop strpos).take (head.offset - strpos) ::
        head.encode :: toWriterFrom w heads (strpos + (head.offset - strpos))
    else head.encode :: toWriterFrom w heads strpos

/-- `toWriter`: the writes. -/
def toWriter (w : Encbuf) : List Bytes := w.toWriterFrom w.lheads 0

/-- With the headers in order and none before `strpos`, `toBytes` copies
exactly what `toWriter` writes. -/
theorem toBytesFrom_eq_flatten (w : Encbuf) {heads : List ListHead} {strpos : Nat}
    (hsorted : (heads.map ListHead.offset).Pairwise (· ≤ ·))
    (hpos : ∀ head ∈ heads, strpos ≤ head.offset) :
    w.toBytesFrom heads strpos = (w.toWriterFrom heads strpos).flatten := by
  induction heads generalizing strpos with
  | nil =>
    unfold toBytesFrom toWriterFrom
    split
    case isTrue => simp
    case isFalse h => simp [List.drop_eq_nil_of_le (Nat.le_of_not_lt h)]
  | cons head heads ih =>
    rw [List.map_cons, List.pairwise_cons] at hsorted
    have hrest : ∀ head' ∈ heads, head.offset ≤ head'.offset :=
      fun head' h => hsorted.1 _ (List.mem_map_of_mem h)
    have hle : strpos ≤ head.offset := hpos head (List.mem_cons_self ..)
    unfold toBytesFrom toWriterFrom
    split
    case isTrue =>
      rw [show strpos + (head.offset - strpos) = head.offset by omega, ih hsorted.2 hrest]
      simp
    case isFalse h =>
      -- no data before this header: it sits at `strpos`
      have hat : head.offset = strpos := by omega
      rw [hat, Nat.sub_self, List.take_zero, ih hsorted.2 (hat ▸ hrest)]
      simp

/-- `toBytes` fills exactly the `size` of a buffer whose headers lie in its
data, in order: the string data and every header once. -/
theorem length_toBytesFrom (w : Encbuf) {heads : List ListHead} {strpos : Nat}
    (hsorted : (heads.map ListHead.offset).Pairwise (· ≤ ·))
    (hpos : ∀ head ∈ heads, strpos ≤ head.offset ∧ head.offset ≤ w.str.length)
    (hstr : strpos ≤ w.str.length) :
    (w.toBytesFrom heads strpos).length = w.str.length - strpos + headBytes heads := by
  induction heads generalizing strpos with
  | nil => simp [toBytesFrom]
  | cons head heads ih =>
    rw [List.map_cons, List.pairwise_cons] at hsorted
    have hhead := hpos head (List.mem_cons_self ..)
    have hrest : ∀ head' ∈ heads, head.offset ≤ head'.offset ∧ head'.offset ≤ w.str.length :=
      fun head' h => ⟨hsorted.1 _ (List.mem_map_of_mem h), (hpos head' (List.mem_cons_of_mem _ h)).2⟩
    have htail := ih hsorted.2 hrest hhead.2
    simp only [toBytesFrom, List.length_append, List.length_take, List.length_drop, htail,
      headBytes_cons]
    omega

/-- The buffer a writer leaves, from a reset one: its headers lie in its
data, in order, and `lhsize` counts them. -/
theorem toBytes_eq_flatten {w : Encbuf} {hs : List ListHead} (h : Appends empty hs w) :
    w.toBytes = w.toWriter.flatten := by
  have hheads : w.lheads = hs := by simpa [empty] using h.lheads_eq
  unfold toBytes toWriter
  rw [hheads]
  exact toBytesFrom_eq_flatten w h.sorted fun head hhead => Nat.zero_le _

theorem length_toBytes {w : Encbuf} {hs : List ListHead} (h : Appends empty hs w) :
    w.toBytes.length = w.size := by
  have hheads : w.lheads = hs := by simpa [empty] using h.lheads_eq
  have hsize : w.lhsize = headBytes hs := by simpa [empty] using h.lhsize_eq
  have hpos : ∀ head ∈ hs, 0 ≤ head.offset ∧ head.offset ≤ w.str.length :=
    fun head hhead => ⟨Nat.zero_le _, (h.offset_mem head hhead).2⟩
  unfold toBytes size
  rw [hheads, length_toBytesFrom w h.sorted hpos (Nat.zero_le _), hsize, Nat.sub_zero]

end Encbuf

/-! ## The reader -/

/-- `encReader`. -/
structure EncReader where
  /-- The buffer read from, `none` at EOF. -/
  buf : Option Encbuf
  /-- Index of the list header being read. -/
  lhpos : Nat
  /-- Current position in the string data. -/
  strpos : Nat
  /-- The next piece to be read, `none` for nil. -/
  piece : Option Bytes

namespace EncReader

/-- `next`: the next piece of data to be read, `none` at EOF. Go's
`sizebefore` is a signed difference tested for `> 0`, which the truncated
difference decides the same. -/
def next (r : EncReader) : Option Bytes × EncReader :=
  match r.buf, r.piece with
  | none, _ => (none, r)
  -- there is still data available for reading
  | some _, some piece => (some piece, r)
  | some buf, none =>
    if h : r.lhpos < buf.lheads.length then
      -- we're before the last list header
      let head := buf.lheads[r.lhpos]
      let sizebefore := head.offset - r.strpos
      if sizebefore > 0 then
        -- string data before header
        (some ((buf.str.drop r.strpos).take sizebefore), { r with strpos := r.strpos + sizebefore })
      else (some head.encode, { r with lhpos := r.lhpos + 1 })
    else if r.strpos < buf.str.length then
      -- string data at the end, after all list headers
      (some (buf.str.drop r.strpos), { r with strpos := buf.str.length })
    else (none, r)

/-- The pieces still to be read: the current piece, then what `toWriter`
writes from the reader's position on. -/
def remaining (r : EncReader) : List Bytes :=
  match r.buf with
  | none => []
  | some buf => r.piece.toList ++ buf.toWriterFrom (buf.lheads.drop r.lhpos) r.strpos

@[simp] theorem remaining_piece_some {r : EncReader} {buf : Encbuf} (hbuf : r.buf = some buf)
    (piece : Bytes) : { r with piece := some piece }.remaining =
      piece :: { r with piece := none }.remaining := by
  simp [remaining, hbuf]

/-- A piece comes from a buffer, which `next` keeps. -/
theorem buf_next_some {r r' : EncReader} {piece : Bytes} (h : r.next = (some piece, r')) :
    ∃ buf, r'.buf = some buf := by
  unfold next at h
  split at h
  case h_1 => cases h
  case h_2 buf _ hbuf _ =>
    simp only [Prod.mk.injEq] at h
    exact ⟨buf, h.2 ▸ hbuf⟩
  case h_3 buf hbuf _ =>
    dsimp only at h
    split at h
    · split at h <;> (simp only [Prod.mk.injEq] at h; exact ⟨buf, h.2 ▸ hbuf⟩)
    · split at h
      · simp only [Prod.mk.injEq] at h
        exact ⟨buf, h.2 ▸ hbuf⟩
      · cases h

/-- `next` hands out the first remaining piece. -/
theorem remaining_next_some {r r' : EncReader} {piece : Bytes} (h : r.next = (some piece, r')) :
    r.remaining = piece :: { r' with piece := none }.remaining := by
  unfold next at h
  split at h
  case h_1 => cases h
  case h_2 buf _ hbuf hpiece =>
    simp only [Prod.mk.injEq, Option.some.injEq] at h
    obtain ⟨rfl, rfl⟩ := h
    simp [remaining, hbuf, hpiece]
  case h_3 buf hbuf hpiece =>
    dsimp only at h
    split at h
    case isTrue hlt =>
      -- the header at `lhpos` is the next one `toWriter` places
      have hdrop : buf.lheads.drop r.lhpos = buf.lheads[r.lhpos] :: buf.lheads.drop (r.lhpos + 1) :=
        List.drop_eq_getElem_cons hlt
      split at h
      case isTrue hbefore =>
        simp only [Prod.mk.injEq, Option.some.injEq] at h
        obtain ⟨rfl, rfl⟩ := h
        simp only [remaining, hbuf, hpiece, Option.toList_none, List.nil_append, hdrop]
        rw [Encbuf.toWriterFrom, if_pos hbefore, Encbuf.toWriterFrom, if_neg (by omega)]
      case isFalse hbefore =>
        simp only [Prod.mk.injEq, Option.some.injEq] at h
        obtain ⟨rfl, rfl⟩ := h
        simp only [remaining, hbuf, hpiece, Option.toList_none, List.nil_append, hdrop]
        rw [Encbuf.toWriterFrom, if_neg hbefore]
    case isFalse hlt =>
      have hdrop : buf.lheads.drop r.lhpos = [] := List.drop_eq_nil_of_le (Nat.le_of_not_lt hlt)
      split at h
      case isTrue hstr =>
        simp only [Prod.mk.injEq, Option.some.injEq] at h
        obtain ⟨rfl, rfl⟩ := h
        simp [remaining, hbuf, hpiece, hdrop, Encbuf.toWriterFrom, hstr]
      case isFalse => cases h

/-- At EOF nothing remains. -/
theorem remaining_next_none {r r' : EncReader} (h : r.next = (none, r')) : r.remaining = [] := by
  unfold next at h
  split at h
  case h_1 _ hbuf => simp [remaining, hbuf]
  case h_2 => cases h
  case h_3 buf hbuf hpiece =>
    dsimp only at h
    split at h
    case isTrue => split at h <;> cases h
    case isFalse hlt =>
      have hdrop : buf.lheads.drop r.lhpos = [] := List.drop_eq_nil_of_le (Nat.le_of_not_lt hlt)
      split at h
      case isTrue => cases h
      case isFalse hstr => simp [remaining, hbuf, hpiece, hdrop, Encbuf.toWriterFrom, hstr]

set_option linter.unusedVariables false in
/-- The loop of `Read` into a buffer of `k` bytes of which `n` are filled:
the bytes read and whether the reader hit EOF. -/
def readLoop (k : Nat) (n : Bytes) (r : EncReader) : (Bytes × Bool) × EncReader :=
  match hnext : r.next with
  | (none, r') =>
    -- put the buffer back at EOF
    ((n, true), { r' with piece := none, buf := none })
  | (some piece, r') =>
    let nn := min (k - n.length) piece.length
    let n := n ++ piece.take nn
    if nn < piece.length then
      -- piece didn't fit, see you next time
      ((n, false), { r' with piece := some (piece.drop nn) })
    else readLoop k n { r' with piece := none }
termination_by r.remaining.length
decreasing_by
  rw [remaining_next_some hnext, List.length_cons]
  omega

theorem readLoop_of_none {k : Nat} {n : Bytes} {r r' : EncReader} (h : r.next = (none, r')) :
    readLoop k n r = ((n, true), { r' with piece := none, buf := none }) := by
  rw [readLoop]
  split
  case h_1 r'' hnext =>
    rw [h] at hnext
    cases hnext
    rfl
  case h_2 hnext =>
    rw [h] at hnext
    cases hnext

theorem readLoop_of_some {k : Nat} {n : Bytes} {r r' : EncReader} {piece : Bytes}
    (h : r.next = (some piece, r')) :
    readLoop k n r =
      let nn := min (k - n.length) piece.length
      if nn < piece.length then
        ((n ++ piece.take nn, false), { r' with piece := some (piece.drop nn) })
      else readLoop k (n ++ piece.take nn) { r' with piece := none } := by
  rw [readLoop]
  split
  case h_1 hnext =>
    rw [h] at hnext
    cases hnext
  case h_2 piece' r'' hnext =>
    rw [h] at hnext
    cases hnext
    rfl

/-- One `Read` into `k` bytes with `n` of them filled: the bytes it returns and
what remains after make up `n` and what remained before, and it stops short of
`k` bytes only at EOF, after which nothing remains. -/
theorem readLoop_spec {k : Nat} {n : Bytes} {r r' : EncReader} {out : Bytes} {eof : Bool}
    (h : readLoop k n r = ((out, eof), r')) (hn : n.length ≤ k) :
    n ++ r.remaining.flatten = out ++ r'.remaining.flatten ∧
      (eof = true → r'.remaining = []) ∧
      (eof = false → out.length = k ∧ r'.remaining.flatten ≠ []) := by
  induction n, r using readLoop.induct k with
  | case1 n r r₁ hnext =>
    -- EOF: `Read` returns what it has and lets the buffer go
    rw [readLoop_of_none hnext] at h
    simp only [Prod.mk.injEq] at h
    obtain ⟨⟨rfl, rfl⟩, rfl⟩ := h
    rw [remaining_next_none hnext]
    simp [remaining]
  | case2 n r piece r₁ hnext nn hfit =>
    -- the piece did not fit: the rest of it is kept for the next call
    rw [readLoop_of_some hnext, if_pos hfit] at h
    simp only [Prod.mk.injEq] at h
    obtain ⟨⟨rfl, rfl⟩, rfl⟩ := h
    obtain ⟨buf, hbuf⟩ := buf_next_some hnext
    have hnn : nn = k - n.length := Nat.min_eq_left (by omega)
    have hdrop : piece.drop nn ≠ [] := by
      simp only [ne_eq, List.drop_eq_nil_iff]
      omega
    rw [remaining_next_some hnext, remaining_piece_some hbuf]
    refine ⟨?_, by simp, fun _ => ⟨?_, ?_⟩⟩
    · simp only [List.flatten_cons, List.append_assoc]
      rw [← List.append_assoc (piece.take _), List.take_append_drop]
    · simp only [List.length_append, List.length_take]
      omega
    · rw [List.flatten_cons]
      exact List.append_ne_nil_of_left_ne_nil hdrop _
  | case3 n r piece r₁ hnext nn n₁ hfit ih =>
    -- the piece fit whole: go on with the next one
    rw [readLoop_of_some hnext, if_neg hfit] at h
    have hwhole : n₁ = n ++ piece := by
      show n ++ piece.take nn = n ++ piece
      rw [List.take_of_length_le (by omega)]
    have hfits : n₁.length ≤ k := by
      simp only [hwhole, List.length_append]
      omega
    obtain ⟨hflat, heof, hshort⟩ := ih h hfits
    refine ⟨?_, heof, hshort⟩
    rw [remaining_next_some hnext, List.flatten_cons, ← List.append_assoc, ← hwhole, hflat]

/-- `Read` into a buffer of `k` bytes. -/
def Read (r : EncReader) (k : Nat) : (Bytes × Bool) × EncReader := readLoop k [] r

end EncReader

/-- `EncodeToReader`: the size of the encoding and a reader of it. -/
def EncodeToReader (v : Val) : Nat × EncReader :=
  let eb := writeVal v Encbuf.empty
  (eb.size, ⟨some eb, 0, 0, none⟩)

/-- `Encode` into a writer that takes every write whole: the writes. -/
def Encode (v : Val) : List Bytes := (writeVal v Encbuf.empty).toWriter

/-- Calling `Read` with buffers of the sizes `ks` until it reports EOF: the
bytes read, or `none` when the sizes run out first. -/
def readUntilEOF : List Nat → EncReader → Option Bytes
  | [], _ => none
  | k :: ks, r =>
    let ((out, eof), r) := r.Read k
    if eof then some out else (readUntilEOF ks r).map (out ++ ·)

/-- Reading to EOF returns what remained, whatever the sizes of the buffers. -/
theorem readUntilEOF_eq {ks : List Nat} {r : EncReader} {out : Bytes}
    (h : readUntilEOF ks r = some out) : out = r.remaining.flatten := by
  induction ks generalizing r out with
  | nil => cases h
  | cons k ks ih =>
    rcases hread : r.Read k with ⟨⟨out₁, eof⟩, r₁⟩
    obtain ⟨hflat, heof, -⟩ := EncReader.readLoop_spec hread (Nat.zero_le _)
    simp only [readUntilEOF, hread] at h
    rw [List.nil_append] at hflat
    cases eof
    case true =>
      -- EOF in this call: nothing is left after it
      simp only [if_true, Option.some.injEq] at h
      rw [hflat, heof rfl, ← h]
      simp
    case false =>
      simp only [Bool.false_eq_true, if_false, Option.map_eq_some_iff] at h
      obtain ⟨out₂, hrest, rfl⟩ := h
      rw [hflat, ih hrest]

/-- Buffers of at least one byte, of sizes that add up to what remains, reach
EOF. -/
theorem readUntilEOF_isSome {ks : List Nat} {r : EncReader} (hks : ∀ k ∈ ks, 1 ≤ k)
    (hne : ks ≠ []) (hlen : r.remaining.flatten.length ≤ ks.sum) :
    (readUntilEOF ks r).isSome := by
  induction ks generalizing r with
  | nil => exact absurd rfl hne
  | cons k ks ih =>
    rcases hread : r.Read k with ⟨⟨out₁, eof⟩, r₁⟩
    obtain ⟨hflat, -, hshort⟩ := EncReader.readLoop_spec hread (Nat.zero_le _)
    cases eof
    case true => simp [readUntilEOF, hread]
    case false =>
      -- a full buffer that is not EOF leaves data, so more buffers follow
      obtain ⟨hout, hleft⟩ := hshort rfl
      have hleft₁ : 0 < r₁.remaining.flatten.length := List.length_pos_of_ne_nil hleft
      have hlen₁ : r₁.remaining.flatten.length ≤ ks.sum := by
        have hsplit := congrArg List.length hflat
        simp only [List.nil_append, List.length_append, hout] at hsplit
        simp only [List.sum_cons] at hlen
        omega
      have hne₁ : ks ≠ [] := by
        rintro rfl
        simp only [List.sum_nil] at hlen₁
        omega
      have hks₁ : ∀ k ∈ ks, 1 ≤ k := fun k hk => hks k (List.mem_cons_of_mem _ hk)
      simp only [readUntilEOF, hread, Bool.false_eq_true, if_false, Option.isSome_map]
      exact ih hks₁ hne₁ hlen₁

theorem remaining_encodeToReader (v : Val) : (EncodeToReader v).2.remaining = Encode v := by
  simp [EncodeToReader, EncReader.remaining, Encode, Encbuf.toWriter]

theorem encbuf_outputs_agree (v : Val) :
    (Encode v).flatten = encodeToBytes v ∧
      (EncodeToReader v).1 = (encodeToBytes v).length ∧
      ∀ ks : List Nat,
        (∀ out, readUntilEOF ks (EncodeToReader v).2 = some out → out = encodeToBytes v) ∧
        ((∀ k ∈ ks, 1 ≤ k) → ks ≠ [] → (encodeToBytes v).length ≤ ks.sum →
          readUntilEOF ks (EncodeToReader v).2 = some (encodeToBytes v)) := by
  obtain ⟨hs, happ⟩ := Encbuf.appends_writeVal v Encbuf.empty
  have hbytes : encodeToBytes v = (Encode v).flatten := Encbuf.toBytes_eq_flatten happ
  have hread : (EncodeToReader v).2.remaining.flatten = encodeToBytes v := by
    rw [remaining_encodeToReader, hbytes]
  refine ⟨hbytes.symm, (Encbuf.length_toBytes happ).symm, fun ks => ⟨fun out h => ?_, ?_⟩⟩
  · rw [readUntilEOF_eq h, hread]
  · intro hks hne hlen
    obtain ⟨out, hout⟩ := Option.isSome_iff_exists.mp (readUntilEOF_isSome hks hne (hread ▸ hlen))
    rw [hout, readUntilEOF_eq hout, hread]

/-- A list of 72 bytes read in pieces of one, two and 69 bytes: its header
is split across the first two calls. -/
theorem encbuf_outputs_agree_split_header :
    readUntilEOF [1, 2, 69]
        (EncodeToReader (.list [.uint 1024, .list [.bytes [1, 2, 3]], .string (List.replicate 60 7)])).2 =
      some (encodeToBytes (.list [.uint 1024, .list [.bytes [1, 2, 3]], .string (List.replicate 60 7)])) :=
  ((encbuf_outputs_agree _).2.2 [1, 2, 69]).2 (by decide) (by decide) (by decide +kernel)

end Rlp

end Bazacoin
