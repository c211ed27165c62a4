import Bazacoin.P2p.Rlpx
import Bazacoin.Rlp.Agree
import Bazacoin.Rlp.Canonical
import Bazacoin.Lib.Channel

/-!
# An RLPx connection delivers (`p2p/rlpx.go`)

Each end of an RLPx connection writes frames with `WriteMsg` and reads the
other end's frames with `ReadMsg`. The framing is a `Channel.Framing`
(`frames`): an end writes with its encrypting stream and egress MAC, and reads
with its decrypting stream and ingress MAC, so one end's writing and reading
never meet. `Synced a b` says that `b` reads what `a` writes: the same keys,
`b`'s decrypting stream where `a`'s encrypting stream is, and `b`'s ingress
MAC state equal to `a`'s egress MAC state.

- `WriteMsg_eq_ok`, `ReadMsg_eq_ok`: what a successful call computed, step by
  step; every other result is read off these two.
- `readMsg_writeMsg`: a frame written by `a` is read back by `b` in step with
  it, whatever follows the frame on the connection, and leaves the two in step.
  The message must be `Framable`: its payload holds `Size` bytes and the size
  of the frame does not wrap 32 bits (`writeMsg_wraps_frame_size` is what
  happens otherwise).
- `frames_sound`: the framing meets `Channel.Framing.Sound`.
- `connection_delivers`: from the two sides of one handshake, over every
  interleaving of calls on the two ends, what each end has read followed by the
  frames in flight towards it is exactly what the other end wrote.
-/

namespace Bazacoin

namespace P2p

open Rlp

variable (P : Primitives)

/-! ## The primitives' lengths, and the keystream -/

@[simp] theorem length_xorKeyStream (key : Bytes) (pos : Nat) (src : Bytes) :
    (xorKeyStream P key pos src).1.length = src.length := by
  simp [xorKeyStream]

/-- XORing the same keystream twice gives the data back, with the stream
moved on by its length. -/
theorem xorKeyStream_xorKeyStream (key : Bytes) (pos : Nat) (src : Bytes) :
    xorKeyStream P key pos (xorKeyStream P key pos src).1 = (src, pos + src.length) := by
  refine Prod.ext ?_ (by simp [xorKeyStream])
  apply List.ext_getElem (by simp)
  intro i h₁ h₂
  simp only [xorKeyStream, List.getElem_mapIdx, UInt8.xor_assoc, UInt8.xor_self, UInt8.xor_zero]

/-- What a keystream encrypted, the same keystream decrypts. -/
theorem xorKeyStream_inv {key src out : Bytes} {pos pos' : Nat}
    (h : xorKeyStream P key pos src = (out, pos')) : xorKeyStream P key pos out = (src, pos') := by
  have hinv := xorKeyStream_xorKeyStream P key pos src
  have hpos : pos + src.length = pos' := congrArg Prod.snd h
  rw [h, hpos] at hinv
  exact hinv

@[simp] theorem length_updateMAC (mac block seed : Bytes) : (updateMAC P mac block seed).1.length = 16 := by
  simp [updateMAC, P.keccak_length]

/-! ## Reading the connection -/

theorem readFull_append_left {a : Bytes} {n : Nat} (b : Bytes) (h : a.length = n) :
    readFull (a ++ b) n = .ok (a, b) := by
  subst h
  simp [readFull]

/-- A full read looks only at the bytes it takes. -/
theorem readFull_append {c t r : Bytes} {n : Nat} (h : readFull c n = .ok (t, r)) (x : Bytes) :
    readFull (c ++ x) n = .ok (t, r ++ x) := by
  unfold readFull at h ⊢
  split_ifs at h with hn
  · cases h
    rw [if_pos (by simp; omega), List.take_append_of_le_length hn, List.drop_append_of_le_length hn]

theorem readFull_nil {n : Nat} (hn : 0 < n) (r : Bytes × Bytes) : readFull [] n ≠ .ok r := by
  simp [readFull, show ¬ n ≤ 0 by omega]

/-! ## The code at the front of a frame -/

/-- A code's encoding is the RLP string of its minimal big-endian bytes. -/
theorem ptypeOf_eq (code : UInt64) : ptypeOf code = Rlp.encodeString (BigEndian.minimal code.toNat) := by
  unfold ptypeOf encodeToBytes
  rw [writeVal, writeUint_eq code.toNat_lt]
  simp [Encbuf.toBytes, Encbuf.toBytesFrom, Encbuf.empty]

/-- `ReadMsg` decodes the code at the front of a frame and leaves the payload. -/
theorem decodeUint_ptypeOf (code : UInt64) (payload : Bytes) :
    ∃ s, decodeUint 64 (Stream.new (ptypeOf code ++ payload) 0) = (.ok (.uint code.toNat), s) ∧
      s.input = payload := by
  have hlt : code.toNat < 256 ^ 8 := by simpa using code.toNat_lt
  have hmin : (BigEndian.minimal code.toNat).length ≤ 8 := by
    unfold BigEndian.minimal
    split_ifs
    · simp
    · simpa using width_le_eight hlt
  -- `Split` reads the code's string, and the stream's `Uint` agrees with it
  have hsplit := split_encodeString (BigEndian.minimal code.toNat) (by omega) payload
  rw [← ptypeOf_eq] at hsplit
  obtain ⟨⟨k, ts, cs⟩, hk, he⟩ := Outcome.map_eq_ok.mp hsplit
  simp only [Prod.mk.injEq] at he
  obtain ⟨hkind, hcontent, hrest⟩ := he
  have hR : (Stream.new (ptypeOf code ++ payload) 0).Reading (ptypeOf code ++ payload) :=
    (Stream.reading_new _).congr rfl rfl (by simp [Stream.new]) rfl
  have hsize : cs ≤ 64 / 8 := by
    have := congrArg List.length hcontent
    have hb := readKind_bounds hk
    simp only [List.length_take, List.length_drop] at this
    omega
  obtain ⟨s, hu, hs⟩ := Stream.uint_reading hR rfl hk (hkind ▸ kind_str_ne_list _) hsize
    (hcontent ▸ head_minimal_ne_zero _)
  refine ⟨s, ?_, ?_⟩
  · simp [decodeUint, hu, hcontent]
  · -- the reader's limit counts what is left, which is the payload
    have ht := Stream.uint_tight (Stream.tight_new (ptypeOf code ++ payload) 0 (.inl rfl)) 64
    rw [hu] at ht
    rw [hrest] at hs
    exact ht.input_eq hs

/-! ## The frame header -/

/-- Three bytes give back a size below `2^24`. -/
theorem readInt24_putInt24 {v : UInt32} (hv : v.toNat < 2 ^ 24) (rest : Bytes) :
    readInt24 (putInt24 v ++ rest) = v := by
  unfold readInt24 putInt24
  simp only [List.cons_append, List.getD_cons_zero, List.getD_cons_succ]
  apply UInt32.toNat_inj.mp
  simp only [UInt32.toNat_or, UInt32.toNat_shiftLeft, UInt8.toNat_toUInt32, UInt32.toNat_toUInt8,
    UInt32.toNat_shiftRight, Nat.shiftLeft_eq, Nat.shiftRight_eq_div_pow]
  rw [show UInt32.toNat 8 % 32 = 8 from rfl, show UInt32.toNat 16 % 32 = 16 from rfl]
  -- the three bytes occupy disjoint bits, so the `|||` are sums
  have hdisj : ∀ {x y k : Nat}, x < 2 ^ k → x ||| y * 2 ^ k = y * 2 ^ k + x := by
    intro x y k hx
    rw [Nat.or_comm, ← Nat.shiftLeft_eq, Nat.shiftLeft_add_eq_or_of_lt hx]
  have h8 : v.toNat / 2 ^ 8 % 2 ^ 8 * 2 ^ 8 % 2 ^ 32 = v.toNat / 2 ^ 8 % 2 ^ 8 * 2 ^ 8 := by
    apply Nat.mod_eq_of_lt; omega
  have h16 : v.toNat / 2 ^ 16 % 2 ^ 8 * 2 ^ 16 % 2 ^ 32 = v.toNat / 2 ^ 16 % 2 ^ 8 * 2 ^ 16 := by
    apply Nat.mod_eq_of_lt; omega
  have hlow : v.toNat % 2 ^ 8 ||| v.toNat / 2 ^ 8 % 2 ^ 8 * 2 ^ 8 =
      v.toNat / 2 ^ 8 % 2 ^ 8 * 2 ^ 8 + v.toNat % 2 ^ 8 := hdisj (by omega)
  rw [h8, h16, hlow, hdisj (by omega)]
  omega

/-! ## What a successful call computed -/

/-- `WriteMsg` succeeds past the size check, with the header and the frame
encrypted one after the other on the egress stream, and the egress MAC fed
the encrypted header and frame. -/
theorem WriteMsg_eq_ok {rw rw' : RlpxFrameRW} {msg : Msg} {out : Bytes} :
    WriteMsg P rw msg = .ok (rw', out) ↔
      ¬ frameSize msg > maxUint24 ∧
      ∃ header enc₁ headerMAC egress₁ frame enc₂ frameMAC egress₂,
        xorKeyStream P rw.aesKey rw.enc (putInt24 (frameSize msg) ++ zeroHeader ++ List.replicate 10 0) =
          (header, enc₁) ∧
        updateMAC P rw.egressMAC rw.macCipher header = (headerMAC, egress₁) ∧
        xorKeyStream P rw.aesKey enc₁ (ptypeOf msg.Code ++ msg.Payload ++ padding (frameSize msg)) =
          (frame, enc₂) ∧
        updateMAC P (egress₁ ++ frame) rw.macCipher (P.Keccak256 (egress₁ ++ frame)) = (frameMAC, egress₂) ∧
        rw' = { rw with enc := enc₂, egressMAC := egress₂ } ∧
        out = header ++ headerMAC ++ frame ++ frameMAC := by
  unfold WriteMsg
  dsimp only
  split_ifs with hf
  · simp only [false_iff, not_and]
    exact fun h => absurd hf h
  · simp only [hf, not_false_eq_true, true_and]
    constructor
    · intro h
      generalize hx₁ : xorKeyStream P rw.aesKey rw.enc (putInt24 (frameSize msg) ++ zeroHeader ++
        List.replicate 10 0) = p₁ at h
      obtain ⟨header, enc₁⟩ := p₁
      generalize hu₁ : updateMAC P rw.egressMAC rw.macCipher header = p₂ at h
      obtain ⟨headerMAC, egress₁⟩ := p₂
      generalize hx₂ : xorKeyStream P rw.aesKey enc₁ (ptypeOf msg.Code ++ msg.Payload ++
        padding (frameSize msg)) = p₃ at h
      obtain ⟨frame, enc₂⟩ := p₃
      generalize hu₂ : updateMAC P (egress₁ ++ frame) rw.macCipher (P.Keccak256 (egress₁ ++ frame)) = p₄ at h
      obtain ⟨frameMAC, egress₂⟩ := p₄
      simp only [Except.ok.injEq, Prod.mk.injEq] at h
      obtain ⟨rfl, rfl⟩ := h
      -- `generalize` also named the first step in the goal
      exact ⟨header, enc₁, headerMAC, egress₁, frame, enc₂, frameMAC, egress₂, rfl, hu₁, hx₂, hu₂, rfl, rfl⟩
    · rintro ⟨header, enc₁, headerMAC, egress₁, frame, enc₂, frameMAC, egress₂, hx₁, hu₁, hx₂, hu₂,
        rfl, rfl⟩
      simp only [hx₁, hu₁, hx₂, hu₂]

/-- `ReadMsg` succeeds: the header MAC checks out, the header gives the frame
size, the frame MAC checks out, and the decrypted frame starts with a code. -/
theorem ReadMsg_eq_ok {rw rw' : RlpxFrameRW} {conn rest : Bytes} {m : Msg} :
    ReadMsg P rw conn = .ok (m, rw', rest) ↔
      ∃ headbuf c₁ ingress₁ header dec₁ framebuf c₂ mac ingress₂ frame dec₂ v content,
        readFull conn 32 = .ok (headbuf, c₁) ∧
        updateMAC P rw.ingressMAC rw.macCipher (headbuf.take 16) = (headbuf.drop 16, ingress₁) ∧
        xorKeyStream P rw.aesKey rw.dec (headbuf.take 16) = (header, dec₁) ∧
        readFull c₁ ((readInt24 header).toNat + (padding (readInt24 header)).length) = .ok (framebuf, c₂) ∧
        readFull c₂ 16 = .ok (mac, rest) ∧
        updateMAC P (ingress₁ ++ framebuf) rw.macCipher (P.Keccak256 (ingress₁ ++ framebuf)) =
          (mac, ingress₂) ∧
        xorKeyStream P rw.aesKey dec₁ framebuf = (frame, dec₂) ∧
        decodeUint 64 (Stream.new (frame.take (readInt24 header).toNat) 0) = (.ok v, content) ∧
        m = ⟨match v with | .uint n => UInt64.ofNat n | _ => 0, UInt32.ofNat content.input.length,
          content.input⟩ ∧
        rw' = { rw with dec := dec₂, ingressMAC := ingress₂ } := by
  constructor
  · intro h
    unfold ReadMsg at h
    obtain ⟨⟨headbuf, c₁⟩, h₁, h⟩ := Except.bind_eq_ok.mp h
    rcases hu₁ : updateMAC P rw.ingressMAC rw.macCipher (headbuf.take 16) with ⟨shouldMAC, ingress₁⟩
    rcases hx₁ : xorKeyStream P rw.aesKey rw.dec (headbuf.take 16) with ⟨header, dec₁⟩
    simp only [hu₁, hx₁] at h
    split_ifs at h with hmac
    · simp [Except.bind_eq_ok] at h
    obtain ⟨⟨framebuf, c₂⟩, h₂, h⟩ := Except.bind_eq_ok.mp h
    obtain ⟨⟨mac, c₃⟩, h₃, h⟩ := Except.bind_eq_ok.mp h
    rcases hu₂ : updateMAC P (ingress₁ ++ framebuf) rw.macCipher (P.Keccak256 (ingress₁ ++ framebuf))
      with ⟨shouldMAC₂, ingress₂⟩
    rcases hx₂ : xorKeyStream P rw.aesKey dec₁ framebuf with ⟨frame, dec₂⟩
    simp only [hu₂, hx₂] at h
    split_ifs at h with hfmac
    · simp [Except.bind_eq_ok] at h
    split at h
    · simp at h
    · next v content hd =>
      simp only [pure, Except.pure, Except.ok.injEq, Prod.mk.injEq] at h
      obtain ⟨rfl, rfl, rfl⟩ := h
      refine ⟨headbuf, c₁, ingress₁, header, dec₁, framebuf, c₂, mac, ingress₂, frame, dec₂, v, content,
        h₁, ?_, hx₁, h₂, h₃, ?_, hx₂, hd, rfl, rfl⟩
      · rw [hu₁, not_not.mp hmac]
      · rw [hu₂, not_not.mp hfmac]
  · rintro ⟨headbuf, c₁, ingress₁, header, dec₁, framebuf, c₂, mac, ingress₂, frame, dec₂, v, content,
      h₁, hu₁, hx₁, h₂, h₃, hu₂, hx₂, hd, rfl, rfl⟩
    unfold ReadMsg
    simp only [h₁, hu₁, hx₁, h₂, h₃, hu₂, hx₂, hd, bind, Except.bind, ne_eq, not_true_eq_false,
      ↓reduceIte]
    rfl

/-! ## Writing and reading touch different parts of an end -/

/-- `WriteMsg` moves only the encrypting stream and the egress MAC. -/
theorem WriteMsg_state {rw rw' : RlpxFrameRW} {msg : Msg} {out : Bytes}
    (h : WriteMsg P rw msg = .ok (rw', out)) :
    rw'.aesKey = rw.aesKey ∧ rw'.macCipher = rw.macCipher ∧ rw'.dec = rw.dec ∧
      rw'.ingressMAC = rw.ingressMAC := by
  obtain ⟨-, _, _, _, _, _, _, _, _, -, -, -, -, rfl, -⟩ := (WriteMsg_eq_ok P).mp h
  exact ⟨rfl, rfl, rfl, rfl⟩

/-- `ReadMsg` moves only the decrypting stream and the ingress MAC. -/
theorem ReadMsg_state {rw rw' : RlpxFrameRW} {conn rest : Bytes} {m : Msg}
    (h : ReadMsg P rw conn = .ok (m, rw', rest)) :
    rw'.aesKey = rw.aesKey ∧ rw'.macCipher = rw.macCipher ∧ rw'.enc = rw.enc ∧
      rw'.egressMAC = rw.egressMAC := by
  obtain ⟨_, _, _, _, _, _, _, _, _, _, _, _, _, -, -, -, -, -, -, -, -, -, rfl⟩ := (ReadMsg_eq_ok P).mp h
  exact ⟨rfl, rfl, rfl, rfl⟩

/-- `WriteMsg` reads only the keys, the encrypting stream and the egress MAC. -/
theorem WriteMsg_congr {rw rw' : RlpxFrameRW} {msg : Msg} {out : Bytes}
    (h : WriteMsg P rw msg = .ok (rw', out)) (rw₂ : RlpxFrameRW) (hk : rw₂.aesKey = rw.aesKey) (hc : rw₂.macCipher = rw.macCipher)
    (he : rw₂.enc = rw.enc) (hm : rw₂.egressMAC = rw.egressMAC) :
    WriteMsg P rw₂ msg = .ok ({ rw₂ with enc := rw'.enc, egressMAC := rw'.egressMAC }, out) := by
  obtain ⟨hf, header, enc₁, headerMAC, egress₁, frame, enc₂, frameMAC, egress₂, hx₁, hu₁, hx₂, hu₂,
    rfl, rfl⟩ := (WriteMsg_eq_ok P).mp h
  refine (WriteMsg_eq_ok P).mpr ⟨hf, header, enc₁, headerMAC, egress₁, frame, enc₂, frameMAC, egress₂,
    ?_, ?_, ?_, ?_, rfl, rfl⟩
  · rw [hk, he, hx₁]
  · rw [hm, hc, hu₁]
  · rw [hk, hx₂]
  · rw [hc, hu₂]

/-- `ReadMsg` reads only the keys, the decrypting stream and the ingress MAC. -/
theorem ReadMsg_congr {rw rw' : RlpxFrameRW} {conn rest : Bytes} {m : Msg}
    (h : ReadMsg P rw conn = .ok (m, rw', rest)) (rw₂ : RlpxFrameRW) (hk : rw₂.aesKey = rw.aesKey)
    (hc : rw₂.macCipher = rw.macCipher) (hd : rw₂.dec = rw.dec) (hi : rw₂.ingressMAC = rw.ingressMAC) :
    ReadMsg P rw₂ conn = .ok (m, { rw₂ with dec := rw'.dec, ingressMAC := rw'.ingressMAC }, rest) := by
  obtain ⟨headbuf, c₁, ingress₁, header, dec₁, framebuf, c₂, mac, ingress₂, frame, dec₂, v, content,
    h₁, hu₁, hx₁, h₂, h₃, hu₂, hx₂, hdec, rfl, rfl⟩ := (ReadMsg_eq_ok P).mp h
  refine (ReadMsg_eq_ok P).mpr ⟨headbuf, c₁, ingress₁, header, dec₁, framebuf, c₂, mac, ingress₂, frame,
    dec₂, v, content, h₁, ?_, ?_, h₂, h₃, ?_, ?_, hdec, rfl, rfl⟩
  · rw [hi, hc, hu₁]
  · rw [hk, hd, hx₁]
  · rw [hc, hu₂]
  · rw [hk, hx₂]

/-! ## The round trip -/

/-- `b` reads what `a` writes: the same keys, `b`'s decrypting stream where
`a`'s encrypting stream is, and `b`'s ingress MAC state `a`'s egress MAC
state. -/
def Synced (a b : RlpxFrameRW) : Prop :=
  a.aesKey = b.aesKey ∧ a.macCipher = b.macCipher ∧ a.enc = b.dec ∧ a.egressMAC = b.ingressMAC

/-- A message that a frame carries whole: the payload holds `Size` bytes,
and the sizes of the code and the payload add up without wrapping 32 bits. -/
def Msg.Framable (msg : Msg) : Prop :=
  msg.Payload.length = msg.Size.toNat ∧ (ptypeOf msg.Code).length + msg.Size.toNat < 2 ^ 32

/-- The frame of a framable message, cut at its size, is the code and the
payload. -/
theorem frameSize_of_framable {msg : Msg} (hm : msg.Framable) :
    (frameSize msg).toNat = (ptypeOf msg.Code).length + msg.Payload.length := by
  rw [frameSize_toNat, Nat.mod_eq_of_lt hm.2, hm.1]

/-- **Round trip.** A framable message written by `a` is read back by an end
in step with `a`, whatever follows the frame on the connection, and the two
are in step again. -/
theorem readMsg_writeMsg {a a' b : RlpxFrameRW} {msg : Msg} {out : Bytes} (rest : Bytes)
    (hs : Synced a b) (hm : msg.Framable) (hw : WriteMsg P a msg = .ok (a', out)) :
    ∃ b', ReadMsg P b (out ++ rest) = .ok (msg, b', rest) ∧ Synced a' b' := by
  obtain ⟨hk, hc, he, hmac⟩ := hs
  obtain ⟨hf, header, enc₁, headerMAC, egress₁, frame, enc₂, frameMAC, egress₂, hx₁, hu₁, hx₂, hu₂,
    rfl, rfl⟩ := (WriteMsg_eq_ok P).mp hw
  -- the sizes of the pieces on the wire
  have hfs : (frameSize msg).toNat < 2 ^ 24 := by
    have : maxUint24.toNat = 2 ^ 24 - 1 := rfl
    rw [gt_iff_lt, UInt32.lt_iff_toNat_lt, this] at hf
    omega
  have hlen := frameSize_of_framable hm
  have hheader : header.length = 16 := by
    have := congrArg (fun p => p.1.length) hx₁
    simp [putInt24, zeroHeader] at this
    omega
  have hheaderMAC : headerMAC.length = 16 := by
    simpa [hu₁] using length_updateMAC P a.egressMAC a.macCipher header
  have hframe : frame.length = (frameSize msg).toNat + (padding (frameSize msg)).length := by
    have := congrArg (fun p => p.1.length) hx₂
    simp only [length_xorKeyStream, List.length_append] at this
    omega
  have hframeMAC : frameMAC.length = 16 := by
    simpa [hu₂] using length_updateMAC P (egress₁ ++ frame) a.macCipher (P.Keccak256 (egress₁ ++ frame))
  -- decrypting with the same keystream gives the header and the frame back
  have hdec₁ : xorKeyStream P b.aesKey b.dec header =
      (putInt24 (frameSize msg) ++ zeroHeader ++ List.replicate 10 0, enc₁) := by
    rw [← hk, ← he]
    exact xorKeyStream_inv P hx₁
  have hdec₂ : xorKeyStream P b.aesKey enc₁ frame =
      (ptypeOf msg.Code ++ msg.Payload ++ padding (frameSize msg), enc₂) := by
    rw [← hk]
    exact xorKeyStream_inv P hx₂
  have hsize : readInt24 (putInt24 (frameSize msg) ++ zeroHeader ++ List.replicate 10 0) = frameSize msg := by
    rw [List.append_assoc]
    exact readInt24_putInt24 hfs _
  have htake : (ptypeOf msg.Code ++ msg.Payload ++ padding (frameSize msg)).take (frameSize msg).toNat =
      ptypeOf msg.Code ++ msg.Payload := by
    rw [List.take_append_of_le_length (by simp; omega), List.take_of_length_le (by simp; omega)]
  obtain ⟨content, hcode, hinput⟩ := decodeUint_ptypeOf msg.Code msg.Payload
  refine ⟨{ b with dec := enc₂, ingressMAC := egress₂ }, (ReadMsg_eq_ok P).mpr ⟨header ++ headerMAC,
    frame ++ frameMAC ++ rest, egress₁, putInt24 (frameSize msg) ++ zeroHeader ++ List.replicate 10 0, enc₁,
    frame, frameMAC ++ rest, frameMAC, egress₂, ptypeOf msg.Code ++ msg.Payload ++ padding (frameSize msg),
    enc₂, .uint msg.Code.toNat, content, ?_, ?_, ?_, ?_, ?_, ?_, hdec₂, ?_, ?_, rfl⟩, ?_⟩
  · rw [show header ++ headerMAC ++ frame ++ frameMAC ++ rest = (header ++ headerMAC) ++
      (frame ++ frameMAC ++ rest) by simp]
    exact readFull_append_left _ (by simp [hheader, hheaderMAC])
  · rw [List.take_left' hheader, List.drop_left' hheader, ← hmac, ← hc, hu₁]
  · rw [List.take_left' hheader]
    exact hdec₁
  · rw [hsize, List.append_assoc]
    exact readFull_append_left _ hframe
  · exact readFull_append_left _ hframeMAC
  · rw [← hc, hu₂]
  · rw [hsize, htake]
    exact hcode
  · -- the message read is the message written
    obtain ⟨code, size, payload⟩ := msg
    simp only [Msg.Framable] at hm
    simp only [hinput, hm.1, UInt64.ofNat_toNat, UInt32.ofNat_toNat]
  · exact ⟨hk, hc, rfl, rfl⟩

/-! ## The framing of a connection -/

/-- The RLPx frames as a framing of `Channel`. -/
def frames : Channel.Framing RlpxFrameRW Msg FrameError UInt8 := ⟨WriteMsg P, ReadMsg P⟩

/-- The RLPx frames deliver every framable message. -/
theorem frames_sound : (frames P).Sound Synced Msg.Framable where
  roundTrip rest hs hm hw := readMsg_writeMsg P rest hs hm hw
  read_append x h := by
    obtain ⟨headbuf, c₁, ingress₁, header, dec₁, framebuf, c₂, mac, ingress₂, frame, dec₂, v, content,
      h₁, hu₁, hx₁, h₂, h₃, hu₂, hx₂, hd, rfl, rfl⟩ := (ReadMsg_eq_ok P).mp h
    exact (ReadMsg_eq_ok P).mpr ⟨headbuf, c₁ ++ x, ingress₁, header, dec₁, framebuf, c₂ ++ x, mac, ingress₂,
      frame, dec₂, v, content, readFull_append h₁ x, hu₁, hx₁, readFull_append h₂ x, readFull_append h₃ x,
      hu₂, hx₂, hd, rfl, rfl⟩
  read_nil b r h := by
    obtain ⟨m, b', w⟩ := r
    obtain ⟨headbuf, c₁, -, -, -, -, -, -, -, -, -, -, -, h₁, -⟩ := (ReadMsg_eq_ok P).mp h
    exact readFull_nil (by norm_num) _ h₁
  read_write {b b₁ b₂ _ _ _ _ _} hr hw := by
    obtain ⟨hk₁, hc₁, he₁, hm₁⟩ := ReadMsg_state P hr
    obtain ⟨hk₂, hc₂, hd₂, hi₂⟩ := WriteMsg_state P hw
    refine ⟨{ b₂ with dec := b₁.dec, ingressMAC := b₁.ingressMAC },
      ReadMsg_congr P hr b₂ hk₂ hc₂ hd₂ hi₂, ?_⟩
    -- the write from the end after the read leaves the same end
    have hw₁ := WriteMsg_congr P hw b₁ hk₁ hc₁ he₁ hm₁
    have hsame : ({ b₁ with enc := b₂.enc, egressMAC := b₂.egressMAC } : RlpxFrameRW) =
        { b₂ with dec := b₁.dec, ingressMAC := b₁.ingressMAC } := by
      simp only [hk₁, hk₂, hc₁, hc₂]
    rw [← hsame]
    exact hw₁
  synced_write {a b b' _ _} hs hw := by
    obtain ⟨hk, hc, he, hm⟩ := hs
    obtain ⟨hk', hc', hd', hi'⟩ := WriteMsg_state P hw
    exact ⟨hk.trans hk'.symm, hc.trans hc'.symm, he.trans hd'.symm, hm.trans hi'.symm⟩
  synced_read {a a' b _ _ _} hs hr := by
    obtain ⟨hk, hc, he, hm⟩ := hs
    obtain ⟨hk', hc', he', hm'⟩ := ReadMsg_state P hr
    exact ⟨hk'.trans hk, hc'.trans hc, he'.trans he, hm'.trans hm⟩

/-- The two ends of one handshake start in step both ways. -/
theorem synced_handshake {ecdheSecret initNonce respNonce auth authResp : Bytes} {a b : RlpxFrameRW}
    (ha : (EncHandshake.secrets P ⟨true, ecdheSecret, initNonce, respNonce⟩ auth authResp).bind newRLPXFrameRW =
      some a)
    (hb : (EncHandshake.secrets P ⟨false, ecdheSecret, initNonce, respNonce⟩ auth authResp).bind newRLPXFrameRW =
      some b) :
    Synced a b ∧ Synced b a := by
  obtain ⟨sa, hsa, ha⟩ := Option.bind_eq_some_iff.1 ha
  obtain ⟨sb, hsb, hb⟩ := Option.bind_eq_some_iff.1 hb
  obtain ⟨hAES, hMAC, hab, hba⟩ := secrets_mirrored P hsa hsb
  unfold newRLPXFrameRW at ha hb
  split_ifs at ha hb
  cases ha
  cases hb
  exact ⟨⟨hAES, hMAC, rfl, hab⟩, ⟨hAES.symm, hMAC.symm, rfl, hba.symm⟩⟩

/-- **An RLPx connection delivers.** Take the two ends of a connection set up
from the two sides of one handshake. After any interleaving of `WriteMsg` and
`ReadMsg` calls on the two ends in which every message written is framable,
what each end has read, followed by the messages still on the wire towards
it, is what the other end wrote: reading off that wire returns those messages
in order and leaves the reader in step with the writer. -/
theorem connection_delivers {ecdheSecret initNonce respNonce auth authResp : Bytes} {a b : RlpxFrameRW}
    (ha : (EncHandshake.secrets P ⟨true, ecdheSecret, initNonce, respNonce⟩ auth authResp).bind newRLPXFrameRW =
      some a)
    (hb : (EncHandshake.secrets P ⟨false, ecdheSecret, initNonce, respNonce⟩ auth authResp).bind newRLPXFrameRW =
      some b)
    {es : List (Channel.Event Msg)} {d : Channel.Duplex RlpxFrameRW Msg UInt8}
    (hgood : ∀ e ∈ es, e.Good Msg.Framable)
    (hrun : Run.run (Channel.Duplex.step (frames P)) es (Channel.Duplex.start a b) = some d) :
    ∀ i, ∃ q, Channel.Carries (frames P) Synced (d.peer i) (d.peer (!i)) (d.wire i) q ∧
      d.sent i = d.received (!i) ++ q := by
  obtain ⟨hab, hba⟩ := synced_handshake P ha hb
  exact Channel.Duplex.reachable_delivers (frames_sound P) hab hba hgood hrun

/-- Primitives of the right shapes: a digest that mixes every byte it reads
into each of its 32 bytes, a block cipher that XORs the block with the key,
and a keystream that depends on the key and the position. -/
def mixPrimitives : Primitives where
  Keccak256 b := (List.range 32).map fun i => b.foldl (fun acc x => acc * 31 + x) (UInt8.ofNat i)
  keccak_length _ := by simp
  Encrypt key src := (List.range 16).map fun i => src.getD i 0 ^^^ key.getD i 0
  encrypt_length _ _ := by simp
  KeyStream key i := key.getD (i % 32) 0 + UInt8.ofNat i

/-- The 32-byte nonces and secret of a handshake. -/
def handshakeNonce (seed : UInt8) : Bytes := (List.range 32).map fun i => seed + UInt8.ofNat i

/-- The two ends of a handshake with 32-byte nonces, one message from the
initiator read by the recipient. -/
theorem connection_delivers_one_message :
    ∃ a b d,
      (EncHandshake.secrets mixPrimitives ⟨true, handshakeNonce 1, handshakeNonce 2, handshakeNonce 3⟩
        [4] [5]).bind newRLPXFrameRW = some a ∧
      (EncHandshake.secrets mixPrimitives ⟨false, handshakeNonce 1, handshakeNonce 2, handshakeNonce 3⟩
        [4] [5]).bind newRLPXFrameRW = some b ∧
      Run.run (Channel.Duplex.step (frames mixPrimitives)) [.send true ⟨1, 2, [7, 8]⟩, .receive false]
        (Channel.Duplex.start a b) = some d ∧
      ∀ i, ∃ q, Channel.Carries (frames mixPrimitives) Synced (d.peer i) (d.peer (!i)) (d.wire i) q ∧
        d.sent i = d.received (!i) ++ q := by
  have hgood : ∀ e ∈ ([.send true ⟨1, 2, [7, 8]⟩, .receive false] : List (Channel.Event Msg)),
      e.Good Msg.Framable := by
    intro e he
    simp only [List.mem_cons, List.not_mem_nil, or_false] at he
    rcases he with rfl | rfl
    · exact ⟨rfl, by decide⟩
    · trivial
  -- both ends set up, and the run from them, computed
  have hall : ((EncHandshake.secrets mixPrimitives ⟨true, handshakeNonce 1, handshakeNonce 2, handshakeNonce 3⟩
      [4] [5]).bind newRLPXFrameRW |>.bind fun a =>
      (EncHandshake.secrets mixPrimitives ⟨false, handshakeNonce 1, handshakeNonce 2, handshakeNonce 3⟩
        [4] [5]).bind newRLPXFrameRW |>.bind fun b =>
      Run.run (Channel.Duplex.step (frames mixPrimitives)) [.send true ⟨1, 2, [7, 8]⟩, .receive false]
        (Channel.Duplex.start a b)).isSome := by
    decide +kernel
  obtain ⟨d, hd⟩ := Option.isSome_iff_exists.1 hall
  obtain ⟨a, ha, hd⟩ := Option.bind_eq_some_iff.1 hd
  obtain ⟨b, hb, hr⟩ := Option.bind_eq_some_iff.1 hd
  exact ⟨a, b, d, ha, hb, hr, connection_delivers mixPrimitives ha hb hgood hr⟩

end P2p

end Bazacoin
