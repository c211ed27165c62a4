import Bazacoin.Rlp.Decode
import Bazacoin.Rlp.Item

/-!
# RLPx framing (`p2p/rlpx.go`)

After the handshake both ends of a connection hold the same secrets, mirrored:
each side's egress MAC state is the other's ingress MAC state. `WriteMsg`
frames a message: a 16-byte header holding the frame size, encrypted and
followed by a MAC; then the frame (the RLP of the message code and the
payload, zero-padded to 16 bytes), encrypted and fed to the egress MAC; then
the frame MAC. `ReadMsg` checks and decrypts in the same order.

The primitives are left abstract (`Primitives`): AES-CTR is a keystream, one
byte for each position, XORed into the data; Keccak-256 is read as the
digest of all bytes written to an incremental hash, so a hash state is that
byte string; the MAC's AES block cipher is a function on blocks.

The frame size is `uint32(len(ptype)) + msg.Size` in 32 bits. For a payload of
`2^32 - len(ptype)` bytes or more the sum wraps, passes the check against
`maxUint24`, and the header announces the wrapped size
(`writeMsg_wraps_frame_size`).
-/

namespace Bazacoin

namespace P2p

open Rlp

/-- The primitives of the framing. `KeyStream key i` is byte `i` of the
AES-CTR keystream of `key` from the zero IV. -/
structure Primitives where
  Keccak256 : Bytes → Bytes
  keccak_length : ∀ b, (Keccak256 b).length = 32
  /-- `cipher.Block.Encrypt` under a key, of the first block of its input. -/
  Encrypt : Bytes → Bytes → Bytes
  encrypt_length : ∀ key src, (Encrypt key src).length = 16
  KeyStream : Bytes → Nat → UInt8

variable (P : Primitives)

/-- `xor` of two byte strings, as long as the first: byte `i` of `one` XOR
byte `i` of `other`. `none` where `other` is shorter and `other[i]` panics. -/
def xor (one other : Bytes) : Option Bytes :=
  if one.length ≤ other.length then some (List.zipWith (· ^^^ ·) one other) else none

/-! ## Secrets -/

/-- `secrets`: the keys of the stream cipher and the MAC, and the two MAC
hash states, each as the bytes written to it. -/
structure Secrets where
  AES : Bytes
  MAC : Bytes
  EgressMAC : Bytes
  IngressMAC : Bytes

/-- What `encHandshake.secrets` reads of a completed handshake: the side,
the ECDH secret of the random keys (the same on both sides), and the two
nonces. -/
structure EncHandshake where
  initiator : Bool
  ecdheSecret : Bytes
  initNonce : Bytes
  respNonce : Bytes

/-- `encHandshake.secrets`, from the auth and auth-response packets; `none`
where a nonce is shorter than the MAC secret and `xor` panics. -/
def EncHandshake.secrets (h : EncHandshake) (auth authResp : Bytes) : Option Secrets := do
  -- derive base secrets from ephemeral key agreement
  let sharedSecret := P.Keccak256 (h.ecdheSecret ++ P.Keccak256 (h.respNonce ++ h.initNonce))
  let aesSecret := P.Keccak256 (h.ecdheSecret ++ sharedSecret)
  let mac := P.Keccak256 (h.ecdheSecret ++ aesSecret)
  -- setup sha3 instances for the MACs
  let mac1 ← xor mac h.respNonce
  let mac2 ← xor mac h.initNonce
  if h.initiator then pure ⟨aesSecret, mac, mac1 ++ auth, mac2 ++ authResp⟩
  else pure ⟨aesSecret, mac, mac2 ++ authResp, mac1 ++ auth⟩

/-- The two sides of one exchange derive the same keys, and each side's
egress MAC is the other's ingress MAC. -/
theorem secrets_mirrored {ecdheSecret initNonce respNonce auth authResp : Bytes} {a b : Secrets}
    (ha : EncHandshake.secrets P ⟨true, ecdheSecret, initNonce, respNonce⟩ auth authResp = some a)
    (hb : EncHandshake.secrets P ⟨false, ecdheSecret, initNonce, respNonce⟩ auth authResp = some b) :
    a.AES = b.AES ∧ a.MAC = b.MAC ∧ a.EgressMAC = b.IngressMAC ∧ a.IngressMAC = b.EgressMAC := by
  simp only [EncHandshake.secrets, Option.bind_eq_bind, Option.bind_eq_some_iff, if_true,
    Bool.false_eq_true, if_false, Option.pure_def, Option.some.injEq] at ha hb
  obtain ⟨mac1, h1, mac2, h2, rfl⟩ := ha
  obtain ⟨mac1', h1', mac2', h2', rfl⟩ := hb
  rw [h1, Option.some.injEq] at h1'
  rw [h2, Option.some.injEq] at h2'
  subst h1' h2'
  exact ⟨rfl, rfl, rfl, rfl⟩

/-! ## Frames -/

/-- `rlpxFrameRW`: the two AES-CTR streams, each at its keystream position,
the MAC's block cipher key, and the two MAC states. -/
structure RlpxFrameRW where
  enc : Nat
  dec : Nat
  aesKey : Bytes
  macCipher : Bytes
  egressMAC : Bytes
  ingressMAC : Bytes

/-- `aes.NewCipher` takes keys of 16, 24 and 32 bytes. -/
def validKey (key : Bytes) : Bool := key.length == 16 || key.length == 24 || key.length == 32

/-- `newRLPXFrameRW`: both streams at the start of the keystream of the AES
secret; `none` where `aes.NewCipher` fails and the source panics. -/
def newRLPXFrameRW (s : Secrets) : Option RlpxFrameRW :=
  if validKey s.MAC && validKey s.AES then some ⟨0, 0, s.AES, s.MAC, s.EgressMAC, s.IngressMAC⟩
  else none

/-- `cipher.Stream.XORKeyStream` of the stream at `pos`: the data XORed with
the keystream from `pos` on, and the position after it. -/
def xorKeyStream (key : Bytes) (pos : Nat) (src : Bytes) : Bytes × Nat :=
  (src.mapIdx fun i b => b ^^^ P.KeyStream key (pos + i), pos + src.length)

/-- `updateMAC`: reseed the hash with the encrypted digest XOR `seed`;
the first 16 bytes of the new digest, and the new hash state. Go's loop reads
`seed[i]` for the 16 bytes of the block; every caller passes a seed of at
least 16 bytes, a frame header or a digest. -/
def updateMAC (mac block seed : Bytes) : Bytes × Bytes :=
  let aesbuf := List.zipWith (· ^^^ ·) (P.Encrypt block ((P.Keccak256 mac).take 16)) seed
  let mac := mac ++ aesbuf
  ((P.Keccak256 mac).take 16, mac)

/-- `maxUint24`. -/
def maxUint24 : UInt32 := 0xFFFFFF

/-- `zeroHeader`, the header data of every frame. -/
def zeroHeader : Bytes := [0xC2, 0x80, 0x80]

/-- `putInt24` into the first three bytes. -/
def putInt24 (v : UInt32) : Bytes := [(v >>> 16).toUInt8, (v >>> 8).toUInt8, v.toUInt8]

/-- `readInt24`. -/
def readInt24 (b : Bytes) : UInt32 :=
  (b.getD 2 0).toUInt32 ||| (b.getD 1 0).toUInt32 <<< 8 ||| (b.getD 0 0).toUInt32 <<< 16

/-- Three bytes hold less than `2^24`. -/
theorem readInt24_lt (b : Bytes) : (readInt24 b).toNat < 2 ^ 24 := by
  unfold readInt24
  have h0 := (b.getD 0 0).toNat_lt
  have h1 := (b.getD 1 0).toNat_lt
  have h2 := (b.getD 2 0).toNat_lt
  simp only [UInt32.toNat_or, UInt32.toNat_shiftLeft, UInt8.toNat_toUInt32, Nat.shiftLeft_eq]
  refine Nat.or_lt_two_pow (Nat.or_lt_two_pow (by omega) ?_) ?_
  · have : UInt32.toNat 8 % 32 = 8 := rfl
    rw [this]
    omega
  · have : UInt32.toNat 16 % 32 = 16 := rfl
    rw [this]
    omega

/-- `p2p.Msg`: the code, the size, and the bytes the payload reader yields. -/
structure Msg where
  Code : UInt64
  Size : UInt32
  Payload : Bytes

/-- The errors of the framing. -/
inductive FrameError
  /-- `"message size overflows uint24"` -/
  | sizeOverflow
  /-- `io.EOF` of a read at the end of the connection -/
  | eof
  /-- `io.ErrUnexpectedEOF` of a short read -/
  | unexpectedEOF
  /-- `"bad header MAC"` -/
  | badHeaderMAC
  /-- `"bad frame MAC"` -/
  | badFrameMAC
  /-- an error of decoding the message code -/
  | decode (e : Rlp.Error)

/-- `rlp.EncodeToBytes(msg.Code)`. -/
def ptypeOf (code : UInt64) : Bytes := encodeToBytes (.uint code.toNat)

/-- A 64-bit code takes at most nine bytes: a tag and eight. -/
theorem length_ptypeOf (code : UInt64) : (ptypeOf code).length ≤ 9 := by
  unfold ptypeOf encodeToBytes
  simp only [writeVal, writeUint, Encbuf.toBytes, Encbuf.empty, List.nil_append]
  split_ifs
  · simp [Encbuf.toBytesFrom]
  · simp [Encbuf.toBytesFrom]
  · have hcode : code.toNat < 256 ^ 8 := by
      have := code.toNat_lt
      simpa using this
    have hw := width_le_eight hcode
    simp [Encbuf.toBytesFrom, putint, intsize]
    omega

/-- The frame size field: the code's encoding and the payload, in 32 bits. -/
def frameSize (msg : Msg) : UInt32 := UInt32.ofNat (ptypeOf msg.Code).length + msg.Size

/-- The size in the header is the sum of the code's and the payload's sizes
modulo `2^32`. -/
theorem frameSize_toNat (msg : Msg) :
    (frameSize msg).toNat = ((ptypeOf msg.Code).length + msg.Size.toNat) % 2 ^ 32 := by
  simp [frameSize, UInt32.toNat_add]

/-- The zero bytes that fill a frame of `fsize` bytes to 16-byte blocks. -/
def padding (fsize : UInt32) : Bytes :=
  if fsize % 16 > 0 then List.replicate (16 - (fsize % 16).toNat) 0 else []

/-- `rlpxFrameRW.WriteMsg`: the new state and the bytes written to the
connection. -/
def WriteMsg (rw : RlpxFrameRW) (msg : Msg) : Except FrameError (RlpxFrameRW × Bytes) :=
  let ptype := ptypeOf msg.Code
  let fsize := frameSize msg
  if fsize > maxUint24 then .error .sizeOverflow
  else
    -- write header
    let headbuf := putInt24 fsize ++ zeroHeader ++ List.replicate 10 0
    let (header, enc) := xorKeyStream P rw.aesKey rw.enc headbuf
    let (headerMAC, egress) := updateMAC P rw.egressMAC rw.macCipher header
    -- write encrypted frame, updating the egress MAC hash with the data written to conn
    let (frame, enc) := xorKeyStream P rw.aesKey enc (ptype ++ msg.Payload ++ padding fsize)
    let egress := egress ++ frame
    -- write frame MAC
    let (frameMAC, egress) := updateMAC P egress rw.macCipher (P.Keccak256 egress)
    .ok ({ rw with enc := enc, egressMAC := egress }, header ++ headerMAC ++ frame ++ frameMAC)

/-- `WriteMsg` fails only on the size check. -/
theorem WriteMsg_ok_iff (rw : RlpxFrameRW) (msg : Msg) :
    (∃ rw' out, WriteMsg P rw msg = .ok (rw', out)) ↔ (frameSize msg).toNat < 2 ^ 24 := by
  have hmax : maxUint24.toNat = 2 ^ 24 - 1 := rfl
  unfold WriteMsg
  by_cases hf : frameSize msg > maxUint24
  · have : 2 ^ 24 ≤ (frameSize msg).toNat := by
      rw [gt_iff_lt, UInt32.lt_iff_toNat_lt, hmax] at hf
      omega
    simp only [if_pos hf, reduceCtorEq, exists_false, false_iff]
    omega
  · have : (frameSize msg).toNat < 2 ^ 24 := by
      rw [gt_iff_lt, UInt32.lt_iff_toNat_lt, hmax] at hf
      omega
    simp only [if_neg hf, this, iff_true]
    exact ⟨_, _, rfl⟩

/-- `io.ReadFull` of `n` bytes from the connection: `io.EOF` where nothing
is left, `io.ErrUnexpectedEOF` where only part is. -/
def readFull (conn : Bytes) (n : Nat) : Except FrameError (Bytes × Bytes) :=
  if n ≤ conn.length then .ok (conn.take n, conn.drop n)
  else if conn = [] then .error .eof
  else .error .unexpectedEOF

/-- `rlpxFrameRW.ReadMsg`: the message, the new state and what is left on
the connection. -/
def ReadMsg (rw : RlpxFrameRW) (conn : Bytes) : Except FrameError (Msg × RlpxFrameRW × Bytes) := do
  -- read the header
  let (headbuf, conn) ← readFull conn 32
  -- verify header mac
  let (shouldMAC, ingress) := updateMAC P rw.ingressMAC rw.macCipher (headbuf.take 16)
  if shouldMAC ≠ headbuf.drop 16 then throw .badHeaderMAC
  let (header, dec) := xorKeyStream P rw.aesKey rw.dec (headbuf.take 16)
  let fsize := readInt24 header
  -- read the frame content, rounded up to 16 bytes
  let (framebuf, conn) ← readFull conn (fsize.toNat + (padding fsize).length)
  -- read and validate frame MAC
  let ingress := ingress ++ framebuf
  let fmacseed := P.Keccak256 ingress
  let (mac, conn) ← readFull conn 16
  let (shouldMAC, ingress) := updateMAC P ingress rw.macCipher fmacseed
  if shouldMAC ≠ mac then throw .badFrameMAC
  -- decrypt frame content
  let (frame, dec) := xorKeyStream P rw.aesKey dec framebuf
  -- decode message code; the rest of the frame is the payload
  match decodeUint 64 (Stream.new (frame.take fsize.toNat) 0) with
  | (.error e, _) => throw (.decode e)
  | (.ok v, content) =>
    let code := match v with
      | .uint n => UInt64.ofNat n
      | _ => 0
    return (⟨code, UInt32.ofNat content.input.length, content.input⟩,
      { rw with dec := dec, ingressMAC := ingress }, conn)

/-! ## Payload sizes

Whatever a frame holds, `ReadMsg` returns at most the frame size of its
header, which three bytes bound by `2^24`. -/

/-- The payload left after decoding the code from a frame is shorter than the
header's frame size. -/
theorem decodeCode_payload_length (header frame : Bytes) {r : Except Error Val × Stream}
    (hd : decodeUint 64 (Stream.new (frame.take (readInt24 header).toNat) 0) = r) :
    r.2.input.length < 2 ^ 24 := by
  subst hd
  calc _ ≤ (frame.take (readInt24 header).toNat).length := (decodeUint_input 64 _).length_le
    _ ≤ (readInt24 header).toNat := List.length_take_le _ _
    _ < 2 ^ 24 := readInt24_lt header

theorem ReadMsg_payload_length {rw rw' : RlpxFrameRW} {conn rest : Bytes} {m : Msg}
    (h : ReadMsg P rw conn = .ok (m, rw', rest)) : m.Payload.length < 2 ^ 24 := by
  unfold ReadMsg at h
  simp only [bind, Except.bind, throw, throwThe, MonadExceptOf.throw, pure, Except.pure] at h
  -- every failed read or check is an error; what is left are the two ways of
  -- reading the code, and in both the payload is what the decoder left
  repeat' split at h
  all_goals try (cases h; done)
  all_goals
    obtain ⟨rfl, -, -⟩ := Prod.mk.inj (Except.ok.inj h)
    exact decodeCode_payload_length _ _ ‹_›

/-- A message whose code and payload sizes add up to `2^32` or more passes
the size check of `WriteMsg`, with the sum wrapped in the header, and no
`ReadMsg` can return its payload. -/
theorem writeMsg_wraps_frame_size (rw : RlpxFrameRW) (msg : Msg)
    (hsize : msg.Payload.length = msg.Size.toNat)
    (hwrap : 2 ^ 32 ≤ (ptypeOf msg.Code).length + msg.Size.toNat) :
    (frameSize msg).toNat = (ptypeOf msg.Code).length + msg.Size.toNat - 2 ^ 32 ∧
    (∃ rw' out, WriteMsg P rw msg = .ok (rw', out)) ∧
    ∀ rwB conn m rwB' rest, ReadMsg P rwB conn = .ok (m, rwB', rest) → m.Payload ≠ msg.Payload := by
  have hcode := length_ptypeOf msg.Code
  have hlt := msg.Size.toNat_lt
  -- the sum is below `2^33`, so reducing it modulo `2^32` subtracts `2^32` once
  have hwrapped : (frameSize msg).toNat = (ptypeOf msg.Code).length + msg.Size.toNat - 2 ^ 32 := by
    rw [frameSize_toNat, Nat.mod_eq_sub_mod hwrap, Nat.mod_eq_of_lt (by omega)]
  refine ⟨hwrapped, (WriteMsg_ok_iff P rw msg).2 (by omega), ?_⟩
  intro rwB conn m rwB' rest hread heq
  have hshort := ReadMsg_payload_length P hread
  rw [heq, hsize] at hshort
  omega

/-- Primitives that return zeros: the size check does not look at them. -/
def zeroPrimitives : Primitives where
  Keccak256 _ := List.replicate 32 0
  keccak_length _ := List.length_replicate ..
  Encrypt _ _ := List.replicate 16 0
  encrypt_length _ _ := List.length_replicate ..
  KeyStream _ _ := 0

/-- A message of code 0 whose payload is `2^32 - 1` bytes: its frame size
wraps to 0. -/
theorem writeMsg_wraps_frame_size_max_payload :
    let msg : Msg := ⟨0, 0xFFFFFFFF, List.replicate (2 ^ 32 - 1) 0⟩
    msg.Payload.length = msg.Size.toNat ∧ 2 ^ 32 ≤ (ptypeOf msg.Code).length + msg.Size.toNat ∧
    (frameSize msg).toNat = (ptypeOf msg.Code).length + msg.Size.toNat - 2 ^ 32 ∧
    (∃ rw' out, WriteMsg zeroPrimitives ⟨0, 0, [], [], [], []⟩ msg = .ok (rw', out)) ∧
    ∀ rwB conn m rwB' rest,
      ReadMsg zeroPrimitives rwB conn = .ok (m, rwB', rest) → m.Payload ≠ msg.Payload := by
  intro msg
  -- the payload is never built: its length is read off `replicate`
  have hsize : msg.Payload.length = msg.Size.toNat := by
    rw [show msg.Payload = List.replicate (2 ^ 32 - 1) 0 from rfl, List.length_replicate]
    rfl
  have hwrap : 2 ^ 32 ≤ (ptypeOf msg.Code).length + msg.Size.toNat := by decide
  exact ⟨hsize, hwrap, writeMsg_wraps_frame_size zeroPrimitives ⟨0, 0, [], [], [], []⟩ msg hsize hwrap⟩

end P2p

end Bazacoin
