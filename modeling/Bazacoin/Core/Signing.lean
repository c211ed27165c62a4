import Bazacoin.Core.Types
import Bazacoin.Lib.BigEndian
import Bazacoin.Rlp.Encode

/-!
# Transaction signers (`core/types/transaction_signing.go`)

A signer writes a signature `R || S || v` (`v` 0 or 1) into a transaction's
`V`, `R` and `S` (`WithSignature`), and reads it back to recover the sender's
public key (`PublicKey`), from the hash the signer signs (`Hash`). Frontier
and Homestead store `V = v + 27`; an EIP-155 signer for chain `c` stores
`V = v + 35 + 2c`, from which `ChainId` reads `c` back.

The hash function and the recovery of a public key are parameters
(`Crypto`): the results hold for any functions, so the model says only which
bytes reach them.

For Frontier, Homestead and EIP-155 with a chain id other than zero, the
signer hands `Ecrecover` the signature it was given, over the hash of the
unsigned transaction (`publicKey_withSignature`). For chain id zero,
`WithSignature` stores the bare `v`, which `Protected` reads as replay
protected and `deriveChainId` reads as chain `(v - 35) / 2` in 64 bits, far
from zero: `PublicKey` rejects every transaction the signer signed
(`eip155_zero_rejects_own_signature`).
-/

namespace Bazacoin

namespace Types

open State Rlp BigEndian

/-- `txdata`: the fields of a transaction that the signers read and write. -/
structure TxData where
  AccountNonce : Nat
  Price : Nat
  GasLimit : Nat
  /-- `nil` for contract creation -/
  Recipient : Option Address
  Amount : Nat
  Payload : Bytes
  V : Nat
  R : Nat
  S : Nat
  deriving DecidableEq, Repr

/-- The primitives the signers call: Keccak-256 and `crypto.Ecrecover`. -/
structure Crypto where
  Keccak256 : Bytes → Hash
  Ecrecover : Hash → Bytes → Except String Bytes

/-- The errors of `PublicKey`. -/
inductive SigError
  /-- `ErrInvalidChainId` -/
  | invalidChainId
  /-- `ErrInvalidSig` -/
  | invalidSig
  /-- `"invalid public key"` -/
  | invalidPublicKey
  /-- an error of `Ecrecover` -/
  | recover (msg : String)
  deriving DecidableEq, Repr

/-- The signers. `HomesteadSigner` embeds `FrontierSigner`, and
`EIP155Signer` embeds `HomesteadSigner`. -/
inductive Signer
  | frontier
  | homestead
  | eip155 (chainId : Nat)
  deriving DecidableEq, Repr

/-- `secp256k1_N`, the order of the curve. -/
def secp256k1N : Nat := 0xFFFFFFFFFFFFFFFFFFFFFFFFFFFFFFFEBAAEDCE6AF48A03BBFD25E8CD0364141

/-- `secp256k1_halfN`. -/
def secp256k1halfN : Nat := secp256k1N / 2

/-- `crypto.ValidateSignatureValues`. -/
def ValidateSignatureValues (v : UInt8) (r s : Nat) (homestead : Bool) : Bool :=
  if r < 1 || s < 1 then false
  -- reject upper range of s values (ECDSA malleability)
  else if homestead && s > secp256k1halfN then false
  -- Frontier: allow s to be in full N range
  else r < secp256k1N && s < secp256k1N && (v == 0 || v == 1)

/-- `isProtectedV`. -/
def isProtectedV (V : Nat) : Bool :=
  if V < 2 ^ 8 then V != 27 && V != 28
  -- anything not 27 or 28 are considered unprotected
  else true

/-- `deriveChainId`: the subtraction wraps in 64 bits for a `V` that fits in
them. -/
def deriveChainId (V : Nat) : Nat :=
  if V < 2 ^ 64 then
    if V = 27 ∨ V = 28 then 0 else ((UInt64.ofNat V - 35) / 2).toNat
  else (V - 35) / 2

/-- `Transaction.Protected`. -/
def TxData.Protected (tx : TxData) : Bool := isProtectedV tx.V

/-- `Transaction.ChainId`. -/
def TxData.ChainId (tx : TxData) : Nat := deriveChainId tx.V

/-- The RLP value of the recipient: an address is a 20-byte string, `nil`
the empty string. -/
def recipientVal : Option Address → Val
  | some a => .bytes (toFixed 20 a.toNat)
  | none => .bytes []

/-- `copy(sig[32-len(b):32], b)` into 32 zero bytes, for `b` of at most 32
bytes. -/
def pad32 (b : Bytes) : Bytes := List.replicate (32 - b.length) 0 ++ b

namespace Signer

variable (C : Crypto)

/-- `Signer.Hash`: the hash to be signed, `rlpHash` of the transaction's
fields, with the chain id and two zeros for EIP-155. -/
def Hash : Signer → TxData → State.Hash
  | .eip155 c, tx => C.Keccak256 (encodeToBytes (.list [.uint tx.AccountNonce, .bigInt tx.Price,
      .bigInt tx.GasLimit, recipientVal tx.Recipient, .bigInt tx.Amount, .bytes tx.Payload,
      .bigInt c, .uint 0, .uint 0]))
  | _, tx => C.Keccak256 (encodeToBytes (.list [.uint tx.AccountNonce, .bigInt tx.Price,
      .bigInt tx.GasLimit, recipientVal tx.Recipient, .bigInt tx.Amount, .bytes tx.Payload]))

/-- `WithSignature`; `none` where the source panics on a signature that is
not 65 bytes. The additions to `sig[64]` are on bytes. -/
def WithSignature (s : Signer) (tx : TxData) (sig : Bytes) : Option TxData :=
  if sig.length ≠ 65 then none
  else
    let R := ofBytes (sig.take 32)
    let S := ofBytes ((sig.drop 32).take 32)
    let v := sig.getD 64 0
    match s with
    | .eip155 c =>
      if c ≠ 0 then some { tx with R, S, V := (v + 35).toNat + 2 * c }
      else some { tx with R, S, V := v.toNat }
    | _ => some { tx with R, S, V := (v + 27).toNat }

/-- The end of every `PublicKey`: recover the key from the signature over the
hash, and check it is an uncompressed point. -/
def recoverPub (hash : State.Hash) (sig : Bytes) : Except SigError Bytes :=
  match C.Ecrecover hash sig with
  | .error e => .error (.recover e)
  | .ok pub => if pub.head? ≠ some 4 then .error .invalidPublicKey else .ok pub

/-- The common part of `PublicKey`: validate `V`, `R` and `S`, encode the
signature in uncompressed format and recover. -/
def recoverFrom (s : Signer) (tx : TxData) (V : UInt8) (homestead : Bool) :
    Except SigError Bytes :=
  if !ValidateSignatureValues V tx.R tx.S homestead then .error .invalidSig
  else
    -- encode the signature in uncompressed format
    let sig := pad32 (minimal tx.R) ++ pad32 (minimal tx.S) ++ [V]
    recoverPub C (s.Hash C tx) sig

/-- `PublicKey` of the Frontier and Homestead signers. -/
def legacyPublicKey (s : Signer) (tx : TxData) (homestead : Bool) : Except SigError Bytes :=
  if tx.V ≥ 2 ^ 8 then .error .invalidSig
  else recoverFrom C s tx (UInt8.ofNat (UInt64.ofNat tx.V - 27).toNat) homestead

/-- `Signer.PublicKey`. An EIP-155 signer falls back to Homestead for an
unprotected transaction; `V - chainIdMul` is read through `Uint64`, which
takes the low bits of its absolute value. -/
def PublicKey : Signer → TxData → Except SigError Bytes
  | .frontier, tx => legacyPublicKey C .frontier tx false
  | .homestead, tx => legacyPublicKey C .homestead tx true
  | .eip155 c, tx =>
    -- if the transaction is not protected fall back to homestead signer
    if !tx.Protected then legacyPublicKey C .homestead tx true
    else if tx.ChainId ≠ c then .error .invalidChainId
    else
      let V := UInt8.ofNat (UInt64.ofNat ((tx.V : Int) - (2 * c : Nat)).natAbs - 35).toNat
      recoverFrom C (.eip155 c) tx V true

/-- Whether a signer validates `S` with the Homestead bound. -/
def homesteadRules : Signer → Bool
  | .frontier => false
  | _ => true

/-! ## Reading a signature back -/

/-- Thirty-two bytes read as a number and written back padded are the same
bytes. -/
theorem pad32_minimal_ofBytes {b : Bytes} (hb : b.length = 32) : pad32 (minimal (ofBytes b)) = b := by
  have hlt : ofBytes b < 256 ^ 32 := hb ▸ ofBytes_lt b
  rw [pad32, replicate_append_minimal hlt, ← hb, toFixed_ofBytes]

/-- A 65-byte signature is its `R`, its `S` and its `v`. -/
theorem split_signature {sig : Bytes} (hlen : sig.length = 65) :
    sig.take 32 ++ (sig.drop 32).take 32 ++ [sig.getD 64 0] = sig := by
  have hrest : (sig.drop 32).drop 32 = [sig.getD 64 0] := by
    rw [List.drop_drop]
    apply List.ext_getElem
    · simp [hlen]
    · intro i h₁ h₂
      simp only [List.length_drop, hlen] at h₁
      have hi : i = 0 := by omega
      subst hi
      simp [List.getD_eq_getElem?_getD, List.getElem?_eq_getElem (by omega : 64 < sig.length)]
  calc sig.take 32 ++ (sig.drop 32).take 32 ++ [sig.getD 64 0]
      = sig.take 32 ++ ((sig.drop 32).take 32 ++ (sig.drop 32).drop 32) := by
        rw [hrest, List.append_assoc]
    _ = sig := by rw [List.take_append_drop, List.take_append_drop]

/-- The signature a signer rebuilds from the `R` and `S` it stored, with the
recovery id it decoded. -/
theorem rebuilt_signature {sig : Bytes} (hlen : sig.length = 65) :
    pad32 (minimal (ofBytes (sig.take 32))) ++ pad32 (minimal (ofBytes ((sig.drop 32).take 32))) ++
      [sig.getD 64 0] = sig := by
  rw [pad32_minimal_ofBytes (by simp [hlen]), pad32_minimal_ofBytes (by simp [hlen])]
  exact split_signature hlen

/-- `WithSignature` leaves the signed fields alone, so the hash is the
unsigned transaction's. -/
theorem Hash_withSignature {s : Signer} {tx t : TxData} {sig : Bytes}
    (h : s.WithSignature tx sig = some t) : s.Hash C t = s.Hash C tx := by
  unfold WithSignature at h
  split_ifs at h
  cases s with
  | frontier => cases h; rfl
  | homestead => cases h; rfl
  | eip155 c =>
    dsimp only at h
    split_ifs at h <;> cases h <;> rfl

/-- What `WithSignature` stores, when it does not panic. -/
theorem withSignature_fields {s : Signer} {tx t : TxData} {sig : Bytes}
    (h : s.WithSignature tx sig = some t) :
    sig.length = 65 ∧ t.R = ofBytes (sig.take 32) ∧ t.S = ofBytes ((sig.drop 32).take 32) := by
  unfold WithSignature at h
  split_ifs at h with hlen
  refine ⟨not_not.1 hlen, ?_⟩
  cases s with
  | frontier => cases h; exact ⟨rfl, rfl⟩
  | homestead => cases h; exact ⟨rfl, rfl⟩
  | eip155 c =>
    dsimp only at h
    split_ifs at h <;> cases h <;> exact ⟨rfl, rfl⟩

/-- A signer that decoded the recovery id it stored hands `Ecrecover` the
signature it was given. -/
theorem recoverFrom_signature {s : Signer} {t : TxData} {sig : Bytes} (hlen : sig.length = 65)
    (hR : t.R = ofBytes (sig.take 32)) (hS : t.S = ofBytes ((sig.drop 32).take 32))
    {homestead : Bool}
    (hvalid : ValidateSignatureValues (sig.getD 64 0) t.R t.S homestead = true) :
    recoverFrom C s t (sig.getD 64 0) homestead = recoverPub C (s.Hash C t) sig := by
  rw [recoverFrom, if_neg (by rw [hvalid]; decide)]
  dsimp only
  rw [hR, hS, rebuilt_signature hlen]

/-- `V = v + 27` decodes to `v`. -/
theorem legacy_recovery_id {v : UInt8} (hv : v = 0 ∨ v = 1) :
    UInt8.ofNat (UInt64.ofNat (v + 27).toNat - 27).toNat = v := by
  rcases hv with rfl | rfl <;> decide

/-- `V = v + 35 + 2c` decodes to `v`. -/
theorem eip155_recovery_id {v : UInt8} (hv : v = 0 ∨ v = 1) (c : Nat) :
    UInt8.ofNat (UInt64.ofNat ((((v + 35).toNat + 2 * c : Nat) : Int) - (2 * c : Nat)).natAbs - 35).toNat
      = v := by
  have habs : ((((v + 35).toNat + 2 * c : Nat) : Int) - (2 * c : Nat)).natAbs = (v + 35).toNat := by
    omega
  rw [habs]
  rcases hv with rfl | rfl <;> decide

/-- An EIP-155 `V` is protected and carries its chain id, whether or not it
fits in 64 bits. -/
theorem eip155_chainId {v : Nat} (hv : v < 2) (c : Nat) :
    isProtectedV (v + 35 + 2 * c) = true ∧ deriveChainId (v + 35 + 2 * c) = c := by
  constructor
  · unfold isProtectedV
    split_ifs
    · simp only [bne_iff_ne, Bool.and_eq_true, ne_eq]
      omega
    · rfl
  · unfold deriveChainId
    split_ifs with hsmall hlegacy
    · omega
    · -- the 64-bit subtraction does not wrap: `V` is at least 35
      have h35 : (35 : UInt64).toNat = 35 := rfl
      have hle : (35 : UInt64) ≤ UInt64.ofNat (v + 35 + 2 * c) := by
        rw [UInt64.le_iff_toNat_le, UInt64.toNat_ofNat_of_lt' hsmall, h35]
        omega
      have hsub : (UInt64.ofNat (v + 35 + 2 * c) - 35).toNat = v + 2 * c := by
        rw [UInt64.toNat_sub_of_le _ _ hle, UInt64.toNat_ofNat_of_lt' hsmall, h35]
        omega
      rw [UInt64.toNat_div, hsub]
      show (v + 2 * c) / 2 = c
      omega
    · omega

/-- Signing with a signer and reading the key back hands `Ecrecover` the
signature over the hash of the unsigned transaction, for Frontier, Homestead
and EIP-155 with a chain id other than zero; an EIP-155 transaction is
protected and carries its chain id. -/
theorem publicKey_withSignature {s : Signer} (hs : s ≠ .eip155 0) {tx t : TxData} {sig : Bytes}
    (hv : sig.getD 64 0 = 0 ∨ sig.getD 64 0 = 1)
    (hvalid : ValidateSignatureValues (sig.getD 64 0) (ofBytes (sig.take 32))
      (ofBytes ((sig.drop 32).take 32)) s.homesteadRules = true)
    (h : s.WithSignature tx sig = some t) :
    s.Hash C t = s.Hash C tx ∧ s.PublicKey C t = recoverPub C (s.Hash C tx) sig ∧
      ∀ c, s = .eip155 c → t.Protected = true ∧ t.ChainId = c := by
  have hhash := Hash_withSignature C h
  obtain ⟨hlen, hR, hS⟩ := withSignature_fields h
  rw [← hR, ← hS] at hvalid
  have hrecover := fun s' => recoverFrom_signature C (s := s') hlen hR hS hvalid
  have hv2 : (sig.getD 64 0).toNat < 2 := by rcases hv with hv | hv <;> rw [hv] <;> decide
  unfold WithSignature at h
  rw [if_neg (by simp [hlen])] at h
  dsimp only at h
  cases s with
  | frontier =>
    cases h
    refine ⟨hhash, ?_, fun c hc => by cases hc⟩
    rw [← hhash, PublicKey, legacyPublicKey, if_neg (not_le.2 (UInt8.toNat_lt _)),
      legacy_recovery_id hv]
    exact hrecover .frontier
  | homestead =>
    cases h
    refine ⟨hhash, ?_, fun c hc => by cases hc⟩
    rw [← hhash, PublicKey, legacyPublicKey, if_neg (not_le.2 (UInt8.toNat_lt _)),
      legacy_recovery_id hv]
    exact hrecover .homestead
  | eip155 c =>
    have hc : c ≠ 0 := fun hc => hs (by rw [hc])
    dsimp only at h
    rw [if_pos hc] at h
    cases h
    -- the stored `V` is `v + 35 + 2c`
    have hV : (sig.getD 64 0 + 35).toNat = (sig.getD 64 0).toNat + 35 := by
      rcases hv with hv | hv <;> rw [hv] <;> decide
    obtain ⟨hprotected, hchain⟩ := eip155_chainId hv2 c
    rw [← hV] at hprotected hchain
    refine ⟨hhash, ?_, fun c' hc' => ?_⟩
    · simp only [PublicKey, TxData.Protected, TxData.ChainId, hprotected, hchain, Bool.not_true,
        Bool.false_eq_true, if_false, ne_eq, not_true_eq_false]
      rw [eip155_recovery_id hv c, ← hhash]
      exact hrecover (.eip155 c)
    · cases hc'
      exact ⟨hprotected, hchain⟩

/-- An EIP-155 signer of chain 1 stores recovery id 1 as `V = 38`, and its
`PublicKey` recovers from the signature over the unsigned hash. -/
theorem publicKey_withSignature_chain_one :
    ∃ t, (Signer.eip155 1).WithSignature ⟨0, 1, 21000, none, 0, [], 0, 0, 0⟩
        (List.replicate 64 (1 : UInt8) ++ [1]) = some t ∧ t.V = 38 ∧
      Signer.eip155 1 ≠ .eip155 0 ∧
      ((List.replicate 64 (1 : UInt8) ++ [1]).getD 64 0 = 0 ∨ (List.replicate 64 (1 : UInt8) ++ [1]).getD 64 0 = 1) ∧
      ValidateSignatureValues ((List.replicate 64 (1 : UInt8) ++ [1]).getD 64 0)
        (ofBytes ((List.replicate 64 (1 : UInt8) ++ [1]).take 32))
        (ofBytes (((List.replicate 64 (1 : UInt8) ++ [1]).drop 32).take 32)) (Signer.eip155 1).homesteadRules = true ∧
      (Signer.eip155 1).Hash ⟨fun _ => 0, fun _ _ => .ok [4]⟩ t =
          (Signer.eip155 1).Hash ⟨fun _ => 0, fun _ _ => .ok [4]⟩ ⟨0, 1, 21000, none, 0, [], 0, 0, 0⟩ ∧
        (Signer.eip155 1).PublicKey ⟨fun _ => 0, fun _ _ => .ok [4]⟩ t =
          recoverPub ⟨fun _ => 0, fun _ _ => .ok [4]⟩
            ((Signer.eip155 1).Hash ⟨fun _ => 0, fun _ _ => .ok [4]⟩ ⟨0, 1, 21000, none, 0, [], 0, 0, 0⟩)
            (List.replicate 64 (1 : UInt8) ++ [1]) ∧
        ∀ c, Signer.eip155 1 = .eip155 c → t.Protected = true ∧ t.ChainId = c :=
  ⟨_, rfl, rfl, by decide, Or.inr rfl, by decide,
    publicKey_withSignature ⟨fun _ => 0, fun _ _ => .ok [4]⟩ (by decide) (Or.inr rfl) (by decide) rfl⟩

/-- An EIP-155 signer for chain id zero stores the bare recovery id, which
reads as a protected transaction of chain `(v - 35) / 2` in 64 bits: its
own `PublicKey` rejects it. -/
theorem eip155_zero_rejects_own_signature {tx t : TxData} {sig : Bytes}
    (hv : sig.getD 64 0 = 0 ∨ sig.getD 64 0 = 1) (h : (Signer.eip155 0).WithSignature tx sig = some t) :
    t.Protected = true ∧ t.ChainId ≠ 0 ∧ (Signer.eip155 0).PublicKey C t = .error .invalidChainId := by
  -- `V` is the bare recovery id, 0 or 1
  have hV : t.V = (sig.getD 64 0).toNat := by
    unfold WithSignature at h
    split_ifs at h
    dsimp only at h
    rw [if_neg (by decide)] at h
    cases h
    rfl
  have hprotected : t.Protected = true := by
    rw [TxData.Protected, hV]
    rcases hv with hv | hv <;> rw [hv] <;> decide
  have hchain : t.ChainId ≠ 0 := by
    rw [TxData.ChainId, hV]
    rcases hv with hv | hv <;> rw [hv] <;> decide
  refine ⟨hprotected, hchain, ?_⟩
  simp only [PublicKey, hprotected, Bool.not_true, Bool.false_eq_true, if_false]
  rw [if_pos hchain]

/-- Chain id zero and a signature with recovery id 0: the signed
transaction reads as one of chain `2^63 - 18`. -/
theorem eip155_zero_rejects_own_signature_recovery_id_zero :
    ∃ t, (Signer.eip155 0).WithSignature ⟨0, 1, 21000, none, 0, [], 0, 0, 0⟩
        (List.replicate 64 1 ++ [0]) = some t ∧
      ((List.replicate 64 1 ++ [0]).getD 64 0 = 0 ∨ (List.replicate 64 1 ++ [0]).getD 64 0 = 1) ∧
      t.ChainId = 2 ^ 63 - 18 ∧ t.Protected = true ∧ t.ChainId ≠ 0 ∧
      (Signer.eip155 0).PublicKey ⟨fun _ => 0, fun _ _ => .ok [4]⟩ t = .error .invalidChainId :=
  ⟨_, rfl, Or.inl rfl, by decide,
    @eip155_zero_rejects_own_signature ⟨fun _ => 0, fun _ _ => .ok [4]⟩ ⟨0, 1, 21000, none, 0, [], 0, 0, 0⟩
      _ (List.replicate 64 1 ++ [0]) (Or.inl rfl) rfl⟩

end Signer

end Types

end Bazacoin
