import Bazacoin.Core.Types
import Mathlib.Data.Finset.Card

/-!
# Clique voting snapshots (`consensus/clique/snapshot.go`, `clique.go`)

A clique `Snapshot` is the state of the authorization voting after a block:
the set of authorized signers, the signers of the most recent blocks
(`Recents`, keyed by block number), the votes cast since the last checkpoint
in chronological order (`Votes`), and a cached count of those votes per
account (`Tally`).

`Snapshot.apply` runs the headers after the snapshot's block one by one
(`applyHeader`): a checkpoint block clears the votes, the oldest recent
signer is forgotten, the header's signer must be authorized and must not be
among the recent signers, its vote replaces its previous vote on the same
account, and a vote that reaches a majority adds or removes the account.

The same "signed recently" rule is written three times: in `apply`, in
`verifySeal` (`seen > number - limit`, in uint64) and in `Seal`
(`number < limit || seen > number - limit`). Near genesis the subtraction in
`verifySeal` wraps around, and `verifySeal` accepts a header that `apply`
rejects and that `Seal` would not sign.

Block numbers are `Nat` (Go's `*big.Int`, read with `Uint64()`); only the one
subtraction that can wrap is computed in `UInt64`. `ecrecover` (the signer
recovered from the header's seal) and the header hash are parameters.
-/

namespace Bazacoin

namespace Clique

open State Bazacoin.Types

/-- The errors of the modelled functions; `recover` carries an error of
`ecrecover`. -/
inductive CliqueError
  | invalidVotingChain
  | unauthorized
  | invalidVote
  | unknownBlock
  | invalidDifficulty
  | recover (msg : String)
  deriving DecidableEq, Repr

/-- `params.CliqueConfig`, with the epoch `New` makes positive (a zero epoch
is replaced by `epochLength`). -/
structure CliqueConfig where
  epoch : Nat
  epoch_pos : 0 < epoch

/-- `nonceAuthVote`: the nonce of a vote to add a signer. -/
def nonceAuthVote : UInt64 := 0xffffffffffffffff

/-- `nonceDropVote`: the nonce of a vote to remove a signer. -/
def nonceDropVote : UInt64 := 0

/-- `Vote`: an authorized signer's vote to change an account's authorization. -/
structure Vote where
  signer : Address
  block : Nat
  address : Address
  authorize : Bool
  deriving DecidableEq, Repr

/-- `Tally`: the votes cast so far for one proposal. -/
structure Tally where
  authorize : Bool
  votes : Nat
  deriving DecidableEq, Repr

/-- `Snapshot`, without its configuration and signature cache. -/
structure Snapshot where
  number : Nat
  hash : Hash
  signers : Finset Address
  recents : AList (fun _ : Nat => Address)
  votes : List Vote
  tally : AList (fun _ : Address => Tally)

/-- `newSnapshot`: the snapshot of a genesis or checkpoint block, with no
recent signers and no votes. -/
def newSnapshot (number : Nat) (hash : Hash) (signers : List Address) : Snapshot :=
  ⟨number, hash, signers.toFinset, ∅, [], ∅⟩

namespace Snapshot

/-- `validVote`: a vote adds a non-signer or removes a signer. -/
def validVote (s : Snapshot) (address : Address) (authorize : Bool) : Bool :=
  let signer := decide (address ∈ s.signers)
  (signer && !authorize) || (!signer && authorize)

/-- `cast`: count a meaningful vote into the tally. -/
def cast (s : Snapshot) (address : Address) (authorize : Bool) : Bool × Snapshot :=
  if !s.validVote address authorize then (false, s)
  else
    match s.tally.lookup address with
    | some old => (true, { s with tally := s.tally.insert address { old with votes := old.votes + 1 } })
    | none => (true, { s with tally := s.tally.insert address ⟨authorize, 1⟩ })

/-- `uncast`: take a counted vote back out of the tally. -/
def uncast (s : Snapshot) (address : Address) (authorize : Bool) : Bool × Snapshot :=
  match s.tally.lookup address with
  -- a dangling vote: nothing to revert
  | none => (false, s)
  | some tally =>
    if tally.authorize != authorize then (false, s)
    else if tally.votes > 1 then
      (true, { s with tally := s.tally.insert address { tally with votes := tally.votes - 1 } })
    else (true, { s with tally := s.tally.erase address })

/-- `uint64(len(snap.Signers)/2 + 1)`: how many blocks a signer must wait. -/
def limit (s : Snapshot) : Nat := s.signers.card / 2 + 1

/-- The checkpoint step of `apply`: a block at an epoch boundary clears the
votes. -/
def checkpoint (config : CliqueConfig) (s : Snapshot) (number : Nat) : Snapshot :=
  if number % config.epoch = 0 then { s with votes := [], tally := ∅ } else s

/-- Delete the oldest signer from the recent list, so that it may sign again
at block `number`. -/
def forgetRecent (s : Snapshot) (number : Nat) : Snapshot :=
  if number ≥ s.limit then { s with recents := s.recents.erase (number - s.limit) } else s

/-- The loop over `snap.Recents` in `apply`: whether `signer` signed one of
the recent blocks. -/
def recentlySigned (s : Snapshot) (signer : Address) : Bool :=
  s.recents.entries.any fun e => e.2 = signer

/-- Whether a vote is `signer`'s vote on `address`. -/
def voteOn (signer address : Address) (v : Vote) : Bool :=
  decide (v.signer = signer) && decide (v.address = address)

/-- The loop that discards `signer`'s previous vote on `address`: the first
such vote is uncast and removed, and the loop breaks. -/
def discardVote (s : Snapshot) (signer address : Address) : Snapshot :=
  match s.votes.find? (voteOn signer address) with
  | some vote =>
    { (s.uncast vote.address vote.authorize).2 with votes := s.votes.eraseP (voteOn signer address) }
  | none => s

/-- The loop over `snap.Votes` that discards the votes a deauthorized `signer`
cast, uncasting each from the tally: the votes kept, and the snapshot with the
updated tally. -/
def uncastVotesOf (signer : Address) : List Vote → Snapshot → List Vote × Snapshot
  | [], s => ([], s)
  | v :: vs, s =>
    if v.signer = signer then uncastVotesOf signer vs (s.uncast v.address v.authorize).2
    else
      let r := uncastVotesOf signer vs s
      (v :: r.1, r.2)

/-- The end of `apply`'s loop body: when the tally on `coinbase` passes a
majority, add or remove it, then discard every vote on it. -/
def passVote (s : Snapshot) (coinbase : Address) (number : Nat) : Snapshot :=
  let tally := (s.tally.lookup coinbase).getD ⟨false, 0⟩
  if tally.votes > s.signers.card / 2 then
    let s :=
      if tally.authorize then { s with signers := insert coinbase s.signers }
      else
        -- signer list shrunk: delete any leftover recent caches, and the
        -- votes the deauthorized signer cast
        let s := ({ s with signers := s.signers.erase coinbase } : Snapshot).forgetRecent number
        let r := uncastVotesOf coinbase s.votes s
        { r.2 with votes := r.1 }
    { s with votes := s.votes.filter (fun v => v.address ≠ coinbase), tally := s.tally.erase coinbase }
  else s

/-- Count a vote into the tally and, when it counts, add it to the
chronological list. -/
def recordVote (s : Snapshot) (signer : Address) (number : Nat) (address : Address)
    (authorize : Bool) : Snapshot :=
  let r := s.cast address authorize
  if r.1 then { r.2 with votes := r.2.votes ++ [⟨signer, number, address, authorize⟩] } else r.2

/-- The vote a header's nonce casts: authorize, deauthorize, or an invalid
nonce. -/
def nonceVote (nonce : UInt64) : Except CliqueError Bool :=
  if nonce = nonceAuthVote then .ok true
  else if nonce = nonceDropVote then .ok false
  else .error .invalidVote

section

variable (config : CliqueConfig) (ecrecover : Header → Except String Address)
  (headerHash : Header → Hash)

/-- One iteration of `apply`'s loop over the headers. -/
def applyHeader (snap : Snapshot) (header : Header) : Except CliqueError Snapshot := do
  let number := header.number
  -- remove any votes on checkpoint blocks, and forget the oldest signer
  let snap := (snap.checkpoint config number).forgetRecent number
  -- resolve the authorization key and check against signers
  let signer ← (ecrecover header).mapError .recover
  if signer ∉ snap.signers then throw .unauthorized
  if snap.recentlySigned signer then throw .unauthorized
  let snap := { snap with recents := snap.recents.insert number signer }
  -- header authorized: discard any previous vote from the signer
  let snap := snap.discardVote signer header.coinbase
  -- tally up the new vote from the signer
  let authorize ← nonceVote header.nonce
  -- if the vote passed, update the list of signers
  pure ((snap.recordVote signer number header.coinbase authorize).passVote header.coinbase number)

end

end Snapshot

/-- The sanity check of `apply`: the headers' numbers are consecutive. -/
def consecutive : List Header → Bool
  | a :: b :: rest => b.number == a.number + 1 && consecutive (b :: rest)
  | _ => true

section

variable (config : CliqueConfig) (ecrecover : Header → Except String Address)
  (headerHash : Header → Hash)

/-- `Snapshot.apply`: the snapshot after the given headers, which must follow
the snapshot's block without gaps. -/
def Snapshot.apply (s : Snapshot) (headers : List Header) : Except CliqueError Snapshot :=
  match headers with
  | [] => .ok s
  | first :: rest =>
    if !consecutive (first :: rest) then .error .invalidVotingChain
    else if first.number ≠ s.number + 1 then .error .invalidVotingChain
    else do
      let snap ← (first :: rest).foldlM (Snapshot.applyHeader config ecrecover) s
      pure { snap with number := snap.number + (first :: rest).length,
                       hash := headerHash ((first :: rest).getLast (List.cons_ne_nil _ _)) }

/-- `inturn`: whether it is `signer`'s turn at block `number`. Go sorts the
signers and takes the signer's position; that position is the number of
signers below it (all of them when it is not a signer). -/
def Snapshot.inturn (s : Snapshot) (number : Nat) (signer : Address) : Bool :=
  let offset :=
    if signer ∈ s.signers then (s.signers.filter fun a => a.toNat < signer.toNat).card
    else s.signers.card
  number % s.signers.card == offset

/-- The recents loop of `verifySeal`: a recent signature by `signer` fails
the header unless it is shifted out, `seen > number-limit` in uint64. -/
def verifySealRecent (s : Snapshot) (number : Nat) (signer : Address) : Bool :=
  s.recents.entries.any fun e =>
    decide (e.2 = signer) && decide (UInt64.ofNat number - UInt64.ofNat s.limit < UInt64.ofNat e.1)

/-- `verifySeal`, given the snapshot of the parent block. -/
def verifySeal (snap : Snapshot) (header : Header) : Except CliqueError Unit := do
  let number := header.number
  -- verifying the genesis block is not supported
  if number = 0 then throw .unknownBlock
  let signer ← (ecrecover header).mapError .recover
  if signer ∉ snap.signers then throw .unauthorized
  if verifySealRecent snap number signer then throw .unauthorized
  -- the difficulty must match the turn-ness of the signer
  let inturn := snap.inturn number signer
  if inturn && header.difficulty ≠ 2 then throw .invalidDifficulty
  if !inturn && header.difficulty ≠ 1 then throw .invalidDifficulty
  pure ()

/-- The recents loop of `Seal`: `number < limit || seen > number-limit`. -/
def sealWaits (s : Snapshot) (number : Nat) (signer : Address) : Bool :=
  s.recents.entries.any fun e =>
    decide (e.2 = signer) &&
      (decide (number < s.limit) || decide (UInt64.ofNat number - UInt64.ofNat s.limit < UInt64.ofNat e.1))

/-- What `Seal` does once it has the parent's snapshot: wait for the next
block (`<-stop`), or go on to sign. -/
inductive SealStep
  | wait
  | sign
  deriving DecidableEq, Repr

/-- The checks of `Seal` before it signs, for the local `signer`. -/
def Seal (snap : Snapshot) (signer : Address) (header : Header) : Except CliqueError SealStep :=
  if header.number = 0 then .error .unknownBlock
  else if signer ∉ snap.signers then .error .unauthorized
  else if sealWaits snap header.number signer then .ok .wait
  else .ok .sign

/-- Near genesis `verifySeal` lets a recent signer sign again. With four
signers the limit is 3: signer 1 signs block 1 and then block 2. `apply`
rejects block 2 and `Seal` would wait, but `verifySeal` accepts it, since
`2 - 3` wraps around in uint64 and no block number is above it. -/
theorem verifySeal_accepts_recent_signer :
    ((newSnapshot 0 0 [1, 2, 3, 4]).apply ⟨30000, by decide⟩ (fun _ => .ok 1) (fun _ => 0)
        [⟨0, 0, 1, 1, 0, 0, 0, [], 0⟩] >>= fun s =>
      (s.apply ⟨30000, by decide⟩ (fun _ => .ok 1) (fun _ => 0) [⟨0, 0, 1, 2, 0, 0, 0, [], 0⟩]).map
        fun _ => ()) = .error .unauthorized ∧
    ((newSnapshot 0 0 [1, 2, 3, 4]).apply ⟨30000, by decide⟩ (fun _ => .ok 1) (fun _ => 0)
        [⟨0, 0, 1, 1, 0, 0, 0, [], 0⟩] >>= fun s =>
      verifySeal (fun _ => .ok 1) s ⟨0, 0, 1, 2, 0, 0, 0, [], 0⟩) = .ok () ∧
    ((newSnapshot 0 0 [1, 2, 3, 4]).apply ⟨30000, by decide⟩ (fun _ => .ok 1) (fun _ => 0)
        [⟨0, 0, 1, 1, 0, 0, 0, [], 0⟩] >>= fun s =>
      Seal s 1 ⟨0, 0, 1, 2, 0, 0, 0, [], 0⟩) = .ok .wait := by
  decide +kernel

end

end Clique

end Bazacoin
