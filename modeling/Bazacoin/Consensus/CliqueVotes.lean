import Bazacoin.Consensus.Clique
import Bazacoin.Lib.Outcome

/-!
# The vote bookkeeping of clique snapshots

`Snapshot.apply` keeps two records of the same votes: the chronological list
`Votes` and the cached `Tally`. Every snapshot reachable from a genesis
snapshot by `apply` keeps them in step (`Bookkeeping`):

- no signer has two votes on the same account;
- every vote is by a signer, and is to authorize exactly when its account is
  not a signer;
- the tally of an account is the number of votes on it (`tallyOf`), and
  there is no tally for an account nobody voted on.

It also keeps its recent signers inside the window of the last `limit`
blocks (`RecentWindow`).

Each operation of `applyHeader` keeps the bookkeeping (`bookkeeping_discardVote`,
`bookkeeping_recordVote`, `bookkeeping_passVote`) and the window
(`window_forget`, `window_insert`); `apply` runs `applyHeader` over
consecutive headers (`consistent_foldlM`), and induction over the `apply`
calls gives the invariant of every reachable snapshot
(`reachable_consistent`).
-/

namespace Bazacoin

namespace Clique

open State Bazacoin.Types

/-! ## Votes and the tally they determine -/

/-- The number of votes on `a`. -/
def votesOn (votes : List Vote) (a : Address) : Nat :=
  votes.countP fun v => v.address = a

/-- The tally the votes determine for `a`: their number, and whether they are
to authorize `a`, which a valid vote is exactly when `a` is not a signer. -/
def tallyOf (signers : Finset Address) (votes : List Vote) (a : Address) : Option Tally :=
  if votesOn votes a = 0 then none else some ⟨decide (a ∉ signers), votesOn votes a⟩

/-- The (signer, account) pair of a vote. -/
def Vote.pair (v : Vote) : Address × Address := (v.signer, v.address)

@[simp] theorem votesOn_nil (a : Address) : votesOn [] a = 0 := rfl

@[simp] theorem votesOn_cons (v : Vote) (l : List Vote) (a : Address) :
    votesOn (v :: l) a = votesOn l a + if v.address = a then 1 else 0 := by
  simp [votesOn, List.countP_cons]

@[simp] theorem votesOn_append (l l' : List Vote) (a : Address) :
    votesOn (l ++ l') a = votesOn l a + votesOn l' a := by
  simp [votesOn, List.countP_append]

theorem votesOn_filter_ne (l : List Vote) {a b : Address} (hab : a ≠ b) :
    votesOn (l.filter fun v => v.address ≠ b) a = votesOn l a := by
  induction l with
  | nil => rfl
  | cons v l ih =>
    rw [List.filter_cons]
    by_cases hv : v.address = b
    · have hva : ¬ v.address = a := fun h => hab (h ▸ hv)
      rw [if_neg (by simpa using hv), ih, votesOn_cons, if_neg hva, Nat.add_zero]
    · rw [if_pos (by simpa using hv), votesOn_cons, votesOn_cons, ih]

/-- The tally depends on the votes only through their numbers. -/
theorem tallyOf_congr {S : Finset Address} {l l' : List Vote} (h : ∀ a, votesOn l a = votesOn l' a) :
    tallyOf S l = tallyOf S l' := by
  funext a
  simp only [tallyOf, h a]

/-- The tally on an account depends on the signers only through whether it
is one of them. -/
theorem tallyOf_signers {S S' : Finset Address} {a : Address} (h : a ∈ S ↔ a ∈ S') (l : List Vote) :
    tallyOf S l a = tallyOf S' l a := by
  simp only [tallyOf, h]

theorem tallyOf_middle (S : Finset Address) (l₁ l₂ : List Vote) (v : Vote) :
    tallyOf S (l₁ ++ v :: l₂) = tallyOf S (v :: (l₁ ++ l₂)) :=
  tallyOf_congr fun a => by simp only [votesOn_append, votesOn_cons]; omega

/-- A vote is valid exactly when it is to authorize a non-signer or to
deauthorize a signer. -/
theorem Snapshot.validVote_iff (s : Snapshot) (a : Address) (authorize : Bool) :
    s.validVote a authorize = true ↔ authorize = decide (a ∉ s.signers) := by
  unfold Snapshot.validVote
  cases authorize <;> by_cases h : a ∈ s.signers <;> simp [h]

/-! ## What each operation leaves alone -/

namespace Snapshot

variable (s : Snapshot)

theorem uncast_frame (a : Address) (b : Bool) :
    (s.uncast a b).2 = { s with tally := (s.uncast a b).2.tally } := by
  unfold uncast
  split
  · rfl
  · split
    · rfl
    · split <;> rfl

@[simp] theorem uncast_signers (a : Address) (b : Bool) : (s.uncast a b).2.signers = s.signers := by
  rw [uncast_frame]

theorem cast_frame (a : Address) (b : Bool) :
    (s.cast a b).2 = { s with tally := (s.cast a b).2.tally } := by
  unfold cast
  split
  · rfl
  · split <;> rfl

@[simp] theorem cast_signers (a : Address) (b : Bool) : (s.cast a b).2.signers = s.signers := by
  rw [cast_frame]

@[simp] theorem cast_recents (a : Address) (b : Bool) : (s.cast a b).2.recents = s.recents := by
  rw [cast_frame]

@[simp] theorem cast_votes (a : Address) (b : Bool) : (s.cast a b).2.votes = s.votes := by
  rw [cast_frame]

@[simp] theorem cast_number (a : Address) (b : Bool) : (s.cast a b).2.number = s.number := by
  rw [cast_frame]

/-- An invalid vote is not counted. -/
theorem cast_of_invalid {a : Address} {b : Bool} (h : s.validVote a b = false) : s.cast a b = (false, s) := by
  simp [cast, h]

theorem cast_fst_of_valid {a : Address} {b : Bool} (h : s.validVote a b = true) : (s.cast a b).1 = true := by
  unfold cast
  simp only [h, Bool.not_true, Bool.false_eq_true, if_false]
  split <;> rfl

theorem discardVote_frame (signer a : Address) :
    s.discardVote signer a =
      { s with votes := (s.discardVote signer a).votes, tally := (s.discardVote signer a).tally } := by
  unfold discardVote
  split
  · rw [uncast_frame]
  · rfl

@[simp] theorem discardVote_signers (signer a : Address) : (s.discardVote signer a).signers = s.signers := by
  rw [discardVote_frame]

@[simp] theorem discardVote_recents (signer a : Address) : (s.discardVote signer a).recents = s.recents := by
  rw [discardVote_frame]

@[simp] theorem discardVote_number (signer a : Address) : (s.discardVote signer a).number = s.number := by
  rw [discardVote_frame]

/-- Discarding removes the first vote of `signer` on `a`, if there is one. -/
theorem discardVote_votes (signer a : Address) :
    (s.discardVote signer a).votes = s.votes.eraseP (voteOn signer a) := by
  unfold discardVote
  split
  · rfl
  · rename_i hnone
    exact (List.eraseP_of_forall_not (List.find?_eq_none.mp hnone)).symm

@[simp] theorem recordVote_signers (signer : Address) (number : Nat) (a : Address) (b : Bool) :
    (s.recordVote signer number a b).signers = s.signers := by
  unfold recordVote
  dsimp only
  split <;> simp

@[simp] theorem recordVote_recents (signer : Address) (number : Nat) (a : Address) (b : Bool) :
    (s.recordVote signer number a b).recents = s.recents := by
  unfold recordVote
  dsimp only
  split <;> simp

@[simp] theorem recordVote_number (signer : Address) (number : Nat) (a : Address) (b : Bool) :
    (s.recordVote signer number a b).number = s.number := by
  unfold recordVote
  dsimp only
  split <;> simp

@[simp] theorem checkpoint_signers (config : CliqueConfig) (n : Nat) :
    (s.checkpoint config n).signers = s.signers := by
  unfold checkpoint
  split <;> rfl

@[simp] theorem checkpoint_recents (config : CliqueConfig) (n : Nat) :
    (s.checkpoint config n).recents = s.recents := by
  unfold checkpoint
  split <;> rfl

@[simp] theorem checkpoint_number (config : CliqueConfig) (n : Nat) :
    (s.checkpoint config n).number = s.number := by
  unfold checkpoint
  split <;> rfl

@[simp] theorem checkpoint_limit (config : CliqueConfig) (n : Nat) :
    (s.checkpoint config n).limit = s.limit := by
  simp [limit]

theorem forgetRecent_frame (n : Nat) :
    s.forgetRecent n = { s with recents := (s.forgetRecent n).recents } := by
  unfold forgetRecent
  split <;> rfl

@[simp] theorem forgetRecent_signers (n : Nat) : (s.forgetRecent n).signers = s.signers := by
  rw [forgetRecent_frame]

@[simp] theorem forgetRecent_votes (n : Nat) : (s.forgetRecent n).votes = s.votes := by
  rw [forgetRecent_frame]

@[simp] theorem forgetRecent_tally (n : Nat) : (s.forgetRecent n).tally = s.tally := by
  rw [forgetRecent_frame]

@[simp] theorem forgetRecent_number (n : Nat) : (s.forgetRecent n).number = s.number := by
  rw [forgetRecent_frame]

@[simp] theorem forgetRecent_limit (n : Nat) : (s.forgetRecent n).limit = s.limit := by
  simp [limit]

theorem forgetRecent_recents (n : Nat) :
    (s.forgetRecent n).recents = if n ≥ s.limit then s.recents.erase (n - s.limit) else s.recents := by
  unfold forgetRecent
  split_ifs <;> rfl

/-- The deauthorization loop only changes the tally of the snapshot it
threads. -/
theorem uncastVotesOf_frame (x : Address) :
    ∀ (vs : List Vote) (s : Snapshot),
      (Snapshot.uncastVotesOf x vs s).2 = { s with tally := (Snapshot.uncastVotesOf x vs s).2.tally }
  | [], _ => rfl
  | v :: vs, s => by
    unfold Snapshot.uncastVotesOf
    split
    · rw [uncastVotesOf_frame x vs, uncast_frame]
    · exact uncastVotesOf_frame x vs s

@[simp] theorem uncastVotesOf_number (x : Address) (vs : List Vote) (s : Snapshot) :
    (Snapshot.uncastVotesOf x vs s).2.number = s.number := by
  rw [uncastVotesOf_frame]

@[simp] theorem uncastVotesOf_signers (x : Address) (vs : List Vote) (s : Snapshot) :
    (Snapshot.uncastVotesOf x vs s).2.signers = s.signers := by
  rw [uncastVotesOf_frame]

@[simp] theorem uncastVotesOf_recents (x : Address) (vs : List Vote) (s : Snapshot) :
    (Snapshot.uncastVotesOf x vs s).2.recents = s.recents := by
  rw [uncastVotesOf_frame]

@[simp] theorem passVote_number (cb : Address) (n : Nat) : (s.passVote cb n).number = s.number := by
  unfold passVote
  dsimp only
  split_ifs <;> simp

end Snapshot

/-! ## The tally through `uncast` and `cast` -/

/-- Uncasting a vote from a tally that counts it leaves the tally of the
other votes. -/
theorem tally_uncast {s : Snapshot} {S : Finset Address} {v : Vote} {l : List Vote}
    (ht : ∀ a, s.tally.lookup a = tallyOf S (v :: l) a) (hv : v.authorize = decide (v.address ∉ S)) :
    ∀ a, (s.uncast v.address v.authorize).2.tally.lookup a = tallyOf S l a := by
  have hlook : s.tally.lookup v.address = some ⟨v.authorize, votesOn l v.address + 1⟩ := by
    rw [ht, tallyOf, votesOn_cons, if_pos rfl, if_neg (Nat.succ_ne_zero _), hv]
  intro a
  unfold Snapshot.uncast
  rw [hlook]
  simp only [bne_self_eq_false, Bool.false_eq_true, if_false]
  by_cases ha : a = v.address
  · -- the tally on the vote's account goes down by one, or goes away
    subst ha
    split_ifs with hgt
    · rw [AList.lookup_insert, tallyOf, if_neg (by omega), hv]
      rfl
    · rw [AList.lookup_erase, tallyOf, if_pos (by omega)]
  · have hcount : votesOn (v :: l) a = votesOn l a := by
      rw [votesOn_cons, if_neg (Ne.symm ha), Nat.add_zero]
    have hother : tallyOf S (v :: l) a = tallyOf S l a := by
      simp only [tallyOf, hcount]
    split_ifs
    · rw [AList.lookup_insert_ne ha, ht, hother]
    · rw [AList.lookup_erase_ne ha, ht, hother]

/-- Casting a valid vote counts it. -/
theorem tally_cast {s : Snapshot} {l : List Vote} (ht : ∀ a, s.tally.lookup a = tallyOf s.signers l a)
    {v : Vote} (hvalid : s.validVote v.address v.authorize = true) :
    ∀ a, (s.cast v.address v.authorize).2.tally.lookup a = tallyOf s.signers (l ++ [v]) a := by
  have hauth := (Snapshot.validVote_iff s _ _).mp hvalid
  intro a
  unfold Snapshot.cast
  simp only [hvalid, Bool.not_true, Bool.false_eq_true, if_false]
  by_cases ha : a = v.address
  · -- the vote's account: one more vote than before
    subst ha
    have hcount : votesOn (l ++ [v]) v.address = votesOn l v.address + 1 := by simp
    split
    · rename_i old hold
      rw [ht, tallyOf] at hold
      split_ifs at hold with h0
      cases hold
      rw [AList.lookup_insert, tallyOf, hcount, if_neg (Nat.succ_ne_zero _)]
    · rename_i hnone
      rw [ht, tallyOf] at hnone
      split_ifs at hnone with h0
      rw [AList.lookup_insert, tallyOf, hcount, h0, if_neg (Nat.succ_ne_zero _), hauth]
  · have hcount : votesOn (l ++ [v]) a = votesOn l a := by
      simp [Ne.symm ha]
    split <;> rw [AList.lookup_insert_ne ha, ht, tallyOf, tallyOf, hcount]

/-! ## The bookkeeping invariant -/

/-- The chronological votes and the tally agree, and every vote is a valid
vote of a signer, at most one per signer and account. -/
structure Bookkeeping (s : Snapshot) : Prop where
  votes_nodup : (s.votes.map Vote.pair).Nodup
  signer_mem : ∀ v ∈ s.votes, v.signer ∈ s.signers
  authorize_eq : ∀ v ∈ s.votes, v.authorize = decide (v.address ∉ s.signers)
  tally_eq : ∀ a, s.tally.lookup a = tallyOf s.signers s.votes a

/-- The bookkeeping reads only the signers, the votes and the tally. -/
theorem Bookkeeping.congr {s s' : Snapshot} (h : Bookkeeping s) (hs : s'.signers = s.signers)
    (hv : s'.votes = s.votes) (ht : s'.tally = s.tally) : Bookkeeping s' where
  votes_nodup := hv ▸ h.votes_nodup
  signer_mem := by rw [hv, hs]; exact h.signer_mem
  authorize_eq := by rw [hv, hs]; exact h.authorize_eq
  tally_eq := by rw [hv, hs, ht]; exact h.tally_eq

/-- The tally has an entry exactly for the accounts some vote is on. -/
theorem Bookkeeping.tally_isSome_iff {s : Snapshot} (h : Bookkeeping s) (a : Address) :
    (∃ t, s.tally.lookup a = some t) ↔ ∃ v ∈ s.votes, v.address = a := by
  rw [h.tally_eq, tallyOf]
  split_ifs with hzero
  · unfold votesOn at hzero
    rw [List.countP_eq_zero] at hzero
    simpa using hzero
  · have hpos : 0 < votesOn s.votes a := Nat.pos_of_ne_zero hzero
    unfold votesOn at hpos
    rw [List.countP_pos_iff] at hpos
    simpa using hpos

/-- An entry of the tally counts the votes on its account and has their
direction. -/
theorem Bookkeeping.tally_entry {s : Snapshot} (h : Bookkeeping s) {a : Address} {t : Tally}
    (ht : s.tally.lookup a = some t) :
    t.votes = s.votes.countP (fun v => v.address = a) ∧
      ∀ v ∈ s.votes, v.address = a → t.authorize = v.authorize := by
  rw [h.tally_eq, tallyOf] at ht
  split_ifs at ht with hzero
  cases ht
  refine ⟨rfl, fun v hv hva => ?_⟩
  rw [h.authorize_eq v hv, hva]

theorem bookkeeping_checkpoint {s : Snapshot} (h : Bookkeeping s) (config : CliqueConfig) (n : Nat) :
    Bookkeeping (s.checkpoint config n) := by
  unfold Snapshot.checkpoint
  split
  · exact ⟨List.nodup_nil, by simp, by simp, fun a => by simp [tallyOf]⟩
  · exact h

theorem bookkeeping_forgetRecent {s : Snapshot} (h : Bookkeeping s) (n : Nat) :
    Bookkeeping (s.forgetRecent n) :=
  h.congr (by simp) (by simp) (by simp)

/-- Discarding a signer's previous vote keeps the bookkeeping. -/
theorem bookkeeping_discardVote {s : Snapshot} (h : Bookkeeping s) (signer a : Address) :
    Bookkeeping (s.discardVote signer a) := by
  unfold Snapshot.discardVote
  split
  · rename_i vote hfind
    have hmem := List.mem_of_find?_eq_some hfind
    obtain ⟨w, l₁, l₂, hl₁, hw, hsplit, herase⟩ := List.exists_of_eraseP hmem (List.find?_some hfind)
    -- `find?` and `eraseP` meet the same first vote
    have hwv : w = vote := by
      have hfirst : (l₁ ++ w :: l₂).find? (Snapshot.voteOn signer a) = some w := by
        rw [List.find?_append, List.find?_eq_none.mpr hl₁, List.find?_cons_of_pos hw]
        rfl
      rw [← hsplit, hfind] at hfirst
      exact (Option.some.inj hfirst).symm
    subst hwv
    have hsub : (l₁ ++ l₂).Sublist s.votes :=
      hsplit ▸ (List.Sublist.refl l₁).append (List.sublist_cons_self w l₂)
    refine ⟨?_, ?_, ?_, ?_⟩
    · rw [herase]
      exact h.votes_nodup.sublist (hsub.map _)
    · intro v hv
      rw [herase] at hv
      simpa using h.signer_mem v (hsub.subset hv)
    · intro v hv
      rw [herase] at hv
      simpa using h.authorize_eq v (hsub.subset hv)
    · have ht : ∀ b, s.tally.lookup b = tallyOf s.signers (w :: (l₁ ++ l₂)) b := by
        intro b
        rw [h.tally_eq, hsplit, tallyOf_middle]
      intro b
      simp only [Snapshot.uncast_signers, herase]
      exact tally_uncast ht (h.authorize_eq w hmem) b
  · exact h

/-- After discarding, the signer has no vote left on the account. -/
theorem pair_not_mem_discardVote {s : Snapshot} (h : Bookkeeping s) (signer a : Address) :
    (signer, a) ∉ (s.discardVote signer a).votes.map Vote.pair := by
  rw [Snapshot.discardVote_votes]
  intro hin
  obtain ⟨u, hu, hpair⟩ := List.mem_map.mp hin
  have hp : Snapshot.voteOn signer a u = true := by
    simp only [Vote.pair, Prod.mk.injEq] at hpair
    simp [Snapshot.voteOn, hpair]
  obtain ⟨w, l₁, l₂, -, hw, hsplit, herase⟩ :=
    List.exists_of_eraseP ((List.eraseP_sublist).subset hu) hp
  rw [herase] at hu
  -- the erased vote and `u` would be two votes of the signer on the account
  have hwpair : w.pair = u.pair := by
    simp only [Snapshot.voteOn, Bool.and_eq_true, decide_eq_true_eq] at hw hp
    simp [Vote.pair, hw, hp]
  have hnodup := h.votes_nodup
  rw [hsplit, List.map_append, List.map_cons, List.nodup_middle, List.nodup_cons, ← List.map_append] at hnodup
  exact hnodup.1 (hwpair ▸ List.mem_map_of_mem hu)

/-- Recording a vote of a signer who has none on the account keeps the
bookkeeping. -/
theorem bookkeeping_recordVote {s : Snapshot} (h : Bookkeeping s) {signer : Address} (number : Nat)
    (a : Address) (b : Bool) (hsigner : signer ∈ s.signers) (hfresh : (signer, a) ∉ s.votes.map Vote.pair) :
    Bookkeeping (s.recordVote signer number a b) := by
  unfold Snapshot.recordVote
  dsimp only
  cases hvalid : s.validVote a b with
  | false =>
    rw [Snapshot.cast_of_invalid s hvalid]
    exact h
  | true =>
    rw [if_pos (Snapshot.cast_fst_of_valid s hvalid)]
    have hauth := (Snapshot.validVote_iff s a b).mp hvalid
    refine ⟨?_, ?_, ?_, ?_⟩
    · simp only [Snapshot.cast_votes, List.map_append, List.map_cons, List.map_nil]
      exact List.nodup_append.mpr ⟨h.votes_nodup, List.nodup_singleton _,
        fun x hx y hy => by simp only [List.mem_singleton] at hy; subst hy; exact fun he => hfresh (by rw [he] at hx; exact hx)⟩
    · intro v hv
      simp only [Snapshot.cast_votes, Snapshot.cast_signers, List.mem_append, List.mem_singleton] at hv ⊢
      rcases hv with hv | rfl
      · exact h.signer_mem v hv
      · exact hsigner
    · intro v hv
      simp only [Snapshot.cast_votes, Snapshot.cast_signers, List.mem_append, List.mem_singleton] at hv ⊢
      rcases hv with hv | rfl
      · exact h.authorize_eq v hv
      · exact hauth
    · intro x
      simp only [Snapshot.cast_votes, Snapshot.cast_signers]
      exact tally_cast (v := ⟨signer, number, a, b⟩) h.tally_eq hvalid x

/-- The deauthorization loop drops the signer's votes and uncasts each of
them: the tally it leaves counts the kept votes, together with the votes `K`
it was counting besides the list it walks. -/
theorem uncastVotesOf_spec (x : Address) {S : Finset Address} :
    ∀ (vs K : List Vote) (s : Snapshot), (∀ v ∈ vs, v.authorize = decide (v.address ∉ S)) →
      (∀ a, s.tally.lookup a = tallyOf S (K ++ vs) a) →
      (Snapshot.uncastVotesOf x vs s).1 = vs.filter (fun v => v.signer ≠ x) ∧
        ∀ a, (Snapshot.uncastVotesOf x vs s).2.tally.lookup a = tallyOf S (K ++ vs.filter fun v => v.signer ≠ x) a
  | [], K, s, _, ht => ⟨rfl, ht⟩
  | v :: vs, K, s, hauth, ht => by
    have hauth' : ∀ w ∈ vs, w.authorize = decide (w.address ∉ S) :=
      fun w hw => hauth w (List.mem_cons_of_mem v hw)
    unfold Snapshot.uncastVotesOf
    by_cases hx : v.signer = x
    · -- the signer's vote: uncast it and drop it
      rw [if_pos hx, List.filter_cons_of_neg (by simpa using hx)]
      have ht' : ∀ a, (s.uncast v.address v.authorize).2.tally.lookup a = tallyOf S (K ++ vs) a := by
        refine tally_uncast (fun a => ?_) (hauth v List.mem_cons_self)
        rw [ht, tallyOf_middle]
      exact uncastVotesOf_spec x vs K _ hauth' ht'
    · -- another signer's vote: keep it
      rw [if_neg hx, List.filter_cons_of_pos (by simpa using hx)]
      have ht' : ∀ a, s.tally.lookup a = tallyOf S ((K ++ [v]) ++ vs) a := by
        intro a
        rw [ht, List.append_assoc, List.singleton_append]
      obtain ⟨hkept, htally⟩ := uncastVotesOf_spec x vs (K ++ [v]) s hauth' ht'
      dsimp only
      refine ⟨by rw [hkept], fun a => ?_⟩
      rw [htally, List.append_assoc, List.singleton_append]

/-- Removing every vote on an account and its tally keeps the bookkeeping,
whatever the change of that account's authorization. -/
theorem bookkeeping_dropAddress {s' : Snapshot} {S : Finset Address} {l : List Vote}
    {t : AList fun _ : Address => Tally} (cb : Address)
    (hS : ∀ a, a ≠ cb → (a ∈ s'.signers ↔ a ∈ S)) (hnodup : (l.map Vote.pair).Nodup)
    (hsig : ∀ v ∈ l, v.signer ∈ s'.signers) (hauth : ∀ v ∈ l, v.authorize = decide (v.address ∉ S))
    (ht : ∀ a, t.lookup a = tallyOf S l a)
    (hv : s'.votes = l.filter fun v => v.address ≠ cb) (htally : s'.tally = t.erase cb) :
    Bookkeeping s' := by
  refine ⟨?_, ?_, ?_, ?_⟩
  · rw [hv]
    exact hnodup.sublist (List.filter_sublist.map _)
  · intro v hv'
    rw [hv] at hv'
    exact hsig v (List.mem_of_mem_filter hv')
  · intro v hv'
    rw [hv, List.mem_filter] at hv'
    have hne : v.address ≠ cb := by simpa using hv'.2
    rw [hauth v hv'.1, decide_eq_decide, hS v.address hne]
  · intro a
    rw [htally, hv]
    by_cases ha : a = cb
    · subst ha
      have hzero : votesOn (l.filter fun v => v.address ≠ a) a = 0 := by
        unfold votesOn
        rw [List.countP_eq_zero]
        intro v hv'
        rw [List.mem_filter] at hv'
        simpa using hv'.2
      rw [AList.lookup_erase, tallyOf, if_pos hzero]
    · rw [AList.lookup_erase_ne ha, ht, tallyOf_signers (hS a ha).symm, tallyOf, tallyOf,
        votesOn_filter_ne l ha]

/-- A vote that passes adds or removes the account and clears the votes on it,
keeping the bookkeeping. -/
theorem bookkeeping_passVote {s : Snapshot} (h : Bookkeeping s) (cb : Address) (n : Nat) :
    Bookkeeping (s.passVote cb n) := by
  unfold Snapshot.passVote
  dsimp only
  split_ifs with hpass hauth
  · -- the account joins the signers
    refine bookkeeping_dropAddress (S := s.signers) (l := s.votes) (t := s.tally) cb
      (fun a ha => ?_) h.votes_nodup (fun v hv => Finset.mem_insert_of_mem (h.signer_mem v hv))
      h.authorize_eq h.tally_eq rfl rfl
    rw [Finset.mem_insert, or_iff_right ha]
  · -- the account leaves the signers, and its votes are uncast
    let s₁ : Snapshot := ({ s with signers := s.signers.erase cb } : Snapshot).forgetRecent n
    have ht₁ : ∀ a, s₁.tally.lookup a = tallyOf s.signers ([] ++ s.votes) a := fun a => by
      simpa [s₁] using h.tally_eq a
    -- the loop walks the votes of the snapshot it updates, which are still `s.votes`
    have hvotes : s₁.votes = s.votes := by simp [s₁]
    obtain ⟨hkept, htally⟩ := uncastVotesOf_spec cb s.votes [] s₁ h.authorize_eq ht₁
    rw [List.nil_append, ← hvotes] at htally
    rw [← hvotes] at hkept
    refine bookkeeping_dropAddress (S := s.signers) (l := s.votes.filter fun v => v.signer ≠ cb)
      (t := (Snapshot.uncastVotesOf cb s₁.votes s₁).2.tally) cb (fun a ha => ?_) ?_ (fun v hv => ?_)
      (fun v hv => h.authorize_eq v (List.mem_of_mem_filter hv)) ?_ (by dsimp only; rw [hkept, hvotes]) rfl
    · simp [ha]
    · exact h.votes_nodup.sublist (List.filter_sublist.map _)
    · rw [List.mem_filter] at hv
      have hne : v.signer ≠ cb := by simpa using hv.2
      simp [hne, h.signer_mem v hv.1]
    · intro a
      rw [htally, hvotes]
  · exact h

/-! ## The window of recent signers -/

/-- The blocks `recents` remembers are among the last `L` blocks up to `n`. -/
def RecentWindow (n L : Nat) (r : AList fun _ : Nat => Address) : Prop :=
  ∀ k ∈ r, k ≤ n ∧ n < k + L

section

variable {n L : Nat} {r : AList fun _ : Nat => Address}

theorem window_empty (n L : Nat) : RecentWindow n L ∅ := by
  intro k hk
  simp at hk

theorem window_mono {L' : Nat} (h : RecentWindow n L r) (hL : L ≤ L') : RecentWindow n L' r := by
  intro k hk
  obtain ⟨hle, hlt⟩ := h k hk
  exact ⟨hle, by omega⟩

/-- One block later, the same blocks are within a window one wider. -/
theorem window_succ (h : RecentWindow n L r) : RecentWindow (n + 1) (L + 1) r := by
  intro k hk
  obtain ⟨hle, hlt⟩ := h k hk
  constructor <;> omega

/-- Forgetting the block `L` back narrows the window by one. -/
theorem window_erase (h : RecentWindow n (L + 1) r) :
    RecentWindow n L (if n ≥ L then r.erase (n - L) else r) := by
  intro k hk
  split_ifs at hk with hn
  · rw [AList.mem_erase] at hk
    obtain ⟨hne, hmem⟩ := hk
    obtain ⟨hle, hlt⟩ := h k hmem
    -- only the block exactly `L` back was at the edge, and it is gone
    exact ⟨hle, by omega⟩
  · obtain ⟨hle, -⟩ := h k hk
    exact ⟨hle, by omega⟩

theorem window_insert (h : RecentWindow n L r) (hL : 0 < L) (a : Address) :
    RecentWindow n L (r.insert n a) := by
  intro k hk
  rcases (AList.mem_insert r).1 hk with rfl | hmem
  · exact ⟨le_rfl, by omega⟩
  · exact h k hmem

end

theorem window_congr {n : Nat} {s s' : Snapshot} (h : RecentWindow n s.limit s.recents)
    (hs : s'.signers = s.signers) (hr : s'.recents = s.recents) : RecentWindow n s'.limit s'.recents := by
  unfold Snapshot.limit
  rw [hs, hr]
  exact h

theorem limit_le_insert (s : Snapshot) (a : Address) :
    s.limit ≤ ({ s with signers := insert a s.signers } : Snapshot).limit := by
  unfold Snapshot.limit
  dsimp only
  have hcard := Finset.card_le_card (Finset.subset_insert a s.signers)
  omega

/-- Dropping one signer lowers the limit by at most one. -/
theorem limit_le_erase (s : Snapshot) (a : Address) :
    s.limit ≤ ({ s with signers := s.signers.erase a } : Snapshot).limit + 1 := by
  unfold Snapshot.limit
  dsimp only
  have hcard : s.signers.card - 1 ≤ (s.signers.erase a).card := Finset.pred_card_le_card_erase
  omega

theorem window_forgetRecent {n : Nat} {s : Snapshot} (h : RecentWindow n (s.limit + 1) s.recents) :
    RecentWindow n s.limit (s.forgetRecent n).recents := by
  rw [Snapshot.forgetRecent_recents]
  exact window_erase h

/-- A passing vote changes the limit; when a signer is dropped, `passVote`
forgets the block that fell out of the narrower window. -/
theorem window_passVote {n : Nat} {s : Snapshot} (h : RecentWindow n s.limit s.recents) (cb : Address) :
    RecentWindow n (s.passVote cb n).limit (s.passVote cb n).recents := by
  unfold Snapshot.passVote
  dsimp only
  split_ifs with hpass hauth
  · exact window_mono h (limit_le_insert s cb)
  · have hw : RecentWindow n (({ s with signers := s.signers.erase cb } : Snapshot).limit + 1) s.recents :=
      window_mono h (limit_le_erase s cb)
    have h₁ : RecentWindow n (({ s with signers := s.signers.erase cb } : Snapshot).forgetRecent n).limit
        (({ s with signers := s.signers.erase cb } : Snapshot).forgetRecent n).recents := by
      rw [Snapshot.forgetRecent_limit]
      exact window_forgetRecent hw
    -- the loop that uncasts the dropped signer's votes keeps the signers and recents
    exact window_congr h₁ (by simp) (by simp)
  · exact h

/-! ## One header of `apply` -/

section

variable {config : CliqueConfig} {ecrecover : Header → Except String Address}

/-- What a successful `applyHeader` did: the header's signer is a signer that
has not signed recently, its nonce is a vote, and the snapshot went through
the steps of `apply`'s loop body in order. -/
theorem applyHeader_eq_ok {s s' : Snapshot} {header : Header}
    (h : s.applyHeader config ecrecover header = .ok s') :
    ∃ signer authorize, ecrecover header = .ok signer ∧ signer ∈ s.signers ∧
      ((s.checkpoint config header.number).forgetRecent header.number).recentlySigned signer = false ∧
      Snapshot.nonceVote header.nonce = .ok authorize ∧
      s' = ((({ (s.checkpoint config header.number).forgetRecent header.number with
          recents := ((s.checkpoint config header.number).forgetRecent header.number).recents.insert
            header.number signer } : Snapshot).discardVote signer header.coinbase).recordVote signer
          header.number header.coinbase authorize).passVote header.coinbase header.number := by
  unfold Snapshot.applyHeader at h
  dsimp only at h
  obtain ⟨signer, hrec, h⟩ := Except.bind_eq_ok.1 h
  rw [Except.mapError_eq_ok] at hrec
  -- the two guards of the loop body throw; only the path past both returns
  by_cases hsigner : signer ∈ ((s.checkpoint config header.number).forgetRecent header.number).signers
  · by_cases hrecent : ((s.checkpoint config header.number).forgetRecent header.number).recentlySigned signer
    · rw [if_neg (not_not.2 hsigner), if_pos hrecent] at h
      simp [Except.bind_eq_ok] at h
    · rw [if_neg (not_not.2 hsigner), if_neg hrecent] at h
      obtain ⟨authorize, hvote, h⟩ := Except.bind_eq_ok.1 h
      exact ⟨signer, authorize, hrec, by simpa using hsigner, by simpa using hrecent, hvote,
        (Except.pure_eq_ok.1 h).symm⟩
  · rw [if_pos hsigner] at h
    simp [Except.bind_eq_ok] at h

/-! ## The invariant along `apply` -/

/-- The invariant of a snapshot once `apply`'s loop has applied the block `n`:
the bookkeeping, and the recent signers inside the window of the last `limit`
blocks up to `n`. -/
structure Consistent (n : Nat) (s : Snapshot) : Prop where
  bookkeeping : Bookkeeping s
  window : RecentWindow n s.limit s.recents

theorem Consistent.congr {n : Nat} {s s' : Snapshot} (h : Consistent n s) (hs : s'.signers = s.signers)
    (hv : s'.votes = s.votes) (ht : s'.tally = s.tally) (hr : s'.recents = s.recents) : Consistent n s' :=
  ⟨h.bookkeeping.congr hs hv ht, window_congr h.window hs hr⟩

theorem consistent_newSnapshot (number : Nat) (hash : Hash) (signers : List Address) :
    Consistent number (newSnapshot number hash signers) where
  bookkeeping := ⟨List.nodup_nil, by simp [newSnapshot], by simp [newSnapshot],
    fun a => by simp [newSnapshot, tallyOf]⟩
  window := window_empty _ _

theorem applyHeader_number {s s' : Snapshot} {header : Header}
    (h : s.applyHeader config ecrecover header = .ok s') : s'.number = s.number := by
  obtain ⟨signer, authorize, -, -, -, -, rfl⟩ := applyHeader_eq_ok h
  simp

/-- One header: the block `n + 1` is applied to a snapshot consistent at the
block `n`. -/
theorem consistent_applyHeader {n : Nat} {s s' : Snapshot} {header : Header} (h : Consistent n s)
    (hnum : header.number = n + 1) (happly : s.applyHeader config ecrecover header = .ok s') :
    Consistent (n + 1) s' := by
  obtain ⟨signer, authorize, -, hsigner, -, -, rfl⟩ := applyHeader_eq_ok happly
  rw [hnum]
  -- the checkpoint keeps the bookkeeping; the window moves on by one block
  -- and `forgetRecent` drops the block that left it
  have hb₁ := bookkeeping_forgetRecent (bookkeeping_checkpoint h.bookkeeping config (n + 1)) (n + 1)
  have hw₁ : RecentWindow (n + 1) ((s.checkpoint config (n + 1)).forgetRecent (n + 1)).limit
      ((s.checkpoint config (n + 1)).forgetRecent (n + 1)).recents := by
    rw [Snapshot.forgetRecent_limit]
    apply window_forgetRecent
    rw [Snapshot.checkpoint_limit, Snapshot.checkpoint_recents]
    exact window_succ h.window
  have hsigner₁ : signer ∈ ((s.checkpoint config (n + 1)).forgetRecent (n + 1)).signers := by
    simpa using hsigner
  generalize (s.checkpoint config (n + 1)).forgetRecent (n + 1) = s₁ at hb₁ hw₁ hsigner₁ ⊢
  -- the signer is recorded as the signer of the block `n + 1`
  have hb₂ : Bookkeeping { s₁ with recents := s₁.recents.insert (n + 1) signer } := hb₁.congr rfl rfl rfl
  have hw₂ : RecentWindow (n + 1) ({ s₁ with recents := s₁.recents.insert (n + 1) signer } : Snapshot).limit
      ({ s₁ with recents := s₁.recents.insert (n + 1) signer } : Snapshot).recents :=
    window_insert hw₁ (Nat.succ_pos _) signer
  have hsigner₂ : signer ∈ ({ s₁ with recents := s₁.recents.insert (n + 1) signer } : Snapshot).signers :=
    hsigner₁
  generalize ({ s₁ with recents := s₁.recents.insert (n + 1) signer } : Snapshot) = s₂ at hb₂ hw₂ hsigner₂ ⊢
  -- its previous vote on the coinbase is discarded, so the new one is fresh
  have hb₄ := bookkeeping_recordVote (bookkeeping_discardVote hb₂ signer header.coinbase) (n + 1)
    header.coinbase authorize (by simpa using hsigner₂) (pair_not_mem_discardVote hb₂ signer header.coinbase)
  -- a passing vote changes the signers; both parts survive it
  exact ⟨bookkeeping_passVote hb₄ header.coinbase (n + 1),
    window_passVote (window_congr hw₂ (by simp) (by simp)) header.coinbase⟩

/-- `apply`'s sanity check: after a header, the next one follows it. -/
theorem consecutive_cons {a : Header} {rest : List Header} (h : consecutive (a :: rest) = true) :
    consecutive rest = true ∧ ∀ b ∈ rest.head?, b.number = a.number + 1 := by
  cases rest with
  | nil => simp [consecutive]
  | cons b rest =>
    simp only [consecutive, Bool.and_eq_true, beq_iff_eq] at h
    exact ⟨h.2, by simpa using h.1⟩

/-- The loop of `apply`: consecutive headers from the block `n + 1` on keep
the invariant, and leave the snapshot's number as it was. -/
theorem consistent_foldlM : ∀ {headers : List Header} {n : Nat} {s s' : Snapshot},
    Consistent n s → consecutive headers = true → (∀ h ∈ headers.head?, h.number = n + 1) →
    headers.foldlM (Snapshot.applyHeader config ecrecover) s = .ok s' →
    Consistent (n + headers.length) s' ∧ s'.number = s.number
  | [], n, s, s', h, _, _, hrun => by
    have hs : s = s' := Except.pure_eq_ok.1 hrun
    subst hs
    exact ⟨h, rfl⟩
  | header :: rest, n, s, s', h, hcons, hfirst, hrun => by
    rw [List.foldlM_cons] at hrun
    obtain ⟨s₁, hstep, hrest⟩ := Except.bind_eq_ok.1 hrun
    have hnum : header.number = n + 1 := hfirst header rfl
    obtain ⟨hcons', hnext⟩ := consecutive_cons hcons
    obtain ⟨h', hnum'⟩ := consistent_foldlM (consistent_applyHeader h hnum hstep) hcons'
      (fun b hb => by rw [hnext b hb, hnum]) hrest
    have hlen : n + (header :: rest).length = n + 1 + rest.length := by
      rw [List.length_cons]
      omega
    exact ⟨hlen ▸ h', hnum'.trans (applyHeader_number hstep)⟩

end

section

variable (config : CliqueConfig) (ecrecover : Header → Except String Address) (headerHash : Header → Hash)

/-- `apply` keeps the invariant of a snapshot at its own block. -/
theorem consistent_apply {s s' : Snapshot} {headers : List Header} (h : Consistent s.number s)
    (happly : s.apply config ecrecover headerHash headers = .ok s') : Consistent s'.number s' := by
  unfold Snapshot.apply at happly
  split at happly
  · cases happly
    exact h
  · rename_i first rest
    split_ifs at happly with hcons hfirst
    obtain ⟨snap, hrun, hfin⟩ := Except.bind_eq_ok.1 happly
    cases Except.pure_eq_ok.1 hfin
    obtain ⟨hsnap, hnum⟩ := consistent_foldlM h (by simpa using hcons)
      (fun b hb => by simp at hb; rw [← hb]; simpa using hfirst) hrun
    rw [hnum]
    exact hsnap.congr rfl rfl rfl rfl

/-- The snapshots `Snapshot.apply` can reach from a genesis snapshot. -/
inductive Reachable : Snapshot → Prop
  | genesis (number : Nat) (hash : Hash) (signers : List Address) :
      Reachable (newSnapshot number hash signers)
  | apply {s s' : Snapshot} (headers : List Header) :
      Reachable s → s.apply config ecrecover headerHash headers = .ok s' → Reachable s'

theorem reachable_consistent {s : Snapshot} (h : Reachable config ecrecover headerHash s) :
    Consistent s.number s := by
  induction h with
  | genesis number hash signers => exact consistent_newSnapshot number hash signers
  | apply headers _ happly ih => exact consistent_apply config ecrecover headerHash ih happly

theorem reachable_vote_bookkeeping {s : Snapshot} (hs : Reachable config ecrecover headerHash s) :
    (s.votes.map fun v => (v.signer, v.address)).Nodup ∧
    (∀ v ∈ s.votes, v.signer ∈ s.signers ∧ v.authorize = decide (v.address ∉ s.signers)) ∧
    (∀ a, (∃ t, s.tally.lookup a = some t) ↔ ∃ v ∈ s.votes, v.address = a) ∧
    (∀ a t, s.tally.lookup a = some t →
      t.votes = s.votes.countP (fun v => v.address = a) ∧
        ∀ v ∈ s.votes, v.address = a → t.authorize = v.authorize) ∧
    (∀ k ∈ s.recents, k ≤ s.number ∧ s.number < k + (s.signers.card / 2 + 1)) := by
  have hc := reachable_consistent config ecrecover headerHash hs
  have hb := hc.bookkeeping
  exact ⟨hb.votes_nodup, fun v hv => ⟨hb.signer_mem v hv, hb.authorize_eq v hv⟩, hb.tally_isSome_iff,
    fun a t ht => hb.tally_entry ht, hc.window⟩

end

/-- The signer read from the first byte of a header's extra data, standing in
for the address `ecrecover` recovers from the seal. -/
def extraSigner (header : Header) : Except String Address :=
  .ok (BitVec.ofNat 160 (header.extra.headD 0).toNat)

/-- Five blocks on a genesis of signers 1, 2 and 3: signers 1 and 2 vote to add
4 and 5, signer 3 votes to drop 1, signer 1 votes on 4 again, which replaces
its first vote, and signer 2's vote on 4 makes a majority that adds it. -/
def voteHeaders : List Header :=
  [⟨0, 4, 2, 1, 0, 0, 0, [1], nonceAuthVote⟩, ⟨0, 5, 2, 2, 0, 0, 0, [2], nonceAuthVote⟩,
    ⟨0, 1, 2, 3, 0, 0, 0, [3], nonceDropVote⟩, ⟨0, 4, 2, 4, 0, 0, 0, [1], nonceAuthVote⟩,
    ⟨0, 4, 2, 5, 0, 0, 0, [2], nonceAuthVote⟩]

/-- After the five blocks the votes on 5 and on 1 are pending, 4 is a signer,
and the bookkeeping holds. -/
theorem voted_snapshot_vote_bookkeeping :
    ∃ s, (newSnapshot 0 0 [1, 2, 3]).apply ⟨30000, by decide⟩ extraSigner (fun _ => 0) voteHeaders = .ok s ∧
      s.votes = [⟨2, 2, 5, true⟩, ⟨3, 3, 1, false⟩] ∧ 4 ∈ s.signers ∧
      (s.votes.map fun v => (v.signer, v.address)).Nodup ∧
      (∀ v ∈ s.votes, v.signer ∈ s.signers ∧ v.authorize = decide (v.address ∉ s.signers)) ∧
      (∀ a, (∃ t, s.tally.lookup a = some t) ↔ ∃ v ∈ s.votes, v.address = a) ∧
      (∀ a t, s.tally.lookup a = some t →
        t.votes = s.votes.countP (fun v => v.address = a) ∧
          ∀ v ∈ s.votes, v.address = a → t.authorize = v.authorize) ∧
      (∀ k ∈ s.recents, k ≤ s.number ∧ s.number < k + (s.signers.card / 2 + 1)) := by
  have hrun : (fun s => (s.votes, decide (4 ∈ s.signers))) <$>
      (newSnapshot 0 0 [1, 2, 3]).apply ⟨30000, by decide⟩ extraSigner (fun _ => 0) voteHeaders =
      .ok ([⟨2, 2, 5, true⟩, ⟨3, 3, 1, false⟩], true) := by
    decide +kernel
  obtain ⟨s, h, hs⟩ := Except.map_eq_ok.1 hrun
  simp only [Prod.mk.injEq, decide_eq_true_eq] at hs
  exact ⟨s, h, hs.1, hs.2,
    reachable_vote_bookkeeping _ _ _ (.apply voteHeaders (.genesis 0 0 [1, 2, 3]) h)⟩

end Clique

end Bazacoin
