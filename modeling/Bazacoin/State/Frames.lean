import Bazacoin.State.Journal
import Bazacoin.State.Revert

/-!
# A reverted frame leaves no trace (`statedb.go`, `journal.go`)

The EVM opens a frame around every message call: `Snapshot`, the calls of the
`vm.StateDB` interface the call makes (with the frames of its own sub-calls,
kept or reverted), and `RevertToSnapshot` when the call fails. This module
proves that such a frame, once reverted, leaves every accessor of the
interface reading what it read before the frame, and that nothing in it
panics, whatever the calls inside were.

Each call journals what it changes: the record it pushes, undone on the view
of the state after the call, gives back the view before it (`Obs.undo_balanceChange`
and the lemmas beside it, and `journals_one`). `Frames s t` says that `t` is
`s` after calls and frames: the journal of `s` extended by sound records whose
undoing, newest first, gives back the view of `s`, with the revisions of `s`
still in place (`run_frames`). Reverting a frame then undoes exactly its own
records (`RevertToSnapshot_frame`), back to the view of the state the frame
was opened in (`reverted_frame_restores_accessors`).

The counter `logSize` that numbers the logs is not restored by a revert; no
accessor reads it, but the next `AddLog` numbers its log from it.
-/

namespace Bazacoin

namespace State

namespace StateDB

namespace Obs

section

variable (emptyCodeHash : Hash) (db : Database) (trie : Address → Option AccountView)
  {V : Obs} {a : Address} {v : AccountView}

/-- The record of `SetBalance`, `AddBalance` and `SubBalance` undoes them. -/
theorem undo_balanceChange (hv : V.accounts a = some v) (x : Int) :
    (V.setAccount a (some { v with balance := x })).undo emptyCodeHash db trie
      (.balanceChange a v.balance) = some V := by
  simp [undo, setAccount_setAccount, setAccount_self hv]

/-- The record of `SetNonce` undoes it. -/
theorem undo_nonceChange (hv : V.accounts a = some v) (x : UInt64) :
    (V.setAccount a (some { v with nonce := x })).undo emptyCodeHash db trie
      (.nonceChange a v.nonce) = some V := by
  simp [undo, setAccount_setAccount, setAccount_self hv]

/-- The record of `SetCode` undoes it, given the code it recorded loads to
the code the view had. -/
theorem undo_codeChange (hv : V.accounts a = some v) (codeHash : Hash) (code : Bytes)
    {prevcode : Option Bytes}
    (hcode : (StateObject.loadCode emptyCodeHash db prevcode v.codeHash).getD [] = v.code) :
    (V.setAccount a (some { v with codeHash := codeHash, code := code })).undo emptyCodeHash db trie
      (.codeChange a prevcode v.codeHash) = some V := by
  simp only [undo, setAccount_accounts, Function.update_self, Option.map_some, hcode,
    setAccount_setAccount]
  exact congrArg some (setAccount_self hv)

/-- The record of `SetState` undoes it. -/
theorem undo_storageChange (hv : V.accounts a = some v) (key value : Hash) :
    (V.setAccount a (some { v with storage := Function.update v.storage key value })).undo
      emptyCodeHash db trie (.storageChange a key (v.storage key)) = some V := by
  simp [undo, setAccount_setAccount, setAccount_self hv]

/-- The record of `Suicide` undoes it. -/
theorem undo_suicideChange (hv : V.accounts a = some v) :
    (V.setAccount a (some { v with suicided := true, balance := 0 })).undo emptyCodeHash db trie
      (.suicideChange a v.suicided v.balance) = some V := by
  simp [undo, setAccount_setAccount, setAccount_self hv]

/-- The record of a touch undoes nothing the view sees, where the account is. -/
theorem undo_touchChange (hv : V.accounts a = some v) (prev prevDirty : Bool) :
    V.undo emptyCodeHash db trie (.touchChange a prev prevDirty) = some V := by
  simp only [undo, hv, Option.map_some]
  split <;> rfl

/-- The record of `AddRefund` undoes it. -/
theorem undo_refundChange (r : Int) :
    ({ V with refund := r } : Obs).undo emptyCodeHash db trie (.refundChange V.refund) = some V := rfl

/-- The record of `AddLog` drops the last log of its transaction. -/
theorem undo_addLogChange (h : Hash) (log : Log) :
    ({ V with logs := Function.update V.logs h (V.logs h ++ [log]) } : Obs).undo emptyCodeHash db trie
      (.addLogChange h) = some V := by
  by_cases h0 : V.logs h = []
  · -- the only log of the transaction: its list is emptied again
    simp only [undo, Function.update_self, h0, List.nil_append, List.length_singleton, if_true,
      Function.update_idem]
    rw [← h0, Function.update_eq_self]
  · -- an earlier log stays: the new one is dropped from the end
    have hlen : ¬ (V.logs h).length + 1 = 1 := by simpa using h0
    simp only [undo, Function.update_self, List.length_append, List.length_singleton, hlen, if_false,
      Nat.add_one_ne_zero, List.dropLast_concat, Function.update_idem, Function.update_eq_self]

/-- The record of `AddPreimage` drops the preimage it added. -/
theorem undo_addPreimageChange {h : Hash} (hnone : V.preimages h = none) (p : Bytes) :
    ({ V with preimages := Function.update V.preimages h (some p) } : Obs).undo emptyCodeHash db trie
      (.addPreimageChange h) = some V := by
  simp only [undo, Function.update_idem]
  rw [← hnone, Function.update_eq_self]

/-- The record of an account created where there was none, and none in the
trie, takes it out again. -/
theorem undo_createObjectChange (hv : V.accounts a = none) (htrie : trie a = none)
    (x : Option AccountView) :
    (V.setAccount a x).undo emptyCodeHash db trie (.createObjectChange a) = some V := by
  simp only [undo, setAccount_setAccount, htrie]
  exact congrArg some (setAccount_self hv)

/-- The record of an account created over a live one puts the old one back. -/
theorem undo_resetObjectChange {p : StateObject} (hp : p.deleted = false)
    (hv : V.accounts p.address = some (p.view emptyCodeHash db)) (x : Option AccountView) :
    (V.setAccount p.address x).undo emptyCodeHash db trie (.resetObjectChange p) = some V := by
  simp only [undo, setAccount_setAccount, hp, Bool.false_eq_true, if_false]
  exact congrArg some (setAccount_self hv)

end

end Obs

section

variable {H : Hashing} {env : Env}

/-! ## Undoing a list of records -/

/-- **Undoing records refines undoing them on the view**: where the view
undoes the sound records, the state undoes them without a panic, to a state
with that view. The induction is on the records, one `undo_view` each. -/
theorem undoAll_view : ∀ {es : List JournalEntry} {s : StateDB}, s.WellKeyed → s.DeletedAbsent env →
    (∀ e ∈ es, e.Sound) → ∀ {V : Obs},
    (s.view H env).undoAll (emptyCodeHash H) env.db (s.trieView H env) es = some V →
    ∃ t, s.undoAll env es = .ok t ∧ t.view H env = V ∧ KeepsFrame env s t
  | [], s, hw, hda, _, _, h => by
    cases h
    exact ⟨s, rfl, rfl, KeepsFrame.refl hw hda⟩
  | e :: es, s, hw, hda, hes, V, h => by
    obtain ⟨V₁, h₁, h⟩ := Option.bind_eq_some_iff.mp h
    obtain ⟨t₁, ht₁, hv₁, hk₁⟩ := undo_view hw hda (hes e List.mem_cons_self) h₁
    rw [← hv₁, ← trieView_congr hk₁.trie] at h
    obtain ⟨t, ht, hv, hk⟩ :=
      undoAll_view hk₁.wellKeyed hk₁.deletedAbsent (fun f hf => hes f (List.mem_cons_of_mem e hf)) h
    refine ⟨t, ?_, hv, hk₁.trans hk⟩
    rw [undoAll, ht₁, Outcome.bind_ok, ht]

/-! ## Each call journals what it changes -/

/-- A change that pushes one sound record, which undoes it on the view. -/
theorem journals_one {s t : StateDB} (hw : t.WellKeyed) (hda : t.DeletedAbsent env)
    {e : JournalEntry} (he : e.Sound) (ht : t.trie = s.trie) (hj : t.journal = s.journal ++ [e])
    (hr : t.validRevisions = s.validRevisions) (hn : t.nextRevisionId = s.nextRevisionId)
    (hundo : (t.view H env).undo (emptyCodeHash H) env.db (s.trieView H env) e = some (s.view H env)) :
    Journals H env s t :=
  ⟨ht, hw, hda, hr, hn, [e], hj, by simpa using he, by simpa [Obs.undoAll] using hundo⟩

/-- A setter's last step: a record pushed, then a live object put back
changed. -/
theorem journals_putObject {s : StateDB} (hw : s.WellKeyed) (hda : s.DeletedAbsent env)
    {e : JournalEntry} (he : e.Sound) (before : StateObject) {o : StateObject} (hd : o.deleted = false)
    (hundo : ((s.view H env).setAccount o.address (some (o.view (emptyCodeHash H) env.db))).undo
      (emptyCodeHash H) env.db (s.trieView H env) e = some (s.view H env)) :
    Journals H env s ((s.push e).putObject before o) := by
  obtain ⟨hview, hkeep⟩ := putObject_view (H := H) (wellKeyed_push hw e) hda before hd
  refine journals_one hkeep.wellKeyed hkeep.deletedAbsent he hkeep.trie hkeep.journal
    hkeep.validRevisions hkeep.nextRevisionId ?_
  rw [hview, view_push]
  exact hundo

/-- A live object put back with the view it had: nothing the view sees
changes. -/
theorem view_setStateObject_same {s : StateDB} {o : StateObject} (hd : o.deleted = false)
    (hv : s.accountView H env o.address = some (o.view (emptyCodeHash H) env.db)) :
    (s.setStateObject o).view H env = s.view H env := by
  rw [view_setStateObject, liveView, if_neg (by simp [hd])]
  exact Obs.setAccount_self hv

/-- An account created where the view has none: its record takes it out
again, whatever the account becomes after. -/
theorem journals_create {s t : StateDB} (hda : s.DeletedAbsent env) {a : Address}
    (hnone : s.accountView H env a = none) (hw' : t.WellKeyed) (hda' : t.DeletedAbsent env)
    (ht : t.trie = s.trie) (hj : t.journal = s.journal ++ [.createObjectChange a])
    (hr : t.validRevisions = s.validRevisions) (hn : t.nextRevisionId = s.nextRevisionId)
    (hview : ∃ x, t.view H env = (s.view H env).setAccount a x) : Journals H env s t := by
  obtain ⟨x, hx⟩ := hview
  refine journals_one hw' hda' (e := .createObjectChange a) trivial ht hj hr hn ?_
  rw [hx]
  exact Obs.undo_createObjectChange _ _ _ hnone (getStateObject_none hda hnone).2 x

/-- An account created over a live one: its record puts the old one back,
whatever the new one becomes. -/
theorem journals_reset {s t : StateDB} {p : StateObject} (hpd : p.deleted = false)
    (hp : s.accountView H env p.address = some (p.view (emptyCodeHash H) env.db))
    (hw' : t.WellKeyed) (hda' : t.DeletedAbsent env)
    (ht : t.trie = s.trie) (hj : t.journal = s.journal ++ [.resetObjectChange p])
    (hr : t.validRevisions = s.validRevisions) (hn : t.nextRevisionId = s.nextRevisionId)
    (hview : ∃ x, t.view H env = (s.view H env).setAccount p.address x) : Journals H env s t := by
  obtain ⟨x, hx⟩ := hview
  refine journals_one hw' hda' (e := .resetObjectChange p) hpd ht hj hr hn ?_
  rw [hx]
  exact Obs.undo_resetObjectChange _ _ _ hpd hp x

/-- What `getStateObject` finds: the account the view has, at its address. -/
theorem getStateObject_some_view {s : StateDB} (hw : s.WellKeyed) (hda : s.DeletedAbsent env)
    {a : Address} {o : StateObject} {s₁ : StateDB} (hg : s.getStateObject env a = (some o, s₁)) :
    o.address = a ∧ o.deleted = false ∧ s₁.accountView H env a = some (o.view (emptyCodeHash H) env.db) ∧
      SameView H env s s₁ := by
  obtain ⟨haddr, hd⟩ := getStateObject_found env hw (o := o) (by rw [hg])
  have hs := getStateObject_sameView H env hw hda a
  rw [hg] at hs
  refine ⟨haddr, hd, ?_, hs⟩
  have hv : (s.getStateObject env a).1.map (·.view (emptyCodeHash H) env.db) = s.accountView H env a :=
    getStateObject_view s a
  rw [hg] at hv
  rw [show s₁.accountView H env a = s.accountView H env a from congrFun (congrArg Obs.accounts hs.view) a]
  exact hv.symm

/-- What `getStateObject` does not find is not in the view, and the state is
left as it is. -/
theorem getStateObject_none_view {s : StateDB} (hda : s.DeletedAbsent env) {a : Address} {s₁ : StateDB}
    (hg : s.getStateObject env a = (none, s₁)) : s₁ = s ∧ s.accountView H env a = none := by
  have hnone : s.accountView H env a = none := by
    rw [← getStateObject_view, hg]
    rfl
  obtain ⟨hg', -⟩ := getStateObject_none hda hnone
  rw [hg'] at hg
  exact ⟨(Prod.mk.inj hg).2.symm, hnone⟩

/-- **`GetOrNewStateObject` journals the account it creates**, and returns
the live object of the address. -/
theorem GetOrNewStateObject_journals {s : StateDB} (hw : s.WellKeyed) (hda : s.DeletedAbsent env)
    (a : Address) :
    Journals H env s (s.GetOrNewStateObject H env a).2 ∧
      (s.GetOrNewStateObject H env a).2.accountView H env a =
        some ((s.GetOrNewStateObject H env a).1.view (emptyCodeHash H) env.db) ∧
      (s.GetOrNewStateObject H env a).1.address = a ∧ (s.GetOrNewStateObject H env a).1.deleted = false := by
  unfold GetOrNewStateObject
  rcases hg : s.getStateObject env a with ⟨_ | o, s₁⟩
  · -- nothing there: a new object, whose record takes it out again
    obtain ⟨rfl, hnone⟩ := getStateObject_none_view hda hg
    dsimp only
    unfold createObject
    rw [hg]
    dsimp only
    set o := (StateObject.newObject a (emptyAccount H) true).setNonce 0
    have hod : o.deleted = false := rfl
    refine ⟨journals_create hda hnone (wellKeyed_setStateObject hw o) (deletedAbsent_setStateObject hda hod)
      rfl rfl rfl rfl ⟨_, view_setStateObject _ o⟩, ?_, rfl, hod⟩
    rw [accountView_setStateObject, show o.address = a from rfl, Function.update_self, liveView,
      if_neg (by simp [hod])]
  · -- the live object, loaded into the live set if it was not there
    obtain ⟨haddr, hd, hv, hs⟩ := getStateObject_some_view hw hda hg
    dsimp only
    rw [if_neg (by simp [hd])]
    exact ⟨hs.journals, hv, haddr, hd⟩

/-! ### The setters -/

/-- A setter built by `journalled`: its record undoes its change on the view
of the account. -/
theorem journalled_journals {s : StateDB} (hw : s.WellKeyed) (hda : s.DeletedAbsent env) (a : Address)
    (entry : StateObject → JournalEntry) (f : StateObject → StateObject)
    (hf : ∀ o, (f o).address = o.address ∧ (f o).deleted = o.deleted)
    (hundo : ∀ (o : StateObject) (V : Obs) (trie : Address → Option AccountView),
      V.accounts a = some (o.view (emptyCodeHash H) env.db) → (entry o).Sound ∧
        (V.setAccount a (some ((f o).view (emptyCodeHash H) env.db))).undo (emptyCodeHash H) env.db trie
          (entry o) = some V) :
    Journals H env s (s.journalled H env a entry f) := by
  obtain ⟨hj₁, hv₁, ha₁, hd₁⟩ := GetOrNewStateObject_journals hw hda a
  unfold journalled
  generalize s.GetOrNewStateObject H env a = r at hj₁ hv₁ ha₁ hd₁ ⊢
  obtain ⟨o, s₁⟩ := r
  obtain ⟨hsound, hu⟩ := hundo o (s₁.view H env) (s₁.trieView H env) hv₁
  refine hj₁.trans (journals_putObject hj₁.wellKeyed hj₁.deletedAbsent hsound o ?_ ?_)
  · rw [(hf o).2, hd₁]
  · rw [(hf o).1, ha₁]
    exact hu

theorem SetNonce_journals {s : StateDB} (hw : s.WellKeyed) (hda : s.DeletedAbsent env) (a : Address)
    (nonce : UInt64) : Journals H env s (s.SetNonce H env a nonce) :=
  journalled_journals hw hda a _ _ (fun _ => ⟨rfl, rfl⟩) fun o _ _ hv => by
    refine ⟨trivial, ?_⟩
    rw [StateObject.view_setNonce]
    exact Obs.undo_nonceChange _ _ _ hv nonce

/-- A balance moved by a non-zero amount is recorded with the old balance. -/
theorem journals_moveBalance {s₁ : StateDB} (hw : s₁.WellKeyed) (hda : s₁.DeletedAbsent env)
    {a : Address} {o : StateObject} (hv : s₁.accountView H env a = some (o.view (emptyCodeHash H) env.db))
    (ha : o.address = a) (hd : o.deleted = false) (x : Int) :
    Journals H env s₁ ((s₁.push (.balanceChange a o.data.balance)).putObject o (o.setBalance x)) := by
  refine journals_putObject hw hda (e := .balanceChange a o.data.balance) trivial o hd ?_
  rw [show (o.setBalance x).address = a from ha, StateObject.view_setBalance]
  exact Obs.undo_balanceChange _ _ _ hv x

theorem AddBalance_journals {s : StateDB} (hw : s.WellKeyed) (hda : s.DeletedAbsent env) (a : Address)
    (amount : Int) : Journals H env s (s.AddBalance H env a amount) := by
  obtain ⟨hj₁, hv₁, ha₁, hd₁⟩ := GetOrNewStateObject_journals hw hda a
  unfold AddBalance
  generalize s.GetOrNewStateObject H env a = r at hj₁ hv₁ ha₁ hd₁ ⊢
  obtain ⟨o, s₁⟩ := r
  dsimp only
  split_ifs
  · -- adding zero to an empty account touches it, which no accessor sees
    refine hj₁.trans (journals_putObject hj₁.wellKeyed hj₁.deletedAbsent
      (e := .touchChange o.address o.touched (!o.onDirty)) trivial o hd₁ ?_)
    have hsame : ({ o with touched := true } : StateObject).dirtied.view (emptyCodeHash H) env.db =
        o.view (emptyCodeHash H) env.db := by
      rw [StateObject.view_dirtied, StateObject.view_touched]
    rw [hsame, Obs.setAccount_self (by rw [← hv₁, ha₁]; rfl), ha₁]
    exact Obs.undo_touchChange _ _ _ hv₁ _ _
  · exact hj₁
  · exact hj₁.trans (journals_moveBalance hj₁.wellKeyed hj₁.deletedAbsent hv₁ ha₁ hd₁ _)

theorem SubBalance_journals {s : StateDB} (hw : s.WellKeyed) (hda : s.DeletedAbsent env) (a : Address)
    (amount : Int) : Journals H env s (s.SubBalance H env a amount) := by
  obtain ⟨hj₁, hv₁, ha₁, hd₁⟩ := GetOrNewStateObject_journals hw hda a
  unfold SubBalance
  generalize s.GetOrNewStateObject H env a = r at hj₁ hv₁ ha₁ hd₁ ⊢
  obtain ⟨o, s₁⟩ := r
  dsimp only
  split_ifs
  · exact hj₁
  · exact hj₁.trans (journals_moveBalance hj₁.wellKeyed hj₁.deletedAbsent hv₁ ha₁ hd₁ _)

/-- `SetCode` records the code it loaded first, which loads back to the code
the view had. -/
theorem SetCode_journals {s : StateDB} (hw : s.WellKeyed) (hda : s.DeletedAbsent env) (a : Address)
    (code : Option Bytes) : Journals H env s (s.SetCode H env a code) := by
  obtain ⟨hj₁, hv₁, ha₁, hd₁⟩ := GetOrNewStateObject_journals hw hda a
  unfold SetCode
  generalize s.GetOrNewStateObject H env a = r at hj₁ hv₁ ha₁ hd₁ ⊢
  obtain ⟨o, s₁⟩ := r
  obtain ⟨hdata, -, -, -, hdel, haddr, hload⟩ := StateObject.Code_snd (emptyCodeHash H) env.db o
  have hview := StateObject.view_Code_snd (emptyCodeHash H) env.db o
  have hprev := StateObject.Code_fst (emptyCodeHash H) env.db o
  -- the recorded code loads again to what it loaded to
  have hcode : (StateObject.loadCode (emptyCodeHash H) env.db (o.Code (emptyCodeHash H) env.db).1
      (o.view (emptyCodeHash H) env.db).codeHash).getD [] = (o.view (emptyCodeHash H) env.db).code := by
    show (StateObject.loadCode _ _ (o.Code (emptyCodeHash H) env.db).1 o.data.codeHash).getD [] =
      ((o.Code (emptyCodeHash H) env.db).1).getD []
    rw [hprev, StateObject.loadCode_loadCode]
  dsimp only
  refine hj₁.trans (journals_putObject hj₁.wellKeyed hj₁.deletedAbsent
    (e := .codeChange a (o.Code (emptyCodeHash H) env.db).1 (o.Code (emptyCodeHash H) env.db).2.data.codeHash)
    trivial _ ?_ ?_)
  · exact hdel.trans hd₁
  · rw [show ((o.Code (emptyCodeHash H) env.db).2.setCode (H.keccak (code.getD [])) code).address = a from
      haddr.trans ha₁, StateObject.view_setCode, hview, hdata]
    exact Obs.undo_codeChange _ _ _ hv₁ _ _ hcode

/-- `SetState` records the value it read first, which is the view's. -/
theorem SetState_journals {s : StateDB} (hw : s.WellKeyed) (hda : s.DeletedAbsent env) (a : Address)
    (key value : Hash) : Journals H env s (s.SetState H env a key value) := by
  obtain ⟨hj₁, hv₁, ha₁, hd₁⟩ := GetOrNewStateObject_journals hw hda a
  unfold SetState
  generalize s.GetOrNewStateObject H env a = r at hj₁ hv₁ ha₁ hd₁ ⊢
  obtain ⟨o, s₁⟩ := r
  obtain ⟨-, -, -, hdel, haddr, -, -⟩ := StateObject.GetState_snd env.db o key
  have hview := StateObject.view_GetState_snd (emptyCodeHash H) env.db o key
  dsimp only
  refine hj₁.trans (journals_putObject hj₁.wellKeyed hj₁.deletedAbsent
    (e := .storageChange a key (o.GetState env.db key).1) trivial _ ?_ ?_)
  · exact hdel.trans hd₁
  · rw [show ((o.GetState env.db key).2.setState key value).address = a from haddr.trans ha₁,
      StateObject.view_setState, hview]
    exact Obs.undo_storageChange _ _ _ hv₁ key value

/-- `Suicide` records the flag and the balance it clears. -/
theorem Suicide_journals {s : StateDB} (hw : s.WellKeyed) (hda : s.DeletedAbsent env) (a : Address) :
    Journals H env s (s.Suicide env a).2 := by
  unfold Suicide
  rcases hg : s.getStateObject env a with ⟨_ | o, s₁⟩
  · obtain ⟨rfl, -⟩ := getStateObject_none_view (H := H) hda hg
    exact Journals.refl hw hda
  · obtain ⟨haddr, hd, hv, hs⟩ := getStateObject_some_view hw hda hg
    dsimp only
    set o' : StateObject := { o.markSuicided with data := { o.data with balance := 0 } }
    have h₁ : Journals H env s₁ ((s₁.push (.suicideChange a o.suicided o.data.balance)).putObject o o') := by
      refine journals_putObject hs.wellKeyed hs.deletedAbsent
        (e := .suicideChange a o.suicided o.data.balance) trivial o hd ?_
      have hview : o'.view (emptyCodeHash H) env.db =
          { o.view (emptyCodeHash H) env.db with suicided := true, balance := 0 } :=
        StateObject.view_congr _ _ o o' rfl rfl rfl rfl rfl
      rw [show o'.address = a from haddr, hview]
      exact Obs.undo_suicideChange _ _ _ hv
    -- listing the account as destructed changes nothing an accessor reads
    have h₂ := (SameView.journals (H := H)
      ⟨keepsFrame_destructed h₁.wellKeyed h₁.deletedAbsent
        (((s₁.push (.suicideChange a o.suicided o.data.balance)).putObject o o').stateObjectsDestructed.insert a),
        rfl⟩)
    exact hs.journals.trans (h₁.trans h₂)

/-- `CreateAccount` records the account it replaces, or that there was none. -/
theorem CreateAccount_journals {s : StateDB} (hw : s.WellKeyed) (hda : s.DeletedAbsent env) (a : Address) :
    Journals H env s (s.CreateAccount H env a) := by
  unfold CreateAccount createObject
  rcases hg : s.getStateObject env a with ⟨_ | p, s₁⟩
  · -- no account: the new one is taken out again
    obtain ⟨rfl, hnone⟩ := getStateObject_none_view hda hg
    exact journals_create hda hnone (wellKeyed_setStateObject hw _) (deletedAbsent_setStateObject hda rfl)
      rfl rfl rfl rfl ⟨_, view_setStateObject _ _⟩
  · -- a live account: replaced by a new one with its balance, and put back by the record
    obtain ⟨haddr, hpd, hv, hs⟩ := getStateObject_some_view hw hda hg
    dsimp only
    set o := (StateObject.newObject a (emptyAccount H) true).setNonce 0
    set t := ((s₁.MarkStateObjectDirty a).push (.resetObjectChange p)).setStateObject o
    obtain ⟨hview, hkeep⟩ := putObject_view (H := H) (s := t) (wellKeyed_setStateObject hs.wellKeyed o)
      (deletedAbsent_setStateObject hs.deletedAbsent rfl) o (o := o.setBalance p.data.balance) rfl
    refine hs.journals.trans (journals_reset hpd (haddr ▸ hv) hkeep.wellKeyed hkeep.deletedAbsent
      hkeep.trie hkeep.journal hkeep.validRevisions hkeep.nextRevisionId
      ⟨some ((o.setBalance p.data.balance).view (emptyCodeHash H) env.db), ?_⟩)
    rw [hview, view_setStateObject, view_push, view_MarkStateObjectDirty,
      show (o.setBalance p.data.balance).address = a from rfl, show o.address = a from rfl,
      Obs.setAccount_setAccount, haddr]

theorem AddRefund_journals {s : StateDB} (hw : s.WellKeyed) (hda : s.DeletedAbsent env) (gas : Int) :
    Journals H env s (s.AddRefund gas) :=
  journals_one hw hda (e := .refundChange s.refund) trivial rfl rfl rfl rfl
    (Obs.undo_refundChange (V := s.view H env) _ _ _ _)

/-- The view after `AddLog`: the stamped log is appended to its transaction's. -/
theorem view_AddLog (s : StateDB) (l : Log) :
    (s.AddLog l).view H env =
      { s.view H env with logs := Function.update (s.view H env).logs s.thash ((s.view H env).logs s.thash ++
        [{ l with txHash := s.thash, blockHash := s.bhash, txIndex := s.txIndex, index := s.logSize }]) } := by
  simp only [view, AddLog, push]
  rw [← GetLogs_insert]
  rfl

theorem AddLog_journals {s : StateDB} (hw : s.WellKeyed) (hda : s.DeletedAbsent env) (l : Log) :
    Journals H env s (s.AddLog l) := by
  refine journals_one hw hda (e := .addLogChange s.thash) trivial rfl rfl rfl rfl ?_
  rw [view_AddLog]
  exact Obs.undo_addLogChange _ _ _ _ _

theorem AddPreimage_journals {s : StateDB} (hw : s.WellKeyed) (hda : s.DeletedAbsent env) (hash : Hash)
    (preimage : Bytes) : Journals H env s (s.AddPreimage hash preimage) := by
  unfold AddPreimage
  split_ifs with hsome
  · exact Journals.refl hw hda
  · -- a new preimage is recorded, and dropped again by its record
    have hnone : s.preimages.lookup hash = none := Option.not_isSome_iff_eq_none.mp hsome
    refine journals_one hw hda (e := .addPreimageChange hash) trivial rfl rfl rfl rfl ?_
    have hview : ({ s.push (.addPreimageChange hash) with preimages := s.preimages.insert hash preimage } :
        StateDB).view H env =
        { s.view H env with preimages := Function.update (s.view H env).preimages hash (some preimage) } := by
      simp only [view, push]
      congr 1
      funext b
      by_cases hb : b = hash
      · subst hb
        simp
      · simp [AList.lookup_insert_ne hb, Function.update_of_ne hb]
    rw [hview]
    exact Obs.undo_addPreimageChange _ _ _ hnone preimage

/-! ### The accessors -/

theorem readObject_journals {α : Type} {s : StateDB} (hw : s.WellKeyed) (hda : s.DeletedAbsent env)
    (a : Address) (d : α) (f : StateObject → α) : Journals H env s (s.readObject env a d f).2 := by
  rw [readObject_snd]
  exact (getStateObject_sameView H env hw hda a).journals

/-- An accessor that caches something in the live object of an account: the
view stays as it was. -/
theorem journals_cache {s : StateDB} (hw : s.WellKeyed) (hda : s.DeletedAbsent env) {a : Address}
    {o : StateObject} {s₁ : StateDB} (hg : s.getStateObject env a = (some o, s₁)) (o' : StateObject)
    (haddr : o'.address = o.address) (hdel : o'.deleted = o.deleted)
    (hview : o'.view (emptyCodeHash H) env.db = o.view (emptyCodeHash H) env.db) :
    Journals H env s (s₁.setStateObject o') := by
  obtain ⟨ha, hd, hv, hs⟩ := getStateObject_some_view hw hda hg
  have hd' : o'.deleted = false := hdel.trans hd
  have hsame : SameView H env s₁ (s₁.setStateObject o') := by
    refine ⟨⟨rfl, rfl, rfl, rfl, wellKeyed_setStateObject hs.wellKeyed o',
      deletedAbsent_setStateObject hs.deletedAbsent hd'⟩, view_setStateObject_same hd' ?_⟩
    rw [haddr, ha, hview]
    exact hv
  exact (hs.trans hsame).journals

theorem GetCode_journals {s : StateDB} (hw : s.WellKeyed) (hda : s.DeletedAbsent env) (a : Address) :
    Journals H env s (s.GetCode H env a).2 := by
  unfold GetCode
  rcases hg : s.getStateObject env a with ⟨_ | o, s₁⟩
  · obtain ⟨rfl, -⟩ := getStateObject_none_view (H := H) hda hg
    exact Journals.refl hw hda
  · obtain ⟨-, -, -, -, hdel, haddr, -⟩ := StateObject.Code_snd (emptyCodeHash H) env.db o
    exact journals_cache hw hda hg _ haddr hdel (StateObject.view_Code_snd _ _ o)

theorem GetState_journals {s : StateDB} (hw : s.WellKeyed) (hda : s.DeletedAbsent env) (a : Address)
    (key : Hash) : Journals H env s (s.GetState env a key).2 := by
  unfold GetState
  rcases hg : s.getStateObject env a with ⟨_ | o, s₁⟩
  · obtain ⟨rfl, -⟩ := getStateObject_none_view (H := H) hda hg
    exact Journals.refl hw hda
  · obtain ⟨-, -, -, hdel, haddr, -, -⟩ := StateObject.GetState_snd env.db o key
    exact journals_cache hw hda hg _ haddr hdel (StateObject.view_GetState_snd _ _ o key)

/-! ## Frames of calls -/

/-- `t` is `s` after calls and frames: the trie of `s`, its revisions still in
place with the revisions of the frames left open after them, the live set
well keyed with no deleted object in the trie, and a journal that extends
that of `s` by sound records whose undoing, newest first, gives back the view
of `s`. -/
structure Frames (H : Hashing) (env : Env) (s t : StateDB) : Prop where
  trie : t.trie = s.trie
  wellKeyed : t.WellKeyed
  deletedAbsent : t.DeletedAbsent env
  revisionsBelow : t.RevisionsBelow
  validRevisions : s.validRevisions <+: t.validRevisions
  nextRevisionId : s.nextRevisionId ≤ t.nextRevisionId
  entries : ∃ es, t.journal = s.journal ++ es ∧ (∀ e ∈ es, e.Sound) ∧
    (t.view H env).undoAll (emptyCodeHash H) env.db (s.trieView H env) es.reverse = some (s.view H env)

/-- A call that keeps the revisions is a frame of calls. -/
theorem Journals.frames {s t : StateDB} (h : Journals H env s t) (hb : s.RevisionsBelow) :
    Frames H env s t := by
  refine ⟨h.trie, h.wellKeyed, h.deletedAbsent, ?_, by rw [h.validRevisions],
    by rw [h.nextRevisionId], h.entries⟩
  intro r hr
  rw [h.validRevisions] at hr
  rw [h.nextRevisionId]
  exact hb r hr

theorem Frames.trans {s t u : StateDB} (h₁ : Frames H env s t)
    (h₂ : Frames H env t u) : Frames H env s u := by
  obtain ⟨es₁, hj₁, hs₁, hu₁⟩ := h₁.entries
  obtain ⟨es₂, hj₂, hs₂, hu₂⟩ := h₂.entries
  refine ⟨h₂.trie.trans h₁.trie, h₂.wellKeyed, h₂.deletedAbsent, h₂.revisionsBelow,
    h₁.validRevisions.trans h₂.validRevisions, h₁.nextRevisionId.trans h₂.nextRevisionId,
    es₁ ++ es₂, by rw [hj₂, hj₁, List.append_assoc], ?_, ?_⟩
  · intro e he
    rcases List.mem_append.1 he with he | he
    · exact hs₁ e he
    · exact hs₂ e he
  · -- the newer records are undone first, back to the view of `t`
    rw [List.reverse_append, Obs.undoAll_append, ← trieView_congr h₁.trie, hu₂, Option.bind_some,
      trieView_congr h₁.trie]
    exact hu₁

/-- `Snapshot` opens a frame: one more revision, nothing journalled. -/
theorem frames_snapshot {s : StateDB} (hw : s.WellKeyed) (hda : s.DeletedAbsent env)
    (hb : s.RevisionsBelow) : Frames H env s s.Snapshot.2 :=
  ⟨rfl, hw, hda, revisionsBelow_snapshot hb, ⟨_, rfl⟩, Nat.le_succ _, [], by simp [Snapshot], by simp,
    rfl⟩

/-- The search in `RevertToSnapshot` finds the revision of a frame under the
revisions of the frames opened inside it. -/
theorem findIdx_frame {s : StateDB} (h : s.RevisionsBelow) (rs : List Revision) :
    (s.validRevisions ++ [(⟨s.nextRevisionId, s.journal.length⟩ : Revision)] ++ rs).findIdx
      (fun r => decide (r.id ≥ s.nextRevisionId)) = s.validRevisions.length := by
  rw [List.findIdx_append, findIdx_snapshot h]
  simp

/-- **Revert under nested frames**: reverting to the id `Snapshot` returned
undoes every record pushed since, newest first, whatever revisions the frames
opened inside it left, and restores the journal and the revisions. -/
theorem RevertToSnapshot_nested {s t : StateDB} (h : s.RevisionsBelow) (js : List JournalEntry)
    (hj : t.journal = s.journal ++ js) (rs : List Revision)
    (hv : t.validRevisions = s.Snapshot.2.validRevisions ++ rs) :
    t.RevertToSnapshot env s.Snapshot.1 =
      (t.undoAll env js.reverse).map fun s' =>
        { s' with journal := s.journal, validRevisions := s.validRevisions } := by
  set r : Revision := ⟨s.nextRevisionId, s.journal.length⟩
  have hv' : t.validRevisions = s.validRevisions ++ [r] ++ rs := hv
  have hidx : (s.validRevisions ++ [r] ++ rs).findIdx (fun r => decide (r.id ≥ s.nextRevisionId))
      = s.validRevisions.length := findIdx_frame h rs
  have hget : (s.validRevisions ++ [r] ++ rs)[s.validRevisions.length]? = some r := by simp
  have hdrop : (s.journal ++ js).drop s.journal.length = js := List.drop_left' rfl
  have htake : (s.journal ++ js).take s.journal.length = s.journal := List.take_left' rfl
  have htake' : (s.validRevisions ++ [r] ++ rs).take s.validRevisions.length = s.validRevisions := by
    rw [List.append_assoc]
    exact List.take_left' rfl
  have hrid : r.id = s.nextRevisionId := rfl
  have hrj : r.journalIndex = s.journal.length := rfl
  show t.RevertToSnapshot env s.nextRevisionId = _
  simp only [RevertToSnapshot, hv', hidx, hget, hrid, hrj, if_true, hj, hdrop, htake, htake']

/-- **Reverting a frame leaves only the frame it was opened in**: after calls
and frames opened since `Snapshot`, the revert returns, to the view, the
journal and the revisions the state had when the frame was opened. -/
theorem RevertToSnapshot_frame {s t : StateDB} (hb : s.RevisionsBelow)
    (hf : Frames H env s.Snapshot.2 t) :
    ∃ u, t.RevertToSnapshot env s.Snapshot.1 = .ok u ∧ Frames H env s u ∧
      u.view H env = s.view H env ∧ u.journal = s.journal ∧ u.validRevisions = s.validRevisions := by
  obtain ⟨rs, hrs⟩ := hf.validRevisions
  obtain ⟨es, hj, hsound, hundo⟩ := hf.entries
  rw [← trieView_congr hf.trie] at hundo
  -- undoing the frame's records on the state, as they undo on its view
  obtain ⟨t', ht', hview, hk⟩ := undoAll_view hf.wellKeyed hf.deletedAbsent
    (fun e he => hsound e (List.mem_reverse.mp he)) hundo
  rw [RevertToSnapshot_nested hb es hj rs hrs.symm, ht', Outcome.map_ok]
  refine ⟨_, rfl, ⟨hk.trie.trans hf.trie, hk.wellKeyed, hk.deletedAbsent, ?_, List.prefix_refl _,
    ?_, [], by simp, by simp, ?_⟩, hview, rfl, rfl⟩
  · -- the revisions left are those of `s`, all below the next id, which only grew
    intro r hr
    have hnext : s.nextRevisionId + 1 ≤ t'.nextRevisionId := hk.nextRevisionId ▸ hf.nextRevisionId
    have := hb r hr
    show r.id < t'.nextRevisionId
    omega
  · have hnext : s.nextRevisionId + 1 ≤ t'.nextRevisionId := hk.nextRevisionId ▸ hf.nextRevisionId
    show s.nextRevisionId ≤ t'.nextRevisionId
    omega
  · simp only [List.reverse_nil, Obs.undoAll]
    exact congrArg some hview

end

/-! ## Calls of the interface, in frames -/

/-- A call of the `vm.StateDB` interface, or a frame the EVM opens around a
message call: `Snapshot`, the calls inside, and `RevertToSnapshot` to the
snapshot when the call fails (`revert`). -/
inductive Call where
  | createAccount (a : Address)
  | subBalance (a : Address) (amount : Int)
  | addBalance (a : Address) (amount : Int)
  | getBalance (a : Address)
  | getNonce (a : Address)
  | setNonce (a : Address) (nonce : UInt64)
  | getCodeHash (a : Address)
  | getCode (a : Address)
  | setCode (a : Address) (code : Option Bytes)
  | getCodeSize (a : Address)
  | addRefund (gas : Int)
  | getState (a : Address) (key : Hash)
  | setState (a : Address) (key value : Hash)
  | suicide (a : Address)
  | hasSuicided (a : Address)
  | exist (a : Address)
  | empty (a : Address)
  | addLog (log : Log)
  | addPreimage (hash : Hash) (preimage : Bytes)
  | frame (body : List Call) (revert : Bool)

section

variable (H : Hashing) (env : Env)

mutual

/-- One call on the state; what a getter returns is dropped, what it caches
is kept. -/
def Call.run : Call → StateDB → Outcome PEmpty StateDB
  | .createAccount a, s => .ok (s.CreateAccount H env a)
  | .subBalance a amount, s => .ok (s.SubBalance H env a amount)
  | .addBalance a amount, s => .ok (s.AddBalance H env a amount)
  | .getBalance a, s => .ok (s.GetBalance env a).2
  | .getNonce a, s => .ok (s.GetNonce env a).2
  | .setNonce a nonce, s => .ok (s.SetNonce H env a nonce)
  | .getCodeHash a, s => .ok (s.GetCodeHash env a).2
  | .getCode a, s => .ok (s.GetCode H env a).2
  | .setCode a code, s => .ok (s.SetCode H env a code)
  | .getCodeSize a, s => .ok (s.GetCodeSize H env a).2
  | .addRefund gas, s => .ok (s.AddRefund gas)
  | .getState a key, s => .ok (s.GetState env a key).2
  | .setState a key value, s => .ok (s.SetState H env a key value)
  | .suicide a, s => .ok (s.Suicide env a).2
  | .hasSuicided a, s => .ok (s.HasSuicided env a).2
  | .exist a, s => .ok (s.Exist env a).2
  | .empty a, s => .ok (s.Empty H env a).2
  | .addLog log, s => .ok (s.AddLog log)
  | .addPreimage hash preimage, s => .ok (s.AddPreimage hash preimage)
  | .frame body revert, s =>
    (Call.runAll body s.Snapshot.2).bind fun s' =>
      if revert then s'.RevertToSnapshot env s.Snapshot.1 else .ok s'

/-- The calls in order; a panic ends the run. -/
def Call.runAll : List Call → StateDB → Outcome PEmpty StateDB
  | [], s => .ok s
  | c :: cs, s => (Call.run c s).bind (Call.runAll cs)

end

end

section

variable {H : Hashing} {env : Env}

/-- Each call of the interface journals what it changes. -/
theorem run_journals {c : Call} (hc : ∀ body revert, c ≠ .frame body revert) {s : StateDB}
    (hw : s.WellKeyed) (hda : s.DeletedAbsent env) :
    ∃ t, c.run H env s = .ok t ∧ Journals H env s t := by
  cases c with
  | createAccount a => exact ⟨_, rfl, CreateAccount_journals hw hda a⟩
  | subBalance a amount => exact ⟨_, rfl, SubBalance_journals hw hda a amount⟩
  | addBalance a amount => exact ⟨_, rfl, AddBalance_journals hw hda a amount⟩
  | getBalance a => exact ⟨_, rfl, readObject_journals hw hda a _ _⟩
  | getNonce a => exact ⟨_, rfl, readObject_journals hw hda a _ _⟩
  | setNonce a nonce => exact ⟨_, rfl, SetNonce_journals hw hda a nonce⟩
  | getCodeHash a => exact ⟨_, rfl, readObject_journals hw hda a _ _⟩
  | getCode a => exact ⟨_, rfl, GetCode_journals hw hda a⟩
  | setCode a code => exact ⟨_, rfl, SetCode_journals hw hda a code⟩
  | getCodeSize a => exact ⟨_, rfl, GetCode_journals hw hda a⟩
  | addRefund gas => exact ⟨_, rfl, AddRefund_journals hw hda gas⟩
  | getState a key => exact ⟨_, rfl, GetState_journals hw hda a key⟩
  | setState a key value => exact ⟨_, rfl, SetState_journals hw hda a key value⟩
  | suicide a => exact ⟨_, rfl, Suicide_journals hw hda a⟩
  | hasSuicided a => exact ⟨_, rfl, readObject_journals hw hda a _ _⟩
  | exist a => exact ⟨_, rfl, readObject_journals hw hda a _ _⟩
  | empty a => exact ⟨_, rfl, readObject_journals hw hda a _ _⟩
  | addLog log => exact ⟨_, rfl, AddLog_journals hw hda log⟩
  | addPreimage hash preimage => exact ⟨_, rfl, AddPreimage_journals hw hda hash preimage⟩
  | frame body revert => exact absurd rfl (hc body revert)

/-- A frame's own step: given that its body runs to a frame of calls from the
snapshot, the frame returns, kept or reverted, to a frame of calls from the
state it was opened in. -/
theorem frames_frame {s : StateDB} (hw : s.WellKeyed) (hda : s.DeletedAbsent env)
    (hb : s.RevisionsBelow) (body : List Call) (revert : Bool)
    (hbody : ∃ t, Call.runAll H env body s.Snapshot.2 = .ok t ∧ Frames H env s.Snapshot.2 t) :
    ∃ t, (Call.frame body revert).run H env s = .ok t ∧ Frames H env s t := by
  obtain ⟨t, ht, hf⟩ := hbody
  rw [Call.run, ht, Outcome.bind_ok]
  cases revert with
  | false => exact ⟨t, rfl, (frames_snapshot hw hda hb).trans hf⟩
  | true =>
    obtain ⟨u, hu, hfu, -⟩ := RevertToSnapshot_frame hb hf
    exact ⟨u, hu, hfu⟩

mutual

/-- **Every call returns and is a frame of calls**: from a state whose live
set is well keyed, with no deleted object in the trie and its revisions
below the next id, a call of the interface, or a frame of calls with frames
nested in it, returns without a panic, to a frame of calls. The recursion is
on the call, into the body of a frame. -/
theorem run_frames (c : Call) {s : StateDB} (hw : s.WellKeyed) (hda : s.DeletedAbsent env)
    (hb : s.RevisionsBelow) : ∃ t, c.run H env s = .ok t ∧ Frames H env s t := by
  cases c with
  | frame body revert =>
    exact frames_frame hw hda hb body revert (runAll_frames body hw hda (revisionsBelow_snapshot hb))
  | _ => exact (run_journals (by simp) hw hda).imp fun _ h => ⟨h.1, h.2.frames hb⟩

/-- Calls in order: each call's frame of calls joined to the next. -/
theorem runAll_frames : ∀ (cs : List Call) {s : StateDB}, s.WellKeyed → s.DeletedAbsent env →
    s.RevisionsBelow → ∃ t, Call.runAll H env cs s = .ok t ∧ Frames H env s t
  | [], s, hw, hda, hb => ⟨s, rfl, (Journals.refl hw hda).frames hb⟩
  | c :: cs, _, hw, hda, hb => by
    obtain ⟨t₁, h₁, hf₁⟩ := run_frames c hw hda hb
    obtain ⟨t, h, hf⟩ := runAll_frames cs hf₁.wellKeyed hf₁.deletedAbsent hf₁.revisionsBelow
    refine ⟨t, ?_, hf₁.trans hf⟩
    rw [Call.runAll, h₁, Outcome.bind_ok, h]

end

theorem deletedAbsent_New (env : Env) (trie : Nat) : (New trie).DeletedAbsent env := by
  intro a o h
  simp [New] at h

/-- **A reverted frame leaves no trace**: from a state whose live set is well
keyed, with no deleted object in the trie and its revisions below the next
id, a frame of any calls of the interface, with frames nested in it kept or
reverted, returns without a panic once reverted; every accessor then reads
what it read before the frame, and the journal and the revisions are those
before it. -/
theorem reverted_frame_restores_accessors (body : List Call) {s : StateDB} (hw : s.WellKeyed)
    (hda : s.DeletedAbsent env) (hb : s.RevisionsBelow) :
    ∃ t, (Call.frame body true).run H env s = .ok t ∧ s.SameAccessors H env t ∧
      t.journal = s.journal ∧ t.validRevisions = s.validRevisions := by
  obtain ⟨t, ht, hf⟩ := runAll_frames body (s := s.Snapshot.2) hw hda (revisionsBelow_snapshot hb)
  obtain ⟨u, hu, -, hview, hj, hr⟩ := RevertToSnapshot_frame hb hf
  refine ⟨u, ?_, sameAccessors_of_view_eq hview.symm, hj, hr⟩
  rw [Call.run, ht, Outcome.bind_ok]
  exact hu

theorem reverted_frame_restores_accessors_nested :
    ∃ t, (Call.frame [.addBalance 1 5, .frame [.setState 1 1 2, .addRefund 3] false, .createAccount 2,
        .frame [.suicide 1, .setCode 2 (some [0])] true, .getCode 2] true).run
        ⟨fun _ => 0, fun _ => 0, fun _ => 0⟩ ⟨fun _ _ => none, ⟨fun _ => none, fun _ => none⟩⟩ (New 0) = .ok t ∧
      (New 0).SameAccessors ⟨fun _ => 0, fun _ => 0, fun _ => 0⟩
        ⟨fun _ _ => none, ⟨fun _ => none, fun _ => none⟩⟩ t ∧ t.journal = [] ∧ t.validRevisions = [] :=
  reverted_frame_restores_accessors _ (wellKeyed_New 0) (deletedAbsent_New _ 0) (revisionsBelow_New 0)

end

end StateDB

end State

end Bazacoin
