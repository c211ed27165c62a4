import Bazacoin.State.View
import Bazacoin.State.Revert

/-!
# Undoing the journal (`journal.go`, `statedb.go`)

Each setter of `StateDB` pushes undo records to the journal, and
`RevertToSnapshot` undoes those pushed since its snapshot, newest first. This
module proves that reverting gives back what every accessor read at the
snapshot, however the state was changed in between through the `vm.StateDB`
interface, with frames nested inside kept or reverted.

The argument goes through the view (`State.View`). `Obs.undo` says what
undoing one entry does to the view; the concrete `undo` refines it
(`undo_view`). `Journals s t` says that `t` extends the journal of `s` by
entries whose abstract undoing gives back the view of `s`; it composes along a
run (`Journals.trans`), and a step that keeps the view and the journal keeps
it (`SameView.journals`).

Two facts about the states the setters leave carry the argument. The live set
keeps each object under its address (`WellKeyed`), and a deleted live object
is gone from the trie (`DeletedAbsent`), as `deleteStateObject` leaves it: an
account created over a deleted one is then undone to nothing.
-/

namespace Bazacoin

namespace State

namespace JournalEntry

/-- An entry as the setters push it: an object that `resetObjectChange`
puts back was live, not deleted. -/
def Sound : JournalEntry → Prop
  | .resetObjectChange prev => prev.deleted = false
  | _ => True

end JournalEntry

namespace StateDB

section

variable (H : Hashing) (env : Env)

/-- A deleted live object is not in the trie. -/
def DeletedAbsent (s : StateDB) : Prop :=
  ∀ a o, s.stateObjects.lookup a = some o → o.deleted = true → s.accountTrie env a = none

namespace Obs

@[simp] theorem setAccount_accounts (V : Obs) (a : Address) (v : Option AccountView) :
    (V.setAccount a v).accounts = Function.update V.accounts a v := rfl

theorem setAccount_setAccount (V : Obs) (a : Address) (v w : Option AccountView) :
    (V.setAccount a v).setAccount a w = V.setAccount a w := by
  simp [setAccount]

theorem setAccount_self {V : Obs} {a : Address} {v : Option AccountView} (h : V.accounts a = v) :
    V.setAccount a v = V := by
  simp [setAccount, ← h]

variable (emptyCodeHash : Hash) (db : Database) (trie : Address → Option AccountView)

/-- What undoing a journal entry does to the view, where `trie` is the view of
the accounts the trie holds; `none` where `undo` panics. -/
def undo (V : Obs) : JournalEntry → Option Obs
  | .createObjectChange a => some (V.setAccount a (trie a))
  | .resetObjectChange prev =>
    some (V.setAccount prev.address (if prev.deleted then none else some (prev.view emptyCodeHash db)))
  | .suicideChange a prev prevbalance =>
    match V.accounts a with
    | none => some V
    | some v => some (V.setAccount a (some { v with suicided := prev, balance := prevbalance }))
  | .touchChange a prev _ => if !prev && a ≠ ripemd then (V.accounts a).map fun _ => V else some V
  | .balanceChange a prev => (V.accounts a).map fun v => V.setAccount a (some { v with balance := prev })
  | .nonceChange a prev => (V.accounts a).map fun v => V.setAccount a (some { v with nonce := prev })
  | .codeChange a prevcode prevhash => (V.accounts a).map fun v =>
    V.setAccount a (some { v with
      codeHash := prevhash, code := (StateObject.loadCode emptyCodeHash db prevcode prevhash).getD [] })
  | .storageChange a key prevalue => (V.accounts a).map fun v =>
    V.setAccount a (some { v with storage := Function.update v.storage key prevalue })
  | .refundChange prev => some { V with refund := prev }
  | .addLogChange txhash =>
    if (V.logs txhash).length = 1 then some { V with logs := Function.update V.logs txhash [] }
    else if (V.logs txhash).length = 0 then none
    else some { V with logs := Function.update V.logs txhash (V.logs txhash).dropLast }
  | .addPreimageChange hash => some { V with preimages := Function.update V.preimages hash none }

/-- Undo a list of entries, first to last. -/
def undoAll (V : Obs) : List JournalEntry → Option Obs
  | [] => some V
  | e :: es => (V.undo emptyCodeHash db trie e).bind fun V => undoAll V es

theorem undoAll_append (V : Obs) (es es' : List JournalEntry) :
    V.undoAll emptyCodeHash db trie (es ++ es') =
      (V.undoAll emptyCodeHash db trie es).bind fun V => V.undoAll emptyCodeHash db trie es' := by
  induction es generalizing V with
  | nil => rfl
  | cons e es ih =>
    simp only [List.cons_append, undoAll]
    cases V.undo emptyCodeHash db trie e with
    | none => rfl
    | some V' => exact ih V'

end Obs

variable {H env}

/-! ### The live set -/

theorem trieView_congr {s t : StateDB} (h : t.trie = s.trie) : t.trieView H env = s.trieView H env := by
  unfold trieView accountTrie
  rw [h]

theorem deletedAbsent_setStateObject {s : StateDB} (hda : s.DeletedAbsent env) {o : StateObject}
    (ho : o.deleted = false) : (s.setStateObject o).DeletedAbsent env := by
  intro a o' h hd
  by_cases ha : a = o.address
  · subst ha
    simp only [setStateObject, AList.lookup_insert, Option.some.injEq] at h
    subst h
    simp [ho] at hd
  · rw [setStateObject, AList.lookup_insert_ne ha] at h
    exact hda a o' h hd

theorem deletedAbsent_putObject {s : StateDB} (hda : s.DeletedAbsent env) (before : StateObject)
    {o : StateObject} (ho : o.deleted = false) : (s.putObject before o).DeletedAbsent env := by
  unfold putObject
  split
  · exact deletedAbsent_setStateObject hda ho
  · exact deletedAbsent_setStateObject hda ho

variable (env) in
/-- `getStateObject` either leaves the state as it is or loads the account
from the trie into the live set. -/
theorem getStateObject_snd_cases (s : StateDB) (a : Address) :
    (s.getStateObject env a).2 = s ∨
      ∃ data, s.stateObjects.lookup a = none ∧ s.accountTrie env a = some data ∧
        (s.getStateObject env a).2 = s.setStateObject (StateObject.newObject a data true) := by
  unfold getStateObject
  cases hlive : s.stateObjects.lookup a with
  | some o => exact .inl rfl
  | none =>
    cases htrie : s.accountTrie env a with
    | none => exact .inl rfl
    | some data => exact .inr ⟨data, rfl, rfl, rfl⟩

/-- What `getStateObject` reads as absent is absent from the trie, and the
state is left as it is. -/
theorem getStateObject_none {s : StateDB} (hda : s.DeletedAbsent env) {a : Address}
    (h : s.accountView H env a = none) : s.getStateObject env a = (none, s) ∧ s.trieView H env a = none := by
  unfold accountView at h
  unfold getStateObject
  cases hlive : s.stateObjects.lookup a with
  | some o =>
    rw [hlive] at h
    by_cases hd : o.deleted
    · -- a deleted object: the trie no longer has the account
      refine ⟨by simp [hd], ?_⟩
      simp [trieView, hda a o hlive hd]
    · simp [hd] at h
  | none =>
    rw [hlive] at h
    have htrie : s.accountTrie env a = none := by
      simpa [trieView] using h
    exact ⟨by simp [htrie], h⟩

end

section

variable (H : Hashing) (env : Env)

/-- `t` is `s` changed through journalled setters: the same trie and
revisions, the live set still well keyed with no deleted object left in the
trie, and a journal that extends that of `s` by sound entries whose undoing,
newest first, gives back the view of `s`. -/
structure Journals (s t : StateDB) : Prop where
  trie : t.trie = s.trie
  wellKeyed : t.WellKeyed
  deletedAbsent : t.DeletedAbsent env
  validRevisions : t.validRevisions = s.validRevisions
  nextRevisionId : t.nextRevisionId = s.nextRevisionId
  entries : ∃ es, t.journal = s.journal ++ es ∧ (∀ e ∈ es, e.Sound) ∧
    (t.view H env).undoAll (emptyCodeHash H) env.db (s.trieView H env) es.reverse = some (s.view H env)

variable {H env}

/-- A change that the view does not see and the journal does not record. -/
theorem journals_of_view {s t : StateDB} (hw : t.WellKeyed) (hda : t.DeletedAbsent env)
    (hv : t.view H env = s.view H env) (ht : t.trie = s.trie) (hj : t.journal = s.journal)
    (hr : t.validRevisions = s.validRevisions) (hn : t.nextRevisionId = s.nextRevisionId) :
    Journals H env s t :=
  ⟨ht, hw, hda, hr, hn, [], by simp [hj], by simp, by simp [Obs.undoAll, hv]⟩

theorem Journals.refl {s : StateDB} (hw : s.WellKeyed) (hda : s.DeletedAbsent env) :
    Journals H env s s :=
  journals_of_view hw hda rfl rfl rfl rfl rfl

theorem Journals.trans {s t u : StateDB} (h₁ : Journals H env s t) (h₂ : Journals H env t u) :
    Journals H env s u := by
  obtain ⟨es₁, hj₁, hs₁, hu₁⟩ := h₁.entries
  obtain ⟨es₂, hj₂, hs₂, hu₂⟩ := h₂.entries
  refine ⟨h₂.trie.trans h₁.trie, h₂.wellKeyed, h₂.deletedAbsent,
    h₂.validRevisions.trans h₁.validRevisions, h₂.nextRevisionId.trans h₁.nextRevisionId,
    es₁ ++ es₂, by rw [hj₂, hj₁, List.append_assoc], ?_, ?_⟩
  · intro e he
    rcases List.mem_append.1 he with he | he
    · exact hs₁ e he
    · exact hs₂ e he
  · -- the newer entries are undone first, back to the view of `t`
    rw [List.reverse_append, Obs.undoAll_append, ← trieView_congr h₁.trie, hu₂, Option.bind_some,
      trieView_congr h₁.trie]
    exact hu₁

variable (env) in
/-- `t` keeps the trie, the journal and the revisions of `s`, and its live
set is still well keyed, with no deleted object left in the trie. -/
structure KeepsFrame (s t : StateDB) : Prop where
  trie : t.trie = s.trie
  journal : t.journal = s.journal
  validRevisions : t.validRevisions = s.validRevisions
  nextRevisionId : t.nextRevisionId = s.nextRevisionId
  wellKeyed : t.WellKeyed
  deletedAbsent : t.DeletedAbsent env

variable (H env) in
/-- `t` differs from `s` only where no accessor looks: in the caches, the
dirty and the destructed sets. -/
structure SameView (s t : StateDB) : Prop extends KeepsFrame env s t where
  view : t.view H env = s.view H env

theorem KeepsFrame.trans {s t u : StateDB} (h₁ : KeepsFrame env s t) (h₂ : KeepsFrame env t u) :
    KeepsFrame env s u :=
  ⟨h₂.trie.trans h₁.trie, h₂.journal.trans h₁.journal, h₂.validRevisions.trans h₁.validRevisions,
    h₂.nextRevisionId.trans h₁.nextRevisionId, h₂.wellKeyed, h₂.deletedAbsent⟩

theorem SameView.trans {s t u : StateDB} (h₁ : SameView H env s t) (h₂ : SameView H env t u) :
    SameView H env s u :=
  ⟨h₁.toKeepsFrame.trans h₂.toKeepsFrame, h₂.view.trans h₁.view⟩

theorem SameView.journals {s t : StateDB} (h : SameView H env s t) : Journals H env s t :=
  journals_of_view h.wellKeyed h.deletedAbsent h.view h.trie h.journal h.validRevisions h.nextRevisionId

theorem keepsFrame_dirty {s : StateDB} (hw : s.WellKeyed) (hda : s.DeletedAbsent env) (l : List Address) :
    KeepsFrame env s { s with stateObjectsDirty := l } :=
  ⟨rfl, rfl, rfl, rfl, hw, hda⟩

theorem keepsFrame_destructed {s : StateDB} (hw : s.WellKeyed) (hda : s.DeletedAbsent env)
    (l : List Address) : KeepsFrame env s { s with stateObjectsDestructed := l } :=
  ⟨rfl, rfl, rfl, rfl, hw, hda⟩

variable (H env) in
/-- Loading an account changes nothing an accessor reads. -/
theorem getStateObject_sameView {s : StateDB} (hw : s.WellKeyed) (hda : s.DeletedAbsent env)
    (a : Address) : SameView H env s (s.getStateObject env a).2 := by
  have hv := view_getStateObject_snd H env s a
  have hw' := (getStateObject_snd env hw a).2
  rcases getStateObject_snd_cases env s a with h | ⟨data, -, -, h⟩
  · rw [h]
    exact ⟨⟨rfl, rfl, rfl, rfl, hw, hda⟩, rfl⟩
  · rw [h] at hv hw' ⊢
    exact ⟨⟨rfl, rfl, rfl, rfl, hw', deletedAbsent_setStateObject hda rfl⟩, hv⟩

/-- What `getStateObject` finds where the view has an account. -/
theorem getStateObject_some {s : StateDB} (hw : s.WellKeyed) {a : Address} {v : AccountView}
    (h : s.accountView H env a = some v) :
    ∃ o, s.getStateObject env a = (some o, (s.getStateObject env a).2) ∧
      o.view (emptyCodeHash H) env.db = v ∧ o.address = a ∧ o.deleted = false := by
  rw [← getStateObject_view] at h
  obtain ⟨o, ho, hv⟩ := Option.map_eq_some_iff.1 h
  obtain ⟨haddr, hd⟩ := getStateObject_found env hw ho
  exact ⟨o, Prod.ext ho rfl, hv, haddr, hd⟩

/-- Putting a live object back: its view replaces the account's. -/
theorem putObject_view {s : StateDB} (hw : s.WellKeyed) (hda : s.DeletedAbsent env)
    (before : StateObject) {o : StateObject} (hd : o.deleted = false) :
    (s.putObject before o).view H env =
        (s.view H env).setAccount o.address (some (o.view (emptyCodeHash H) env.db)) ∧
      KeepsFrame env s (s.putObject before o) := by
  refine ⟨by rw [view_putObject, liveView, if_neg (by simp [hd])], ?_⟩
  have hk : (s.putObject before o).trie = s.trie ∧ (s.putObject before o).journal = s.journal ∧
      (s.putObject before o).validRevisions = s.validRevisions ∧
      (s.putObject before o).nextRevisionId = s.nextRevisionId := by
    unfold putObject
    split <;> exact ⟨rfl, rfl, rfl, rfl⟩
  exact ⟨hk.1, hk.2.1, hk.2.2.1, hk.2.2.2, wellKeyed_putObject hw _ _, deletedAbsent_putObject hda _ hd⟩

/-- `withObject` on an account the view has: the view of the changed object
replaces the account's. -/
theorem withObject_view {s : StateDB} (hw : s.WellKeyed) (hda : s.DeletedAbsent env) {a : Address}
    (f : StateObject → StateObject) (F : AccountView → AccountView)
    (hf : ∀ o, (f o).address = o.address ∧ (f o).deleted = o.deleted ∧
      (f o).view (emptyCodeHash H) env.db = F (o.view (emptyCodeHash H) env.db))
    {v : AccountView} (hv : s.accountView H env a = some v) :
    ∃ t, s.withObject env a f = .ok t ∧ t.view H env = (s.view H env).setAccount a (some (F v)) ∧
      KeepsFrame env s t := by
  obtain ⟨o, hg, hov, haddr, hd⟩ := getStateObject_some hw hv
  have hs' := getStateObject_sameView H env hw hda a
  obtain ⟨hfa, hfd, hfv⟩ := hf o
  obtain ⟨hview, hkeep⟩ :=
    putObject_view hs'.wellKeyed hs'.deletedAbsent o (o := f o) (by rw [hfd, hd])
  unfold withObject
  rw [hg]
  refine ⟨_, rfl, ?_, hs'.toKeepsFrame.trans hkeep⟩
  rw [hview, hs'.view, hfa, haddr, hfv, hov]

theorem KeepsFrame.refl {s : StateDB} (hw : s.WellKeyed) (hda : s.DeletedAbsent env) :
    KeepsFrame env s s :=
  ⟨rfl, rfl, rfl, rfl, hw, hda⟩

/-! ### Undo refines the abstract undo -/

/-- Dropping the live object of an address: the account reads from the trie
again. -/
theorem view_eraseObject (s : StateDB) (a : Address) (dirty : List Address) :
    ({ s with stateObjects := s.stateObjects.erase a, stateObjectsDirty := dirty } : StateDB).view H env =
      (s.view H env).setAccount a (s.trieView H env a) := by
  have hacc : ({ s with stateObjects := s.stateObjects.erase a, stateObjectsDirty := dirty } : StateDB).accountView H env =
      Function.update (s.accountView H env) a (s.trieView H env a) := by
    funext b
    by_cases hb : b = a
    · subst hb
      simp [accountView, AList.lookup_erase, trieView, accountTrie]
    · simp [accountView, AList.lookup_erase_ne hb, Function.update_of_ne hb, trieView, accountTrie]
  simp only [view, hacc]
  rfl

theorem keepsFrame_eraseObject {s : StateDB} (hw : s.WellKeyed) (hda : s.DeletedAbsent env) (a : Address)
    (dirty : List Address) :
    KeepsFrame env s { s with stateObjects := s.stateObjects.erase a, stateObjectsDirty := dirty } := by
  refine ⟨rfl, rfl, rfl, rfl, fun b o h => ?_, fun b o h hd => ?_⟩
  · by_cases hb : b = a
    · subst hb
      simp [AList.lookup_erase] at h
    · exact hw b o (by simpa [AList.lookup_erase_ne hb] using h)
  · by_cases hb : b = a
    · subst hb
      simp [AList.lookup_erase] at h
    · exact hda b o (by simpa [AList.lookup_erase_ne hb] using h) hd

theorem GetLogs_erase (s : StateDB) (h : Hash) :
    ({ s with logs := s.logs.erase h } : StateDB).GetLogs = Function.update s.GetLogs h [] := by
  funext b
  by_cases hb : b = h
  · subst hb
    simp [GetLogs, AList.lookup_erase]
  · simp [GetLogs, AList.lookup_erase_ne hb, Function.update_of_ne hb]

theorem GetLogs_insert (s : StateDB) (h : Hash) (logs : List Log) :
    ({ s with logs := s.logs.insert h logs } : StateDB).GetLogs = Function.update s.GetLogs h logs := by
  funext b
  by_cases hb : b = h
  · subst hb
    simp [GetLogs]
  · simp [GetLogs, AList.lookup_insert_ne hb, Function.update_of_ne hb]

theorem view_withSuicided (o : StateObject) (suicided : Bool) :
    ({ o with suicided } : StateObject).view (emptyCodeHash H) env.db =
      { o.view (emptyCodeHash H) env.db with suicided := suicided } :=
  StateObject.view_congr _ _ o _ rfl rfl rfl rfl rfl

/-- **The undo of the state refines the undo of the view.** Where undoing a
sound entry succeeds on the view, `undo` succeeds on the state, with that
view. -/
theorem undo_view {s : StateDB} (hw : s.WellKeyed) (hda : s.DeletedAbsent env) {e : JournalEntry}
    (he : e.Sound) {V : Obs}
    (h : (s.view H env).undo (emptyCodeHash H) env.db (s.trieView H env) e = some V) :
    ∃ t, s.undo env e = .ok t ∧ t.view H env = V ∧ KeepsFrame env s t := by
  cases e with
  | createObjectChange a =>
    -- the live object is dropped, and the account reads from the trie
    simp only [Obs.undo, Option.some.injEq] at h
    subst h
    exact ⟨_, rfl, view_eraseObject s a _, keepsFrame_eraseObject hw hda a _⟩
  | resetObjectChange prev =>
    simp only [Obs.undo, Option.some.injEq] at h
    subst h
    refine ⟨_, rfl, ?_, ⟨rfl, rfl, rfl, rfl, wellKeyed_setStateObject hw prev,
      deletedAbsent_setStateObject hda he⟩⟩
    rw [view_setStateObject]
    rfl
  | suicideChange a prev prevbalance =>
    dsimp only [Obs.undo] at h
    cases hv : s.accountView H env a with
    | none =>
      obtain ⟨hg, -⟩ := getStateObject_none hda hv
      rw [show (s.view H env).accounts a = none from hv] at h
      cases h
      exact ⟨s, by simp [undo, hg], rfl, KeepsFrame.refl hw hda⟩
    | some v =>
      -- the flag and the balance are put back on the live object
      obtain ⟨o, hg, hov, haddr, hd⟩ := getStateObject_some hw hv
      rw [show (s.view H env).accounts a = some v from hv] at h
      cases h
      have hs' := getStateObject_sameView H env hw hda a
      obtain ⟨hview, hkeep⟩ := putObject_view hs'.wellKeyed hs'.deletedAbsent o
        (o := ({ o with suicided := prev } : StateObject).setBalance prevbalance) hd
      have hview' : (((s.getStateObject env a).2.putObject o
          (({ o with suicided := prev } : StateObject).setBalance prevbalance))).view H env =
          (s.view H env).setAccount a (some { v with suicided := prev, balance := prevbalance }) := by
        have ha' : (({ o with suicided := prev } : StateObject).setBalance prevbalance).address = a := haddr
        rw [hview, hs'.view, ha', StateObject.view_setBalance, view_withSuicided, hov]
      dsimp only [undo]
      rw [hg]
      dsimp only
      split
      · exact ⟨_, rfl, hview', hs'.toKeepsFrame.trans hkeep⟩
      · exact ⟨_, rfl, hview', hs'.toKeepsFrame.trans (hkeep.trans
          (keepsFrame_destructed hkeep.wellKeyed hkeep.deletedAbsent _))⟩
  | touchChange a prev prevDirty =>
    dsimp only [Obs.undo] at h
    dsimp only [undo]
    split
    · rename_i hc
      rw [if_pos hc] at h
      obtain ⟨v, hv, rfl⟩ := Option.map_eq_some_iff.1 h
      -- the touch flag is not read: the view stays as it was
      obtain ⟨o, hg, hov, haddr, hd⟩ := getStateObject_some hw hv
      have hs' := getStateObject_sameView H env hw hda a
      have hset : ((s.getStateObject env a).2.setStateObject { o with touched := prev }).view H env =
          s.view H env := by
        have ha' : ({ o with touched := prev } : StateObject).address = a := haddr
        have hlive : liveView H env ({ o with touched := prev } : StateObject) = some v := by
          rw [liveView, if_neg (by simp [hd]), StateObject.view_touched, hov]
        rw [view_setStateObject, hs'.view, hlive, ha']
        exact Obs.setAccount_self hv
      have hkeep : KeepsFrame env (s.getStateObject env a).2
          ((s.getStateObject env a).2.setStateObject { o with touched := prev }) :=
        ⟨rfl, rfl, rfl, rfl, wellKeyed_setStateObject hs'.wellKeyed _,
          deletedAbsent_setStateObject hs'.deletedAbsent hd⟩
      rw [hg]
      dsimp only
      split
      · exact ⟨_, rfl, hset, hs'.toKeepsFrame.trans (hkeep.trans
          (keepsFrame_dirty hkeep.wellKeyed hkeep.deletedAbsent _))⟩
      · exact ⟨_, rfl, hset, hs'.toKeepsFrame.trans hkeep⟩
    · rename_i hc
      rw [if_neg hc] at h
      cases h
      exact ⟨s, rfl, rfl, KeepsFrame.refl hw hda⟩
  | balanceChange a prev =>
    obtain ⟨v, hv, rfl⟩ := Option.map_eq_some_iff.1 h
    exact withObject_view hw hda (·.setBalance prev) (fun v => { v with balance := prev })
      (fun o => ⟨rfl, rfl, StateObject.view_setBalance _ _ o prev⟩) hv
  | nonceChange a prev =>
    obtain ⟨v, hv, rfl⟩ := Option.map_eq_some_iff.1 h
    exact withObject_view hw hda (·.setNonce prev) (fun v => { v with nonce := prev })
      (fun o => ⟨rfl, rfl, StateObject.view_setNonce _ _ o prev⟩) hv
  | codeChange a prevcode prevhash =>
    obtain ⟨v, hv, rfl⟩ := Option.map_eq_some_iff.1 h
    exact withObject_view hw hda (·.setCode prevhash prevcode)
      (fun v => { v with
        codeHash := prevhash, code := (StateObject.loadCode (emptyCodeHash H) env.db prevcode prevhash).getD [] })
      (fun o => ⟨rfl, rfl, StateObject.view_setCode _ _ o prevhash prevcode⟩) hv
  | storageChange a key prevalue =>
    obtain ⟨v, hv, rfl⟩ := Option.map_eq_some_iff.1 h
    exact withObject_view hw hda (·.setState key prevalue)
      (fun v => { v with storage := Function.update v.storage key prevalue })
      (fun o => ⟨rfl, rfl, StateObject.view_setState _ _ o key prevalue⟩) hv
  | refundChange prev =>
    cases h
    exact ⟨_, rfl, rfl, ⟨rfl, rfl, rfl, rfl, hw, hda⟩⟩
  | addLogChange txhash =>
    -- the same test on the length of the transaction's logs, on both sides
    dsimp only [Obs.undo] at h
    dsimp only [undo]
    have hlogs : (s.view H env).logs txhash = (s.logs.lookup txhash).getD [] := rfl
    rw [hlogs] at h
    by_cases h1 : ((s.logs.lookup txhash).getD []).length = 1
    · -- the only log of the transaction: its entry goes
      rw [if_pos h1] at h ⊢
      cases h
      refine ⟨_, rfl, ?_, ⟨rfl, rfl, rfl, rfl, hw, hda⟩⟩
      simp only [view, GetLogs_erase]
      rfl
    · rw [if_neg h1] at h ⊢
      by_cases h0 : ((s.logs.lookup txhash).getD []).length = 0
      · rw [if_pos h0] at h
        cases h
      · -- the last log goes
        rw [if_neg h0] at h ⊢
        cases h
        refine ⟨_, rfl, ?_, ⟨rfl, rfl, rfl, rfl, hw, hda⟩⟩
        simp only [view, GetLogs_insert]
        rfl
  | addPreimageChange hash =>
    cases h
    refine ⟨_, rfl, ?_, ⟨rfl, rfl, rfl, rfl, hw, hda⟩⟩
    simp only [view]
    congr 1
    funext b
    by_cases hb : b = hash
    · subst hb
      simp [AList.lookup_erase]
    · simp [AList.lookup_erase_ne hb, Function.update_of_ne hb]

end

end StateDB

end State

end Bazacoin
