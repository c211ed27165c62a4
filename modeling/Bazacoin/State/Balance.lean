import Bazacoin.State.StateDB

/-!
# The balances a state reads (`statedb.go`)

`GetBalance` reads the live object of an account, or loads the account from
the trie. The balance of every account is therefore a function of the live
set and the trie (`balanceOf`), and each operation changes that function only
where it says so: loading an account or creating an empty one leaves it as it
was, `AddBalance` and `SubBalance` move the balance of one account, and
`CreateAccount` and `SetNonce` keep it.

These facts rely on the live set keeping every object under its own address
(`WellKeyed`), which the operations keep.
-/

namespace Bazacoin

namespace State

namespace StateObject

@[simp] theorem deleted_newObject (address : Address) (data : Account) (onDirty : Bool) :
    (newObject address data onDirty).deleted = false := rfl

@[simp] theorem deleted_setBalance (o : StateObject) (amount : Int) :
    (o.setBalance amount).deleted = o.deleted := rfl

@[simp] theorem deleted_setNonce (o : StateObject) (nonce : UInt64) :
    (o.setNonce nonce).deleted = o.deleted := rfl

@[simp] theorem deleted_dirtied (o : StateObject) : o.dirtied.deleted = o.deleted := rfl

@[simp] theorem address_dirtied (o : StateObject) : o.dirtied.address = o.address := rfl

@[simp] theorem data_dirtied (o : StateObject) : o.dirtied.data = o.data := rfl

end StateObject

namespace StateDB

section

variable (H : Hashing) (env : Env)

/-- Every live object sits under its own address. -/
def WellKeyed (s : StateDB) : Prop :=
  ∀ a o, s.stateObjects.lookup a = some o → o.address = a

/-- The balance `GetBalance` reads: that of the live object (zero once it is
deleted), else that of the account in the trie, else zero. -/
def balanceOf (s : StateDB) (a : Address) : Int :=
  match s.stateObjects.lookup a with
  | some o => if o.deleted then 0 else o.data.balance
  | none => ((s.accountTrie env a).map (·.balance)).getD 0

/-- The balance a live object contributes. -/
def liveBalance (o : StateObject) : Int := if o.deleted then 0 else o.data.balance

variable {H env}

theorem GetBalance_fst (s : StateDB) (a : Address) : (s.GetBalance env a).1 = s.balanceOf env a := by
  unfold GetBalance readObject getStateObject balanceOf
  cases hlive : s.stateObjects.lookup a with
  | some o => by_cases hd : o.deleted <;> simp [hd]
  | none => cases s.accountTrie env a <;> rfl

theorem wellKeyed_New (trie : Nat) : (New trie).WellKeyed := by
  intro a o h
  simp [New] at h

/-! ### The live set and the journal -/

theorem balanceOf_setStateObject (s : StateDB) (o : StateObject) :
    (s.setStateObject o).balanceOf env = Function.update (s.balanceOf env) o.address (liveBalance o) := by
  funext b
  by_cases hb : b = o.address
  · subst hb
    simp [balanceOf, setStateObject, liveBalance]
  · simp [balanceOf, setStateObject, AList.lookup_insert_ne hb, Function.update_of_ne hb, accountTrie]

theorem wellKeyed_setStateObject {s : StateDB} (hw : s.WellKeyed) (o : StateObject) :
    (s.setStateObject o).WellKeyed := by
  intro a o' h
  by_cases ha : a = o.address
  · subst ha
    simp only [setStateObject, AList.lookup_insert, Option.some.injEq] at h
    rw [← h]
  · rw [setStateObject, AList.lookup_insert_ne ha] at h
    exact hw a o' h

@[simp] theorem balanceOf_push (s : StateDB) (e : JournalEntry) :
    (s.push e).balanceOf env = s.balanceOf env := rfl

@[simp] theorem balanceOf_MarkStateObjectDirty (s : StateDB) (a : Address) :
    (s.MarkStateObjectDirty a).balanceOf env = s.balanceOf env := rfl

theorem wellKeyed_push {s : StateDB} (hw : s.WellKeyed) (e : JournalEntry) : (s.push e).WellKeyed := hw

theorem wellKeyed_MarkStateObjectDirty {s : StateDB} (hw : s.WellKeyed) (a : Address) :
    (s.MarkStateObjectDirty a).WellKeyed := hw

theorem balanceOf_putObject (s : StateDB) (before after : StateObject) :
    (s.putObject before after).balanceOf env =
      Function.update (s.balanceOf env) after.address (liveBalance after) := by
  rw [← balanceOf_setStateObject]
  unfold putObject
  split <;> rfl

theorem wellKeyed_putObject {s : StateDB} (hw : s.WellKeyed) (before after : StateObject) :
    (s.putObject before after).WellKeyed := by
  unfold putObject
  split
  · exact wellKeyed_MarkStateObjectDirty (wellKeyed_setStateObject hw after) _
  · exact wellKeyed_setStateObject hw after

/-- Putting back a changed object with the same balance keeps every balance. -/
theorem balanceOf_putObject_same {s : StateDB} {a : Address} {o o' : StateObject}
    (haddr : o'.address = a) (hlive : liveBalance o' = s.balanceOf env a) :
    (s.putObject o o').balanceOf env = s.balanceOf env := by
  rw [balanceOf_putObject, haddr, hlive, Function.update_eq_self]

/-! ### Loading and creating objects -/

variable (env) in
/-- What `getStateObject` finds: an object under the address, not deleted,
with the balance `balanceOf` reads; or nothing, where the balance is zero. -/
theorem getStateObject_fst {s : StateDB} (hw : s.WellKeyed) (a : Address) :
    match (s.getStateObject env a).1 with
    | some o => o.address = a ∧ o.deleted = false ∧ o.data.balance = s.balanceOf env a
    | none => s.balanceOf env a = 0 := by
  unfold getStateObject
  cases hlive : s.stateObjects.lookup a with
  | some o =>
    by_cases hd : o.deleted
    · simp [hd, balanceOf, hlive]
    · simp [hd, balanceOf, hlive, hw a o hlive]
  | none =>
    cases htrie : s.accountTrie env a with
    | none => simp [balanceOf, hlive, htrie]
    | some data => simp [balanceOf, hlive, htrie]

variable (env) in
/-- Loading an account keeps every balance and the keying. -/
theorem getStateObject_snd {s : StateDB} (hw : s.WellKeyed) (a : Address) :
    (s.getStateObject env a).2.balanceOf env = s.balanceOf env ∧ (s.getStateObject env a).2.WellKeyed := by
  unfold getStateObject
  cases hlive : s.stateObjects.lookup a with
  | some o => exact ⟨rfl, hw⟩
  | none =>
    cases htrie : s.accountTrie env a with
    | none => exact ⟨rfl, hw⟩
    | some data =>
      -- the loaded object carries the trie's balance
      refine ⟨?_, wellKeyed_setStateObject hw _⟩
      rw [balanceOf_setStateObject]
      apply Function.update_eq_self_iff.2
      simp [liveBalance, balanceOf, hlive, htrie]

theorem readObject_snd {α : Type} (s : StateDB) (a : Address) (d : α) (f : StateObject → α) :
    (s.readObject env a d f).2 = (s.getStateObject env a).2 := by
  unfold readObject
  split <;> simp_all

variable (H env) in
/-- `createObject` returns a fresh object under the address, with a zero
balance, and makes it the live object. -/
theorem createObject_spec {s : StateDB} (hw : s.WellKeyed) (a : Address) :
    (s.createObject H env a).1.address = a ∧ (s.createObject H env a).1.deleted = false ∧
      (s.createObject H env a).2.1 = (s.getStateObject env a).1 ∧
      (s.createObject H env a).2.2.balanceOf env =
        Function.update ((s.getStateObject env a).2.balanceOf env) a 0 ∧
      (s.createObject H env a).2.2.WellKeyed := by
  obtain ⟨hbal, hw'⟩ := getStateObject_snd env hw a
  unfold createObject
  generalize s.getStateObject env a = r at hbal hw' ⊢
  obtain ⟨prev, s'⟩ := r
  dsimp only at hbal hw' ⊢
  -- the journal records which of the two cases it was; neither touches the live set
  cases prev <;>
  · refine ⟨rfl, rfl, rfl, ?_, wellKeyed_setStateObject (wellKeyed_push (wellKeyed_MarkStateObjectDirty hw' a) _) _⟩
    rw [balanceOf_setStateObject]
    simp [liveBalance, emptyAccount, StateObject.setNonce, StateObject.dirtied, StateObject.newObject]

variable (H env) in
/-- `GetOrNewStateObject` returns the live object of the address, with the
balance `balanceOf` reads, and changes no balance. -/
theorem GetOrNewStateObject_spec {s : StateDB} (hw : s.WellKeyed) (a : Address) :
    (s.GetOrNewStateObject H env a).1.address = a ∧ (s.GetOrNewStateObject H env a).1.deleted = false ∧
      (s.GetOrNewStateObject H env a).1.data.balance = s.balanceOf env a ∧
      (s.GetOrNewStateObject H env a).2.balanceOf env = s.balanceOf env ∧
      (s.GetOrNewStateObject H env a).2.WellKeyed := by
  have hfst := getStateObject_fst env hw a
  obtain ⟨hbal, hw'⟩ := getStateObject_snd env hw a
  unfold GetOrNewStateObject
  generalize s.getStateObject env a = r at hfst hbal hw' ⊢
  obtain ⟨found, s'⟩ := r
  cases found with
  | some o =>
    obtain ⟨haddr, hd, hob⟩ := hfst
    dsimp only
    rw [if_neg (by simp [hd])]
    exact ⟨haddr, hd, hob, hbal, hw'⟩
  | none =>
    -- no live account: a new one is created, with the zero balance it had
    obtain ⟨haddr, hd, -, hbal₂, hw₂⟩ := createObject_spec H env hw' a
    have hs0 : s.balanceOf env a = 0 := hfst
    have hzero : s'.balanceOf env a = 0 := by rw [hbal]; exact hs0
    refine ⟨haddr, hd, ?_, ?_, hw₂⟩
    · simp [createObject, emptyAccount, StateObject.setNonce, StateObject.dirtied,
        StateObject.newObject, hs0]
    · rw [hbal₂, (getStateObject_snd env hw' a).1, ← hzero, Function.update_eq_self, hbal]

/-! ### The operations a transaction uses -/

theorem CreateAccount_balanceOf {s : StateDB} (hw : s.WellKeyed) (a : Address) :
    (s.CreateAccount H env a).balanceOf env = s.balanceOf env ∧ (s.CreateAccount H env a).WellKeyed := by
  have hfst := getStateObject_fst env hw a
  have hbal := (getStateObject_snd env hw a).1
  obtain ⟨haddr, hd, hprev, hbal₂, hw₂⟩ := createObject_spec H env hw a
  rw [hbal] at hbal₂
  unfold CreateAccount
  generalize s.createObject H env a = r at haddr hd hprev hbal₂ hw₂ ⊢
  obtain ⟨new, prev, s'⟩ := r
  dsimp only at haddr hd hprev hbal₂ hw₂ ⊢
  rw [← hprev] at hfst
  cases prev with
  | some p =>
    -- the replaced account's balance is carried over to the new one
    obtain ⟨-, -, hpb⟩ := hfst
    refine ⟨?_, wellKeyed_putObject hw₂ _ _⟩
    rw [balanceOf_putObject, hbal₂]
    simp [liveBalance, haddr, hd, hpb]
  | none =>
    -- there was no account, and its balance was zero
    exact ⟨hbal₂.trans (Function.update_eq_self_iff.2 hfst.symm), hw₂⟩

/-- A journalled setter that keeps the address, the deletion mark and the
balance of the object keeps every balance. -/
theorem journalled_balanceOf {s : StateDB} (hw : s.WellKeyed) (a : Address)
    (entry : StateObject → JournalEntry) {f : StateObject → StateObject}
    (hf : ∀ o, (f o).address = o.address ∧ (f o).deleted = o.deleted ∧ (f o).data.balance = o.data.balance) :
    (s.journalled H env a entry f).balanceOf env = s.balanceOf env ∧
      (s.journalled H env a entry f).WellKeyed := by
  obtain ⟨haddr, hd, hob, hbal, hw'⟩ := GetOrNewStateObject_spec H env hw a
  unfold journalled
  generalize s.GetOrNewStateObject H env a = r at haddr hd hob hbal hw' ⊢
  obtain ⟨o, s'⟩ := r
  dsimp only at haddr hd hob hbal hw' ⊢
  obtain ⟨hfa, hfd, hfb⟩ := hf o
  refine ⟨?_, wellKeyed_putObject (wellKeyed_push hw' _) _ _⟩
  rw [balanceOf_putObject_same (hfa.trans haddr), balanceOf_push, hbal]
  rw [liveBalance, hfd, hd, hfb, hob, balanceOf_push, hbal]
  rfl

theorem SetNonce_balanceOf {s : StateDB} (hw : s.WellKeyed) (a : Address) (n : UInt64) :
    (s.SetNonce H env a n).balanceOf env = s.balanceOf env ∧ (s.SetNonce H env a n).WellKeyed :=
  journalled_balanceOf hw a _ fun _ => ⟨rfl, rfl, rfl⟩

theorem balanceOf_touch (s : StateDB) (o : StateObject) :
    (s.touch o).balanceOf env = Function.update (s.balanceOf env) o.address (liveBalance o) := by
  unfold touch
  rw [balanceOf_putObject, balanceOf_push]
  rfl

theorem wellKeyed_touch {s : StateDB} (hw : s.WellKeyed) (o : StateObject) : (s.touch o).WellKeyed :=
  wellKeyed_putObject (wellKeyed_push hw _) _ _

variable (H env) in
/-- `AddBalance` moves the balance of one account. -/
theorem AddBalance_balanceOf {s : StateDB} (hw : s.WellKeyed) (a : Address) (x : Int) :
    (s.AddBalance H env a x).balanceOf env = Function.update (s.balanceOf env) a (s.balanceOf env a + x) ∧
      (s.AddBalance H env a x).WellKeyed := by
  obtain ⟨haddr, hd, hob, hbal, hw'⟩ := GetOrNewStateObject_spec H env hw a
  unfold AddBalance
  generalize s.GetOrNewStateObject H env a = r at haddr hd hob hbal hw' ⊢
  obtain ⟨o, s'⟩ := r
  dsimp only at haddr hd hob hbal hw' ⊢
  split_ifs with hx hempty
  · -- adding zero touches an empty account, which keeps its balance
    subst hx
    refine ⟨?_, wellKeyed_touch hw' o⟩
    rw [balanceOf_touch, haddr, hbal, liveBalance, hd, hob]
    simp
  · subst hx
    exact ⟨by simp [hbal], hw'⟩
  · refine ⟨?_, wellKeyed_putObject (wellKeyed_push hw' _) _ _⟩
    rw [balanceOf_putObject, balanceOf_push, hbal]
    simp [liveBalance, haddr, hd, hob]

variable (H env) in
/-- `SubBalance` moves the balance of one account. -/
theorem SubBalance_balanceOf {s : StateDB} (hw : s.WellKeyed) (a : Address) (x : Int) :
    (s.SubBalance H env a x).balanceOf env = Function.update (s.balanceOf env) a (s.balanceOf env a - x) ∧
      (s.SubBalance H env a x).WellKeyed := by
  obtain ⟨haddr, hd, hob, hbal, hw'⟩ := GetOrNewStateObject_spec H env hw a
  unfold SubBalance
  generalize s.GetOrNewStateObject H env a = r at haddr hd hob hbal hw' ⊢
  obtain ⟨o, s'⟩ := r
  dsimp only at haddr hd hob hbal hw' ⊢
  split_ifs with hx
  · subst hx
    exact ⟨by simp [hbal], hw'⟩
  · refine ⟨?_, wellKeyed_putObject (wellKeyed_push hw' _) _ _⟩
    rw [balanceOf_putObject, balanceOf_push, hbal]
    simp [liveBalance, haddr, hd, hob]

variable (env) in
/-- Reading an account (`Exist`, `GetBalance`, `GetNonce`) keeps every
balance and the keying. -/
theorem readObject_balanceOf {α : Type} {s : StateDB} (hw : s.WellKeyed) (a : Address) (d : α)
    (f : StateObject → α) :
    (s.readObject env a d f).2.balanceOf env = s.balanceOf env ∧ (s.readObject env a d f).2.WellKeyed := by
  rw [readObject_snd]
  exact getStateObject_snd env hw a

/-! ### The refund counter

No account operation touches the refund counter. -/

@[simp] theorem refund_setStateObject (s : StateDB) (o : StateObject) :
    (s.setStateObject o).refund = s.refund := rfl

@[simp] theorem refund_push (s : StateDB) (e : JournalEntry) : (s.push e).refund = s.refund := rfl

@[simp] theorem refund_putObject (s : StateDB) (before after : StateObject) :
    (s.putObject before after).refund = s.refund := by
  unfold putObject
  split <;> rfl

variable (env) in
@[simp] theorem refund_getStateObject (s : StateDB) (a : Address) :
    (s.getStateObject env a).2.refund = s.refund := by
  unfold getStateObject
  split
  · rfl
  · split <;> rfl

@[simp] theorem refund_readObject {α : Type} (s : StateDB) (a : Address) (d : α) (f : StateObject → α) :
    (s.readObject env a d f).2.refund = s.refund := by
  rw [readObject_snd, refund_getStateObject]

variable (H env) in
@[simp] theorem refund_createObject (s : StateDB) (a : Address) :
    (s.createObject H env a).2.2.refund = s.refund := by
  have h := refund_getStateObject env s a
  unfold createObject
  generalize s.getStateObject env a = r at h ⊢
  obtain ⟨prev, s'⟩ := r
  cases prev <;> exact h

@[simp] theorem refund_GetOrNewStateObject (s : StateDB) (a : Address) :
    (s.GetOrNewStateObject H env a).2.refund = s.refund := by
  have h := refund_getStateObject env s a
  unfold GetOrNewStateObject
  generalize s.getStateObject env a = r at h ⊢
  obtain ⟨found, s'⟩ := r
  cases found with
  | some o =>
    dsimp only
    split
    · rw [refund_createObject]; exact h
    · exact h
  | none => rw [refund_createObject]; exact h

@[simp] theorem refund_CreateAccount (s : StateDB) (a : Address) :
    (s.CreateAccount H env a).refund = s.refund := by
  have h := refund_createObject H env s a
  unfold CreateAccount
  generalize s.createObject H env a = r at h ⊢
  obtain ⟨new, prev, s'⟩ := r
  cases prev <;> simpa using h

@[simp] theorem refund_SetNonce (s : StateDB) (a : Address) (n : UInt64) :
    (s.SetNonce H env a n).refund = s.refund := by
  simp [SetNonce, journalled]

@[simp] theorem refund_AddBalance (s : StateDB) (a : Address) (x : Int) :
    (s.AddBalance H env a x).refund = s.refund := by
  unfold AddBalance
  split_ifs <;> simp [touch, apply_ite StateDB.refund]

@[simp] theorem refund_SubBalance (s : StateDB) (a : Address) (x : Int) :
    (s.SubBalance H env a x).refund = s.refund := by
  unfold SubBalance
  split_ifs <;> simp

end

end StateDB

end State

end Bazacoin
