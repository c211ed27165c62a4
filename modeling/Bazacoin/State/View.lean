import Bazacoin.State.Balance

/-!
# What the accessors of a state read (`statedb.go`, `state_object.go`)

Every accessor of the `vm.StateDB` interface reads one of these: the balance,
nonce, code hash, code, storage and suicide flag of an account; the refund
counter; the logs of a transaction; the preimages. `StateDB.view` collects
them all, account by account from the live object (none once it is deleted)
or else from the account trie.

The accessors are functions of the view (`sameAccessors_of_view_eq`), and
loading does not change it: an accessor that caches an account, its code or a
storage slot returns a state with the same view. Journal entries are undone
against the view in `State.Journal`.
-/

namespace Bazacoin

namespace State

/-- What the accessors read of one account. -/
@[ext] structure AccountView where
  balance : Int
  nonce : UInt64
  codeHash : Hash
  code : Bytes
  storage : Hash → Hash
  suicided : Bool

namespace StateObject

section

variable (emptyCodeHash : Hash) (db : Database)

/-- The code `Code` returns for a cached code and a code hash. -/
def loadCode (code : Option Bytes) (codeHash : Hash) : Option Bytes :=
  match code with
  | some c => some c
  | none => if codeHash = emptyCodeHash then none else db.code codeHash

/-- What the accessors read of a live object. -/
def view (o : StateObject) : AccountView :=
  ⟨o.data.balance, o.data.nonce, o.data.codeHash, ((o.Code emptyCodeHash db).1).getD [],
    fun key => (o.GetState db key).1, o.suicided⟩

theorem Code_fst (o : StateObject) :
    (o.Code emptyCodeHash db).1 = loadCode emptyCodeHash db o.code o.data.codeHash := by
  unfold Code loadCode
  cases o.code with
  | some c => rfl
  | none =>
    dsimp only
    split
    · rfl
    · split <;> simp_all

/-- A code loaded once loads again the same. -/
theorem loadCode_loadCode (code : Option Bytes) (codeHash : Hash) :
    loadCode emptyCodeHash db (loadCode emptyCodeHash db code codeHash) codeHash =
      loadCode emptyCodeHash db code codeHash := by
  cases code with
  | some c => rfl
  | none =>
    unfold loadCode
    by_cases h : codeHash = emptyCodeHash
    · simp [h]
    · cases db.code codeHash <;> simp [h]

theorem getTrie_fst (o : StateObject) :
    (o.getTrie db).1 = match o.trie with
      | some tr => tr
      | none => (openStorage db o.data.root).getD fun _ => 0 := by
  unfold getTrie
  cases o.trie with
  | some tr => rfl
  | none =>
    dsimp only
    cases openStorage db o.data.root <;> rfl

theorem setError_eq (o : StateObject) (err : String) :
    o.setError err = { o with dbErr := if o.dbErr.isNone then some err else o.dbErr } := by
  unfold setError
  split <;> simp_all

/-- Opening the storage trie keeps everything `GetState` reads but the trie,
which is then the one opened. -/
theorem getTrie_snd (o : StateObject) :
    (o.getTrie db).2.trie = some (o.getTrie db).1 ∧
      (o.getTrie db).2.cachedStorage = o.cachedStorage ∧ (o.getTrie db).2.code = o.code ∧
      (o.getTrie db).2.data = o.data ∧ (o.getTrie db).2.suicided = o.suicided ∧
      (o.getTrie db).2.deleted = o.deleted ∧ (o.getTrie db).2.address = o.address := by
  unfold getTrie
  cases ht : o.trie with
  | some tr => simp [ht]
  | none =>
    dsimp only
    cases openStorage db o.data.root <;> simp [setError_eq]

theorem GetState_fst (o : StateObject) (key : Hash) :
    (o.GetState db key).1 = (o.cachedStorage.lookup key).getD ((o.getTrie db).1 key) := by
  unfold GetState
  cases o.cachedStorage.lookup key with
  | some v => rfl
  | none =>
    dsimp only
    split <;> rfl

/-- The code a live object reads depends on its cached code and code hash
only. -/
theorem Code_fst_congr (o o' : StateObject) (hc : o'.code = o.code)
    (hh : o'.data.codeHash = o.data.codeHash) :
    (o'.Code emptyCodeHash db).1 = (o.Code emptyCodeHash db).1 := by
  rw [Code_fst, Code_fst, hc, hh]

/-- The storage a live object reads depends on its read cache, its open trie
and its storage root only. -/
theorem GetState_fst_congr (o o' : StateObject) (hs : o'.cachedStorage = o.cachedStorage)
    (ht : o'.trie = o.trie) (hr : o'.data.root = o.data.root) (key : Hash) :
    (o'.GetState db key).1 = (o.GetState db key).1 := by
  rw [GetState_fst, GetState_fst, getTrie_fst, getTrie_fst, hs, ht, hr]

/-- Two objects with the same caches and the same code hash and storage root
read the same code and storage. -/
theorem view_congr (o o' : StateObject) (hc : o'.code = o.code)
    (hh : o'.data.codeHash = o.data.codeHash) (hs : o'.cachedStorage = o.cachedStorage)
    (ht : o'.trie = o.trie) (hr : o'.data.root = o.data.root) :
    o'.view emptyCodeHash db =
      { o.view emptyCodeHash db with
        balance := o'.data.balance, nonce := o'.data.nonce, suicided := o'.suicided } := by
  simp only [view, Code_fst_congr emptyCodeHash db o o' hc hh, hh,
    GetState_fst_congr db o o' hs ht hr]

@[simp] theorem view_dirtied (o : StateObject) :
    o.dirtied.view emptyCodeHash db = o.view emptyCodeHash db :=
  view_congr emptyCodeHash db o _ rfl rfl rfl rfl rfl

@[simp] theorem view_setBalance (o : StateObject) (amount : Int) :
    (o.setBalance amount).view emptyCodeHash db = { o.view emptyCodeHash db with balance := amount } :=
  view_congr emptyCodeHash db o _ rfl rfl rfl rfl rfl

@[simp] theorem view_setNonce (o : StateObject) (nonce : UInt64) :
    (o.setNonce nonce).view emptyCodeHash db = { o.view emptyCodeHash db with nonce := nonce } :=
  view_congr emptyCodeHash db o _ rfl rfl rfl rfl rfl

theorem view_setCode (o : StateObject) (codeHash : Hash) (code : Option Bytes) :
    (o.setCode codeHash code).view emptyCodeHash db =
      { o.view emptyCodeHash db with
        codeHash := codeHash, code := (loadCode emptyCodeHash db code codeHash).getD [] } := by
  refine AccountView.ext rfl rfl rfl ?_
    (funext fun key => GetState_fst_congr db o (o.setCode codeHash code) rfl rfl rfl key) rfl
  simp only [view, Code_fst]
  rfl

theorem view_setState (o : StateObject) (key value : Hash) :
    (o.setState key value).view emptyCodeHash db =
      { o.view emptyCodeHash db with
        storage := Function.update (o.view emptyCodeHash db).storage key value } := by
  refine AccountView.ext rfl rfl rfl
    (congrArg (·.getD []) (Code_fst_congr emptyCodeHash db o (o.setState key value) rfl rfl))
    (funext fun k => ?_) rfl
  -- the written slot is read from the cache, every other one as before
  show (GetState db (o.setState key value) k).1 = Function.update (fun key => (o.GetState db key).1) key value k
  rw [GetState_fst]
  by_cases hk : k = key
  · subst hk
    simp [setState, dirtied]
  · rw [Function.update_of_ne hk, GetState_fst]
    simp [setState, dirtied, AList.lookup_insert_ne hk, getTrie_fst]

theorem view_touched (o : StateObject) (touched : Bool) :
    { o with touched }.view emptyCodeHash db = o.view emptyCodeHash db :=
  view_congr emptyCodeHash db o _ rfl rfl rfl rfl rfl

/-- Loading the code keeps everything but the cached code, and the code it
reads. -/
theorem Code_snd (o : StateObject) :
    (o.Code emptyCodeHash db).2.data = o.data ∧
      (o.Code emptyCodeHash db).2.cachedStorage = o.cachedStorage ∧
      (o.Code emptyCodeHash db).2.trie = o.trie ∧ (o.Code emptyCodeHash db).2.suicided = o.suicided ∧
      (o.Code emptyCodeHash db).2.deleted = o.deleted ∧ (o.Code emptyCodeHash db).2.address = o.address ∧
      loadCode emptyCodeHash db (o.Code emptyCodeHash db).2.code o.data.codeHash =
        loadCode emptyCodeHash db o.code o.data.codeHash := by
  unfold Code
  cases hc : o.code with
  | some c => simp [hc]
  | none =>
    by_cases hh : o.data.codeHash = emptyCodeHash
    · simp [hh, hc]
    · cases hd : db.code o.data.codeHash with
      | some c => simp [hh, hd, loadCode]
      | none => simp [hh, hd, setError_eq, loadCode, hc]

/-- Loading the code caches it and keeps the view. -/
theorem view_Code_snd (o : StateObject) :
    (o.Code emptyCodeHash db).2.view emptyCodeHash db = o.view emptyCodeHash db := by
  obtain ⟨hd, hs, ht, hsu, -, -, hload⟩ := Code_snd emptyCodeHash db o
  refine AccountView.ext (congrArg Account.balance hd) (congrArg Account.nonce hd)
    (congrArg Account.codeHash hd) ?_
    (funext fun key => GetState_fst_congr db o _ hs ht (congrArg Account.root hd) key) hsu
  simp only [view, Code_fst, hd, hload]

/-- Reading a storage slot caches the slot as the trie has it, and keeps
everything else. -/
theorem GetState_snd (o : StateObject) (key : Hash) :
    (o.GetState db key).2.code = o.code ∧ (o.GetState db key).2.data = o.data ∧
      (o.GetState db key).2.suicided = o.suicided ∧ (o.GetState db key).2.deleted = o.deleted ∧
      (o.GetState db key).2.address = o.address ∧
      ((o.GetState db key).2.getTrie db).1 = (o.getTrie db).1 ∧
      ∀ k, ((o.GetState db key).2.cachedStorage.lookup k).getD ((o.getTrie db).1 k) =
        (o.cachedStorage.lookup k).getD ((o.getTrie db).1 k) := by
  obtain ⟨ht, hs, hc, hd, hsu, hdel, ha⟩ := getTrie_snd db o
  unfold GetState
  cases hl : o.cachedStorage.lookup key with
  | some v => exact ⟨rfl, rfl, rfl, rfl, rfl, rfl, fun _ => rfl⟩
  | none =>
    dsimp only
    split
    · -- a nonzero value is cached, as the trie has it
      refine ⟨hc, hd, hsu, hdel, ha, by rw [getTrie_fst, ht], fun k => ?_⟩
      by_cases hk : k = key
      · subst hk
        simp [hl]
      · simp only [AList.lookup_insert_ne hk, hs]
    · exact ⟨hc, hd, hsu, hdel, ha, by rw [getTrie_fst, ht], fun k => by rw [hs]⟩

/-- Reading a storage slot caches it and keeps the view. -/
theorem view_GetState_snd (o : StateObject) (key : Hash) :
    (o.GetState db key).2.view emptyCodeHash db = o.view emptyCodeHash db := by
  obtain ⟨hc, hd, hsu, -, -, htrie, hcache⟩ := GetState_snd db o key
  refine AccountView.ext (congrArg Account.balance hd) (congrArg Account.nonce hd)
    (congrArg Account.codeHash hd)
    (congrArg (·.getD []) (Code_fst_congr emptyCodeHash db o _ hc (congrArg Account.codeHash hd)))
    (funext fun k => ?_) hsu
  show ((o.GetState db key).2.GetState db k).1 = (o.GetState db k).1
  rw [GetState_fst, GetState_fst, htrie, hcache k]

end

end StateObject

namespace StateDB

section

variable (H : Hashing) (env : Env)

/-- The view of the account the trie holds at `addr`, as `getStateObject`
would load it. -/
def trieView (s : StateDB) (addr : Address) : Option AccountView :=
  (s.accountTrie env addr).map fun data =>
    (StateObject.newObject addr data true).view (emptyCodeHash H) env.db

/-- What the accessors read of the account at `addr`: the live object unless
it is deleted, else the account in the trie. -/
def accountView (s : StateDB) (addr : Address) : Option AccountView :=
  match s.stateObjects.lookup addr with
  | some o => if o.deleted then none else some (o.view (emptyCodeHash H) env.db)
  | none => s.trieView H env addr

/-- What every accessor of the `vm.StateDB` interface reads. -/
structure Obs where
  accounts : Address → Option AccountView
  refund : Int
  logs : Hash → List Log
  preimages : Hash → Option Bytes

/-- The view of a state. -/
def view (s : StateDB) : Obs :=
  ⟨s.accountView H env, s.refund, s.GetLogs, s.preimages.lookup⟩

/-- The view with the account at `a` replaced. -/
def Obs.setAccount (V : Obs) (a : Address) (v : Option AccountView) : Obs :=
  { V with accounts := Function.update V.accounts a v }

/-- Every accessor of the `vm.StateDB` interface returns the same on `s` and
`t`. -/
def SameAccessors (s t : StateDB) : Prop :=
  (∀ a, (s.Exist env a).1 = (t.Exist env a).1 ∧ (s.Empty H env a).1 = (t.Empty H env a).1 ∧
    (s.GetBalance env a).1 = (t.GetBalance env a).1 ∧ (s.GetNonce env a).1 = (t.GetNonce env a).1 ∧
    (s.GetCodeHash env a).1 = (t.GetCodeHash env a).1 ∧ (s.GetCode H env a).1 = (t.GetCode H env a).1 ∧
    (s.GetCodeSize H env a).1 = (t.GetCodeSize H env a).1 ∧
    (s.HasSuicided env a).1 = (t.HasSuicided env a).1 ∧
    ∀ key, (s.GetState env a key).1 = (t.GetState env a key).1) ∧
  s.GetRefund = t.GetRefund ∧ (∀ h, s.GetLogs h = t.GetLogs h) ∧
  ∀ h, s.Preimages.lookup h = t.Preimages.lookup h

variable {H env}

/-! ### The accessors read the view -/

theorem getStateObject_view (s : StateDB) (a : Address) :
    (s.getStateObject env a).1.map (·.view (emptyCodeHash H) env.db) = s.accountView H env a := by
  unfold getStateObject accountView trieView
  cases s.stateObjects.lookup a with
  | some o => by_cases hd : o.deleted <;> simp [hd]
  | none => cases s.accountTrie env a <;> rfl

theorem readObject_fst_view {α : Type} (s : StateDB) (a : Address) (d : α) (f : StateObject → α)
    (g : AccountView → α) (hfg : ∀ o, f o = g (o.view (emptyCodeHash H) env.db)) :
    (s.readObject env a d f).1 = ((s.accountView H env a).map g).getD d := by
  unfold readObject
  rw [← getStateObject_view]
  cases s.getStateObject env a with
  | mk found s' => cases found <;> simp [hfg]

theorem GetCode_fst_view (s : StateDB) (a : Address) :
    (s.GetCode H env a).1 = ((s.accountView H env a).map (·.code)).getD [] := by
  unfold GetCode
  rw [← getStateObject_view]
  cases s.getStateObject env a with
  | mk found s' => cases found <;> rfl

variable (H) in
theorem GetState_fst_view (s : StateDB) (a : Address) (key : Hash) :
    (s.GetState env a key).1 = ((s.accountView H env a).map (·.storage key)).getD 0 := by
  unfold GetState
  rw [← getStateObject_view]
  cases s.getStateObject env a with
  | mk found s' => cases found <;> rfl

/-- **The accessors are functions of the view.** -/
theorem sameAccessors_of_view_eq {s t : StateDB} (h : s.view H env = t.view H env) :
    s.SameAccessors H env t := by
  obtain ⟨hacc, href, hlogs, hpre⟩ := Obs.mk.inj h
  refine ⟨fun a => ?_, href, fun h => congrFun hlogs h, fun h => congrFun hpre h⟩
  have ha := congrFun hacc a
  -- a field read through `readObject` is read from the view
  have hread : ∀ {α : Type} (d : α) (f : StateObject → α) (g : AccountView → α),
      (∀ o, f o = g (o.view (emptyCodeHash H) env.db)) →
        (s.readObject env a d f).1 = (t.readObject env a d f).1 := fun d f g hfg => by
    rw [readObject_fst_view s a d f g hfg, readObject_fst_view t a d f g hfg, ha]
  have hcode : (s.GetCode H env a).1 = (t.GetCode H env a).1 := by
    rw [GetCode_fst_view, GetCode_fst_view, ha]
  refine ⟨hread false (fun _ => true) (fun _ => true) fun _ => rfl,
    hread true (·.empty (emptyCodeHash H))
      (fun v => v.nonce = 0 && v.balance = 0 && v.codeHash = emptyCodeHash H) fun _ => rfl,
    hread 0 (·.data.balance) (·.balance) fun _ => rfl, hread 0 (·.data.nonce) (·.nonce) fun _ => rfl,
    hread 0 (·.data.codeHash) (·.codeHash) fun _ => rfl, hcode, congrArg List.length hcode,
    hread false (·.suicided) (·.suicided) fun _ => rfl, fun key => ?_⟩
  rw [GetState_fst_view H, GetState_fst_view H, ha]

/-! ### The view of the live set -/

variable (H env) in
/-- The view of a live object as the live set holds it. -/
def liveView (o : StateObject) : Option AccountView :=
  if o.deleted then none else some (o.view (emptyCodeHash H) env.db)

@[simp] theorem trieView_setStateObject (s : StateDB) (o : StateObject) :
    (s.setStateObject o).trieView H env = s.trieView H env := rfl

theorem accountView_setStateObject (s : StateDB) (o : StateObject) :
    (s.setStateObject o).accountView H env =
      Function.update (s.accountView H env) o.address (liveView H env o) := by
  funext b
  by_cases hb : b = o.address
  · subst hb
    simp [accountView, setStateObject, liveView]
  · simp only [accountView, setStateObject, AList.lookup_insert_ne hb, Function.update_of_ne hb,
      trieView, accountTrie]

theorem view_setStateObject (s : StateDB) (o : StateObject) :
    (s.setStateObject o).view H env = (s.view H env).setAccount o.address (liveView H env o) := by
  rw [view, accountView_setStateObject]
  rfl

@[simp] theorem view_push (s : StateDB) (e : JournalEntry) : (s.push e).view H env = s.view H env := rfl

@[simp] theorem view_MarkStateObjectDirty (s : StateDB) (a : Address) :
    (s.MarkStateObjectDirty a).view H env = s.view H env := rfl

theorem view_putObject (s : StateDB) (before after : StateObject) :
    (s.putObject before after).view H env = (s.view H env).setAccount after.address (liveView H env after) := by
  rw [← view_setStateObject]
  unfold putObject
  split <;> rfl

variable (H env) in
/-- Loading an account into the live set keeps the view. -/
theorem view_getStateObject_snd (s : StateDB) (a : Address) :
    (s.getStateObject env a).2.view H env = s.view H env := by
  unfold getStateObject
  cases hlive : s.stateObjects.lookup a with
  | some o => rfl
  | none =>
    cases htrie : s.accountTrie env a with
    | none => rfl
    | some data =>
      -- the loaded object has the view the trie gave the address
      dsimp only
      rw [view_setStateObject]
      have hsame : s.accountView H env a = liveView H env (StateObject.newObject a data true) := by
        simp [accountView, hlive, trieView, htrie, liveView]
      rw [StateObject.address_newObject, ← hsame]
      simp [Obs.setAccount, view]

variable (env) in
/-- What `getStateObject` finds under a well-keyed live set: an object under
the address that is not deleted. -/
theorem getStateObject_found {s : StateDB} (hw : s.WellKeyed) {a : Address} {o : StateObject}
    (h : (s.getStateObject env a).1 = some o) : o.address = a ∧ o.deleted = false := by
  have hfst := getStateObject_fst env hw a
  rw [h] at hfst
  exact ⟨hfst.1, hfst.2.1⟩

end

end StateDB

end State

end Bazacoin
