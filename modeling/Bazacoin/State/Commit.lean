import Bazacoin.State.Revert

/-!
# Flushing and copying a state (`statedb.go`)

`IntermediateRoot` writes every dirty object into the account trie (or
deletes it, when suicided or empty under EIP-158) and returns the trie's root.
`CommitTo` does the same for every live object and also writes code and
storage to the database. `Copy` deep-copies the dirty objects, the logs and
the preimages, but hands the copy the same account trie.

Because the trie is shared, a copy that writes an account through
`IntermediateRoot` changes what the original reads for every address it has
not cached (`copy_intermediateRoot_visible`).
-/

namespace Bazacoin

namespace State

namespace StateDB

section

variable (H : Hashing)

/-- Write (or, with `none`, delete) one account of the trie a state points to. -/
def writeAccount (s : StateDB) (env : Env) (addr : Address) (acc : Option Account) : Env :=
  { env with tries := Function.update env.tries s.trie (Function.update (s.accountTrie env) addr acc) }

/-- `updateStateObject`: encode the account and write it to the trie. The
encoder rejects a negative balance, and the state panics on that error. -/
def updateStateObject (s : StateDB) (env : Env) (o : StateObject) : Outcome PEmpty Env :=
  if o.data.balance < 0 then .panic "can't encode object: rlp: cannot encode negative *big.Int"
  else .ok (s.writeAccount env o.address (some o.data))

/-- `deleteStateObject`: mark the object deleted and remove it from the trie. -/
def deleteStateObject (s : StateDB) (env : Env) (o : StateObject) : StateDB × Env :=
  (s.setStateObject { o with deleted := true }, s.writeAccount env o.address none)

/-- One iteration of `IntermediateRoot`'s loop over the dirty objects. -/
def intermediateObject (deleteEmptyObjects : Bool) (p : StateDB × Env) (addr : Address) :
    Outcome PEmpty (StateDB × Env) :=
  let (s, env) := p
  match s.stateObjects.lookup addr with
  | none => .panic "invalid memory address or nil pointer dereference"
  | some o =>
    if o.suicided || (deleteEmptyObjects && o.empty (emptyCodeHash H)) then
      .ok (s.deleteStateObject env o)
    else
      let o := o.updateRoot H.storageRoot env.db
      let s := s.setStateObject o
      (s.updateStateObject env o).map (s, ·)

/-- `IntermediateRoot`: flush the dirty objects, clear the journal, and hash
the account trie. The dirty set is left as it is. -/
def IntermediateRoot (s : StateDB) (env : Env) (deleteEmptyObjects : Bool) :
    Outcome PEmpty (Hash × StateDB × Env) :=
  (s.stateObjectsDirty.foldlM (intermediateObject H deleteEmptyObjects) (s, env)).map
    fun (s, env) => (H.accountRoot (env.tries s.trie), s.clearJournalAndRefund, env)

/-- One iteration of `Copy`'s loop over the dirty objects. -/
def copyObject (s st : StateDB) (addr : Address) : Outcome PEmpty StateDB :=
  match s.stateObjects.lookup addr with
  | none => .panic "invalid memory address or nil pointer dereference"
  | some o =>
    let st := { st with stateObjects := st.stateObjects.insert addr (o.deepCopy true),
                        stateObjectsDirty := st.stateObjectsDirty.insert addr }
    if o.suicided then
      .ok { st with stateObjectsDestructed := st.stateObjectsDestructed.insert addr }
    else .ok st

/-- `Copy`: a new state over the same account trie, with deep copies of the
dirty objects, and the refund, logs, log counter and preimages. The journal,
the revisions and the current transaction are not copied. -/
def Copy (s : StateDB) : Outcome PEmpty StateDB :=
  let init : StateDB := { New s.trie with refund := s.refund, logSize := s.logSize }
  (s.stateObjectsDirty.foldlM (copyObject s) init).map
    fun st => { st with logs := s.logs, preimages := s.preimages }

/-! ### A copy writes through the shared trie -/

variable (env : Env)

theorem getStateObject_absent {s : StateDB} {a : Address}
    (hlive : s.stateObjects.lookup a = none) (habsent : s.accountTrie env a = none) :
    s.getStateObject env a = (none, s) := by
  simp [getStateObject, hlive, habsent]

/-- An address that is not live reads its balance from the trie. -/
theorem GetBalance_notLive {s : StateDB} {a : Address} (hlive : s.stateObjects.lookup a = none) :
    (s.GetBalance env a).1 = ((s.accountTrie env a).map (·.balance)).getD 0 := by
  unfold GetBalance readObject getStateObject
  rw [hlive]
  cases s.accountTrie env a <;> rfl

theorem accountTrie_writeAccount {s s' : StateDB} (htrie : s.trie = s'.trie) (a : Address)
    (acc : Option Account) : s.accountTrie (s'.writeAccount env a acc) a = acc := by
  simp [accountTrie, writeAccount, htrie]

theorem setStateObject_writeAccount (s : StateDB) (o : StateObject) :
    (s.setStateObject o).writeAccount env = s.writeAccount env := rfl

/-- `Copy` of a state without dirty objects: an empty live set over the same
trie. -/
theorem Copy_of_clean {s : StateDB} (h : s.stateObjectsDirty = []) :
    ∃ c, s.Copy = .ok c ∧ c.trie = s.trie ∧ c.stateObjects = ∅ ∧ c.stateObjectsDirty = [] := by
  have hc : s.Copy = .ok { New s.trie with refund := s.refund, logSize := s.logSize,
                                           logs := s.logs, preimages := s.preimages } := by
    simp only [Copy, h, List.foldlM_nil, Outcome.pure_eq_ok, Outcome.map_ok]
  exact ⟨_, hc, rfl, rfl, rfl⟩

/-- `SetBalance` of an account that does not exist creates it, marked dirty. -/
theorem SetBalance_absent {s : StateDB} {a : Address} (v : Int)
    (hget : s.getStateObject env a = (none, s)) :
    ∃ o, (s.SetBalance H env a v).stateObjects.lookup a = some o ∧ o.address = a ∧
      o.data.balance = v ∧ o.suicided = false ∧
      (s.SetBalance H env a v).stateObjectsDirty = s.stateObjectsDirty.insert a ∧
      (s.SetBalance H env a v).trie = s.trie := by
  refine ⟨((StateObject.newObject a (emptyAccount H) true).setNonce 0).setBalance v, ?_, rfl,
    rfl, rfl, ?_, ?_⟩
  · simp [SetBalance, journalled, GetOrNewStateObject, hget, createObject, push, putObject,
      setStateObject, MarkStateObjectDirty]
  · simp [SetBalance, journalled, GetOrNewStateObject, hget, createObject, push, putObject,
      setStateObject, MarkStateObjectDirty, StateObject.newObject]
  · simp [SetBalance, journalled, GetOrNewStateObject, hget, createObject, push, putObject,
      setStateObject, MarkStateObjectDirty]

/-- `IntermediateRoot` with one dirty object that stays: the trie gets its
account. -/
theorem IntermediateRoot_single {s : StateDB} {a : Address} {o : StateObject}
    (hdirty : s.stateObjectsDirty = [a]) (hlook : s.stateObjects.lookup a = some o)
    (hsuicided : o.suicided = false) (hbal : 0 ≤ o.data.balance) :
    ∃ root s', s.IntermediateRoot H env false =
      .ok (root, s', s.writeAccount env o.address (some (o.updateRoot H.storageRoot env.db).data)) := by
  have hnonneg : ¬ o.data.balance < 0 := not_lt.mpr hbal
  simp [IntermediateRoot, hdirty, intermediateObject, hlook, hsuicided, updateStateObject, hnonneg,
    setStateObject_writeAccount]

/-- **A copy's flush is visible to the original.** Take a state with no dirty
objects and an address it neither caches nor finds in its trie. Copy it, give
the account a positive balance in the copy and call `IntermediateRoot` on the
copy: the original, which reported a zero balance before, now reports the
copy's balance, read from the trie the two states share. -/
theorem copy_intermediateRoot_visible (s : StateDB) (a : Address) (v : Int) (hv : 0 < v)
    (hclean : s.stateObjectsDirty = []) (hlive : s.stateObjects.lookup a = none)
    (habsent : s.accountTrie env a = none) :
    ∃ c root c' env', s.Copy = .ok c ∧
      (c.SetBalance H env a v).IntermediateRoot H env false = .ok (root, c', env') ∧
      (s.GetBalance env a).1 = 0 ∧ (s.GetBalance env' a).1 = v := by
  obtain ⟨c, hc, htrie, hobjs, hdirty⟩ := Copy_of_clean hclean
  have hget : c.getStateObject env a = (none, c) := by
    apply getStateObject_absent env
    · simp [hobjs]
    · simpa [accountTrie, htrie] using habsent
  obtain ⟨o, hlook, haddr, hbal, hsuicided, hdirty₁, htrie₁⟩ := SetBalance_absent H env v hget
  have hdirty₁' : (c.SetBalance H env a v).stateObjectsDirty = [a] := by
    rw [hdirty₁, hdirty]
    rfl
  obtain ⟨root, c', hroot⟩ :=
    IntermediateRoot_single H env hdirty₁' hlook hsuicided (by rw [hbal]; exact hv.le)
  refine ⟨c, root, c', _, hc, hroot, ?_, ?_⟩
  · -- before: nothing cached, nothing in the trie
    rw [GetBalance_notLive env hlive, habsent]
    rfl
  · -- after: the original reads the account the copy wrote
    rw [GetBalance_notLive _ hlive, haddr,
      accountTrie_writeAccount env (htrie₁.trans htrie).symm]
    simp [hbal]

theorem copy_intermediateRoot_visible_fresh :
    ∃ c root c' env', (New 0).Copy = .ok c ∧
      (c.SetBalance ⟨fun _ => 0, fun _ => 0, fun _ => 0⟩
          ⟨fun _ _ => none, ⟨fun _ => none, fun _ => none⟩⟩ 1#160 5).IntermediateRoot
          ⟨fun _ => 0, fun _ => 0, fun _ => 0⟩ ⟨fun _ _ => none, ⟨fun _ => none, fun _ => none⟩⟩
          false = .ok (root, c', env') ∧
      ((New 0).GetBalance ⟨fun _ _ => none, ⟨fun _ => none, fun _ => none⟩⟩ 1#160).1 = 0 ∧
      ((New 0).GetBalance env' 1#160).1 = 5 :=
  copy_intermediateRoot_visible ⟨fun _ => 0, fun _ => 0, fun _ => 0⟩
    ⟨fun _ _ => none, ⟨fun _ => none, fun _ => none⟩⟩ (New 0) 1#160 5 (by decide) rfl rfl rfl

end

end StateDB

end State

end Bazacoin
