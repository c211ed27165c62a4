import Bazacoin.State.StateDB

/-!
# Reverting to a snapshot

`RevertToSnapshot id` undoes, newest first, exactly the journal entries pushed
since `Snapshot` returned `id` (`RevertToSnapshot_snapshot`), provided the
revision ids are increasing, as they are in every reachable state.

Undoing an `addLogChange` drops the last log of its transaction but leaves the
running `logSize` counter alone. The next log therefore gets an `Index` one
higher than it would have had without the reverted log
(`getLogs_revert_addLog`): a reverted `AddLog` is observable through
`GetLogs`.
-/

namespace Bazacoin

namespace State

namespace StateDB

variable (env : Env)

/-- The revision ids are below the next one; `Snapshot` keeps this. -/
def RevisionsBelow (s : StateDB) : Prop := ∀ r ∈ s.validRevisions, r.id < s.nextRevisionId

theorem revisionsBelow_New (trie : Nat) : (New trie).RevisionsBelow := by
  intro r hr
  simp [New] at hr

theorem revisionsBelow_snapshot {s : StateDB} (h : s.RevisionsBelow) : s.Snapshot.2.RevisionsBelow := by
  intro r hr
  simp only [Snapshot, List.mem_append, List.mem_singleton] at hr
  rcases hr with hr | rfl
  · have := h r hr
    show r.id < s.nextRevisionId + 1
    omega
  · show s.nextRevisionId < s.nextRevisionId + 1
    omega

/-- The search in `RevertToSnapshot` finds the newest revision when every
older id is below it. -/
theorem findIdx_snapshot {s : StateDB} (h : s.RevisionsBelow) :
    (s.validRevisions ++ [(⟨s.nextRevisionId, s.journal.length⟩ : Revision)]).findIdx
      (fun r => decide (r.id ≥ s.nextRevisionId)) = s.validRevisions.length := by
  have hnone : ∀ r ∈ s.validRevisions, decide (r.id ≥ s.nextRevisionId) = false := by
    intro r hr
    have := h r hr
    simp only [decide_eq_false_iff_not, ge_iff_le, not_le]
    exact this
  rw [List.findIdx_append, List.findIdx_eq_length_of_false hnone]
  simp

/-- **Revert after a snapshot**: reverting to the id `Snapshot` returned undoes
the entries pushed since, newest first, and restores the journal and the
revisions. -/
theorem RevertToSnapshot_snapshot {s s₂ : StateDB} (h : s.RevisionsBelow)
    (js : List JournalEntry) (hj : s₂.journal = s.journal ++ js)
    (hv : s₂.validRevisions = s.Snapshot.2.validRevisions) :
    s₂.RevertToSnapshot env s.Snapshot.1 =
      (s₂.undoAll env js.reverse).map fun s' =>
        { s' with journal := s.journal, validRevisions := s.validRevisions } := by
  set r : Revision := ⟨s.nextRevisionId, s.journal.length⟩
  have hv' : s₂.validRevisions = s.validRevisions ++ [r] := hv
  have hidx : (s.validRevisions ++ [r]).findIdx (fun r => decide (r.id ≥ s.nextRevisionId))
      = s.validRevisions.length := findIdx_snapshot h
  have hget : (s.validRevisions ++ [r])[s.validRevisions.length]? = some r := by simp
  have hdrop : (s.journal ++ js).drop s.journal.length = js := List.drop_left' rfl
  have htake : (s.journal ++ js).take s.journal.length = s.journal := List.take_left' rfl
  have htake' : (s.validRevisions ++ [r]).take s.validRevisions.length = s.validRevisions :=
    List.take_left' rfl
  have hrid : r.id = s.nextRevisionId := rfl
  have hrj : r.journalIndex = s.journal.length := rfl
  show s₂.RevertToSnapshot env s.nextRevisionId = _
  simp only [RevertToSnapshot, hv', hidx, hget, hrid, hrj, if_true, hj, hdrop, htake, htake']

/-! ### Logs -/

@[simp] theorem thash_push (s : StateDB) (e : JournalEntry) : (s.push e).thash = s.thash := rfl

@[simp] theorem logs_push (s : StateDB) (e : JournalEntry) : (s.push e).logs = s.logs := rfl

@[simp] theorem thash_AddLog (s : StateDB) (l : Log) : (s.AddLog l).thash = s.thash := rfl

@[simp] theorem logSize_AddLog (s : StateDB) (l : Log) : (s.AddLog l).logSize = s.logSize + 1 :=
  rfl

theorem journal_AddLog (s : StateDB) (l : Log) :
    (s.AddLog l).journal = s.journal ++ [.addLogChange s.thash] := rfl

/-- `AddLog` appends the stamped log to its transaction's logs. -/
theorem GetLogs_AddLog (s : StateDB) (l : Log) :
    (s.AddLog l).GetLogs s.thash = s.GetLogs s.thash ++
      [{ l with txHash := s.thash, blockHash := s.bhash, txIndex := s.txIndex,
                index := s.logSize }] := by
  simp [AddLog, GetLogs, push]

/-- Undoing an `addLogChange` restores the transaction's logs, and nothing
else of what `AddLog` changed. -/
theorem undo_addLogChange {s : StateDB} {h : Hash} {old : List Log} {x : Log}
    (hl : s.GetLogs h = old ++ [x]) :
    ∃ s', s.undo env (.addLogChange h) = .ok s' ∧ s'.GetLogs h = old ∧
      s'.logSize = s.logSize ∧ s'.thash = s.thash ∧ s'.bhash = s.bhash ∧
      s'.txIndex = s.txIndex := by
  simp only [GetLogs] at hl
  by_cases hone : old = []
  · -- the only log of the transaction: its entry is removed
    subst hone
    refine ⟨{ s with logs := s.logs.erase h }, ?_, ?_, rfl, rfl, rfl, rfl⟩
    · simp [undo, hl]
    · simp [GetLogs]
  · -- a longer list: its last log is dropped
    have hlen : (old ++ [x]).length ≠ 1 := by
      intro h
      simp only [List.length_append, List.length_singleton] at h
      exact hone (List.eq_nil_of_length_eq_zero (by omega))
    refine ⟨{ s with logs := s.logs.insert h (old ++ [x]).dropLast }, ?_, ?_,
      rfl, rfl, rfl, rfl⟩
    · simp only [undo, hl]
      rw [if_neg hlen, if_neg (by simp)]
    · simp [GetLogs]

/-- **A reverted log still advances the log index.** From any state with
increasing revision ids, `Snapshot`, `AddLog l`, `RevertToSnapshot` followed
by `AddLog l'` gives the new log the index `logSize + 1`, where `AddLog l'`
alone gives it `logSize`: the two states disagree on `GetLogs`. -/
theorem getLogs_revert_addLog (s : StateDB) (h : s.RevisionsBelow) (l l' : Log) :
    ∃ s₃, ((s.Snapshot.2).AddLog l).RevertToSnapshot env s.Snapshot.1 = .ok s₃ ∧
      (s₃.AddLog l').GetLogs s.thash ≠ (s.AddLog l').GetLogs s.thash := by
  set s₂ := (s.Snapshot.2).AddLog l with hs₂
  have hj : s₂.journal = s.journal ++ [.addLogChange s.thash] := by
    simp [s₂, journal_AddLog, Snapshot]
  have hrevert := RevertToSnapshot_snapshot env h [.addLogChange s.thash] hj rfl
  have hlogs : s₂.GetLogs s.thash = s.Snapshot.2.GetLogs s.thash ++ [_] := GetLogs_AddLog _ l
  obtain ⟨s', hundo, hget, hsize, hthash, -, -⟩ := undo_addLogChange env hlogs
  set s₃ := { s' with journal := s.journal, validRevisions := s.validRevisions } with hs₃
  refine ⟨s₃, ?_, ?_⟩
  · rw [hrevert]
    simp only [List.reverse_singleton, undoAll, hundo]
    rfl
  · -- the two new logs carry the indexes `logSize + 1` and `logSize`
    intro heq
    have hsize₃ : s₃.logSize = s.logSize + 1 := hsize
    have hthash₃ : s₃.thash = s.thash := hthash
    have e₁ := GetLogs_AddLog s₃ l'
    rw [hthash₃] at e₁
    rw [e₁, GetLogs_AddLog s l'] at heq
    have hlast := congrArg (fun ls => (List.getLast? ls).map Log.index) heq
    simp only [List.getLast?_append, List.getLast?_singleton, Option.map_some,
      Option.some_or, Option.some.injEq] at hlast
    omega

theorem getLogs_revert_addLog_fresh :
    ∃ s₃, (((New 0).Snapshot.2).AddLog ⟨0, [], [1], 0, 0, 0, 0⟩).RevertToSnapshot
        ⟨fun _ _ => none, ⟨fun _ => none, fun _ => none⟩⟩ (New 0).Snapshot.1 = .ok s₃ ∧
      (s₃.AddLog ⟨0, [], [2], 0, 0, 0, 0⟩).GetLogs 0
        ≠ ((New 0).AddLog ⟨0, [], [2], 0, 0, 0, 0⟩).GetLogs 0 :=
  getLogs_revert_addLog ⟨fun _ _ => none, ⟨fun _ => none, fun _ => none⟩⟩ (New 0)
    (revisionsBelow_New 0) _ _

end StateDB

end State

end Bazacoin
