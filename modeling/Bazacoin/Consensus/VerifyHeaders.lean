import Bazacoin.Consensus.Uncles
import Bazacoin.Lib.Run

/-!
# Verifying a batch of headers (`consensus/bzhash/consensus.go`)

`VerifyHeaders` verifies a batch of `n` headers on `min(GOMAXPROCS, n)`
worker goroutines and hands the results back on a channel, one per header. A
collector goroutine sends the indices to the workers over the unbuffered
channel `inputs`; a worker writes its result into the shared slice `errors`
and reports the index on `done`. Workers finish in any order, so the
collector marks each reported index in `checked` and then delivers results
from the cursor `out` on for as long as they are checked, returning after the
last one, or at once on `abort`.

The goroutines are modelled as a step function over the collector's variables
and the channels (`Collector.step`): an event is the collector handing the
next index to an idle worker, a worker finishing an index, the collector
taking the oldest index off `done`, or an abort. Any interleaving of them is a
run (`Run.run`). A worker's write to its slot is merged with its send on
`done`: the collector reads a slot only after the index came off `done`.

For an engine that is not a full faker, every run delivers the first results
of the workers in index order, each once; no run is longer than `3n + 1`
events; and a run that can go no further and was not aborted has delivered
all `n` results (`verifyHeaders_results_in_order`). The invariant `Inv` that
carries it says where each handed-out index is (with a worker, on `done`, or
checked) and that the slots of reported indices hold the workers' results. A
full faker fills the channel with `n` nils without running the workers, which
differs from a worker's result for a header whose parent is unknown.
-/

namespace Bazacoin

namespace Bzhash

open State Bazacoin.Types

section

variable (hash : Header → Hash)

/-- `verifyHeaderWorker`: the parent of the first header is read from the
chain, that of every other header is the header before it if it links to it;
a header the chain knows passes. Callers pass one seal per header. -/
def verifyHeaderWorker (rules : HeaderRules) (getHeader : Hash → Nat → Option Header)
    (headers : List Header) (seals : List Bool) (index : Nat) : Except ConsensusError Unit :=
  match headers[index]? with
  -- the collector hands out indices below `len(headers)` only
  | none => .ok ()
  | some header =>
    let parent : Option Header :=
      if index = 0 then (decNumber header.number).bind (getHeader header.parentHash)
      else headers[index - 1]?.filter fun prev => hash prev == header.parentHash
    match parent with
    | none => .error .unknownAncestor
    | some parent =>
      if (getHeader (hash header) header.number).isSome then .ok ()
      else verifyHeader rules header parent false (seals.getD index false)

end

/-- The fixed data of one batch: `len(headers)`, the number of workers, what a
worker computes for an index, and the zero value of a result. -/
structure Batch (α : Type) where
  size : Nat
  workers : Nat
  work : Nat → α
  nil : α

/-- The collector's variables and the channels between the goroutines. -/
structure Collector (α : Type) where
  /-- `in`: the next index to hand out -/
  next : Nat
  /-- `out`: the next index to deliver -/
  out : Nat
  checked : List Bool
  /-- `errors`, the slots the workers write -/
  errors : List α
  /-- the indices workers have taken from `inputs` and not yet reported -/
  working : List Nat
  /-- the indices on the `done` channel, oldest first -/
  done : List Nat
  /-- `errorsOut`: the results delivered so far, oldest first -/
  delivered : List α
  /-- the collector has returned (or never ran), and delivers no more -/
  returned : Bool
  deriving DecidableEq, Repr

namespace Collector

variable {α : Type}

/-- What happens next somewhere in the batch. -/
inductive Event
  /-- `case inputs <- in`: an idle worker takes the next index -/
  | dispatch
  /-- a worker writes `errors[i]` and sends `i` on `done` -/
  | finish (i : Nat)
  /-- `case index := <-done`, followed by the release loop -/
  | receive
  /-- `case <-abort` -/
  | abort
  deriving DecidableEq, Repr

/-- The collector's release loop from its condition on,
`for checked[index] = true; checked[out]; out++`, over the marks from the
cursor on: while the mark at `out` is set, send `errors[out]` and return after
the last header. Gives the cursor, the results delivered and whether the
collector returned. -/
def releaseFrom (n : Nat) (errors : List α) (nil : α) :
    List Bool → Nat → List α → Nat × List α × Bool
  -- Go's `checked[out]` would panic past the slice; `Inv` keeps `out` below `n`
  | [], out, delivered => (out, delivered, false)
  | false :: _, out, delivered => (out, delivered, false)
  | true :: marks, out, delivered =>
    if out = n - 1 then (out, delivered ++ [errors.getD out nil], true)
    else releaseFrom n errors nil marks (out + 1) (delivered ++ [errors.getD out nil])

/-- The release loop from the cursor `out` over `checked`. -/
def release (n : Nat) (checked : List Bool) (errors : List α) (nil : α) (out : Nat)
    (delivered : List α) : Nat × List α × Bool :=
  releaseFrom n errors nil (checked.drop out) out delivered

/-- One event, or `none` where it cannot happen. -/
def step (b : Batch α) : Event → Collector α → Option (Collector α)
  | .dispatch, c =>
    -- `inputs` is set to nil once every index is handed out; each worker
    -- takes one index at a time
    if c.returned = false ∧ c.next < b.size ∧ c.working.length < b.workers then
      some { c with next := c.next + 1, working := c.working ++ [c.next] }
    else none
  | .finish i, c =>
    -- `done` is buffered with room for `workers` indices
    if i ∈ c.working ∧ c.done.length < b.workers then
      some { c with
        errors := c.errors.set i (b.work i), working := c.working.erase i, done := c.done ++ [i] }
    else none
  | .receive, c =>
    match c.returned, c.done with
    | false, index :: rest =>
      let checked := c.checked.set index true
      let r := release b.size checked c.errors b.nil c.out c.delivered
      some { c with checked := checked, out := r.1, delivered := r.2.1, returned := r.2.2, done := rest }
    | _, _ => none
  | .abort, c => if c.returned = false then some { c with returned := true } else none

/-- The collector before any event: nothing handed out or checked, every slot
nil. -/
def start (n : Nat) (nil : α) : Collector α :=
  ⟨0, 0, List.replicate n false, List.replicate n nil, [], [], [], false⟩

/-! ## The release loop -/

/-- What the release loop leaves: the results delivered are the first ones in
order, at most `n`; a collector that goes on has its cursor at their end and
unchecked, one that returned has delivered all `n`. -/
structure Released (n : Nat) (checked : List Bool) (work : Nat → α) (r : Nat × List α × Bool) :
    Prop where
  delivered_eq : r.2.1 = (List.range r.2.1.length).map work
  length_le : r.2.1.length ≤ n
  open_out : r.2.2 = false → r.1 = r.2.1.length ∧ checked[r.1]? = some false
  complete : r.2.2 = true → r.2.1.length = n

theorem map_range_snoc (work : Nat → α) (k : Nat) :
    (List.range k).map work ++ [work k] = (List.range (k + 1)).map work := by
  simp [List.range_succ]

/-- The release loop over the marks from a cursor below `n`, with the results
before the cursor delivered, where every checked slot holds its result. The
induction is on the marks, as the loop's recursion. -/
theorem releaseFrom_spec {n : Nat} {checked : List Bool} {errors : List α} {nil : α}
    {work : Nat → α} (hlen : checked.length = n)
    (hw : ∀ j, checked[j]? = some true → errors.getD j nil = work j) :
    ∀ (marks : List Bool) (out : Nat) (delivered : List α), checked.drop out = marks → out < n →
      delivered = (List.range out).map work →
      Released n checked work (releaseFrom n errors nil marks out delivered) := by
  intro marks
  induction marks with
  | nil =>
    intro out delivered hm hout _
    have := List.drop_eq_nil_iff.mp hm
    omega
  | cons m marks ih =>
    intro out delivered hm hout hdel
    have hcur : checked[out]? = some m := by
      rw [← List.head?_drop, hm]
      rfl
    have hlen_del : delivered.length = out := by simp [hdel]
    cases m with
    | false =>
      refine ⟨?_, ?_, fun _ => ⟨hlen_del.symm, hcur⟩, fun h => absurd h (by simp [releaseFrom])⟩
      · simp only [releaseFrom, hlen_del]
        exact hdel
      · simp only [releaseFrom]
        omega
    | true =>
      -- the slot at the cursor holds its result
      have hslot : delivered ++ [errors.getD out nil] = (List.range (out + 1)).map work := by
        rw [hw out hcur, hdel, map_range_snoc]
      simp only [releaseFrom]
      by_cases hlast : out = n - 1
      · rw [if_pos hlast]
        refine ⟨?_, ?_, fun h => absurd h (by simp), fun _ => ?_⟩
        · simp only [hslot, List.length_map, List.length_range]
        · simp only [hslot, List.length_map, List.length_range]
          omega
        · simp only [hslot, List.length_map, List.length_range]
          omega
      · rw [if_neg hlast]
        have hnext : checked.drop (out + 1) = marks := by
          rw [← List.drop_drop, hm]
          rfl
        exact ih (out + 1) _ hnext (by omega) hslot

/-- The release loop, started below `n` with the results before the cursor
delivered, where every checked slot holds its result. -/
theorem release_spec {n : Nat} {checked : List Bool} {errors : List α} {nil : α} {work : Nat → α}
    (hlen : checked.length = n) (hw : ∀ j, checked[j]? = some true → errors.getD j nil = work j)
    (out : Nat) (delivered : List α) (hout : out < n) (hdel : delivered = (List.range out).map work) :
    Released n checked work (release n checked errors nil out delivered) :=
  releaseFrom_spec hlen hw _ out delivered rfl hout hdel

/-! ## The invariant

The slots and the marks only ever gain a worker's result and `true`, so what
the invariant says of them survives every write; the cursor moves only in the
release loop, which `release_spec` describes. -/

/-- Writing a worker's result into its slot keeps every slot that held its
result. -/
theorem set_work_slot {errors : List α} {work : Nat → α} {i j : Nat} (hi : i < errors.length)
    (hj : j = i ∨ errors[j]? = some (work j)) : (errors.set i (work i))[j]? = some (work j) := by
  by_cases hji : j = i
  · subst hji
    exact List.getElem?_set_self hi
  · rw [List.getElem?_set_ne (Ne.symm hji)]
    exact hj.resolve_left hji

/-- An index marked after `checked.set i true` is `i` or was marked before. -/
theorem checked_set_true {checked : List Bool} {i j : Nat}
    (h : (checked.set i true)[j]? = some true) : j = i ∨ checked[j]? = some true := by
  by_cases hji : j = i
  · exact .inl hji
  · rw [List.getElem?_set_ne (Ne.symm hji)] at h
    exact .inr h

/-- `checked.set i true` keeps every mark and marks `i`. -/
theorem checked_set_true_of {checked : List Bool} {i j : Nat} (hi : i < checked.length)
    (h : j = i ∨ checked[j]? = some true) : (checked.set i true)[j]? = some true := by
  by_cases hji : j = i
  · subst hji
    exact List.getElem?_set_self hi
  · rw [List.getElem?_set_ne (Ne.symm hji)]
    exact h.resolve_left hji

/-- What holds in every state of a batch the engine runs. -/
structure Inv (b : Batch α) (c : Collector α) : Prop where
  checked_length : c.checked.length = b.size
  errors_length : c.errors.length = b.size
  next_le : c.next ≤ b.size
  /-- a worker holds handed-out indices only -/
  working_lt : ∀ i ∈ c.working, i < c.next
  /-- every handed-out index is with a worker, on `done`, or checked -/
  handedOut : ∀ i < c.next, i ∈ c.working ∨ i ∈ c.done ∨ c.checked[i]? = some true
  /-- the slot of a reported index holds its result -/
  done_slot : ∀ i ∈ c.done, c.errors[i]? = some (b.work i)
  checked_slot : ∀ i, c.checked[i]? = some true → c.errors[i]? = some (b.work i)
  delivered_eq : c.delivered = (List.range c.delivered.length).map b.work
  delivered_le : c.delivered.length ≤ b.size
  /-- a running collector's cursor is at the end of what it delivered, and unchecked -/
  open_out : c.returned = false → c.out = c.delivered.length ∧ c.checked[c.out]? = some false
  workers_pos : c.returned = false → 0 < b.workers

section Inv

variable {b : Batch α} {c : Collector α}

theorem inv_dispatch (h : Inv b c) (hn : c.next < b.size) :
    Inv b { c with next := c.next + 1, working := c.working ++ [c.next] } where
  checked_length := h.checked_length
  errors_length := h.errors_length
  next_le := hn
  working_lt i hi := by
    rcases List.mem_append.mp hi with hi | hi
    · exact Nat.lt_succ_of_lt (h.working_lt i hi)
    · rw [List.mem_singleton.mp hi]
      exact Nat.lt_succ_self _
  handedOut i hi := by
    rcases Nat.lt_succ_iff_lt_or_eq.mp hi with hi | rfl
    · rcases h.handedOut i hi with hw | hd | hc
      · exact .inl (List.mem_append_left _ hw)
      · exact .inr (.inl hd)
      · exact .inr (.inr hc)
    · exact .inl (List.mem_append_right _ (List.mem_singleton_self _))
  done_slot := h.done_slot
  checked_slot := h.checked_slot
  delivered_eq := h.delivered_eq
  delivered_le := h.delivered_le
  open_out := h.open_out
  workers_pos := h.workers_pos

theorem inv_finish (h : Inv b c) {i : Nat} (hi : i ∈ c.working) :
    Inv b { c with
      errors := c.errors.set i (b.work i), working := c.working.erase i, done := c.done ++ [i] } where
  checked_length := h.checked_length
  errors_length := by
    rw [List.length_set]
    exact h.errors_length
  next_le := h.next_le
  working_lt j hj := h.working_lt j (List.mem_of_mem_erase hj)
  handedOut j hj := by
    rcases h.handedOut j hj with hw | hd | hc
    · by_cases hji : j = i
      · exact .inr (.inl (List.mem_append_right _ (List.mem_singleton.mpr hji)))
      · exact .inl ((List.mem_erase_of_ne hji).mpr hw)
    · exact .inr (.inl (List.mem_append_left _ hd))
    · exact .inr (.inr hc)
  done_slot j hj := by
    have hlt : i < c.errors.length := by
      have := h.working_lt i hi
      have := h.next_le
      rw [h.errors_length]
      omega
    rcases List.mem_append.mp hj with hj | hj
    · exact set_work_slot hlt (.inr (h.done_slot j hj))
    · exact set_work_slot hlt (.inl (List.mem_singleton.mp hj))
  checked_slot j hj := by
    have hlt : i < c.errors.length := by
      have := h.working_lt i hi
      have := h.next_le
      rw [h.errors_length]
      omega
    exact set_work_slot hlt (.inr (h.checked_slot j hj))
  delivered_eq := h.delivered_eq
  delivered_le := h.delivered_le
  open_out := h.open_out
  workers_pos := h.workers_pos

/-- The marks after `checked[index] = true` for a reported index are the
reported index and the old ones, and each holds its result. -/
theorem receive_slot (h : Inv b c) {index : Nat} {rest : List Nat} (hdone : c.done = index :: rest) :
    ∀ j, (c.checked.set index true)[j]? = some true → c.errors[j]? = some (b.work j) := by
  intro j hj
  rcases checked_set_true hj with rfl | hj
  · exact h.done_slot j (by simp [hdone])
  · exact h.checked_slot j hj

/-- The release loop after a receive starts at an unchecked cursor below `n`
with the results before it delivered, so `release_spec` applies. -/
theorem receive_released (h : Inv b c) (hret : c.returned = false) {index : Nat} {rest : List Nat}
    (hdone : c.done = index :: rest) :
    Released b.size (c.checked.set index true) b.work
      (release b.size (c.checked.set index true) c.errors b.nil c.out c.delivered) := by
  obtain ⟨hout, hcur⟩ := h.open_out hret
  have hout_lt : c.out < b.size := by
    obtain ⟨hlt, -⟩ := List.getElem?_eq_some_iff.mp hcur
    rw [← h.checked_length]
    exact hlt
  refine release_spec ?_ (fun j hj => ?_) c.out c.delivered hout_lt ?_
  · rw [List.length_set]
    exact h.checked_length
  · rw [List.getD_eq_getElem?_getD, receive_slot h hdone j hj]
    rfl
  · rw [hout]
    exact h.delivered_eq

theorem inv_receive (h : Inv b c) (hret : c.returned = false) {index : Nat} {rest : List Nat}
    (hdone : c.done = index :: rest) :
    Inv b { c with
      checked := c.checked.set index true,
      out := (release b.size (c.checked.set index true) c.errors b.nil c.out c.delivered).1,
      delivered := (release b.size (c.checked.set index true) c.errors b.nil c.out c.delivered).2.1,
      returned := (release b.size (c.checked.set index true) c.errors b.nil c.out c.delivered).2.2,
      done := rest } := by
  have hidx_lt : index < c.checked.length := by
    obtain ⟨hlt, -⟩ := List.getElem?_eq_some_iff.mp (h.done_slot index (by simp [hdone]))
    rw [h.checked_length, ← h.errors_length]
    exact hlt
  have hrel := receive_released h hret hdone
  exact {
    checked_length := by
      rw [List.length_set]
      exact h.checked_length
    errors_length := h.errors_length
    next_le := h.next_le
    working_lt := h.working_lt
    handedOut := fun j hj => by
      rcases h.handedOut j hj with hw | hd | hc
      · exact .inl hw
      · rw [hdone] at hd
        rcases List.mem_cons.mp hd with rfl | hd
        · exact .inr (.inr (checked_set_true_of hidx_lt (.inl rfl)))
        · exact .inr (.inl hd)
      · exact .inr (.inr (checked_set_true_of hidx_lt (.inr hc)))
    done_slot := fun j hj => h.done_slot j (by rw [hdone]; exact List.mem_cons_of_mem _ hj)
    checked_slot := receive_slot h hdone
    delivered_eq := hrel.delivered_eq
    delivered_le := hrel.length_le
    open_out := hrel.open_out
    workers_pos := fun _ => h.workers_pos hret }

theorem inv_abort (h : Inv b c) : Inv b { c with returned := true } where
  checked_length := h.checked_length
  errors_length := h.errors_length
  next_le := h.next_le
  working_lt := h.working_lt
  handedOut := h.handedOut
  done_slot := h.done_slot
  checked_slot := h.checked_slot
  delivered_eq := h.delivered_eq
  delivered_le := h.delivered_le
  open_out := fun h => nomatch h
  workers_pos := fun h => nomatch h

/-- The state an enabled event leads to, one case per event. -/
theorem step_eq_some {e : Event} {c' : Collector α} (hs : step b e c = some c') :
    (e = .dispatch ∧ c.returned = false ∧ c.next < b.size ∧ c.working.length < b.workers ∧
      c' = { c with next := c.next + 1, working := c.working ++ [c.next] }) ∨
    (∃ i, e = .finish i ∧ i ∈ c.working ∧ c.done.length < b.workers ∧ c' = { c with
      errors := c.errors.set i (b.work i), working := c.working.erase i, done := c.done ++ [i] }) ∨
    (∃ index rest, e = .receive ∧ c.returned = false ∧ c.done = index :: rest ∧ c' = { c with
      checked := c.checked.set index true,
      out := (release b.size (c.checked.set index true) c.errors b.nil c.out c.delivered).1,
      delivered := (release b.size (c.checked.set index true) c.errors b.nil c.out c.delivered).2.1,
      returned := (release b.size (c.checked.set index true) c.errors b.nil c.out c.delivered).2.2,
      done := rest }) ∨
    (e = .abort ∧ c.returned = false ∧ c' = { c with returned := true }) := by
  cases e with
  | dispatch =>
    simp only [step] at hs
    split at hs
    · rename_i hg
      cases hs
      exact .inl ⟨rfl, hg.1, hg.2.1, hg.2.2, rfl⟩
    · cases hs
  | finish i =>
    simp only [step] at hs
    split at hs
    · rename_i hg
      cases hs
      exact .inr (.inl ⟨i, rfl, hg.1, hg.2, rfl⟩)
    · cases hs
  | receive =>
    simp only [step] at hs
    split at hs
    · rename_i index rest hret hdone
      cases hs
      exact .inr (.inr (.inl ⟨index, rest, rfl, hret, hdone, rfl⟩))
    · cases hs
  | abort =>
    simp only [step] at hs
    split at hs
    · rename_i hg
      cases hs
      exact .inr (.inr (.inr ⟨rfl, hg, rfl⟩))
    · cases hs

/-- Every enabled event keeps the invariant. -/
theorem step_inv {e : Event} {c' : Collector α} (h : Inv b c) (hs : step b e c = some c') :
    Inv b c' := by
  rcases step_eq_some hs with ⟨-, -, hn, -, rfl⟩ | ⟨i, -, hi, -, rfl⟩ |
      ⟨index, rest, -, hret, hdone, rfl⟩ | ⟨-, -, rfl⟩
  · exact inv_dispatch h hn
  · exact inv_finish h hi
  · exact inv_receive h hret hdone
  · exact inv_abort h

/-- A collector that returned has delivered every result. This holds on a
run without aborts: only the release loop returns otherwise. -/
def Complete (b : Batch α) (c : Collector α) : Prop :=
  c.returned = true → c.delivered.length = b.size

theorem step_complete {e : Event} {c' : Collector α} (he : e ≠ .abort) (h : Inv b c)
    (hc : Complete b c) (hs : step b e c = some c') : Complete b c' := by
  rcases step_eq_some hs with ⟨-, -, -, -, rfl⟩ | ⟨i, -, -, -, rfl⟩ |
      ⟨index, rest, -, hret, hdone, rfl⟩ | ⟨rfl, -, -⟩
  · exact hc
  · exact hc
  · exact (receive_released h hret hdone).complete
  · exact absurd rfl he

/-- A running collector always has an event other than an abort enabled: with
`done` non-empty it can receive; otherwise a worker holding an index can report
it; otherwise an idle worker can take the next index; and with every index
handed out and none pending, the cursor would be at a checked index. -/
theorem returned_of_quiescent (h : Inv b c) (hq : Run.Quiescent (step b) (· ≠ .abort) c) :
    c.returned = true := by
  cases hret : c.returned with
  | true => rfl
  | false =>
    exfalso
    have hw := h.workers_pos hret
    have hdone : c.done = [] := by
      cases hd : c.done with
      | nil => rfl
      | cons index rest =>
        have := hq .receive nofun
        simp [step, hret, hd] at this
    have hworking : c.working = [] := by
      cases hwk : c.working with
      | nil => rfl
      | cons i rest =>
        have := hq (.finish i) nofun
        simp [step, hwk, hdone, hw] at this
    have hnext : c.next = b.size := by
      have := hq .dispatch nofun
      have := h.next_le
      simp only [step, hret, hworking, List.length_nil, hw, and_true, true_and, ite_eq_right_iff,
        reduceCtorEq, imp_false, not_lt] at *
      omega
    obtain ⟨-, hcur⟩ := h.open_out hret
    have hout : c.out < c.next := by
      obtain ⟨hlt, -⟩ := List.getElem?_eq_some_iff.mp hcur
      rw [hnext, ← h.checked_length]
      exact hlt
    rcases h.handedOut c.out hout with hx | hx | hx
    · simp [hworking] at hx
    · simp [hdone] at hx
    · rw [hcur] at hx
      cases hx

/-- What is left to do: an index not handed out takes three more events, one
with a worker two, one on `done` one, and a running collector can be
aborted. -/
def pending (b : Batch α) (c : Collector α) : Nat :=
  3 * (b.size - c.next) + 2 * c.working.length + c.done.length + if c.returned then 0 else 1

/-- Every enabled event lowers what is left to do. -/
theorem pending_step {e : Event} {c' : Collector α} (hs : step b e c = some c') :
    pending b c' < pending b c := by
  rcases step_eq_some hs with ⟨-, hret, hn, -, rfl⟩ | ⟨i, -, hi, -, rfl⟩ |
      ⟨index, rest, -, hret, hdone, rfl⟩ | ⟨-, hret, rfl⟩
  · simp only [pending, hret, List.length_append, List.length_singleton]
    omega
  · have hpos : 0 < c.working.length := List.length_pos_of_mem hi
    simp only [pending, List.length_erase_of_mem hi, List.length_append, List.length_singleton]
    omega
  · simp only [pending, hret, hdone, List.length_cons, Bool.false_eq_true, ↓reduceIte]
    split <;> omega
  · simp only [pending, hret, Bool.false_eq_true, ↓reduceIte]
    omega

end Inv

/-- A results channel filled without goroutines is consistent exactly when
every result is nil. -/
theorem inv_filled {n : Nat} (b : Batch α) (hb : b.size = n)
    (hnil : List.replicate n b.nil = (List.range n).map b.work) :
    Inv b { start n b.nil with delivered := List.replicate n b.nil, returned := true } where
  checked_length := by simp [start, hb]
  errors_length := by simp [start, hb]
  next_le := Nat.zero_le _
  working_lt i hi := nomatch hi
  handedOut i hi := absurd hi (Nat.not_lt_zero i)
  done_slot i hi := nomatch hi
  checked_slot i hi := by simp [start, List.getElem?_replicate] at hi
  delivered_eq := by simp [hnil]
  delivered_le := by simp [hb]
  open_out h := nomatch h
  workers_pos h := nomatch h

/-- The collector and its workers start in a state of the invariant. -/
theorem inv_start (b : Batch α) (nil : α) (hn : 0 < b.size) (hw : 0 < b.workers) :
    Inv b (start b.size nil) where
  checked_length := by simp [start]
  errors_length := by simp [start]
  next_le := Nat.zero_le _
  working_lt i hi := nomatch hi
  handedOut i hi := absurd hi (Nat.not_lt_zero i)
  done_slot i hi := nomatch hi
  checked_slot i hi := by simp [start, List.getElem?_replicate] at hi
  delivered_eq := rfl
  delivered_le := Nat.zero_le _
  open_out _ := ⟨rfl, by simp [start, hn]⟩
  workers_pos _ := hw

end Collector

section

variable (hash : Header → Hash)

/-- `VerifyHeaders`, as the batch it starts and the first state of its
goroutines. A full faker, and an empty batch, get no goroutines and a results
channel already holding one nil per header. -/
def VerifyHeaders (engine : Engine) (rules : HeaderRules) (getHeader : Hash → Nat → Option Header)
    (procs : Nat) (headers : List Header) (seals : List Bool) :
    Batch (Except ConsensusError Unit) × Collector (Except ConsensusError Unit) :=
  let work := verifyHeaderWorker hash rules getHeader headers seals
  if engine.fakeFull ∨ headers.length = 0 then
    (⟨headers.length, 0, work, .ok ()⟩,
      { Collector.start headers.length (.ok ()) with
        delivered := List.replicate headers.length (.ok ()), returned := true })
  else (⟨headers.length, min procs headers.length, work, .ok ()⟩, Collector.start headers.length (.ok ()))

/-- The batch `VerifyHeaders` starts has one index per header, and its worker
is `verifyHeaderWorker`. -/
theorem verifyHeaders_batch (engine : Engine) (rules : HeaderRules)
    (getHeader : Hash → Nat → Option Header) (procs : Nat) (headers : List Header) (seals : List Bool) :
    (VerifyHeaders hash engine rules getHeader procs headers seals).1.size = headers.length ∧
    (VerifyHeaders hash engine rules getHeader procs headers seals).1.work =
      verifyHeaderWorker hash rules getHeader headers seals := by
  unfold VerifyHeaders
  split <;> exact ⟨rfl, rfl⟩

variable {hash}

/-- For an engine that is not a full faker, the goroutines of `VerifyHeaders`
start in a state of the invariant, not yet returned (or with no header to
deliver), with at most `3n + 1` events left. -/
theorem verifyHeaders_start {engine : Engine} (hfake : engine.fakeFull = false) {procs : Nat}
    (hprocs : 0 < procs) {rules : HeaderRules} {getHeader : Hash → Nat → Option Header}
    {headers : List Header} {seals : List Bool} {b : Batch (Except ConsensusError Unit)}
    {c₀ : Collector (Except ConsensusError Unit)}
    (hv : VerifyHeaders hash engine rules getHeader procs headers seals = (b, c₀)) :
    Collector.Inv b c₀ ∧ Collector.Complete b c₀ ∧ Collector.pending b c₀ ≤ 3 * headers.length + 1 := by
  unfold VerifyHeaders at hv
  by_cases hn : headers.length = 0
  · -- no headers: the channel holds no nil
    rw [if_pos (Or.inr hn), Prod.mk.injEq] at hv
    obtain ⟨rfl, rfl⟩ := hv
    refine ⟨Collector.inv_filled _ rfl (by rw [hn]; rfl), fun _ => by simp [hn], ?_⟩
    simp [Collector.pending, Collector.start, hn]
  · rw [if_neg (by simp [hfake, hn]), Prod.mk.injEq] at hv
    obtain ⟨rfl, rfl⟩ := hv
    have hw : 0 < min procs headers.length := by omega
    refine ⟨Collector.inv_start _ _ (Nat.pos_of_ne_zero hn) hw, (fun h => nomatch h), ?_⟩
    simp [Collector.pending, Collector.start]

/-- For an engine that is not a full faker, whatever order the workers finish
in and whatever the collector does in between: the results delivered are the
first results of `verifyHeaderWorker`, in index order, each once and at most
one per header; no run is longer than `3n + 1` events; and a run that was not
aborted, and that no event but an abort can extend, has delivered a result for
every header. -/
theorem verifyHeaders_results_in_order {engine : Engine} (hfake : engine.fakeFull = false)
    {procs : Nat} (hprocs : 0 < procs) (rules : HeaderRules) (getHeader : Hash → Nat → Option Header)
    (headers : List Header) (seals : List Bool) {b : Batch (Except ConsensusError Unit)}
    {c₀ : Collector (Except ConsensusError Unit)}
    (hv : VerifyHeaders hash engine rules getHeader procs headers seals = (b, c₀))
    {es : List Collector.Event} {c : Collector (Except ConsensusError Unit)}
    (hrun : Run.run (Collector.step b) es c₀ = some c) :
    c.delivered = (List.range c.delivered.length).map (verifyHeaderWorker hash rules getHeader headers seals) ∧
    c.delivered.length ≤ headers.length ∧ es.length ≤ 3 * headers.length + 1 ∧
    (Collector.Event.abort ∉ es → Run.Quiescent (Collector.step b) (· ≠ .abort) c →
      c.delivered.length = headers.length) := by
  have hb := verifyHeaders_batch hash engine rules getHeader procs headers seals
  rw [hv] at hb
  obtain ⟨hsize, hwork⟩ := hb
  obtain ⟨h₀, hc₀, hp₀⟩ := verifyHeaders_start hfake hprocs hv
  have hinv : Collector.Inv b c := Run.run_inv (fun _ _ _ h hs => Collector.step_inv h hs) h₀ hrun
  have hlen := Run.length_add_le_of_run (Collector.pending b)
    (fun _ _ _ hs => Collector.pending_step hs) hrun
  refine ⟨hwork ▸ hinv.delivered_eq, hsize ▸ hinv.delivered_le, by omega, fun habort hq => ?_⟩
  -- without aborts, the invariant and completeness hold together along the run
  have hboth : Collector.Inv b c ∧ Collector.Complete b c :=
    Run.run_inv_of_forall (Q := fun e : Collector.Event => e ≠ .abort)
      (P := fun c => Collector.Inv b c ∧ Collector.Complete b c)
      (fun _ _ _ he h hs => ⟨Collector.step_inv h.1 hs, Collector.step_complete he h.1 h.2 hs⟩)
      (fun e he heq => habort (heq ▸ he)) ⟨h₀, hc₀⟩ hrun
  exact hsize ▸ hboth.2 (Collector.returned_of_quiescent hinv hq)

end

/-- Two headers on the genesis block, numbered and timed one after the other. -/
def linkedHeaders : List Header :=
  [⟨1, 0, 1, 1, 5120000, 0, 2, [], 0⟩, ⟨2, 0, 1, 2, 5120000, 0, 3, [], 0⟩]

/-- A chain holding only the genesis block. -/
def genesisReader (h : Hash) (n : Nat) : Option Header :=
  (readChain timeHash [⟨⟨0, 0, 1, 0, 5120000, 0, 1, [], 0⟩, [], []⟩] h n).map Block.header

/-- `lenientRules` at a clock past the headers' times. -/
def clockRules : HeaderRules := { lenientRules with now := 3 }

/-- Two workers finishing the second header first: both results come out, in
order, and the collector is left with nothing to do but be aborted. -/
theorem verifyHeaders_linkedHeaders_out_of_order :
    ∃ c, Run.run (Collector.step (VerifyHeaders timeHash ⟨false⟩ clockRules genesisReader 2
        linkedHeaders [false, false]).1) [.dispatch, .dispatch, .finish 1, .receive, .finish 0, .receive]
        (VerifyHeaders timeHash ⟨false⟩ clockRules genesisReader 2 linkedHeaders [false, false]).2 =
        some c ∧ c.delivered = [.ok (), .ok ()] ∧
      Run.Quiescent (Collector.step (VerifyHeaders timeHash ⟨false⟩ clockRules genesisReader 2
          linkedHeaders [false, false]).1) (· ≠ .abort) c ∧
      c.delivered = (List.range c.delivered.length).map
        (verifyHeaderWorker timeHash clockRules genesisReader linkedHeaders [false, false]) ∧
      c.delivered.length ≤ linkedHeaders.length ∧
      [Collector.Event.dispatch, .dispatch, .finish 1, .receive, .finish 0, .receive].length ≤
        3 * linkedHeaders.length + 1 ∧
      (Collector.Event.abort ∉ [Collector.Event.dispatch, .dispatch, .finish 1, .receive, .finish 0, .receive] →
        Run.Quiescent (Collector.step (VerifyHeaders timeHash ⟨false⟩ clockRules genesisReader 2
          linkedHeaders [false, false]).1) (· ≠ .abort) c →
        c.delivered.length = linkedHeaders.length) :=
  ⟨_, rfl, rfl, fun e _ => by cases e <;> rfl,
    verifyHeaders_results_in_order rfl (by decide) clockRules genesisReader linkedHeaders
      [false, false] rfl rfl⟩

end Bzhash

end Bazacoin
