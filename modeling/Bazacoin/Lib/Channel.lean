import Bazacoin.Lib.Run
import Mathlib.Logic.Function.Basic

/-!
# Framed channels

A connection carries messages over streams of bytes in frames: an end's
`write` turns a message into the bytes it sends and a new state of the end,
and its `read` takes one message off the front of the bytes it has received.
This module proves once, for any framing, that the connections built on it
deliver: over every run of sends and receives on both ends of a full-duplex
connection, what each end has received, followed by the messages still on
the wire towards it, is what the other end has sent, and each of those can
be read (`Duplex.reachable_delivers`). No message is lost, duplicated,
reordered or altered, whatever the interleaving of the two ends' calls.

The framing owes six facts (`Framing.Sound`), stated with `Synced a b`, the
relation between an end `a` and the end `b` that reads what `a` writes:
- a good message written by `a` reads back at `b`, whatever follows it on
  the wire, and leaves the two in step again (`roundTrip`);
- a read looks only at the bytes it takes (`read_append`), and takes nothing
  from no bytes (`read_nil`);
- an end's writing and its reading touch different parts of it: a read and a
  write of one end commute (`read_write`), and neither disturbs the other
  direction (`synced_write`, `synced_read`).

`Carries a b wire q` is the invariant of one direction: reading from `b` over
`wire` returns the messages `q` in order and ends in step with `a`. Its step
lemmas follow the four calls that can touch it: the writer writes
(`Carries.write`), the reader reads (`Carries.read`), and each of them works
the other direction (`Carries.write_other`, `Carries.read_other`).
-/

namespace Channel

/-- The two calls of a framing: an end of state `π` writes a message as bytes,
or reads one message off the front of the bytes it has received, returning
what is left. -/
structure Framing (π μ ε β : Type) where
  write : π → μ → Except ε (π × List β)
  read : π → List β → Except ε (μ × π × List β)

variable {π μ ε β : Type}

/-- What a framing owes for its connections to deliver the messages `Good`
picks out, with `Synced a b` relating a writer to the end that reads it. -/
structure Framing.Sound (F : Framing π μ ε β) (Synced : π → π → Prop) (Good : μ → Prop) :
    Prop where
  roundTrip : ∀ {a a' b : π} {m : μ} {out : List β} (rest : List β), Synced a b → Good m →
    F.write a m = .ok (a', out) → ∃ b', F.read b (out ++ rest) = .ok (m, b', rest) ∧ Synced a' b'
  read_append : ∀ {b b' : π} {w w' : List β} {m : μ} (x : List β),
    F.read b w = .ok (m, b', w') → F.read b (w ++ x) = .ok (m, b', w' ++ x)
  read_nil : ∀ (b : π) (r : μ × π × List β), F.read b [] ≠ .ok r
  read_write : ∀ {b b₁ b₂ : π} {w w' out : List β} {m m' : μ},
    F.read b w = .ok (m, b₁, w') → F.write b m' = .ok (b₂, out) →
      ∃ b₃, F.read b₂ w = .ok (m, b₃, w') ∧ F.write b₁ m' = .ok (b₃, out)
  synced_write : ∀ {a b b' : π} {m : μ} {out : List β},
    Synced a b → F.write b m = .ok (b', out) → Synced a b'
  synced_read : ∀ {a a' b : π} {w w' : List β} {m : μ},
    Synced a b → F.read a w = .ok (m, a', w') → Synced a' b

/-! ## One direction -/

/-- One direction of a connection from the writer `a`: reading from `b` over
`wire` returns the messages `q` in order, uses the wire up, and leaves `b` in
step with `a`. -/
inductive Carries (F : Framing π μ ε β) (Synced : π → π → Prop) (a : π) :
    π → List β → List μ → Prop
  | synced {b : π} : Synced a b → Carries F Synced a b [] []
  | next {b b' : π} {w w' : List β} {m : μ} {q : List μ} :
      F.read b w = .ok (m, b', w') → Carries F Synced a b' w' q → Carries F Synced a b w (m :: q)

section Carries

variable {F : Framing π μ ε β} {Synced : π → π → Prop} {Good : μ → Prop}
  {a a' b b' : π} {w w' out : List β} {q : List μ} {m : μ}

variable (hF : F.Sound Synced Good)
include hF

/-- The writer sends a good message: it joins the end of the queue. -/
theorem Carries.write (h : Carries F Synced a b w q) (hm : Good m)
    (hw : F.write a m = .ok (a', out)) : Carries F Synced a' b (w ++ out) (q ++ [m]) := by
  induction h with
  | synced hs =>
    -- the wire was empty: the message is read back at once
    obtain ⟨b', hr, hs'⟩ := hF.roundTrip [] hs hm hw
    rw [List.append_nil] at hr
    exact .next hr (.synced hs')
  | next hr _ ih =>
    -- the frames ahead read as before, with the new bytes behind them
    exact .next (hF.read_append out hr) ih

/-- The reader reads: it takes the first message in flight. -/
theorem Carries.read (h : Carries F Synced a b w q) (hr : F.read b w = .ok (m, b', w')) :
    ∃ q', q = m :: q' ∧ Carries F Synced a b' w' q' := by
  cases h with
  | synced _ => exact absurd hr (hF.read_nil b _)
  | next hr' hc =>
    rw [hr, Except.ok.injEq, Prod.mk.injEq, Prod.mk.injEq] at hr'
    obtain ⟨rfl, rfl, rfl⟩ := hr'
    exact ⟨_, rfl, hc⟩

/-- The reader writes in the other direction: what it reads is unchanged. -/
theorem Carries.write_other (h : Carries F Synced a b w q) (hw : F.write b m = .ok (b', out)) :
    Carries F Synced a b' w q := by
  induction h generalizing b' with
  | synced hs => exact .synced (hF.synced_write hs hw)
  | next hr _ ih =>
    -- swap the write before each read of the queue
    obtain ⟨b₃, hr', hw'⟩ := hF.read_write hr hw
    exact .next hr' (ih hw')

/-- The writer reads in the other direction: what it has written is unchanged. -/
theorem Carries.read_other {w₂ w₂' : List β} (h : Carries F Synced a b w q)
    (hr : F.read a w₂ = .ok (m, a', w₂')) : Carries F Synced a' b w q := by
  induction h with
  | synced hs => exact .synced (hF.synced_read hs hr)
  | next hr₁ _ ih => exact .next hr₁ ih

end Carries

/-! ## Both directions -/

/-- A full-duplex connection: end `i` writes on `wire i`, which end `!i`
reads, and each end's messages sent and received so far. -/
structure Duplex (π μ β : Type) where
  peer : Bool → π
  wire : Bool → List β
  sent : Bool → List μ
  received : Bool → List μ

/-- The calls of the ends: end `i` sends a message, or receives one. -/
inductive Event (μ : Type) where
  | send (i : Bool) (m : μ)
  | receive (i : Bool)

/-- The sends are of good messages. -/
def Event.Good (Good : μ → Prop) : Event μ → Prop
  | .send _ m => Good m
  | .receive _ => True

/-- One call. A write that fails changes nothing; a read that fails is not
taken, since the connection is then given up. -/
def Duplex.step (F : Framing π μ ε β) : Event μ → Duplex π μ β → Option (Duplex π μ β)
  | .send i m, d =>
    match F.write (d.peer i) m with
    | .ok (p, out) =>
      some { d with peer := Function.update d.peer i p,
                    wire := Function.update d.wire i (d.wire i ++ out),
                    sent := Function.update d.sent i (d.sent i ++ [m]) }
    | .error _ => some d
  | .receive i, d =>
    match F.read (d.peer i) (d.wire (!i)) with
    | .ok (m, p, rest) =>
      some { d with peer := Function.update d.peer i p,
                    wire := Function.update d.wire (!i) rest,
                    received := Function.update d.received i (d.received i ++ [m]) }
    | .error _ => none

/-- A connection between `a` and `b` before any call. -/
def Duplex.start (a b : π) : Duplex π μ β where
  peer i := if i then a else b
  wire _ := []
  sent _ := []
  received _ := []

/-- In each direction, the reader reads back what the writer sent and it has
not yet received. -/
def Duplex.Delivers (F : Framing π μ ε β) (Synced : π → π → Prop) (d : Duplex π μ β) : Prop :=
  ∀ i, ∃ q, Carries F Synced (d.peer i) (d.peer (!i)) (d.wire i) q ∧ d.sent i = d.received (!i) ++ q

section Duplex

variable {F : Framing π μ ε β} {Synced : π → π → Prop} {Good : μ → Prop}

/-- Two ends in step both ways start delivering. -/
theorem Duplex.delivers_start {a b : π} (hab : Synced a b) (hba : Synced b a) :
    (Duplex.start a b : Duplex π μ β).Delivers F Synced := by
  intro i
  refine ⟨[], ?_, rfl⟩
  cases i with
  | true => exact .synced hab
  | false => exact .synced hba

/-- The other end of a connection is not this one. -/
theorem not_ne_self (i : Bool) : (!i) ≠ i := by
  cases i <;> decide

variable (hF : F.Sound Synced Good)
include hF

/-- A send keeps delivery: the message joins its direction's queue, and the
reading of the other direction, by the same end, is unchanged. -/
theorem Duplex.delivers_send {d d' : Duplex π μ β} {i : Bool} {m : μ} (hd : d.Delivers F Synced)
    (hm : Good m) (h : Duplex.step F (.send i m) d = some d') : d'.Delivers F Synced := by
  simp only [Duplex.step] at h
  split at h
  · next p out hw =>
    cases h
    intro j
    obtain ⟨q, hc, hs⟩ := hd j
    by_cases hj : j = i
    · -- the direction written on
      subst hj
      refine ⟨q ++ [m], ?_, ?_⟩
      · simpa [Function.update_of_ne (not_ne_self j)] using hc.write hF hm hw
      · simp [hs]
    · -- the other direction, read by the writing end
      have hj' : (!j) = i := by cases i <;> cases j <;> simp_all
      refine ⟨q, ?_, ?_⟩
      · simpa [Function.update_of_ne hj, hj'] using hc.write_other hF (hj' ▸ hw)
      · simpa [Function.update_of_ne hj] using hs
  · cases h
    exact hd

/-- A receive keeps delivery: the message read is the first of its
direction's queue, and the other direction, written by the reading end, is
unchanged. -/
theorem Duplex.delivers_receive {d d' : Duplex π μ β} {i : Bool} (hd : d.Delivers F Synced)
    (h : Duplex.step F (.receive i) d = some d') : d'.Delivers F Synced := by
  simp only [Duplex.step] at h
  split at h
  · next m p rest hr =>
    cases h
    intro j
    obtain ⟨q, hc, hs⟩ := hd j
    by_cases hj : j = i
    · -- the direction the end writes on: its state moved on by the read
      subst hj
      refine ⟨q, ?_, ?_⟩
      · simpa [Function.update_of_ne (not_ne_self j)] using hc.read_other hF hr
      · simpa [Function.update_of_ne (not_ne_self j)] using hs
    · -- the direction read from
      have hj' : j = !i := by cases i <;> cases j <;> simp_all
      subst hj'
      obtain ⟨q', rfl, hc'⟩ := hc.read hF (by simpa using hr)
      refine ⟨q', ?_, ?_⟩
      · simpa [Function.update_of_ne (not_ne_self i)] using hc'
      · simp [hs]
  · cases h

/-- **Delivery over every run.** From two ends in step both ways, after any
interleaving of calls on the two ends in which every message sent is good,
what each end has received, followed by the messages that can still be read
off the wire towards it, is what the other end has sent. -/
theorem Duplex.reachable_delivers {a b : π} (hab : Synced a b) (hba : Synced b a)
    {es : List (Event μ)} {d : Duplex π μ β} (hgood : ∀ e ∈ es, e.Good Good)
    (hrun : Run.run (Duplex.step F) es (Duplex.start a b) = some d) : d.Delivers F Synced := by
  refine Run.run_inv_of_forall (Q := Event.Good Good) ?_ hgood (Duplex.delivers_start hab hba) hrun
  intro e d d' he hd h
  cases e with
  | send i m => exact Duplex.delivers_send hF hd he h
  | receive i => exact Duplex.delivers_receive hF hd h

end Duplex

end Channel
