import Bazacoin.Lib.Outcome

/-!
# A machine that answers as its specification does

An implementation takes calls `ε` on states `σ`; each call answers `ω` and
moves to a new state, or fails with an error or a panic (`Outcome`). Its
specification is a total machine on abstract states `α`: `spec e a` is the
next abstract state and `answer e a` what the call should answer.

A relation `R` between the two is a lockstep refinement (`Lockstep`) when a
state related to `a`, given an allowed call (`Q e`), returns the answer the
specification gives and lands in a state related to the specification's next
one. Then every run of allowed calls returns, and its answers are the
specification's (`exec_lockstep`): the implementation cannot be told apart from
its specification by what the calls answer.
-/

namespace Refine

variable {ε σ α ω E : Type}

/-- Execute the calls in order, collecting their answers; the first call that
fails ends the run with its failure. -/
def exec (step : ε → σ → Outcome E (ω × σ)) : List ε → σ → Outcome E (List ω × σ)
  | [], s => .ok ([], s)
  | e :: es, s =>
    (step e s).bind fun (o, s') => (exec step es s').map fun (os, s'') => (o :: os, s'')

/-- The answers of the specification to the calls, from the abstract state `a`. -/
def answers (spec : ε → α → α) (answer : ε → α → ω) : List ε → α → List ω
  | [], _ => []
  | e :: es, a => answer e a :: answers spec answer es (spec e a)

/-- The abstract state after the calls. -/
def after (spec : ε → α → α) (es : List ε) (a : α) : α := es.foldl (fun a e => spec e a) a

@[simp] theorem after_nil (spec : ε → α → α) (a : α) : after spec [] a = a := rfl

@[simp] theorem after_cons (spec : ε → α → α) (e : ε) (es : List ε) (a : α) :
    after spec (e :: es) a = after spec es (spec e a) := rfl

/-- `R` relates the implementation to the specification in lockstep, for the
calls `Q` allows. -/
def Lockstep (step : ε → σ → Outcome E (ω × σ)) (spec : ε → α → α) (answer : ε → α → ω)
    (Q : ε → Prop) (R : σ → α → Prop) : Prop :=
  ∀ e s a, Q e → R s a → ∃ s', step e s = .ok (answer e a, s') ∧ R s' (spec e a)

variable {step : ε → σ → Outcome E (ω × σ)} {spec : ε → α → α} {answer : ε → α → ω}
  {Q : ε → Prop} {R : σ → α → Prop}

/-- **A lockstep refinement answers as its specification over every run**: a
run of allowed calls from a related state returns the specification's answers
and ends related to the specification's final state. The induction is on the
calls, one lockstep step each. -/
theorem exec_lockstep (hR : Lockstep step spec answer Q R) :
    ∀ {es : List ε} {s : σ} {a : α}, (∀ e ∈ es, Q e) → R s a →
      ∃ s', exec step es s = .ok (answers spec answer es a, s') ∧ R s' (after spec es a)
  | [], s, _, _, hs => ⟨s, rfl, hs⟩
  | e :: es, s, a, hq, hs => by
    obtain ⟨s₁, h₁, hs₁⟩ := hR e s a (hq e List.mem_cons_self) hs
    obtain ⟨s', hrun, hs'⟩ :=
      exec_lockstep hR (fun f hf => hq f (List.mem_cons_of_mem e hf)) hs₁
    refine ⟨s', ?_, hs'⟩
    rw [exec, h₁, Outcome.bind_ok]
    simp only [hrun, Outcome.map_ok, answers]

end Refine
