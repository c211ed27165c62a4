import Mathlib.Data.List.Basic

/-!
# Runs of a partial step function

A system that takes one of several events at each step, where an event need
not be enabled in every state, is a partial step function
`step : ε → σ → Option σ`. A run executes a list of events in order and fails
as soon as one of them is not enabled; every interleaving of the parties of a
concurrent system is such a list.

Two rules carry the arguments about such systems: a property kept by every
enabled step holds after every run (`run_inv`), also when only some events
keep it and the run is made of those (`run_inv_of_forall`), and a measure
that every enabled step lowers bounds the length of every run
(`length_add_le_of_run`). A state in which no event of a given kind is
enabled is `Quiescent` for that kind: a run of such events that cannot be
extended by one more ends there. A loop inside one step
is a fold, a run of a total step, with the same rule (`foldl_inv`).
-/

namespace Run

variable {ε σ : Type*} (step : ε → σ → Option σ)

/-- Execute the events in order, failing at the first that is not enabled. -/
def run : List ε → σ → Option σ
  | [], s => some s
  | e :: es, s => (step e s).bind (run es)

/-- No event that `Q` admits is enabled. -/
def Quiescent (Q : ε → Prop) (s : σ) : Prop := ∀ e, Q e → step e s = none

@[simp] theorem run_nil (s : σ) : run step [] s = some s := rfl

@[simp] theorem run_cons (e : ε) (es : List ε) (s : σ) :
    run step (e :: es) s = (step e s).bind (run step es) := rfl

variable {step}

/-- The first step of a run that executes. -/
theorem run_cons_eq_some {e : ε} {es : List ε} {s s' : σ} (h : run step (e :: es) s = some s') :
    ∃ t, step e s = some t ∧ run step es t = some s' :=
  Option.bind_eq_some_iff.mp h

/-- A property kept by the steps of some events holds after every run of
those events. -/
theorem run_inv_of_forall {Q : ε → Prop} {P : σ → Prop}
    (hstep : ∀ e s s', Q e → P s → step e s = some s' → P s') :
    ∀ {es : List ε} {s s' : σ}, (∀ e ∈ es, Q e) → P s → run step es s = some s' → P s'
  | [], s, s', _, hs, h => by
    cases h
    exact hs
  | e :: es, s, s', hq, hs, h => by
    obtain ⟨t, ht, hrun⟩ := run_cons_eq_some h
    have hq' : ∀ f ∈ es, Q f := fun f hf => hq f (List.mem_cons_of_mem e hf)
    exact run_inv_of_forall hstep hq' (hstep e s t (hq e List.mem_cons_self) hs ht) hrun

/-- A property kept by every enabled step holds after every run. -/
theorem run_inv {P : σ → Prop} (hstep : ∀ e s s', P s → step e s = some s' → P s')
    {es : List ε} {s s' : σ} (hs : P s) (h : run step es s = some s') : P s' :=
  run_inv_of_forall (Q := fun _ => True) (fun e s s' _ => hstep e s s') (fun _ _ => trivial) hs h

/-- A measure that every enabled step lowers bounds the length of a run by
its drop. -/
theorem length_add_le_of_run (μ : σ → Nat) (hstep : ∀ e s s', step e s = some s' → μ s' < μ s) :
    ∀ {es : List ε} {s s' : σ}, run step es s = some s' → es.length + μ s' ≤ μ s
  | [], s, s', h => by
    cases h
    simp
  | e :: es, s, s', h => by
    obtain ⟨t, ht, hrun⟩ := run_cons_eq_some h
    have hlt := hstep e s t ht
    have hle := length_add_le_of_run μ hstep hrun
    simp only [List.length_cons]
    omega

/-- A fold is a run of a total step: a property kept by each step, for the
elements folded over, holds after the fold. -/
theorem foldl_inv {α : Type*} {P : σ → Prop} {g : σ → α → σ} (l : List α)
    (hstep : ∀ s, ∀ a ∈ l, P s → P (g s a)) {s : σ} (hs : P s) : P (l.foldl g s) := by
  induction l generalizing s with
  | nil => exact hs
  | cons a l ih =>
    exact ih (fun t b hb => hstep t b (List.mem_cons_of_mem a hb)) (hstep s a List.mem_cons_self hs)

end Run
