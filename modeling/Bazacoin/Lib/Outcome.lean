import Mathlib.Tactic

/-!
# Results with errors and panics

A call in a language with error values and run-time panics ends in one of
three ways: it returns a value, it returns an error value, or it panics. An
error value can be inspected and handled by the caller; a panic unwinds every
caller. `Outcome ε α` keeps the three apart, so that a caller that handles
errors (`Outcome.handle`) still propagates a panic unchanged.
-/

/-- How a call ends: a value, an error value, or a panic with its message. -/
inductive Outcome (ε α : Type) where
  | ok (a : α)
  | error (e : ε)
  | panic (msg : String)
deriving DecidableEq, Repr

namespace Outcome

variable {ε ε' α β γ : Type}

/-- Sequencing: errors and panics propagate. -/
def bind : Outcome ε α → (α → Outcome ε β) → Outcome ε β
  | ok a, f => f a
  | error e, _ => error e
  | panic m, _ => panic m

/-- Apply a function to the returned value. -/
def map (f : α → β) : Outcome ε α → Outcome ε β
  | ok a => ok (f a)
  | error e => error e
  | panic m => panic m

/-- Handle an error value; a panic is not an error and passes through. -/
def handle : Outcome ε α → (ε → Outcome ε' α) → Outcome ε' α
  | ok a, _ => ok a
  | error e, h => h e
  | panic m, _ => panic m

instance : Monad (Outcome ε) where
  pure := ok
  bind := bind

instance : LawfulMonad (Outcome ε) :=
  LawfulMonad.mk' (Outcome ε)
    (fun x => by cases x <;> rfl)
    (fun _ _ => rfl)
    (fun x _ _ => by cases x <;> rfl)

@[simp] theorem bind_eq_bind (x : Outcome ε α) (f : α → Outcome ε β) : x >>= f = x.bind f := rfl

@[simp] theorem pure_eq_ok (a : α) : (pure a : Outcome ε α) = ok a := rfl

@[simp] theorem bind_ok (a : α) (f : α → Outcome ε β) : (ok a).bind f = f a := rfl
@[simp] theorem bind_error (e : ε) (f : α → Outcome ε β) : (error e).bind f = error e := rfl
@[simp] theorem bind_panic (m : String) (f : α → Outcome ε β) :
    (panic m : Outcome ε α).bind f = panic m := rfl
@[simp] theorem bind_ok_right (x : Outcome ε α) : x.bind ok = x := by cases x <;> rfl
@[simp] theorem map_ok (f : α → β) (a : α) : (ok a : Outcome ε α).map f = ok (f a) := rfl
@[simp] theorem map_error (f : α → β) (e : ε) : (error e : Outcome ε α).map f = error e := rfl
@[simp] theorem map_panic (f : α → β) (m : String) :
    (panic m : Outcome ε α).map f = panic m := rfl
@[simp] theorem handle_ok (a : α) (h : ε → Outcome ε' α) : (ok a).handle h = ok a := rfl
@[simp] theorem handle_error (e : ε) (h : ε → Outcome ε' α) : (error e).handle h = h e := rfl
@[simp] theorem handle_panic (m : String) (h : ε → Outcome ε' α) :
    (panic m : Outcome ε α).handle h = panic m := rfl

/-- Handling errors by rewrapping them commutes with mapping the value. -/
theorem handle_map (x : Outcome ε α) (f : α → β) (g : ε → ε') :
    (x.map f).handle (fun e => error (g e)) = (x.handle (fun e => error (g e))).map f := by
  cases x <;> rfl

/-- Inversion of a successful `bind`: both halves succeeded. -/
theorem bind_eq_ok {x : Outcome ε α} {f : α → Outcome ε β} {b : β} :
    x.bind f = ok b ↔ ∃ a, x = ok a ∧ f a = ok b := by
  cases x <;> simp [bind]

theorem map_eq_ok {x : Outcome ε α} {f : α → β} {b : β} :
    x.map f = ok b ↔ ∃ a, x = ok a ∧ f a = b := by
  cases x <;> simp [map]

/-- Inversion of a panicking `map`: the mapped call panicked. -/
theorem map_eq_panic {x : Outcome ε α} {f : α → β} {m : String} :
    x.map f = panic m ↔ x = panic m := by
  cases x <;> simp [map]

/-- Inversion of a panicking `bind`: the first half panicked, or it returned a
value on which the second half panicked. -/
theorem bind_eq_panic {x : Outcome ε α} {f : α → Outcome ε β} {m : String} :
    x.bind f = panic m ↔ x = panic m ∨ ∃ a, x = ok a ∧ f a = panic m := by
  cases x <;> simp [bind]

/-- `flatMapM` over a list looks at the function only on the list's elements. -/
theorem flatMapM_congr {f g : α → Outcome ε (List β)} :
    ∀ {l : List α}, (∀ a ∈ l, f a = g a) → l.flatMapM f = l.flatMapM g
  | [], _ => rfl
  | a :: l, h => by
    rw [List.flatMapM_cons, List.flatMapM_cons, h a List.mem_cons_self,
      flatMapM_congr fun b hb => h b (List.mem_cons_of_mem a hb)]

end Outcome

/-! ## `Except`

Calls that return an error value but never panic are `Except` computations;
the same inversions peel their `do` blocks apart. -/

namespace Except

variable {ε ε' α β : Type}

/-- Inversion of a successful `bind` in `Except`. -/
theorem bind_eq_ok {x : Except ε α} {f : α → Except ε β} {b : β} :
    (x >>= f) = .ok b ↔ ∃ a, x = .ok a ∧ f a = .ok b := by
  cases x <;> simp [bind, Except.bind]

theorem map_eq_ok {x : Except ε α} {f : α → β} {b : β} :
    (f <$> x) = .ok b ↔ ∃ a, x = .ok a ∧ f a = b := by
  cases x <;> simp [Functor.map, Except.map]

@[simp] theorem pure_eq_ok {a b : α} : (pure a : Except ε α) = .ok b ↔ a = b := by
  simp [pure, Except.pure]

@[simp] theorem throw_ne_ok {e : ε} {a : α} : (throw e : Except ε α) ≠ .ok a := by
  simp [throw, throwThe, MonadExceptOf.throw]

@[simp] theorem mapError_eq_ok {x : Except ε α} {g : ε → ε'} {a : α} :
    x.mapError g = .ok a ↔ x = .ok a := by
  cases x <;> simp [Except.mapError]

end Except

/-! ## `EStateM`

A method that changes its receiver in place and may return an error leaves
the receiver changed on the error path as well: an `EStateM` computation
carries its state on both outcomes. -/

namespace EStateM

variable {ε σ α β : Type}

@[simp] theorem get_apply (s : σ) : (get : EStateM ε σ σ) s = .ok s s := rfl

@[simp] theorem set_apply (s s' : σ) : (set s' : EStateM ε σ PUnit) s = .ok () s' := rfl

@[simp] theorem pure_apply (a : α) (s : σ) : (pure a : EStateM ε σ α) s = .ok a s := rfl

@[simp] theorem throw_apply (e : ε) (s : σ) : (throw e : EStateM ε σ α) s = .error e s := rfl

theorem bind_apply (x : EStateM ε σ α) (f : α → EStateM ε σ β) (s : σ) :
    (x >>= f) s = match x s with
      | .ok a s => f a s
      | .error e s => .error e s := rfl

@[simp] theorem bind_apply_ok {x : EStateM ε σ α} {s s₁ : σ} {a : α} (h : x s = .ok a s₁)
    (f : α → EStateM ε σ β) : (x >>= f) s = f a s₁ := by
  rw [bind_apply, h]

@[simp] theorem bind_apply_error {x : EStateM ε σ α} {s s₁ : σ} {e : ε} (h : x s = .error e s₁)
    (f : α → EStateM ε σ β) : (x >>= f) s = .error e s₁ := by
  rw [bind_apply, h]

/-- Inversion of a successful `bind`. -/
theorem bind_eq_ok {x : EStateM ε σ α} {f : α → EStateM ε σ β} {s s' : σ} {b : β} :
    (x >>= f) s = .ok b s' ↔ ∃ a s₁, x s = .ok a s₁ ∧ f a s₁ = .ok b s' := by
  rw [bind_apply]
  cases x s <;> simp

end EStateM
