import ThreadedForth.Fault

/-!
# How outcomes compose

The equations that open a sequence of steps that may fail or stop. The simplifier knows them. A stop
that is no defect is a regular one (`Stop.Regular`). What does not stop at the end of the input goes
on inside of it (`Outcome.Inside`).
-/

namespace ThreadedForth

/-- A reason to stop that is no defect. -/
def Stop.Regular (stop : Stop) : Prop := ∀ d, stop ≠ .defect d

@[simp] theorem Stop.regular_fault (f : Fault) : (Stop.fault f).Regular := fun _ => by simp

@[simp] theorem Stop.regular_endOfInput : Stop.endOfInput.Regular := fun _ => by simp

@[simp] theorem Stop.regular_exhausted : Stop.exhausted.Regular := fun _ => by simp

namespace Outcome

variable {α β ε : Type}

@[simp] theorem ok_bind (x : α) (f : α → Except ε β) : (Except.ok x >>= f) = f x := rfl

@[simp] theorem error_bind (e : ε) (f : α → Except ε β) :
    ((Except.error e : Except ε α) >>= f) = .error e := rfl

@[simp] theorem pure_eq_ok (x : α) : (pure x : Except ε α) = .ok x := rfl

@[simp] theorem throw_eq_error (e : ε) : (throw e : Except ε α) = .error e := rfl

@[simp] theorem liftM_ok (x : α) : (liftM (Except.ok x : Except Fault α) : Except Stop α) = .ok x :=
  rfl

@[simp] theorem liftM_error (f : Fault) :
    (liftM (Except.error f : Except Fault α) : Except Stop α) = .error (.fault f) := rfl

/-- What fails with a fault stops for a regular reason. -/
theorem regular_of_liftM {o : Except Fault α} {stop : Stop}
    (h : (liftM o : Except Stop α) = .error stop) : stop.Regular := by
  cases o with
  | ok x => cases h
  | error f =>
    rw [liftM_error, Except.error.injEq] at h
    exact h ▸ Stop.regular_fault f

/-! ## The end of the input -/

/-- Something does not stop at the end of the input. -/
def Inside (o : Except Stop α) : Prop := o ≠ .error .endOfInput

theorem inside_ok (x : α) : Inside (.ok x) := by simp [Inside]

theorem inside_error {stop : Stop} (h : stop ≠ .endOfInput) :
    Inside (.error stop : Except Stop α) := by simpa [Inside] using h

theorem inside_liftM (o : Except Fault α) : Inside (liftM o : Except Stop α) := by
  cases o with
  | ok x => exact inside_ok x
  | error f => exact inside_error (by simp)

theorem Inside.bind {o : Except Stop α} {f : α → Except Stop β} (ho : Inside o)
    (hf : ∀ x, Inside (f x)) : Inside (o >>= f) := by
  cases o with
  | ok x => exact hf x
  | error stop =>
    intro h
    cases h
    exact ho rfl

end Outcome

end ThreadedForth
