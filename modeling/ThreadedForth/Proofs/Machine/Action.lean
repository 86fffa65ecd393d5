import Mathlib.Logic.Basic
import ThreadedForth.Machine.Basic
import ThreadedForth.Proofs.Outcome

/-!
# How actions compose

What comes of two actions in a row, of an action that only looks, and of one that cannot fail. The
simplifier knows these equations, so that a run on a known machine is a matter of simplification.
`Action.bind_eq_ok` goes the other way, from a run that ended well to the runs of its parts.
-/

namespace ThreadedForth.Action

/-! ## Actions on any state -/

section States

variable {ε σ α β : Type}

@[simp] theorem pure_apply (x : α) (s : σ) : (pure x : EStateM ε σ α) s = .ok x s := rfl

@[simp] theorem get_apply (s : σ) : (get : EStateM ε σ σ) s = .ok s s := rfl

@[simp] theorem modify_apply (f : σ → σ) (s : σ) :
    (modify f : EStateM ε σ Unit) s = .ok () (f s) := rfl

@[simp] theorem throw_apply (e : ε) (s : σ) : (throw e : EStateM ε σ α) s = .error e s := rfl

theorem bind_apply (act : EStateM ε σ α) (f : α → EStateM ε σ β) (s : σ) :
    (act >>= f) s = match act s with
      | .ok x s' => f x s'
      | .error e s' => .error e s' := by
  simp only [bind, EStateM.bind]
  cases act s <;> rfl

variable {act : EStateM ε σ α} {f : α → EStateM ε σ β} {s s' : σ} {x : α} {y : β} {e : ε}

/-- Two actions in a row, when the first one is known to end well. -/
theorem bind_of_ok (h : act s = .ok x s') : (act >>= f) s = f x s' := by
  rw [bind_apply, h]

/-- Two actions in a row, when the first one is known to stop. -/
theorem bind_of_error (h : act s = .error e s') : (act >>= f) s = .error e s' := by
  rw [bind_apply, h]

/-- What follows two actions that come to the same comes to the same. -/
theorem bind_of_eq {act' : EStateM ε σ α} (h : act s = act' s') : (act >>= f) s = (act' >>= f) s' := by
  rw [bind_apply, bind_apply, h]

/-- Two actions in a row end well exactly when the first one does, and the second one after it. -/
theorem bind_eq_ok :
    (act >>= f) s = .ok y s' ↔ ∃ x s₁, act s = .ok x s₁ ∧ f x s₁ = .ok y s' := by
  rw [bind_apply]
  cases act s with
  | ok x s₁ => simp [and_assoc]
  | error e s₁ => simp

/-- A run ends well, and its result and its state pass a test. -/
def endsWell (test : α → σ → Bool) : EStateM.Result ε σ α → Bool
  | .ok x s => test x s
  | .error _ _ => false

theorem exists_of_endsWell {test : α → σ → Bool} {result : EStateM.Result ε σ α}
    (h : endsWell test result = true) : ∃ x s, result = .ok x s ∧ test x s = true := by
  cases result with
  | ok x s => exact ⟨x, s, rfl, h⟩
  | error e s => cases h

/-- The reason why a run stops, if it does. -/
def reason : EStateM.Result ε σ α → Option ε
  | .ok _ _ => none
  | .error e _ => some e

theorem exists_of_reason {result : EStateM.Result ε σ α} {e : ε} (h : reason result = some e) :
    ∃ s, result = .error e s := by
  cases result with
  | ok x s => cases h
  | error e' s =>
    obtain rfl := Option.some.inj h
    exact ⟨s, rfl⟩

end States

/-! ## Actions on a machine -/

-- cell by cell along the lists, since arrays are compared place by place
instance : DecidableEq Memory := fun m m' =>
  decidable_of_iff (m.cells.toList = m'.cells.toList ∧ m.latest = m'.latest) (by
    cases m
    cases m'
    simp [Array.toList_inj])

deriving instance DecidableEq for Entry, Reader, Source, Transcript, Console, LogRecord, Machine,
  EStateM.Result

variable {α β : Type}

/-- A run that ends well or fails, with this machine in the end. -/
def endsIn (outcome : Except Fault α) (m : Machine) : EStateM.Result Stop Machine α :=
  match outcome with
  | .ok x => .ok x m
  | .error f => .error (.fault f) m

@[simp] theorem fail_apply (f : Fault) (m : Machine) :
    (fail f : Action α) m = .error (.fault f) m := rfl

@[simp] theorem liftM_ok (x : α) (m : Machine) :
    (liftM (Except.ok x : Except Stop α) : Action α) m = .ok x m := rfl

@[simp] theorem liftM_error (stop : Stop) (m : Machine) :
    (liftM (Except.error stop : Except Stop α) : Action α) m = .error stop m := rfl

@[simp] theorem liftM_fault_ok (x : α) (m : Machine) :
    (liftM (Except.ok x : Except Fault α) : Action α) m = .ok x m := rfl

@[simp] theorem liftM_fault_error (f : Fault) (m : Machine) :
    (liftM (Except.error f : Except Fault α) : Action α) m = .error (.fault f) m := rfl

theorem ask_apply (f : Memory → Except Stop α) (m : Machine) :
    ask f m = match f m.memory with
      | .ok x => .ok x m
      | .error stop => .error stop m := by
  simp only [ask, bind_apply, get_apply]
  cases f m.memory <;> rfl

theorem ask_eq_ok {f : Memory → Except Stop α} {m m' : Machine} {x : α} :
    ask f m = .ok x m' ↔ f m.memory = .ok x ∧ m = m' := by
  rw [ask_apply]
  cases f m.memory with
  | ok y => simp
  | error stop => simp

theorem liftM_eq_ok {o : Except Stop α} {m m' : Machine} {x : α} :
    (liftM o : Action α) m = .ok x m' ↔ o = .ok x ∧ m = m' := by
  cases o with
  | ok y => simp
  | error stop => simp

end ThreadedForth.Action
