import ThreadedForth.Proofs.Machine.Action

/-!
# Triples

What an action makes sure of, from each state of some kind: where it ends well, and where it stops.
-/

namespace ThreadedForth

open ThreadedForth.Action

variable {ε σ α β : Type}

/-- From any state of the first kind something ends well with such a result and such a state, or
stops with such a reason and such a state. -/
def Ensures (P : σ → Prop) (act : EStateM ε σ α) (Q : α → σ → Prop) (E : ε → σ → Prop) : Prop :=
  ∀ s, P s → match act s with
    | .ok x s' => Q x s'
    | .error stop s' => E stop s'

variable {P P' : σ → Prop} {Q Q' : α → σ → Prop} {R : β → σ → Prop} {E E' : ε → σ → Prop}
  {act : EStateM ε σ α}

theorem ensures_pure {x : α} (h : ∀ s, P s → Q x s) :
    Ensures P (pure x : EStateM ε σ α) Q E := h

theorem ensures_throw {stop : ε} (h : ∀ s, P s → E stop s) :
    Ensures P (throw stop : EStateM ε σ α) Q E := h

theorem ensures_modify {f : σ → σ} {Q : Unit → σ → Prop} (h : ∀ s, P s → Q () (f s)) :
    Ensures P (modify f : EStateM ε σ Unit) Q E := h

theorem Ensures.bind {f : α → EStateM ε σ β} (ha : Ensures P act Q E)
    (hf : ∀ x, Ensures (Q x) (f x) R E) : Ensures P (act >>= f) R E := by
  intro s hs
  have hfirst := ha s hs
  rw [bind_apply]
  cases h : act s with
  | ok x s₁ =>
    rw [h] at hfirst
    exact hf x s₁ hfirst
  | error stop s₁ =>
    rw [h] at hfirst
    exact hfirst

theorem Ensures.weaken (h : Ensures P act Q E) (hP : ∀ s, P' s → P s) : Ensures P' act Q E :=
  fun s hs => h s (hP s hs)

theorem Ensures.imp (h : Ensures P act Q E) (hQ : ∀ x s, Q x s → Q' x s)
    (hE : ∀ stop s, E stop s → E' stop s) : Ensures P act Q' E' := by
  intro s hs
  have hact := h s hs
  cases ha : act s with
  | ok x s₁ =>
    rw [ha] at hact
    exact hQ x s₁ hact
  | error stop s₁ =>
    rw [ha] at hact
    exact hE stop s₁ hact

/-- A look at the state gives a fixed state to what follows. -/
theorem ensures_get_bind {f : σ → EStateM ε σ β}
    (hf : ∀ s, P s → Ensures (fun s' => s' = s) (f s) R E) : Ensures P (get >>= f) R E := by
  intro s hs
  rw [bind_of_ok (get_apply s)]
  exact hf s hs s rfl

end ThreadedForth
