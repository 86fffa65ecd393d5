import ThreadedForth.Proofs.Machine.Action

/-!
# Actions in pairs

Two actions go in lockstep if, from states that go together, their outcomes are the same and they
leave states that go together (`Lockstep`). They may part: where the action on the left is
exhausted, and where it is lost, that is in a state from which there is no way back. Nothing is
claimed from there on.
-/

namespace ThreadedForth

open ThreadedForth.Action

variable {σ α β : Type} {lost : σ → Prop} {R : σ → σ → Prop} {P P' : σ → σ → Prop}
  {Q : α → σ → σ → Prop} {S : β → σ → σ → Prop} {act act' : EStateM Stop σ α}

/-- The action has given up or is lost. -/
def Gone (lost : σ → Prop) : EStateM.Result Stop σ α → Prop
  | .ok _ s => lost s
  | .error stop s => stop = .exhausted ∨ lost s

/-- Where nothing is lost, an action that is gone has given up. -/
theorem Gone.exhausted {result : EStateM.Result Stop σ α} (h : Gone lost result)
    (hlost : ∀ s, ¬ lost s) : ∃ s, result = .error .exhausted s := by
  cases result with
  | ok x s => exact absurd h (hlost s)
  | error stop s =>
    rcases h with rfl | h
    · exact ⟨s, rfl⟩
    · exact absurd h (hlost s)

/-- The outcomes are the same, and the states go together. -/
inductive Agree (R : σ → σ → Prop) (Q : α → σ → σ → Prop) :
    EStateM.Result Stop σ α → EStateM.Result Stop σ α → Prop
  | ok {x : α} {s s' : σ} (h : Q x s s') : Agree R Q (.ok x s) (.ok x s')
  | error {stop : Stop} {s s' : σ} (h : R s s') : Agree R Q (.error stop s) (.error stop s')

theorem Agree.imp {R' : σ → σ → Prop} {Q' : α → σ → σ → Prop} {left right : EStateM.Result Stop σ α}
    (h : Agree R Q left right) (hR : ∀ s s', R s s' → R' s s') (hQ : ∀ x s s', Q x s s' → Q' x s s') :
    Agree R' Q' left right := by
  cases h with
  | ok h => exact .ok (hQ _ _ _ h)
  | error h => exact .error (hR _ _ h)

theorem Agree.symm {left right : EStateM.Result Stop σ α}
    (h : Agree (flip R) (fun x => flip (Q x)) left right) : Agree R Q right left := by
  cases h with
  | ok h => exact .ok h
  | error h => exact .error h

/-- The outcomes are the same, unless the action on the left is gone. -/
def Locked (lost : σ → Prop) (R : σ → σ → Prop) (Q : α → σ → σ → Prop)
    (left right : EStateM.Result Stop σ α) : Prop := Gone lost left ∨ Agree R Q left right

/-- Two actions go in lockstep from states of the first kind on; where they end well, the states are
of the second kind. -/
structure Lockstep (lost : σ → Prop) (R P : σ → σ → Prop) (act act' : EStateM Stop σ α)
    (Q : α → σ → σ → Prop) : Prop where
  apart : ∀ s, lost s → Gone lost (act s)
  along : ∀ s s', P s s' → Locked lost R Q (act s) (act' s')

theorem Lockstep.weaken (h : Lockstep lost R P act act' Q) (hP : ∀ s s', P' s s' → P s s') :
    Lockstep lost R P' act act' Q := ⟨h.apart, fun s s' hs => h.along s s' (hP s s' hs)⟩

theorem Lockstep.bind {k k' : α → EStateM Stop σ β} (ha : Lockstep lost R P act act' Q)
    (hk : ∀ x, Lockstep lost R (Q x) (k x) (k' x) S) :
    Lockstep lost R P (act >>= k) (act' >>= k') S where
  apart s hs := by
    have hact := ha.apart s hs
    cases hrun : act s with
    | ok x s₁ =>
      rw [hrun] at hact
      rw [bind_of_ok hrun]
      exact (hk x).apart s₁ hact
    | error stop s₁ =>
      rw [hrun] at hact
      rw [bind_of_error hrun]
      exact hact
  along s s' hs := by
    rcases ha.along s s' hs with hgone | hagree
    · left
      cases hrun : act s with
      | ok x s₁ =>
        rw [hrun] at hgone
        rw [bind_of_ok hrun]
        exact (hk x).apart s₁ hgone
      | error stop s₁ =>
        rw [hrun] at hgone
        rw [bind_of_error hrun]
        exact hgone
    · generalize hleft : act s = left at hagree
      generalize hright : act' s' = right at hagree
      cases hagree with
      | ok hQ =>
        rw [bind_of_ok hleft, bind_of_ok hright]
        exact (hk _).along _ _ hQ
      | error hR =>
        rw [bind_of_error hleft, bind_of_error hright]
        exact .inr (.error hR)

theorem lockstep_pure {x : α} (h : ∀ s s', P s s' → Q x s s') :
    Lockstep lost R P (pure x : EStateM Stop σ α) (pure x) Q :=
  ⟨fun _ hs => hs, fun s s' hs => .inr (.ok (h s s' hs))⟩

/-- A look at the states. -/
theorem lockstep_get_bind {k k' : σ → EStateM Stop σ β}
    (hlost : ∀ s, lost s → Gone lost (k s s))
    (halong : ∀ s s', P s s' → Locked lost R S (k s s) (k' s' s')) :
    Lockstep lost R P (get >>= k) (get >>= k') S := ⟨hlost, halong⟩

theorem lockstep_throw {stop : Stop} (h : ∀ s s', P s s' → R s s') :
    Lockstep lost R P (throw stop : EStateM Stop σ α) (throw stop) Q :=
  ⟨fun _ hs => .inr hs, fun s s' hs => .inr (.error (h s s' hs))⟩

theorem lockstep_exhausted : Lockstep lost R P (throw .exhausted : EStateM Stop σ α) act' Q :=
  ⟨fun _ _ => .inl rfl, fun _ _ _ => .inl (.inl rfl)⟩

/-- A change of the state that always ends well. -/
theorem lockstep_modify {g g' : σ → σ} {Q : Unit → σ → σ → Prop} (hlost : ∀ s, lost s → lost (g s))
    (halong : ∀ s s', P s s' → Q () (g s) (g' s')) :
    Lockstep lost R P (modify g : EStateM Stop σ Unit) (modify g') Q :=
  ⟨hlost, fun s s' hs => .inr (.ok (halong s s' hs))⟩

end ThreadedForth
