import ThreadedForth.Proofs.Machine.Lockstep
import ThreadedForth.Proofs.Machine.Run

/-!
# Stretches of a run

So and so many steps of the loop of `Action.returnTo`, as an action of their own (`takeSteps`). The
loop reaches the machine that they lead to (`reaches_of_takeSteps`), and where single steps go in
lockstep a stretch of them does (`Coupling.keeps_takeSteps`).
-/

namespace ThreadedForth

namespace Action

variable {i i' : Cell → Action Unit} {depth k l n : Nat} {m m₁ m' : Machine} {stop : Stop}

/-- Takes so many steps, all of them deeper than where the loop goes back to. -/
def takeSteps (i : Cell → Action Unit) (depth : Nat) : Nat → Action Unit
  | 0 => pure ()
  | n + 1 => do
    if Stack.deeperThan depth (← get).returns then
      stepWith i
      takeSteps i depth n
    else throw .exhausted

theorem takeSteps_of_deeper (hd : depth < m.returns.length) :
    takeSteps i depth (n + 1) m = (stepWith i >>= fun _ => takeSteps i depth n) m := by
  have hyes : Stack.deeperThan depth m.returns = true := Stack.deeperThan_eq_true_iff.mpr hd
  simp [takeSteps, bind_apply, hyes]

theorem takeSteps_of_not_deeper (hd : m.returns.length ≤ depth) :
    takeSteps i depth (n + 1) m = .error .exhausted m := by
  have hnot : Stack.deeperThan depth m.returns = false := by
    rw [← Bool.not_eq_true, Stack.deeperThan_eq_true_iff]
    omega
  simp [takeSteps, bind_apply, hnot]

theorem takeSteps_succ_eq_ok (h : takeSteps i depth (n + 1) m = .ok () m') :
    depth < m.returns.length ∧
      ∃ m₁, stepWith i m = .ok () m₁ ∧ takeSteps i depth n m₁ = .ok () m' := by
  rcases Nat.lt_or_ge depth m.returns.length with hd | hd
  · rw [takeSteps_of_deeper hd] at h
    obtain ⟨_, m₁, hstep, hrest⟩ := bind_eq_ok.mp h
    exact ⟨hd, m₁, hstep, hrest⟩
  · rw [takeSteps_of_not_deeper hd] at h
    cases h

/-- The loop comes to where the steps lead. -/
theorem reaches_of_takeSteps (h : takeSteps i depth n m = .ok () m') : Reaches i depth n m m' := by
  induction n generalizing m with
  | zero =>
    cases h
    exact .refl _
  | succ n ih =>
    obtain ⟨hd, m₁, hstep, hrest⟩ := takeSteps_succ_eq_ok h
    rw [Nat.add_comm]
    exact (Reaches.of_step hd hstep).trans (ih hrest)

/-- One stretch after another. -/
theorem takeSteps_append (h : takeSteps i depth k m = .ok () m₁) :
    takeSteps i depth (k + l) m = takeSteps i depth l m₁ := by
  induction k generalizing m with
  | zero =>
    cases h
    rw [Nat.zero_add]
  | succ k ih =>
    obtain ⟨hd, m₂, hstep, hrest⟩ := takeSteps_succ_eq_ok h
    rw [Nat.add_right_comm, takeSteps_of_deeper hd, bind_of_ok hstep]
    exact ih hrest

/-- A word that is run stops as it does from the end of a stretch on. -/
theorem execute_of_stretch {bound : Nat} {x : Cell} (hdepth : m.returns.length = depth)
    (hstretch : (invoke bound x >>= fun _ => takeSteps (invoke bound) depth k) m = .ok () m₁)
    (hrest : returnTo (invoke bound) depth l m₁ = .error stop m') (hbound : k + l = bound) :
    execute bound x m = .error stop m' := by
  obtain ⟨_, m₀, henter, hsteps⟩ := bind_eq_ok.mp hstretch
  have hloop := (reaches_of_takeSteps hsteps l).trans hrest
  rw [hbound] at hloop
  rw [execute, executeWith_apply, hdepth]
  exact bind_of_error ((bind_of_ok henter).trans hloop)

/-- Where the steps stop, the loop does. -/
theorem returnTo_of_takeSteps (hstop : stop ≠ .exhausted)
    (h : takeSteps i depth k m = .error stop m') : returnTo i depth k m = .error stop m' := by
  induction k generalizing m with
  | zero => cases h
  | succ k ih =>
    rcases Nat.lt_or_ge depth m.returns.length with hd | hd
    · rw [takeSteps_of_deeper hd] at h
      rw [returnTo_of_deeper hd]
      cases hstep : stepWith i m with
      | ok _ m₂ =>
        rw [bind_of_ok hstep] at h ⊢
        exact ih h
      | error stop' m₂ =>
        rw [bind_of_error hstep] at h ⊢
        exact h
    · rw [takeSteps_of_not_deeper hd] at h
      cases h
      exact absurd rfl hstop

theorem takeSteps_approximates (hi : ∀ x, Approximates (i x) (i' x)) (depth n : Nat) :
    Approximates (takeSteps i depth n) (takeSteps i' depth n) := by
  induction n with
  | zero => exact approximates_refl _
  | succ n ih =>
    intro m
    rcases Nat.lt_or_ge depth m.returns.length with hd | hd
    · rw [takeSteps_of_deeper hd, takeSteps_of_deeper hd]
      exact approximates_bind (stepWith_approximates hi) (fun _ => ih) m
    · rw [takeSteps_of_not_deeper hd]
      exact .inr ⟨m, rfl⟩

end Action

open ThreadedForth.Action

theorem Coupling.keeps_takeSteps {C : Coupling} {i i' : Cell → Action Unit}
    (hi : ∀ x, C.Keeps (i x) (i' x)) (depth n : Nat) :
    C.Keeps (takeSteps i depth n) (takeSteps i' depth n) := by
  induction n with
  | zero => exact keeps_pure ()
  | succ n ih =>
    have hsteps := (keeps_stepWith hi).bind fun _ => ih
    refine ⟨fun m hm => ?_, fun m m' hm => ?_⟩
    · rcases Nat.lt_or_ge depth m.returns.length with hd | hd
      · rw [takeSteps_of_deeper hd]
        exact hsteps.apart m hm
      · rw [takeSteps_of_not_deeper hd]
        exact .inl rfl
    · rcases Nat.lt_or_ge depth m.returns.length with hd | hd
      · rw [takeSteps_of_deeper hd, takeSteps_of_deeper (C.depth hm.back ▸ hd)]
        exact hsteps.along m m' hm
      · rw [takeSteps_of_not_deeper hd]
        exact .inl (.inl rfl)

end ThreadedForth
