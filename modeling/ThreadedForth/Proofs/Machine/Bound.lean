import ThreadedForth.Machine.Dispatch
import ThreadedForth.Proofs.Machine.Action

/-!
# The bound on the number of steps

A run that ends does not depend on its bound. One action approximates another if it does the same
wherever it is not exhausted; everything that is put together from approximations approximates, so a
smaller bound approximates a larger one (`invoke_approximates`, `execute_approximates`).

The same argument covers runs that are watched: `executeWatched` runs a word as `execute` does, but
gives up at the first dispatch that does not pass a test. `Throughout` says that it never does, so
that the test holds at each dispatch of the run.
-/

namespace ThreadedForth.Action

variable {α β : Type}

/-- An action does the same as another, unless it is exhausted. -/
def Approximates (act act' : Action α) : Prop :=
  ∀ m, act m = act' m ∨ ∃ m', act m = .error .exhausted m'

theorem approximates_refl (act : Action α) : Approximates act act := fun _ => .inl rfl

theorem approximates_of_exhausted (act : Action α) :
    Approximates (throw .exhausted : Action α) act := fun m => .inr ⟨m, rfl⟩

theorem approximates_bind {act act' : Action α} {k k' : α → Action β}
    (ha : Approximates act act') (hk : ∀ x, Approximates (k x) (k' x)) :
    Approximates (act >>= k) (act' >>= k') := by
  intro m
  rcases ha m with heq | ⟨m', hstop⟩
  · rw [bind_apply, bind_apply, heq]
    cases act' m with
    | ok x m₁ => exact hk x m₁
    | error stop m₁ => exact .inl rfl
  · exact .inr ⟨m', bind_of_error hstop⟩

theorem Approximates.of_ok {act act' : Action α} (ha : Approximates act act') {m m' : Machine}
    {x : α} (h : act m = .ok x m') : act' m = .ok x m' := by
  rcases ha m with heq | ⟨m₁, hstop⟩
  · rw [← heq, h]
  · rw [h] at hstop
    cases hstop

theorem Approximates.of_error {act act' : Action α} (ha : Approximates act act') {m m' : Machine}
    {stop : Stop} (h : act m = .error stop m') (hstop : stop ≠ .exhausted) :
    act' m = .error stop m' := by
  rcases ha m with heq | ⟨m₁, hexhausted⟩
  · rw [← heq, h]
  · cases h.symm.trans hexhausted
    exact absurd rfl hstop

theorem Approximates.trans {act act' act'' : Action α} (h : Approximates act act')
    (h' : Approximates act' act'') : Approximates act act'' := by
  intro m
  rcases h m with heq | hstop
  · rw [heq]
    exact h' m
  · exact .inr hstop

/-- What is not exhausted is done by all that it approximates. -/
theorem Approximates.eq_of_ends {act act' : Action α} (h : Approximates act act') {m : Machine}
    (hends : ∀ m', act m ≠ .error .exhausted m') : act m = act' m :=
  (h m).resolve_right fun ⟨m', hstop⟩ => hends m' hstop

/-- Two actions that approximate a third one do the same wherever neither is exhausted. -/
theorem Approximates.unique {act act' final : Action α} {m : Machine} (ha : Approximates act final)
    (ha' : Approximates act' final) (h : ∀ m₁, act m ≠ .error .exhausted m₁)
    (h' : ∀ m₁, act' m ≠ .error .exhausted m₁) : act m = act' m := by
  rcases ha m with heq | ⟨m₁, hstop⟩
  · rcases ha' m with heq' | ⟨m₁, hstop⟩
    · exact heq.trans heq'.symm
    · exact absurd hstop (h' m₁)
  · exact absurd hstop (h m₁)

/-- An action that is observed may be replaced too, if what follows gives up as well as it does. -/
theorem approximates_observe_bind {act act' : Action α} {k k' : Except Stop α → Action β}
    (hact : Approximates act act')
    (hgiveUp : ∀ m, ∃ m', k (.error .exhausted) m = .error .exhausted m')
    (hk : ∀ outcome, Approximates (k outcome) (k' outcome)) :
    Approximates (observe act >>= k) (observe act' >>= k') := by
  intro m
  simp only [bind_apply, observe]
  rcases hact m with heq | ⟨m', hstop⟩
  · rw [heq]
    cases act' m with
    | ok x m₁ => exact hk (.ok x) m₁
    | error stop m₁ => exact hk (.error stop) m₁
  · rw [hstop]
    exact .inr (hgiveUp m')

/-! ## Words that run other words -/

section Words

variable {i i' e e' : Cell → Action Unit} {bound bound' : Nat}
  (hi : ∀ x, Approximates (i x) (i' x)) (he : ∀ x, Approximates (e x) (e' x))

include he in
theorem interpretToken_approximates (name : String) :
    Approximates (interpretToken e name) (interpretToken e' name) := by
  refine approximates_bind (approximates_refl _) fun found => ?_
  cases found with
  | none => exact approximates_refl _
  | some h =>
    refine approximates_bind (approximates_refl _) fun code => ?_
    refine approximates_bind (approximates_refl _) fun m => ?_
    by_cases hm : m.mode = .immediate
    · rw [if_pos hm, if_pos hm]
      exact he _
    · rw [if_neg hm, if_neg hm]
      refine approximates_bind (approximates_refl _) fun immediate => ?_
      cases immediate with
      | true => exact he _
      | false => exact approximates_refl _

include he in
theorem readKey_approximates : Approximates (readKey e) (readKey e') :=
  approximates_bind (he _) fun _ => approximates_refl _

include he in
theorem readUntil_approximates (delimiter : Char) (hb : bound ≤ bound') (before : List Char) :
    Approximates (readUntil e delimiter bound before) (readUntil e' delimiter bound' before) := by
  induction bound generalizing bound' before with
  | zero => exact approximates_of_exhausted _
  | succ n ih =>
    obtain ⟨n', rfl⟩ : ∃ n', bound' = n' + 1 := ⟨bound' - 1, by omega⟩
    refine approximates_bind (readKey_approximates he) fun c => ?_
    by_cases hc : c = delimiter
    · rw [if_pos hc, if_pos hc]
      exact approximates_refl _
    · rw [if_neg hc, if_neg hc]
      exact ih (by omega) _

include he in
theorem readText_approximates (hb : bound ≤ bound') :
    Approximates (readText e bound) (readText e' bound') :=
  approximates_bind (he _) fun _ =>
    approximates_bind (approximates_refl _) fun _ =>
      approximates_bind (readUntil_approximates he _ hb _) fun _ => approximates_refl _

include hi he in
/-- A native behaviour approximates when the words that it runs do. -/
theorem perform_approximates (n : Native) (addr : Int) (hb : bound ≤ bound') :
    Approximates (n.perform addr i e bound) (n.perform addr i' e' bound') := by
  cases n with
  | primitive p =>
    cases p with
    | thread w =>
      cases w with
      | execute => exact approximates_bind (approximates_refl _) fun _ => hi _
      | _ => exact approximates_refl _
    | input w =>
      cases w with
      | interpret =>
        exact approximates_bind (approximates_refl _) fun _ => interpretToken_approximates he _
      | _ => exact approximates_refl _
    | text w =>
      cases w with
      | text => exact approximates_bind (readText_approximates he hb) fun _ => approximates_refl _
      | print => exact approximates_bind (readText_approximates he hb) fun _ => approximates_refl _
      | comment =>
        exact approximates_bind (readUntil_approximates he _ hb _) fun _ => approximates_refl _
      | lineComment => exact approximates_refl _
    | _ => exact approximates_refl _
  | _ => exact approximates_refl _

include hi in
theorem stepWith_approximates : Approximates (stepWith i) (stepWith i') := by
  refine approximates_bind (approximates_refl _) fun m => ?_
  cases m.ip with
  | none => exact approximates_refl _
  | some ip =>
    exact approximates_bind (approximates_refl _) fun _ =>
      approximates_bind (approximates_refl _) fun _ => hi _

include hi in
theorem returnTo_approximates (depth : Nat) (hb : bound ≤ bound') :
    Approximates (returnTo i depth bound) (returnTo i' depth bound') := by
  induction bound generalizing bound' with
  | zero => exact approximates_of_exhausted _
  | succ n ih =>
    obtain ⟨n', rfl⟩ : ∃ n', bound' = n' + 1 := ⟨bound' - 1, by omega⟩
    refine approximates_bind (approximates_refl _) fun m => ?_
    by_cases hd : Stack.deeperThan depth m.returns
    · rw [if_pos hd, if_pos hd]
      exact approximates_bind (stepWith_approximates hi) fun _ => ih (by omega)
    · rw [if_neg hd, if_neg hd]
      exact approximates_refl _

include hi in
theorem executeWith_approximates (hb : bound ≤ bound') (x : Cell) :
    Approximates (executeWith i bound x) (executeWith i' bound' x) :=
  approximates_bind (approximates_refl _) fun _ =>
    approximates_bind (approximates_refl _) fun _ =>
      approximates_bind (hi x) fun _ =>
        approximates_bind (returnTo_approximates hi _ hb) fun _ => approximates_refl _

include hi in
theorem enterWith_approximates (hb : bound ≤ bound') (x : Cell) :
    Approximates (enterWith i bound x) (enterWith i' bound' x) := by
  cases x with
  | token addr =>
    refine approximates_bind (approximates_refl _) fun cell => ?_
    cases cell with
    | native n =>
      exact approximates_bind (approximates_refl _) fun _ =>
        perform_approximates hi (executeWith_approximates hi hb) n addr hb
    | _ => exact approximates_refl _
  | _ => exact approximates_refl _

end Words

/-! ## Larger bounds -/

/-- A run with a smaller bound approximates one with a larger bound. -/
theorem invoke_approximates {bound bound' : Nat} (hb : bound ≤ bound') (x : Cell) :
    Approximates (invoke bound x) (invoke bound' x) := by
  induction bound generalizing bound' x with
  | zero => exact approximates_of_exhausted _
  | succ n ih =>
    obtain ⟨n', rfl⟩ : ∃ n', bound' = n' + 1 := ⟨bound' - 1, by omega⟩
    exact enterWith_approximates (fun y => ih (by omega) y) (by omega) x

/-- The same for a word that is run to its end. -/
theorem execute_approximates {bound bound' : Nat} (hb : bound ≤ bound') (x : Cell) :
    Approximates (execute bound x) (execute bound' x) :=
  executeWith_approximates (invoke_approximates hb) hb x

/-! ## Watched runs -/

/-- A test of a dispatch: of the cell that is about to be entered, and of the machine then. -/
abbrev Watch := Cell → Machine → Bool

/-- Enters the word of an execution token, as long as each dispatch passes the test. -/
def invokeWatched (watch : Watch) : Nat → Cell → Action Unit
  | 0, _ => throw .exhausted
  | bound + 1, x => do
    if watch x (← get) then enterWith (invokeWatched watch bound) bound x
    else throw .exhausted

/-- Runs a word to its end, as long as each dispatch passes the test. -/
def executeWatched (watch : Watch) (bound : Nat) (x : Cell) : Action Unit :=
  executeWith (invokeWatched watch bound) bound x

/-- The test holds at each dispatch of the run of a word. -/
def Throughout (watch : Watch) (bound : Nat) (x : Cell) (m : Machine) : Prop :=
  executeWatched watch bound x m = execute bound x m

theorem invokeWatched_succ (watch : Watch) (bound : Nat) (x : Cell) (m : Machine) :
    invokeWatched watch (bound + 1) x m =
      if watch x m then enterWith (invokeWatched watch bound) bound x m
      else .error .exhausted m := by
  simp only [invokeWatched, bind_apply, get_apply]
  split <;> rfl

/-- A watched run goes as the run does, until it gives up. -/
theorem invokeWatched_approximates (watch : Watch) (bound : Nat) (x : Cell) :
    Approximates (invokeWatched watch bound x) (invoke bound x) := by
  induction bound generalizing x with
  | zero => exact approximates_refl _
  | succ n ih =>
    intro m
    rw [invokeWatched_succ]
    cases watch x m with
    | true => exact enterWith_approximates ih (Nat.le_refl n) x m
    | false => exact .inr ⟨m, rfl⟩

theorem executeWatched_approximates (watch : Watch) (bound : Nat) (x : Cell) :
    Approximates (executeWatched watch bound x) (execute bound x) :=
  executeWith_approximates (invokeWatched_approximates watch bound) (Nat.le_refl bound) x

/-- To watch for nothing is to run. -/
theorem invokeWatched_true (bound : Nat) : invokeWatched (fun _ _ => true) bound = invoke bound := by
  induction bound with
  | zero => rfl
  | succ n ih =>
    funext x m
    rw [invokeWatched_succ, if_pos rfl, ih]
    rfl

theorem executeWatched_true (bound : Nat) (x : Cell) :
    executeWatched (fun _ _ => true) bound x = execute bound x := by
  rw [executeWatched, invokeWatched_true]
  rfl

end ThreadedForth.Action
