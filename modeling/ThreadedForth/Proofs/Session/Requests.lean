import ThreadedForth.Proofs.Machine.Flow
import ThreadedForth.Proofs.Memory.Code
import ThreadedForth.Proofs.Session.Waiting

/-!
# Where a run asks for a token

The loop of `QUIT` asks for a token where the next cell of the thread leads to `INTERPRET`
(`Machine.Requests`). As long as its own code and the code field of `INTERPRET` are whole
(`Machine.CanRestart`) it does so at once when it is started, and the step from there takes a token
or stops where none can be had (`Machine.Requests.step_cases`). So the input that is left becomes
less from each request to the next one, and if all that is done about a token comes to an end
(`Machine.Processes`) the whole run does (`Machine.CanRestart.ends`).
-/

namespace ThreadedForth

open ThreadedForth.Action

/-- The loop takes another step, and the next cell of the thread takes a token, by a dispatch that
can be logged if it is to be. -/
structure Machine.Requests (m : Machine) (depth : Nat) : Prop where
  deep : depth < m.returns.length
  interprets : ∃ ip addr, m.ip = some ip ∧ m.memory.get (.int ip) = .ok (.token addr) ∧
    m.memory.get (.int addr) = .ok (.native (.primitive (.input .interpret))) ∧ m.CanNote addr

/-- The code of `QUIT` and the code field of `INTERPRET` are whole, and dispatches of both can be
logged if they are to be. -/
structure Machine.CanRestart (m : Machine) : Prop where
  quit : m.memory.HasCode (Kernel.quitHeader + 3) (.native .enter :: Kernel.quitBody)
  interpret : m.memory.Intact (.input .interpret)
  notesQuit : m.CanNote (Kernel.quitHeader + 3)
  notesInterpret : m.CanNote (Kernel.codeField (.input .interpret))

/-- The machine once `QUIT` has been entered. -/
def Machine.inQuit (m : Machine) : Machine :=
  { m with returns := m.ip :: m.returns, ip := some (Kernel.quitHeader + 4) }

/-- What `QUIT` finds when it asks for its first token. -/
def Machine.firstToken (m : Machine) : EStateM.Result Stop Console String :=
  Reading.nextToken m.inQuit.attendant m.console

/-- A run has come to its end, or to the end of the input, or it has failed. -/
def HasEnded {α : Type} : EStateM.Result Stop Machine α → Prop
  | .ok _ _ => True
  | .error .endOfInput _ => True
  | .error (.fault _) _ => True
  | .error _ _ => False

/-- `QUIT`, started on one machine, comes to another one. -/
def Machine.ComesTo (m m' : Machine) : Prop :=
  ∃ bound k m₁, invoke bound Kernel.quitToken m = .ok () m₁ ∧
    takeSteps (invoke bound) m.returns.length k m₁ = .ok () m'

/-- All that is done about the token that is asked for comes to an end: so many steps lead to where
the loop has come back, or to the next request, or no further. -/
def Machine.Concludes (m : Machine) (depth : Nat) : Prop :=
  ∃ bound k, match takeSteps (invoke bound) depth (k + 1) m with
    | .ok _ m' => m'.returns.length ≤ depth ∨ m'.Requests depth
    | .error stop m' => HasEnded (.error stop m' : EStateM.Result Stop Machine Unit)

/-- Whatever token `QUIT` asks for, what is done about it comes to an end. -/
def Machine.Processes (m : Machine) : Prop :=
  ∀ m', m.ComesTo m' → m'.Requests m.returns.length → m'.Concludes m.returns.length

variable {m m₁ m' : Machine} {depth bound : Nat}

/-! ## Runs that end -/

theorem HasEnded.ne_exhausted {α : Type} {result : EStateM.Result Stop Machine α}
    (h : HasEnded result) : ∀ m', result ≠ .error .exhausted m' := by
  rintro m' rfl
  exact h

/-- What has ended does so with a larger bound too. -/
theorem HasEnded.of_approximates {α : Type} {act act' : Action α} (h : HasEnded (act m))
    (ha : Approximates act act') : act' m = act m := by
  rcases ha m with heq | ⟨m', hstop⟩
  · exact heq.symm
  · exact absurd hstop (h.ne_exhausted m')

/-! ## Requests -/

/-- The step takes a token and interprets it, if a token can be had. -/
theorem Machine.Requests.step_cases (h : m.Requests depth) (bound : Nat) :
    (∃ stop c m', Reading.nextToken m.attendant m.console = .error stop c ∧
      stepWith (invoke (bound + 1)) m = .error stop m') ∨
    ∃ token c m₁, Reading.nextToken m.attendant m.console = .ok token c ∧ m₁.console = c ∧
      stepWith (invoke (bound + 1)) m = interpretToken (execute bound) token m₁ := by
  obtain ⟨ip, addr, hip, hcell, hnative, hnote⟩ := h.interprets
  obtain ⟨log, harrive⟩ := arrive_of_canNote (m := { m with ip := some (ip + 1) }) hnote
  have hstep : stepWith (invoke (bound + 1)) m =
      (nextToken >>= interpretToken (execute bound))
        { m with ip := some (ip + 1), current := some addr, log := log } := by
    rw [stepWith_of_ip hip hcell, invoke,
      enterWith_of_native (m := { m with ip := some (ip + 1) }) hnative, bind_of_ok harrive]
    rfl
  have hattendant : Machine.attendant
      { m with ip := some (ip + 1), current := some addr, log := log } = m.attendant :=
    Machine.attendant_congr rfl rfl rfl rfl rfl
  rw [hstep, bind_apply, nextToken, bind_of_ok (get_apply _), onConsole, hattendant]
  cases htake : Reading.nextToken m.attendant m.console with
  | error stop c => exact .inl ⟨stop, c, _, rfl, rfl⟩
  | ok token c => exact .inr ⟨token, c, _, rfl, rfl, rfl⟩

/-- Past a request less is left of the input. -/
theorem Machine.Requests.left_lt (h : m.Requests depth) {k : Nat}
    (hsteps : takeSteps (invoke bound) depth (k + 1) m = .ok () m') :
    m'.console.source.left < m.console.source.left := by
  have hmore : takeSteps (invoke (bound + 1)) depth (k + 1) m = .ok () m' :=
    (takeSteps_approximates (invoke_approximates (Nat.le_succ bound)) depth (k + 1)).of_ok hsteps
  obtain ⟨-, m₂, hstep, hrest⟩ := takeSteps_succ_eq_ok hmore
  rcases h.step_cases bound with ⟨stop, c, m', -, hstops⟩ | ⟨token, c, m₁, htake, rfl, hinterprets⟩
  · rw [hstep] at hstops
    cases hstops
  · have hread := Reading.nextToken_flows m
    rw [htake] at hread
    obtain ⟨-, -, hless, -⟩ := hread
    have hfirst := interpretToken_flows bound token m₁
    rw [← hinterprets, hstep] at hfirst
    obtain ⟨ls, hfirst⟩ := hfirst
    have hlater := takeSteps_flows (bound + 1) depth k m₂
    rw [hrest] at hlater
    obtain ⟨ls', hlater⟩ := hlater
    exact ((hfirst.trans hlater).left_le).trans_lt hless

namespace Machine.CanRestart

/-- The start of `QUIT` is a request. -/
theorem enters (h : m.CanRestart) (bound : Nat) :
    ∃ m₁, invoke (bound + 1) Kernel.quitToken m = .ok () m₁ ∧ m₁.Requests m.returns.length ∧
      m₁.console = m.console ∧ m₁.attendant = m.inQuit.attendant := by
  have hstarts : m.Starts := ⟨h.quit.1, h.notesQuit⟩
  obtain ⟨log, hinvoke⟩ := hstarts.invoke bound
  have hcell : m.memory.get (.int (Kernel.quitHeader + 4)) =
      .ok (.token (Kernel.codeField (.input .interpret))) := h.quit.2.1
  exact ⟨_, hinvoke, ⟨Nat.lt_succ_self _, _, _, rfl, hcell, h.interpret, h.notesInterpret⟩, rfl,
    Machine.attendant_congr rfl rfl rfl rfl rfl⟩

/-- `QUIT` takes a token first of all and interprets it, if a token can be had. What becomes of it
flows from there. -/
theorem execute_cases (h : m.CanRestart) (bound : Nat) :
    (∃ stop c m', m.firstToken = .error stop c ∧
      execute (bound + 1) Kernel.quitToken m = .error stop m') ∨
    ∃ token c, m.firstToken = .ok token c ∧
      FlowsOut c (execute (bound + 1) Kernel.quitToken m) := by
  obtain ⟨m₁, hinvoke, hrequests, hconsole, hattendant⟩ := h.enters bound
  have hloop : execute (bound + 1) Kernel.quitToken m =
      ((stepWith (invoke (bound + 1)) >>= fun _ =>
        returnTo (invoke (bound + 1)) m.returns.length bound) >>= fun _ =>
          modify fun m' => { m' with ip := m.ip }) m₁ := by
    rw [execute, executeWith_apply, bind_apply, bind_of_ok hinvoke,
      returnTo_of_deeper hrequests.deep]
    rfl
  have hback : Flows (modify fun m' => { m' with ip := m.ip } : Action Unit) :=
    (Plain.core (local_setPointer m.ip)).flows
  rw [hloop, Machine.firstToken, ← hattendant, ← hconsole]
  rcases hrequests.step_cases bound with
    ⟨stop, c, m', htake, hstop⟩ | ⟨token, c, m₂, htake, rfl, hstep⟩
  · exact .inl ⟨stop, c, m', htake, bind_of_error (bind_of_error hstop)⟩
  · refine .inr ⟨token, _, htake, ?_⟩
    have hrest := ((interpretToken_flows bound token).bind fun _ =>
      returnTo_flows (bound + 1) m.returns.length bound).bind fun _ => hback
    have hflows := hrest m₂
    rw [bind_apply, bind_apply, ← hstep, ← bind_apply, ← bind_apply] at hflows
    exact hflows

/-! ## Coming to an end -/

/-- If all that is done about each token comes to an end, the loop does. The input that is left
becomes less with each token. -/
theorem loop_ends (hprocesses : m.Processes) (hcomes : m.ComesTo m₁)
    (hrequests : m₁.Requests m.returns.length) :
    ∃ bound n, HasEnded (returnTo (invoke bound) m.returns.length n m₁) := by
  induction hleft : m₁.console.source.left using Nat.strong_induction_on generalizing m₁ with
  | _ left ih =>
    obtain ⟨bound, k, hconcludes⟩ := hprocesses m₁ hcomes hrequests
    cases hsteps : takeSteps (invoke bound) m.returns.length (k + 1) m₁ with
    | error stop m₂ =>
      rw [hsteps] at hconcludes
      have hended : HasEnded (.error stop m₂ : EStateM.Result Stop Machine Unit) := hconcludes
      have hstop : stop ≠ .exhausted := by
        rintro rfl
        exact hended
      exact ⟨bound, k + 1, (returnTo_of_takeSteps hstop hsteps) ▸ hended⟩
    | ok _ m₂ =>
      rw [hsteps] at hconcludes
      rcases hconcludes with hback | hnext
      · refine ⟨bound, k + 1 + 1, ?_⟩
        rw [reaches_of_takeSteps hsteps 1, returnTo_of_not_deeper hback]
        trivial
      · -- the request after this one, from where there is less left
        obtain ⟨bound₀, k₀, m₀, hstart, hsteps₀⟩ := hcomes
        have hmax {b b' : Nat} (hb : b ≤ b') (d n : Nat) :=
          takeSteps_approximates (invoke_approximates hb) d n
        have hfirst : takeSteps (invoke (max bound₀ bound)) m.returns.length k₀ m₀ = .ok () m₁ :=
          (hmax (Nat.le_max_left _ _) _ _).of_ok hsteps₀
        have hsecond :
            takeSteps (invoke (max bound₀ bound)) m.returns.length (k + 1) m₁ = .ok () m₂ :=
          (hmax (Nat.le_max_right _ _) _ _).of_ok hsteps
        have hcomes₂ : m.ComesTo m₂ :=
          ⟨max bound₀ bound, k₀ + (k + 1), m₀,
            (invoke_approximates (Nat.le_max_left _ _) _).of_ok hstart,
            (takeSteps_append hfirst).trans hsecond⟩
        obtain ⟨bound₂, n, hended⟩ :=
          ih _ (hleft ▸ hrequests.left_lt hsteps) hcomes₂ hnext rfl
        refine ⟨max bound bound₂, k + 1 + n, ?_⟩
        have hreaches :=
          reaches_of_takeSteps ((hmax (Nat.le_max_left bound bound₂) _ _).of_ok hsteps)
        rw [hreaches n, hended.of_approximates (returnTo_approximates
          (invoke_approximates (Nat.le_max_right bound bound₂)) _ (Nat.le_refl n))]
        exact hended

/-- **A run of `QUIT` comes to an end** if all that is done about each token does. -/
theorem ends (h : m.CanRestart) (hprocesses : m.Processes) :
    ∃ bound, HasEnded (execute bound Kernel.quitToken m) := by
  obtain ⟨m₁, hinvoke, hrequests, -, -⟩ := h.enters 0
  obtain ⟨bound, n, hended⟩ := loop_ends hprocesses ⟨1, 0, m₁, hinvoke, rfl⟩ hrequests
  refine ⟨max (bound + 1) n, ?_⟩
  have hstart : invoke (max (bound + 1) n) Kernel.quitToken m = .ok () m₁ :=
    (invoke_approximates (by omega) _).of_ok hinvoke
  have hloop : returnTo (invoke (max (bound + 1) n)) m.returns.length (max (bound + 1) n) m₁ =
      returnTo (invoke bound) m.returns.length n m₁ :=
    hended.of_approximates (returnTo_approximates (invoke_approximates (by omega)) _ (by omega))
  rw [execute, executeWith_apply, bind_apply, bind_of_ok hstart, hloop]
  cases hresult : returnTo (invoke bound) m.returns.length n m₁ with
  | ok _ m₂ => trivial
  | error stop m₂ =>
    rw [hresult] at hended
    exact hended

end Machine.CanRestart

end ThreadedForth
