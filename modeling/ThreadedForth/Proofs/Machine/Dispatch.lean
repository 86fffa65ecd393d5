import ThreadedForth.Machine.Dispatch
import ThreadedForth.Proofs.Machine.Action

/-!
# How a dispatch comes apart

The equations of `Machine.Dispatch` on a known machine: what a step does that finds its cell, how
the loop goes on or ends, what a dispatch comes to once the code field is known, and what a word
does that is run to its end.
-/

namespace ThreadedForth

/-- A dispatch of this code field can be logged if it is to be. -/
def Machine.CanNote (m : Machine) (addr : Int) : Prop :=
  m.tracing = true → ∃ name, m.memory.label addr = .ok name

namespace Action

variable {i : Cell → Action Unit} {m m' : Machine} {x : Cell} {bound depth : Nat}

/-! ## Steps -/

/-- A step enters the cell of the thread, with the thread moved on. -/
theorem stepWith_of_ip {ip : Int} (hip : m.ip = some ip) (hx : m.memory.get (.int ip) = .ok x) :
    stepWith i m = i x { m with ip := some (ip + 1) } := by
  simp [stepWith, bind_apply, hip, ask_apply, hx]

/-- The loop has come back. -/
theorem returnTo_of_not_deeper (hd : m.returns.length ≤ depth) :
    returnTo i depth (bound + 1) m = .ok () m := by
  have hnot : Stack.deeperThan depth m.returns = false := by
    rw [← Bool.not_eq_true, Stack.deeperThan_eq_true_iff]
    omega
  simp [returnTo, bind_apply, hnot]

/-- The loop takes one more step. -/
theorem returnTo_of_deeper (hd : depth < m.returns.length) :
    returnTo i depth (bound + 1) m = (stepWith i >>= fun _ => returnTo i depth bound) m := by
  have hyes : Stack.deeperThan depth m.returns = true := Stack.deeperThan_eq_true_iff.mpr hd
  simp [returnTo, bind_apply, hyes]

/-! ## Dispatches -/

/-- A dispatch runs the behaviour in the code field, once it has been noted. -/
theorem enterWith_of_native {addr : Int} {n : Native}
    (hn : m.memory.get (.int addr) = .ok (.native n)) :
    enterWith i bound (.token addr) m
      = (arrive addr >>= fun _ => n.perform addr i (executeWith i bound) bound) m := by
  have hask : ask (fun memory => memory.get (.int addr)) m = .ok (.native n) m := by
    rw [ask_apply, hn]
    rfl
  rw [enterWith, bind_of_ok hask]

/-- Only an execution token that leads to a code field can be entered. -/
theorem enterWith_eq_ok (h : enterWith i bound x m = .ok () m') :
    ∃ addr n m₁, x = .token addr ∧ m.memory.get (.int addr) = .ok (.native n) ∧
      arrive addr m = .ok () m₁ ∧
      n.perform addr i (executeWith i bound) bound m₁ = .ok () m' := by
  cases x with
  | token addr =>
    cases hcell : m.memory.get (.int addr) with
    | error f => simp [enterWith, bind_apply, ask_apply, hcell] at h
    | ok cell =>
      cases cell with
      | native n =>
        rw [enterWith_of_native hcell] at h
        obtain ⟨_, m₁, harrive, h⟩ := bind_eq_ok.mp h
        exact ⟨addr, n, m₁, rfl, hcell, harrive, h⟩
      | _ => simp [enterWith, bind_apply, ask_apply, hcell] at h
  | _ => simp [enterWith, bind_apply] at h

/-- A dispatch is noted, unless it is to be logged and there is no label. -/
theorem arrive_cases (addr : Int) (m : Machine) :
    ((m.tracing = true → ∃ name, m.memory.label addr = .ok name) ∧ ∃ log,
      arrive addr m = .ok () { m with current := some addr, log := log }) ∨
    ∃ stop, m.tracing = true ∧ m.memory.label addr = .error stop ∧ arrive addr m = .error stop m := by
  cases htracing : m.tracing with
  | false =>
    refine .inl ⟨(fun h => by cases h), m.log, ?_⟩
    simp [arrive, trace, bind_apply, htracing]
  | true =>
    cases hlabel : m.memory.label addr with
    | ok name =>
      refine .inl ⟨fun _ => ⟨name, rfl⟩, ?_⟩
      simp only [arrive, trace, bind_apply, get_apply, htracing, hlabel, if_true, liftM_ok, record,
        modify_apply]
      exact ⟨_, rfl⟩
    | error stop =>
      refine .inr ⟨stop, rfl, rfl, ?_⟩
      simp only [arrive, trace, bind_apply, get_apply, htracing, hlabel, if_true, liftM_error]

/-- Where no dispatch is logged, every one could be. -/
theorem canNote_of_silent (h : m.tracing = false) (addr : Int) : m.CanNote addr := by
  intro htracing
  rw [h] at htracing
  cases htracing

/-- A dispatch that can be logged changes the log, and nothing else but what is noted. -/
theorem arrive_of_canNote {addr : Int} (h : m.CanNote addr) :
    ∃ log, arrive addr m = .ok () { m with current := some addr, log := log } := by
  rcases arrive_cases addr m with ⟨-, hlog⟩ | ⟨stop, htracing, hlabel, -⟩
  · exact hlog
  · obtain ⟨name, hname⟩ := h htracing
    rw [hlabel] at hname
    cases hname

/-! ## Whole words -/

theorem executeWith_apply :
    executeWith i bound x m = ((i x >>= fun _ => returnTo i m.returns.length bound) >>= fun _ =>
      modify fun m' => { m' with ip := m.ip }) m := by
  simp only [executeWith, bind_apply, get_apply]
  cases i x m <;> rfl

/-- A word is run to its end by its dispatch and the loop after it. -/
theorem executeWith_eq_ok :
    executeWith i bound x m = .ok () m' ↔ ∃ m₁ m₂, i x m = .ok () m₁ ∧
      returnTo i m.returns.length bound m₁ = .ok () m₂ ∧ m' = { m₂ with ip := m.ip } := by
  rw [executeWith_apply, bind_eq_ok]
  constructor
  · rintro ⟨_, m₂, h, hend⟩
    obtain ⟨_, m₁, hx, hloop⟩ := bind_eq_ok.mp h
    cases hend
    exact ⟨m₁, m₂, hx, hloop, rfl⟩
  · rintro ⟨m₁, m₂, hx, hloop, rfl⟩
    exact ⟨(), m₂, bind_eq_ok.mpr ⟨(), m₁, hx, hloop⟩, rfl⟩

end Action

end ThreadedForth
