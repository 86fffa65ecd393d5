import ThreadedForth.Proofs.Machine.Bound
import ThreadedForth.Proofs.Machine.Dispatch

/-!
# Runs of the loop

What the loop of `Action.returnTo` comes to in so and so many steps: another machine from which it
goes on (`Reaches`), or a fault (`Fails`). Both are stated for every number of steps that are left,
so that they can be put together. A dispatch must be noted before the behaviour runs, and when
dispatches are logged that takes a label; `Traceable` says that there always is one.
-/

namespace ThreadedForth

/-- Where the thread is, and where it goes back to. -/
structure Place where
  ip : Option Int
  returns : List (Option Int)

namespace Action

variable {i : Cell → Action Unit} {m m' m₁ m₂ : Machine} {f : Fault} {depth k l n : Nat}

/-! ## Noting a dispatch -/

/-- If dispatches are logged, then every code field has a label. -/
def Traceable (m : Machine) : Prop :=
  m.tracing = true → ∀ code, ∃ name, m.memory.label code = .ok name

/-- To note a dispatch changes the log, and nothing else but what is noted. -/
theorem arrive_of_traceable (ht : Traceable m) (addr : Int) :
    ∃ log, arrive addr m = .ok () { m with current := some addr, log := log } :=
  arrive_of_canNote fun htracing => ht htracing addr

/-- To enter a word whose code field is known is to run its behaviour. What is logged does not
depend on the bound. -/
theorem invoke_at_any_bound (ht : Traceable m) {addr : Int} {w : Native}
    (hw : m.memory.get (.int addr) = .ok (.native w)) :
    ∃ log, ∀ bound, invoke (bound + 1) (.token addr) m =
      w.perform addr (invoke bound) (execute bound) bound
        { m with current := some addr, log := log } := by
  obtain ⟨log, harrive⟩ := arrive_of_traceable ht addr
  refine ⟨log, fun bound => ?_⟩
  rw [invoke, enterWith_of_native hw, bind_of_ok harrive]
  rfl

theorem invoke_of_native (bound : Nat) (ht : Traceable m) {addr : Int} {w : Native}
    (hw : m.memory.get (.int addr) = .ok (.native w)) :
    ∃ log, invoke (bound + 1) (.token addr) m =
      w.perform addr (invoke bound) (execute bound) bound
        { m with current := some addr, log := log } := by
  obtain ⟨log, hinvoke⟩ := invoke_at_any_bound ht hw
  exact ⟨log, hinvoke bound⟩

/-- To take a step at a cell whose code field is known is to run its behaviour. -/
theorem stepWith_at_any_bound (ht : Traceable m) {ip addr : Int} {w : Native}
    (hip : m.ip = some ip) (hx : m.memory.get (.int ip) = .ok (.token addr))
    (hw : m.memory.get (.int addr) = .ok (.native w)) :
    ∃ log, ∀ bound, stepWith (invoke (bound + 1)) m =
      w.perform addr (invoke bound) (execute bound) bound
        { m with ip := some (ip + 1), current := some addr, log := log } := by
  obtain ⟨log, hinvoke⟩ := invoke_at_any_bound (m := { m with ip := some (ip + 1) }) ht hw
  exact ⟨log, fun bound => (stepWith_of_ip hip hx).trans (hinvoke bound)⟩

theorem stepWith_of_native (bound : Nat) (ht : Traceable m) {ip addr : Int} {w : Native}
    (hip : m.ip = some ip) (hx : m.memory.get (.int ip) = .ok (.token addr))
    (hw : m.memory.get (.int addr) = .ok (.native w)) :
    ∃ log, stepWith (invoke (bound + 1)) m =
      w.perform addr (invoke bound) (execute bound) bound
        { m with ip := some (ip + 1), current := some addr, log := log } := by
  obtain ⟨log, hstep⟩ := stepWith_at_any_bound ht hip hx hw
  exact ⟨log, hstep bound⟩

/-! ## Steering the thread -/

section Steering

variable {e : Cell → Action Unit} {addr code distance : Int} {x : Cell} {back : Option Int}
  {rest : List (Option Int)} {bound : Nat}

theorem lit_apply (hip : m.ip = some addr) (hx : m.memory.get (.int addr) = .ok x) :
    (Native.primitive (.thread .lit)).perform code i e bound m =
      .ok () { m with data := x :: m.data, ip := some (addr + 1) } := by
  simp [Native.perform, Primitive.perform, ThreadWord.perform, threadCell, advance, push,
    bind_apply, hip, pointerCell, ask_apply, hx]

theorem jump_apply (op : String) (hip : m.ip = some addr)
    (hx : m.memory.get (.int addr) = .ok (.int distance)) :
    jump op m = .ok () { m with ip := some (addr + distance) } := by
  simp [jump, threadCell, advance, bind_apply, hip, pointerCell, ask_apply, hx, Cell.expectInt,
    Cell.int?]

theorem exit_apply (hr : m.returns = back :: rest) :
    (Native.primitive (.thread .exit)).perform code i e bound m =
      .ok () { m with ip := back, returns := rest } := by
  simp [Native.perform, Primitive.perform, ThreadWord.perform, bind_apply, hr]

end Steering

/-! ## Going on and failing -/

/-- After `k` steps the loop is at another machine. -/
def Reaches (i : Cell → Action Unit) (depth k : Nat) (m m' : Machine) : Prop :=
  ∀ n, returnTo i depth (k + n) m = returnTo i depth n m'

/-- Within `k` steps the loop fails. -/
def Fails (i : Cell → Action Unit) (depth k : Nat) (m : Machine) (f : Fault) (m' : Machine) :
    Prop :=
  ∀ n, returnTo i depth (k + n) m = .error (.fault f) m'

theorem Reaches.refl (m : Machine) : Reaches i depth 0 m m := by
  intro n
  rw [Nat.zero_add]

theorem Reaches.trans (h₁ : Reaches i depth k m m₁) (h₂ : Reaches i depth l m₁ m₂) :
    Reaches i depth (k + l) m m₂ := by
  intro n
  rw [Nat.add_assoc, h₁, h₂]

theorem Reaches.fails (h₁ : Reaches i depth k m m₁) (h₂ : Fails i depth l m₁ f m₂) :
    Fails i depth (k + l) m f m₂ := by
  intro n
  rw [Nat.add_assoc, h₁, h₂]

theorem Reaches.of_step (hd : depth < m.returns.length) (h : stepWith i m = .ok () m') :
    Reaches i depth 1 m m' := by
  intro n
  rw [Nat.add_comm, returnTo_of_deeper hd, bind_of_ok h]

theorem Fails.of_step (hd : depth < m.returns.length)
    (h : stepWith i m = .error (.fault f) m') : Fails i depth 1 m f m' := by
  intro n
  rw [Nat.add_comm, returnTo_of_deeper hd, bind_of_error h]

/-! ## Coming to an end -/

/-- The loop comes to its end, well or not, before its steps are used up. -/
def Ends (i : Cell → Action Unit) (depth n : Nat) (m : Machine) : Prop :=
  ∀ m', returnTo i depth n m ≠ .error .exhausted m'

/-- A loop that ends does so too when more steps are allowed. -/
theorem Ends.mono (h : Ends i depth n m) (hn : n ≤ l) : Ends i depth l m := by
  rcases returnTo_approximates (fun x => approximates_refl (i x)) depth hn m with heq | ⟨m', hstop⟩
  · intro m'
    rw [← heq]
    exact h m'
  · exact absurd hstop (h m')

/-- What a loop that ends comes to on its way ends in the steps that are left. -/
theorem Ends.after (h : Ends i depth n m) (hr : Reaches i depth k m m') :
    k ≤ n ∧ Ends i depth (n - k) m' := by
  have hle : k ≤ n := by
    rcases Nat.lt_or_ge n k with hlt | hge
    · exact absurd (hr 0) (h.mono (show n ≤ k + 0 by omega) m')
    · exact hge
  refine ⟨hle, fun m₁ => ?_⟩
  rw [← hr, Nat.add_sub_cancel' hle]
  exact h m₁

end Action

end ThreadedForth
