import ThreadedForth.Proofs.Machine.Run
import ThreadedForth.Proofs.Memory.Code
import ThreadedForth.Proofs.Structured.Meaning

/-!
# Steps of threaded code

How the progress of a body shows in the machine that runs its code: `Shows` for the data stack and
what was printed, `Stands` for the place of the thread as well. Each word that structured code is
made of takes a machine from one place to another, with the progress that the meaning of a body
tells (`Yields`, and `Lands` for any number of steps of the loop).
-/

namespace ThreadedForth

open ThreadedForth.Action

/-- The console with texts printed, last first. -/
def Console.printing (c : Console) (texts : List String) : Console :=
  { c with transcript := ⟨texts.map (Voice.program, ·) ++ c.transcript.pieces⟩ }

/-- A memory holds the words of a program: each has its code field, and after it, if it is threaded
code, the code of its body and `EXIT`. -/
structure Program.HeldBy (p : Program) (m : Memory) : Prop where
  steering : ∀ w, w ≠ .execute → m.Intact (.thread w)
  primitives : ∀ addr c, p addr = some (.primitive c) →
    m.get (.int addr) = .ok (.native (.primitive (.calculation c)))
  threads : ∀ addr b, p addr = some (.thread b) →
    m.get (.int addr) = .ok (.native .enter) ∧
      m.HasCode (addr + 1) (b.code addr ++ [Kernel.exitToken])
  closed : ∀ addr b, p addr = some (.thread b) → b.ClosedIn p

/-! ## Machines that show some progress -/

/-- A machine has made some progress since it was `base`. -/
structure Shows (base : Machine) (s : Progress) (m : Machine) : Prop where
  data : m.data = s.data
  console : m.console = base.console.printing s.printed
  memory : m.memory = base.memory
  tracing : m.tracing = base.tracing
  mode : m.mode = base.mode

/-- A machine has made some progress, and the thread is at a place. -/
structure Stands (base : Machine) (s : Progress) (here : Place) (m : Machine) : Prop
    extends Shows base s m where
  ip : m.ip = here.ip
  returns : m.returns = here.returns

/-- An action takes a machine to some progress at a place, or fails as the progress says. -/
inductive Yields (act : Action Unit) (base : Machine) (here : Place) (s : Progress) (m : Machine) :
    Prop
  | running {m' : Machine} (hs : s.status = .running) (h : act m = .ok () m')
      (hm : Stands base s here m')
  | failed {f : Fault} {m' : Machine} (hs : s.status = .failed f)
      (h : act m = .error (.fault f) m') (hm : Shows base s m')

/-- The loop takes a machine to some progress: to one place if the body goes on, to another one if
the word is left, or it fails as the progress says. -/
inductive Lands (i : Cell → Action Unit) (depth : Nat) (base : Machine) (onward out : Place)
    (s : Progress) (m : Machine) : Prop
  | running {k : Nat} {m' : Machine} (hs : s.status = .running) (hr : Reaches i depth k m m')
      (hm : Stands base s onward m')
  | left {k : Nat} {m' : Machine} (hs : s.status = .left) (hr : Reaches i depth k m m')
      (hm : Stands base s out m')
  | failed {k : Nat} {f : Fault} {m' : Machine} (hs : s.status = .failed f)
      (hf : Fails i depth k m f m') (hm : Shows base s m')

/-- What an action yields depends on its outcome alone. -/
theorem Yields.congr {act act' : Action Unit} {base m m' : Machine} {here : Place} {s : Progress}
    (h : Yields act base here s m) (heq : act' m' = act m) : Yields act' base here s m' := by
  cases h with
  | running hs h hm => exact .running hs (heq.trans h) hm
  | failed hs h hm => exact .failed hs (heq.trans h) hm

section Landing

variable {i : Cell → Action Unit} {depth k : Nat} {base m m₁ : Machine}
  {onward next out here : Place} {s t : Progress}

theorem Lands.of_reaches (hr : Reaches i depth k m m₁) (h : Lands i depth base onward out s m₁) :
    Lands i depth base onward out s m := by
  cases h with
  | running hs hr' hm => exact .running hs (hr.trans hr') hm
  | left hs hr' hm => exact .left hs (hr.trans hr') hm
  | failed hs hf hm => exact .failed hs (hr.fails hf) hm

/-- A step lands where it takes the machine. -/
theorem Lands.of_step (hd : depth < m.returns.length) (h : Yields (stepWith i) base onward s m) :
    Lands i depth base onward out s m := by
  cases h with
  | running hs h hm => exact .running hs (.of_step hd h) hm
  | failed hs h hm => exact .failed hs (.of_step hd h) hm

/-- What has landed goes on, if it is not stopped. -/
theorem Lands.andThen (h : Lands i depth base onward out s m)
    (hrun : s.status = .running → ∀ m₁, Stands base s onward m₁ → Lands i depth base next out t m₁)
    (hstop : s.status ≠ .running → t = s) : Lands i depth base next out t m := by
  cases h with
  | running hs hr hm => exact (hrun hs _ hm).of_reaches hr
  | left hs hr hm =>
    obtain rfl := hstop (by simp [hs])
    exact .left hs hr hm
  | failed hs hf hm =>
    obtain rfl := hstop (by simp [hs])
    exact .failed hs hf hm

end Landing

/-! ## Steps -/

section Steps

variable {i e : Cell → Action Unit} {bound depth : Nat} {base m : Machine} {s t : Progress}
  {here : Place} {addr code distance : Int} {returns rest : List (Option Int)} {back : Option Int}

theorem Shows.traceable (hm : Shows base s m) (ht : Traceable base) : Traceable m := by
  rw [Traceable, hm.tracing, hm.memory]
  exact ht

/-- A step does what the behaviour does that the thread comes to. -/
theorem Stands.step_yields (ht : Traceable base) {w : Native}
    (hm : Stands base s ⟨some addr, returns⟩ m)
    (hx : base.memory.get (.int addr) = .ok (.token code))
    (hw : base.memory.get (.int code) = .ok (.native w))
    (h : ∀ m₁, Stands base s ⟨some (addr + 1), returns⟩ m₁ →
      Yields (w.perform code (invoke bound) (execute bound) bound) base here t m₁) :
    Yields (stepWith (invoke (bound + 1))) base here t m := by
  rw [← hm.memory] at hx hw
  obtain ⟨log, hstep⟩ := stepWith_of_native bound (hm.toShows.traceable ht) hm.ip hx hw
  have hthere : Stands base s ⟨some (addr + 1), returns⟩
      { m with ip := some (addr + 1), current := some code, log := log } :=
    ⟨⟨hm.data, hm.console, hm.memory, hm.tracing, hm.mode⟩, rfl, hm.returns⟩
  exact (h _ hthere).congr hstep

theorem Stands.lit_yields {x : Cell} (hs : s.status = .running)
    (hm : Stands base s ⟨some addr, returns⟩ m) (hx : base.memory.get (.int addr) = .ok x) :
    Yields ((Native.primitive (.thread .lit)).perform code i e bound) base
      ⟨some (addr + 1), returns⟩ { s with data := x :: s.data } m := by
  rw [← hm.memory] at hx
  exact .running hs (lit_apply hm.ip hx)
    ⟨⟨by rw [hm.data], hm.console, hm.memory, hm.tracing, hm.mode⟩, rfl, hm.returns⟩

theorem Stands.exit_yields (hs : s.status = .running)
    (hm : Stands base s ⟨some addr, back :: rest⟩ m) :
    Yields ((Native.primitive (.thread .exit)).perform code i e bound) base ⟨back, rest⟩ s m := by
  exact .running hs (exit_apply hm.returns)
    ⟨⟨hm.data, hm.console, hm.memory, hm.tracing, hm.mode⟩, rfl, rfl⟩

theorem Stands.branch_yields (hs : s.status = .running)
    (hm : Stands base s ⟨some addr, returns⟩ m)
    (hx : base.memory.get (.int addr) = .ok (.int distance)) :
    Yields ((Native.primitive (.thread .branch)).perform code i e bound) base
      ⟨some (addr + distance), returns⟩ s m := by
  rw [← hm.memory] at hx
  exact .running hs (jump_apply _ hm.ip hx)
    ⟨⟨hm.data, hm.console, hm.memory, hm.tracing, hm.mode⟩, rfl, hm.returns⟩

theorem popTruth_of_nil (op : String) (h : m.data = []) :
    popTruth op m = .error (.fault (.underflow "data")) { m with data := [] } := by
  rw [popTruth, onData, h]
  rfl

theorem popTruth_of_cons (op : String) {x : Cell} {data : List Cell} (h : m.data = x :: data) :
    popTruth op m = match x.expectTruth op with
      | .ok truth => .ok truth { m with data := data }
      | .error f => .error (.fault f) { m with data := data } := by
  rw [popTruth, onData, h]
  simp only [DataAction.popTruth, DataAction.pop, bind, EStateM.bind, Stack.pop_cons]
  cases x.expectTruth op <;> rfl

theorem Stands.branchFalse_yields {truth : Bool} (hs : s.status = .running)
    (hm : Stands base s ⟨some addr, returns⟩ m)
    (hx : base.memory.get (.int addr) = .ok (.int distance)) (htest : s.test = (truth, t)) :
    Yields ((Native.primitive (.thread .branchFalse)).perform code i e bound) base
      ⟨some (if truth then addr + 1 else addr + distance), returns⟩ t m := by
  rw [Native.perform, Primitive.perform, ThreadWord.perform]
  cases hdata : s.data with
  | nil =>
    rw [Progress.test_of_nil hs hdata] at htest
    cases htest
    have hpop := popTruth_of_nil ThreadWord.branchFalse.name (hm.data.trans hdata)
    exact .failed rfl (bind_of_error hpop) ⟨hdata.symm, hm.console, hm.memory, hm.tracing, hm.mode⟩
  | cons x data =>
    have hpop := popTruth_of_cons ThreadWord.branchFalse.name (hm.data.trans hdata)
    cases hx' : x.expectTruth ThreadWord.branchFalse.name with
    | error f =>
      rw [Progress.test_of_error hs hdata hx'] at htest
      rw [hx'] at hpop
      cases htest
      exact .failed rfl (bind_of_error hpop) ⟨rfl, hm.console, hm.memory, hm.tracing, hm.mode⟩
    | ok b =>
      rw [Progress.test_of_ok hs hdata hx'] at htest
      rw [hx'] at hpop
      cases htest
      have hm₁ : Stands base { s with data := data } ⟨some addr, returns⟩ { m with data := data } :=
        ⟨⟨rfl, hm.console, hm.memory, hm.tracing, hm.mode⟩, hm.ip, hm.returns⟩
      cases truth with
      | true =>
        have hadvance : advance 1 { m with data := data } =
            .ok () { m with data := data, ip := some (addr + 1) } := by
          simp [advance, bind_apply, hm.ip]
        exact .running hs ((bind_of_ok hpop).trans hadvance)
          ⟨⟨rfl, hm.console, hm.memory, hm.tracing, hm.mode⟩, rfl, hm.returns⟩
      | false =>
        rw [← hm₁.memory] at hx
        exact .running hs ((bind_of_ok hpop).trans (jump_apply _ hm₁.ip hx))
          ⟨⟨rfl, hm.console, hm.memory, hm.tracing, hm.mode⟩, rfl, hm.returns⟩

theorem Stands.enter_yields (hs : s.status = .running) (hm : Stands base s here m) :
    Yields (Native.enter.perform code i e bound) base
      ⟨some (code + 1), here.ip :: here.returns⟩ s m := by
  have hreturns : m.ip :: m.returns = here.ip :: here.returns := by rw [hm.ip, hm.returns]
  exact .running hs rfl ⟨⟨hm.data, hm.console, hm.memory, hm.tracing, hm.mode⟩, rfl, hreturns⟩

theorem Stands.calculation_yields {c : Calculation} (hm : Stands base s here m) :
    Yields ((Native.primitive (.calculation c)).perform code i e bound) base here
      (s.calculate c) m := by
  rw [Native.perform, Primitive.perform]
  cases hrun : c.run s.data with
  | error f data =>
    have hdata : onData c.run m = .error (.fault f) { m with data := data } := by
      rw [onData, hm.data, hrun]
    rw [Progress.calculate_of_error hrun]
    exact .failed rfl (bind_of_error hdata) ⟨rfl, hm.console, hm.memory, hm.tracing, hm.mode⟩
  | ok text data =>
    have hdata : onData c.run m = .ok text { m with data := data } := by
      rw [onData, hm.data, hrun]
    rw [Progress.calculate_of_ok hrun]
    by_cases htext : text = ""
    · rw [if_pos htext]
      have hrest : (if text ≠ "" then emit text else pure ()) { m with data := data } =
          .ok () { m with data := data } := by
        rw [if_neg (by simpa using htext)]
        rfl
      exact .running rfl ((bind_of_ok hdata).trans hrest)
        ⟨⟨rfl, hm.console, hm.memory, hm.tracing, hm.mode⟩, hm.ip, hm.returns⟩
    · rw [if_neg htext]
      have hrest : (if text ≠ "" then emit text else pure ()) { m with data := data } =
          .ok () { m with data := data, console := base.console.printing (text :: s.printed) } := by
        rw [if_pos htext, emit, write, modify_apply, hm.console]
        rfl
      exact .running rfl ((bind_of_ok hdata).trans hrest)
        ⟨⟨rfl, rfl, hm.memory, hm.tracing, hm.mode⟩, hm.ip, hm.returns⟩

end Steps

end ThreadedForth
