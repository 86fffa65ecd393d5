import ThreadedForth.Proofs.Host.Answer
import ThreadedForth.Proofs.Compiler.Pass
import ThreadedForth.Proofs.Machine.Stretch
import ThreadedForth.Proofs.Source.Delivery

/-!
# Where the loop of `QUIT` waits

Between two tokens of its own the loop of `QUIT` is always in the same place: its entry alone is on
the return stack, and the next cell of the thread takes a token (`Machine.Awaits`). The step from
there takes a token from the lines that are to come and interprets it (`Machine.Awaits.step`). If
there is none, it stops at the end of the input and leaves everything that words work on as it is
(`Machine.Awaits.stops`). So a run that comes to where it waits for nothing has all the effects of
its tokens and no other (`execute_of_awaits`).
-/

namespace ThreadedForth

open ThreadedForth.Action

/-- The next token is about to be taken in the thread of `QUIT` itself, by a dispatch that can be
logged if it is to be, and once lines without a token are passed over these lines are to come. -/
structure Machine.Awaits (m : Machine) (ls : List String) : Prop where
  entry : m.returns.length = 1
  interprets : ∃ ip addr, m.ip = some ip ∧ m.memory.get (.int ip) = .ok (.token addr) ∧
    m.memory.get (.int addr) = .ok (.native (.primitive (.input .interpret))) ∧ m.CanNote addr
  alone : m.console.source.reader = none
  rest : ∀ x ∈ m.console.source.rest, Source.isDelimiter x = true
  upcoming : ∃ blanks, m.console.source.pending = blanks ++ ls ∧ ∀ l ∈ blanks, Reading.IsBlank l

/-- `QUIT` can be started. -/
structure Machine.Starts (m : Machine) : Prop where
  enters : m.memory.get (.int (Kernel.quitHeader + 3)) = .ok (.native .enter)
  noted : m.CanNote (Kernel.quitHeader + 3)

/-- Two machines that agree in what words work on, but for the input, the output and the thread. -/
structure Machine.Resembles (m m' : Machine) : Prop where
  data : m'.data = m.data
  memory : m'.memory = m.memory
  mode : m'.mode = m.mode
  tracing : m'.tracing = m.tracing
  remarks : m'.remarks = m.remarks

theorem Machine.Resembles.trans {m m₁ m' : Machine} (h : m.Resembles m₁) (h' : m₁.Resembles m') :
    m.Resembles m' :=
  ⟨h'.data.trans h.data, h'.memory.trans h.memory, h'.mode.trans h.mode,
    h'.tracing.trans h.tracing, h'.remarks.trans h.remarks⟩

/-- How a console has passed over lines without a token. -/
structure Source.Passes (s s' : Source) (ls : List String) : Prop where
  rest : s'.rest = []
  pending : s'.pending = ls
  alone : s'.reader = none
  lineCount : s'.lineCount + ls.length = s.lineCount + s.pending.length

section Waiting

variable {m : Machine} {ls : List String}

theorem Machine.Awaits.deep (h : m.Awaits ls) : 0 < m.returns.length := by
  rw [h.entry]
  exact Nat.one_pos

/-- A token is the same from every console from which the same is taken. -/
theorem nextToken_congr {c : Console}
    (h : ∀ host, Reading.nextToken host m.console = Reading.nextToken host c) :
    nextToken m = nextToken { m with console := c } := by
  have hattendant : Machine.attendant { m with console := c } = m.attendant :=
    Machine.attendant_congr rfl rfl rfl rfl rfl
  simp only [nextToken, bind_apply, get_apply, onConsole, hattendant, h]

/-- The step takes a token from the lines that are to come and interprets it. -/
theorem Machine.Awaits.step (h : m.Awaits ls) (bound : Nat) (watch : Watch)
    (hwatch : ∀ x m', m'.behaviour x = some (.primitive (.input .interpret)) → watch x m' = true) :
    ∃ s ip addr log, m.ip = some ip ∧ m.console.source.Passes s ls ∧
      stepWith (invokeWatched watch (bound + 1)) m =
        (nextToken >>= interpretToken (executeWith (invokeWatched watch bound) bound))
          { m with
            ip := some (ip + 1), current := some addr, log := log,
            console := { m.console with source := s } } := by
  obtain ⟨ip, addr, hip, hcell, hnative, hnote⟩ := h.interprets
  obtain ⟨blanks, hpending, hblanks⟩ := h.upcoming
  obtain ⟨s, hrest, hs, hreader, hcount, hnext⟩ := Reading.nextToken_pass h.rest hblanks hpending
  let moved : Machine := { m with ip := some (ip + 1) }
  have hmoved : moved.memory.get (.int addr) =
    .ok (.native (.primitive (.input .interpret))) := hnative
  have hbehaviour : moved.behaviour (.token addr) = some (.primitive (.input .interpret)) := by
    rw [Machine.behaviour, hmoved]
  obtain ⟨log, harrive⟩ := arrive_of_canNote (m := moved) hnote
  have htake : nextToken { moved with current := some addr, log := log } =
      nextToken { moved with
        current := some addr, log := log, console := { m.console with source := s } } :=
    nextToken_congr hnext
  have hinvoke : invokeWatched watch (bound + 1) (.token addr) moved =
      (nextToken >>= interpretToken (executeWith (invokeWatched watch bound) bound))
        { moved with
          current := some addr, log := log, console := { m.console with source := s } } := by
    rw [invokeWatched_succ, if_pos (hwatch _ moved hbehaviour), enterWith_of_native hmoved,
      bind_of_ok harrive, bind_apply, ← htake]
    rfl
  refine ⟨s, ip, addr, log, hip, ⟨hrest, hs, hreader.trans h.alone, ?_⟩,
    (stepWith_of_ip hip hcell).trans hinvoke⟩
  rw [hcount, hpending, List.length_append]
  omega

/-- The step stops at the end of the input where no lines are to come. -/
theorem Machine.Awaits.stops (h : m.Awaits []) (bound : Nat) :
    ∃ m', stepWith (invoke (bound + 1)) m = .error .endOfInput m' ∧ m.Resembles m' ∧
      m'.console.transcript = m.console.transcript ∧
      m.console.source.Passes m'.console.source [] := by
  obtain ⟨s, ip, addr, log, -, hpasses, hstep⟩ := h.step bound (fun _ _ => true) fun _ _ _ => rfl
  rw [invokeWatched_true] at hstep
  have hend := nextToken_at_end (m := { m with
      ip := some (ip + 1), current := some addr, log := log,
      console := { m.console with source := s } })
    (fun x hx => absurd (hpasses.rest ▸ hx) List.not_mem_nil) hpasses.pending hpasses.alone
  refine ⟨_, hstep.trans (bind_of_error hend), ⟨rfl, rfl, rfl, rfl, rfl⟩, rfl, ?_⟩
  exact ⟨rfl, hpasses.pending, hpasses.alone, hpasses.lineCount⟩

/-- The start of `QUIT` leaves an entry on the return stack. -/
theorem Machine.Starts.invoke (h : m.Starts) (bound : Nat) :
    ∃ log, Action.invoke (bound + 1) Kernel.quitToken m = .ok () { m with
      current := some (Kernel.quitHeader + 3), log := log, returns := m.ip :: m.returns,
      ip := some (Kernel.quitHeader + 4) } := by
  obtain ⟨log, harrive⟩ := arrive_of_canNote h.noted
  have haddr : Kernel.quitHeader + 4 = Kernel.quitHeader + 3 + 1 := by omega
  refine ⟨log, ?_⟩
  rw [Kernel.quitToken, Action.invoke, enterWith_of_native h.enters, bind_of_ok harrive, haddr]
  rfl

/-- `QUIT` runs to the end of the input, if it comes to where it waits and nothing is to come. -/
theorem execute_of_awaits {bound k : Nat} {m₁ m₂ : Machine} (hreturns : m.returns = [])
    (hstart : invoke (bound + 1) Kernel.quitToken m = .ok () m₁)
    (hreaches : Reaches (invoke (bound + 1)) 0 k m₁ m₂) (hk : k ≤ bound) (hawaits : m₂.Awaits []) :
    ∃ m', execute (bound + 1) Kernel.quitToken m = .error .endOfInput m' ∧ m₂.Resembles m' ∧
      m'.console.transcript = m₂.console.transcript ∧
      m₂.console.source.Passes m'.console.source [] := by
  obtain ⟨m', hstep, hrest⟩ := hawaits.stops bound
  refine ⟨m', ?_, hrest⟩
  obtain ⟨j, hj⟩ : ∃ j, bound + 1 = k + (j + 1) := ⟨bound - k, by omega⟩
  have hloop : returnTo (invoke (bound + 1)) 0 (k + (j + 1)) m₁ = .error .endOfInput m' :=
    (hreaches (j + 1)).trans ((returnTo_of_deeper hawaits.deep).trans (bind_of_error hstep))
  rw [← hj] at hloop
  rw [execute, executeWith_apply, hreturns]
  exact bind_of_error ((bind_of_ok hstart).trans hloop)

end Waiting

/-! ## Tests -/

/-- A test for a machine that waits at the start of the thread of `QUIT` for these lines and logs no
dispatch. -/
def Machine.waitsFor (m : Machine) (ls : List String) : Bool :=
  m.returns.length = 1 && m.ip = some (Kernel.quitHeader + 4) && ! m.tracing
    && m.behaviourAt (Kernel.quitHeader + 4) = some (.primitive (.input .interpret))
    && m.console.source.reader.isNone && m.console.source.rest.all Source.isDelimiter
    && m.console.source.pending = ls

theorem awaits_of_waitsFor {m : Machine} {ls : List String} (h : m.waitsFor ls = true) :
    m.Awaits ls ∧ m.ip = some (Kernel.quitHeader + 4) ∧ m.tracing = false := by
  simp only [Machine.waitsFor, Bool.and_eq_true, decide_eq_true_eq, Bool.not_eq_true',
    Option.isNone_iff_eq_none, List.all_eq_true] at h
  obtain ⟨⟨⟨⟨⟨⟨hentry, hip⟩, htracing⟩, hinterprets⟩, hreader⟩, hrest⟩, hpending⟩ := h
  obtain ⟨addr, hcell, hnative⟩ := Machine.behaviourAt_eq_some hinterprets
  exact ⟨⟨hentry, ⟨_, addr, hip, hcell, hnative, canNote_of_silent htracing addr⟩, hreader, hrest,
    [], hpending, List.forall_mem_nil _⟩, hip, htracing⟩

theorem starts_of_silent {m : Machine} (hsilent : m.tracing = false)
    (henters : m.behaviour Kernel.quitToken = some .enter) : m.Starts := by
  obtain ⟨code, hcode, hcodeField⟩ := Machine.behaviour_eq_some henters
  cases hcode
  exact ⟨hcodeField, canNote_of_silent hsilent _⟩

end ThreadedForth
