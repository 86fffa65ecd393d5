import ThreadedForth.Proofs.Compiler.Pass
import ThreadedForth.Proofs.Compiler.Stray

/-!
# Definitions are opened and closed

What a run of `:` and a run of `;` leave in the record, on any memory that begins with the kernel.
Each is one pass of the word, and an orderly one. After `:` the new header is open
(`colon_opens`), and `;` makes the newest header visible (`semicolon_reveals`).
-/

namespace ThreadedForth

open ThreadedForth.Action ThreadedForth.Course

-- the kernel is read cell by cell
set_option maxRecDepth 10000 in
/-- The words `:` and `;` of the kernel take these courses. -/
theorem Kernel.courses : colon.StandsIn Kernel.machine ∧ semicolon.StandsIn Kernel.machine := by
  decide

set_option maxRecDepth 10000 in
theorem Kernel.semicolon_compiles_exit :
    memory.get (.int (semicolon.code + 3)) = .ok exitToken := by decide

/-- The machine within the body of a word that was entered from another machine, with the next cell
at a distance from the code field. -/
def Course.inside (c : Course) (m : Machine) (data : List Cell) (memory : Memory) (mode : Mode)
    (console : Console) (next current : Int) : Machine :=
  { m with
    data := data, returns := m.ip :: m.returns, memory := memory, mode := mode,
    ip := some (c.code + next), current := some current, console := console }

/-! ## Dispatches -/

section Dispatches

variable {m m' : Machine} {past : List Event} {addr ip : Int} {n : Native} {c : Course}
  {k depth : Nat} {s : Int × Native} {r : Record}

/-- The words of the kernel begin with a code field that runs their body. -/
theorem Course.StandsIn.get_code (hc : c.StandsIn Kernel.machine) (hk : m.memory.OnKernel) :
    m.memory.get (.int c.code) = .ok (.native .enter) := by
  obtain ⟨addr, hx, hcell⟩ := Machine.behaviour_eq_some hc.1
  cases hx
  exact hk.get_eq hcell

theorem Course.StandsIn.passes_entry (hc : c.StandsIn Kernel.machine) (hk : m.memory.OnKernel)
    (past : List Event) : c.Passes 0 (.entry (.token c.code) m :: past) := by
  refine ⟨?_, rfl⟩
  simp [Event.behaviour, Machine.behaviour, hc.get_code hk]

namespace Recorded

/-- To enter a word is to note that, and to do what its behaviour is. -/
theorem invoke_of_native (bound : Nat) (ht : m.tracing = false)
    (hcell : m.memory.get (.int addr) = .ok (.native n)) :
    invoke (bound + 1) (.token addr) ⟨past, m⟩ =
      perform n addr (invoke bound) (execute bound) bound
        ⟨.entry (.token addr) m :: past, { m with current := some addr }⟩ := by
  have harrive : arrive addr m = .ok () { m with current := some addr } := by
    simp [arrive, trace, bind_apply, ht]
  have hfield : codeField (.token addr) m = .ok (addr, n) m := by
    simp [codeField, bind_apply, ask_apply, hcell]
  calc invoke (bound + 1) (.token addr) ⟨past, m⟩
      = enterWith (invoke bound) bound (.token addr) ⟨.entry (.token addr) m :: past, m⟩ := rfl
    _ = _ := by
      rw [enterWith, bind_of_ok (lift_of_ok hfield)]
      exact bind_of_ok (lift_of_ok harrive)

/-- To take a step is to enter the word of the next cell. -/
theorem stepWith_of_native (bound : Nat) (ht : m.tracing = false) (hip : m.ip = some ip)
    (hx : m.memory.get (.int ip) = .ok (.token addr))
    (hcell : m.memory.get (.int addr) = .ok (.native n)) :
    stepWith (invoke (bound + 1)) ⟨past, m⟩ =
      perform n addr (invoke bound) (execute bound) bound
        ⟨.entry (.token addr) { m with ip := some (ip + 1) } :: past,
          { m with ip := some (ip + 1), current := some addr }⟩ := by
  rw [stepWith, bind_of_ok (lift_of_ok (nextCell_of_ip hip hx))]
  exact invoke_of_native bound (m := { m with ip := some (ip + 1) }) ht hcell

theorem returnTo_of_deeper {i : Cell → Recorded Unit} {bound : Nat}
    (hd : depth < r.machine.returns.length) :
    returnTo i depth (bound + 1) r = (stepWith i >>= fun _ => returnTo i depth bound) r := by
  have hyes : Stack.deeperThan depth r.machine.returns = true := Stack.deeperThan_eq_true_iff.mpr hd
  simp [returnTo, bind_apply, hyes]

/-- In the loop the next dispatch of a course carries its pass on. -/
theorem returnTo_of_passes (bound : Nat) (hc : c.StandsIn Kernel.machine) (ht : m.tracing = false)
    (data : List Cell) {memory : Memory} (mode : Mode) (console : Console) (current : Int)
    (hk : memory.OnKernel) (hpass : c.Passes k past) (hs : c.steps[k]? = some s) {next : Int}
    (hnext : s.1 + 1 = next) {f : Int → Machine}
    (hrun : ∀ addr, s.2.alone addr (c.inside m data memory mode console next addr) = .ok () (f addr))
    (hn : s.2.runsWords = false) :
    ∃ addr,
      c.Passes (k + 1) (.entry (.token addr) (c.inside m data memory mode console next current) ::
        past) ∧
      ∀ n, returnTo (invoke (bound + 1)) m.returns.length (n + 1)
          ⟨past, c.inside m data memory mode console s.1 current⟩ =
        returnTo (invoke (bound + 1)) m.returns.length n
          ⟨.entry (.token addr) (c.inside m data memory mode console next current) :: past,
            f addr⟩ := by
  have hmoved : c.code + s.1 + 1 = c.code + next := by omega
  obtain ⟨addr, hx, hcell⟩ := Machine.behaviourAt_eq_some (hc.2 s (List.mem_of_getElem? hs))
  replace hx := hk.get_eq hx
  replace hcell := hk.get_eq hcell
  refine ⟨addr, ⟨hpass, s, hs, ?_, congrArg some hmoved.symm⟩, fun n => ?_⟩
  · simp [Event.behaviour, Machine.behaviour, Course.inside, hcell]
  · have hstep : stepWith (invoke (bound + 1))
          ⟨past, c.inside m data memory mode console s.1 current⟩ =
        .ok () ⟨.entry (.token addr) (c.inside m data memory mode console next current) :: past,
          f addr⟩ := by
      rw [stepWith_of_native (m := c.inside m data memory mode console s.1 current) bound ht rfl hx
        hcell, perform_eq_lift hn, hmoved]
      exact lift_of_ok (hrun addr)
    have hdeep : m.returns.length < (m.ip :: m.returns).length := by simp
    rw [returnTo_of_deeper hdeep, bind_of_ok hstep]

/-- A word that runs a body is entered, its body takes it back to where it came from, and then the
thread goes on there. -/
theorem execute_of_enter (bound k : Nat) (ht : m.tracing = false)
    (hcell : m.memory.get (.int addr) = .ok (.native .enter)) {past' : List Event}
    (hreturns : m'.returns = m.returns) (hip : m'.ip = m.ip)
    (hbody : returnTo (invoke (bound + 1)) m.returns.length (bound + 1)
        ⟨.entry (.token addr) m :: past, { m with
          returns := m.ip :: m.returns, ip := some (addr + 1), current := some addr }⟩ =
      returnTo (invoke (bound + 1)) m.returns.length (k + 1) ⟨past', m'⟩) :
    execute (bound + 1) (.token addr) ⟨past, m⟩ = .ok () ⟨.back m' :: past', m'⟩ := by
  have henter : invoke (bound + 1) (.token addr) ⟨past, m⟩ = .ok () ⟨.entry (.token addr) m :: past,
      { m with returns := m.ip :: m.returns, ip := some (addr + 1), current := some addr }⟩ :=
    invoke_of_native bound ht hcell
  have hdone : returnTo (invoke (bound + 1)) m.returns.length (k + 1) ⟨past', m'⟩ =
      .ok () ⟨past', m'⟩ := by
    have hno : ¬ Stack.deeperThan m.returns.length m'.returns = true := by
      simp [Stack.deeperThan_eq_true_iff, hreturns]
    simp [returnTo, bind_apply, hno]
  have hback : goBack m.ip m' = .ok () m' := by
    rw [← hip]
    rfl
  rw [execute, executeWith, bind_of_ok (get_apply _), bind_of_ok henter,
    bind_of_ok (hbody.trans hdone), bind_of_ok (lift_of_ok hback)]
  rfl

end Recorded

end Dispatches

/-! ## The definition is opened -/

section Opening

variable {m : Machine} {past : List Event} {name : String} {console : Console}

/-- **A run of `:` opens a definition**: that of a new header, which is the newest one then. -/
theorem colon_opens (hk : m.memory.OnKernel) (ht : m.tracing = false)
    (hname : ∀ host, Reading.nextToken host m.console = .ok name console) (ho : Orderly past)
    (bound : Nat) :
    ∃ r, Recorded.execute (bound + 8) (.token colon.code) ⟨past, m⟩ = .ok () r ∧ Orderly r.past ∧
      Open m.memory.here r.past ∧ r.machine.mode = .compile ∧
      r.machine.memory.latest = some (m.memory.here : Int) := by
  let made : Memory := m.memory.allocateHeader name 0
  let begun : Memory := made.append (.native .enter)
  let hidden : Memory := begun.write (m.memory.here + 2) (.flags Flags.hidden)
  have hmade : made.OnKernel := hk.allocateHeader name 0
  have hbegun : begun.OnKernel := hmade.append (.native .enter)
  have hhidden : hidden.OnKernel := hbegun.write (by have := hk.here_le; omega) _
  have hhide : begun.changeFlags (.int m.memory.here) (· ^^^ Flags.hidden) = .ok hidden := by
    have hflags : made.HasFlags (.int m.memory.here) (m.memory.here + 2) 0 :=
      ⟨⟨_, rfl, rfl⟩, _, Memory.getElem?_appendAll_here m.memory _ 2, rfl⟩
    exact (hflags.append (.native .enter)).changeFlags_eq _
  have hcolon := Kernel.courses.1
  have p₀ := hcolon.passes_entry hk past
  obtain ⟨a₁, p₁, h₁⟩ := Recorded.returnTo_of_passes (bound + 7) hcolon ht m.data m.mode m.console
    colon.code hk p₀ rfl rfl (f := colon.inside m (.text name :: m.data) m.memory m.mode console 2)
    (fun a => by
      simp [Native.alone, Native.perform, Primitive.perform, InputWord.perform, bind_apply, nextToken,
        onConsole, hname, push, Course.inside]) rfl
  obtain ⟨a₂, p₂, h₂⟩ := Recorded.returnTo_of_passes (bound + 7) hcolon ht (.text name :: m.data)
    m.mode console a₁ hk p₁ rfl rfl (f := colon.inside m m.data made m.mode console 3) (fun a => rfl)
    rfl
  obtain ⟨a₃, p₃, h₃⟩ := Recorded.returnTo_of_passes (bound + 7) hcolon ht m.data m.mode console a₂
    hmade p₂ rfl rfl (f := colon.inside m m.data begun m.mode console 4) (fun a => rfl) rfl
  obtain ⟨a₄, p₄, h₄⟩ := Recorded.returnTo_of_passes (bound + 7) hcolon ht m.data m.mode console a₃
    hbegun p₃ rfl rfl (f := colon.inside m (.int m.memory.here :: m.data) begun m.mode console 5)
    (fun a => rfl) rfl
  obtain ⟨a₅, p₅, h₅⟩ := Recorded.returnTo_of_passes (bound + 7) hcolon ht
    (.int m.memory.here :: m.data) m.mode console a₄ hbegun p₄ rfl rfl
    (f := colon.inside m m.data hidden m.mode console 6)
    (fun a => CompilerWord.perform_of_change (w := .hidden)
      (m := colon.inside m (.int m.memory.here :: m.data) begun m.mode console 6 a) rfl rfl rfl hhide)
    rfl
  obtain ⟨a₆, p₆, h₆⟩ := Recorded.returnTo_of_passes (bound + 7) hcolon ht m.data m.mode console a₅
    hhidden p₅ rfl rfl (f := colon.inside m m.data hidden .compile console 7) (fun a => rfl) rfl
  let back (a : Int) : Machine :=
    { colon.inside m m.data hidden .compile console 8 a with ip := m.ip, returns := m.returns }
  obtain ⟨a₇, p₇, h₇⟩ := Recorded.returnTo_of_passes (bound + 7) hcolon ht m.data .compile console
    a₆ hhidden p₆ rfl rfl (f := back) (fun a => rfl) rfl
  have hbody := (h₁ _).trans <| (h₂ _).trans <| (h₃ _).trans <| (h₄ _).trans <| (h₅ _).trans <|
    (h₆ _).trans (h₇ (bound + 1))
  exact ⟨⟨_, back a₇⟩, Recorded.execute_of_enter (bound + 7) bound ht (hcolon.get_code hk) rfl rfl
    hbody, ⟨Event.proper_of_behaviour_none rfl, p₇.proper_of_colon, p₆.proper_of_colon,
      p₅.proper_of_colon, p₄.proper_of_colon, p₃.proper_of_colon, p₂.proper_of_colon,
      p₁.proper_of_colon, p₀.proper_entry, ho⟩,
    (Open.opened p₇ rfl).of_behaviour_none rfl, rfl, rfl⟩

/-! ## The definition is closed -/

/-- **A run of `;` in compile mode makes the newest header visible.** -/
theorem semicolon_reveals (hk : m.memory.OnKernel) (ht : m.tracing = false)
    (hmode : m.mode = .compile) {h : Nat} (hlatest : m.memory.latest = some (h : Int))
    {hidden : Bool} (hflags : m.memory.isHidden (.int h) = .ok hidden) (ho : Orderly past)
    (bound : Nat) :
    ∃ r, Recorded.execute (bound + 8) (.token semicolon.code) ⟨past, m⟩ = .ok () r ∧
      Orderly r.past ∧ r.machine.mode = .immediate ∧
      r.machine.memory.latest = some (h : Int) ∧
      r.machine.memory.isHidden (.int h) = .ok false := by
  let ended : Memory := m.memory.append Kernel.exitToken
  have hended : ended.OnKernel := hk.append Kernel.exitToken
  obtain ⟨i, k, hhas, -⟩ :=
    Memory.isHidden_eq_ok_iff.mp (Memory.isHidden_append hflags Kernel.exitToken)
  let shown : Memory := ended.write i (.flags (Bits.without (k % 4).toNat Flags.hidden))
  have hshow : ended.changeFlags (.int h) (Bits.without · Flags.hidden) = .ok shown :=
    hhas.changeFlags_eq _
  have hshown : shown.OnKernel := by
    obtain ⟨l, hl, hle⟩ := hk.latest
    obtain rfl := Option.some.inj (hlatest.symm.trans hl)
    obtain ⟨n, hn, hi⟩ := hhas.place
    obtain rfl : (h : Int) = n := Option.some.inj hn
    exact hended.write (by omega) _
  have hlit : m.memory.get (.int (semicolon.code + 3)) = .ok Kernel.exitToken :=
    hk.get_eq Kernel.semicolon_compiles_exit
  have hsemicolon := Kernel.courses.2
  have p₀ := hsemicolon.passes_entry hk past
  obtain ⟨a₁, p₁, h₁⟩ := Recorded.returnTo_of_passes (bound + 7) hsemicolon ht m.data m.mode
    m.console semicolon.code hk p₀ rfl rfl
    (f := semicolon.inside m m.data m.memory m.mode m.console 2) (fun a => by
      simp [Native.alone, Native.perform, Primitive.perform, CompilerWord.perform, bind_apply,
        Course.inside, hmode]) rfl
  obtain ⟨a₂, p₂, h₂⟩ := Recorded.returnTo_of_passes (bound + 7) hsemicolon ht m.data m.mode
    m.console a₁ hk p₁ rfl rfl
    (f := semicolon.inside m (Kernel.exitToken :: m.data) m.memory m.mode m.console 4)
    (fun a => lit_apply (m := semicolon.inside m m.data m.memory m.mode m.console 3 a) rfl hlit) rfl
  obtain ⟨a₃, p₃, h₃⟩ := Recorded.returnTo_of_passes (bound + 7) hsemicolon ht
    (Kernel.exitToken :: m.data) m.mode m.console a₂ hk p₂ rfl rfl
    (f := semicolon.inside m m.data ended m.mode m.console 5) (fun a => rfl) rfl
  obtain ⟨a₄, p₄, h₄⟩ := Recorded.returnTo_of_passes (bound + 7) hsemicolon ht m.data m.mode
    m.console a₃ hended p₃ rfl rfl
    (f := semicolon.inside m (.int h :: m.data) ended m.mode m.console 6) (fun a => by
      have hnewest : ended.latest = some (h : Int) := hlatest
      simp [Native.alone, Native.perform, Primitive.perform, MemoryWord.perform, bind_apply, push,
        Course.inside, hnewest]) rfl
  obtain ⟨a₅, p₅, h₅⟩ := Recorded.returnTo_of_passes (bound + 7) hsemicolon ht (.int h :: m.data)
    m.mode m.console a₄ hended p₄ rfl rfl
    (f := semicolon.inside m m.data shown m.mode m.console 7)
    (fun a => CompilerWord.perform_of_change (w := .reveal)
      (m := semicolon.inside m (.int h :: m.data) ended m.mode m.console 7 a) rfl rfl rfl hshow) rfl
  obtain ⟨a₆, p₆, h₆⟩ := Recorded.returnTo_of_passes (bound + 7) hsemicolon ht m.data m.mode
    m.console a₅ hshown p₅ rfl rfl
    (f := semicolon.inside m m.data shown .immediate m.console 8) (fun a => rfl) rfl
  let back (a : Int) : Machine :=
    { semicolon.inside m m.data shown .immediate m.console 9 a with
      ip := m.ip, returns := m.returns }
  obtain ⟨a₇, p₇, h₇⟩ := Recorded.returnTo_of_passes (bound + 7) hsemicolon ht m.data .immediate
    m.console a₆ hshown p₆ rfl rfl (f := back) (fun a => rfl) rfl
  have hbody := (h₁ _).trans <| (h₂ _).trans <| (h₃ _).trans <| (h₄ _).trans <| (h₅ _).trans <|
    (h₆ _).trans (h₇ (bound + 1))
  exact ⟨⟨_, back a₇⟩, Recorded.execute_of_enter (bound + 7) bound ht (hsemicolon.get_code hk) rfl
    rfl hbody, ⟨Event.proper_of_behaviour_none rfl, p₇.proper_of_semicolon, p₆.proper_of_semicolon,
      p₅.proper_of_semicolon, p₄.proper_of_semicolon, p₃.proper_of_semicolon,
      p₂.proper_of_semicolon, p₁.proper_of_semicolon, p₀.proper_entry, ho⟩, rfl, hlatest,
    Memory.isHidden_of_reveal hhas⟩

end Opening

end ThreadedForth
