import Mathlib.Data.List.Basic
import ThreadedForth.Kernel.Image
import ThreadedForth.Proofs.Structured.Simulation

/-!
# What it comes to when a word is executed

The simulation for whole words: to execute a word of a program has exactly the effect that the word
means (`execute_means`). Dispatches may be logged, provided that every code field has a label.
-/

namespace ThreadedForth

open ThreadedForth.Action

variable {p : Program} {self code : Int} {bound bound' : Nat} {base m m' : Machine}
  {s t : Progress} {here : Place}

/-! ## Runs and their bounds -/

/-- What an action yields, each action yields that it approximates. -/
theorem Yields.of_approximates {act act' : Action Unit} (ha : Approximates act act')
    (h : Yields act base here s m) : Yields act' base here s m := by
  cases h with
  | running hs h hm => exact .running hs (ha.of_ok h) hm
  | failed hs h hm =>
    rcases ha m with heq | ⟨_, hstop⟩
    · exact .failed hs (heq.symm.trans h) hm
    · rw [h] at hstop
      cases hstop

/-- Two runs of a word that come to an end come to the same end. -/
theorem execute_unique {x : Cell} (h : ∀ m₁, execute bound x m ≠ .error .exhausted m₁)
    (h' : ∀ m₁, execute bound' x m ≠ .error .exhausted m₁) :
    execute bound x m = execute bound' x m :=
  (execute_approximates (Nat.le_max_left bound bound') x).unique
    (execute_approximates (Nat.le_max_right bound bound') x) h h'

theorem Yields.not_exhausted {act : Action Unit} (h : Yields act base here s m) (m₁ : Machine) :
    act m ≠ .error .exhausted m₁ := by
  intro hstop
  cases h with
  | running _ h => rw [h] at hstop; cases hstop
  | failed _ h => rw [h] at hstop; cases hstop

/-! ## From the meaning to the run -/

/-- A word is run to its end when the run of its thread lands where the thread goes on. -/
theorem Lands.executeWith_yields {i : Cell → Action Unit} {x : Cell} {m₁ : Machine}
    (hx : i x m = .ok () m₁) (hs : s.status ≠ .left)
    (h : Lands i m.returns.length base ⟨m.ip, m.returns⟩ ⟨m.ip, m.returns⟩ s m₁) :
    ∃ k, Yields (executeWith i k x) base ⟨m.ip, m.returns⟩ s m := by
  cases h with
  | @running k m₂ hrun hr hm =>
    have hlevel : m₂.returns.length ≤ m.returns.length := Nat.le_of_eq (by rw [hm.returns])
    have hloop : returnTo i m.returns.length (k + 1) m₁ = .ok () m₂ := by
      rw [hr, returnTo_of_not_deeper hlevel]
    refine ⟨k + 1, .running hrun (executeWith_eq_ok.mpr ⟨m₁, m₂, hx, hloop, rfl⟩) ?_⟩
    exact ⟨⟨hm.data, hm.console, hm.memory, hm.tracing, hm.mode⟩, rfl, hm.returns⟩
  | left hleft => exact absurd hleft hs
  | @failed k f m₂ hfailed hf hm =>
    refine ⟨k + 0, .failed hfailed ?_ hm⟩
    rw [executeWith_apply]
    exact bind_of_error ((bind_of_ok hx).trans (hf 0))

/-- The same for a word that does not enter a thread. -/
theorem Yields.executeWith_yields {i : Cell → Action Unit} {x : Cell}
    (h : Yields (i x) base ⟨m.ip, m.returns⟩ s m) :
    ∃ k, Yields (executeWith i k x) base ⟨m.ip, m.returns⟩ s m := by
  cases h with
  | running hs h hm =>
    have hstop : s.status ≠ .left := by simp [hs]
    exact Lands.executeWith_yields h hstop (.running hs (.refl _) hm)
  | failed hs h hm =>
    refine ⟨0, .failed hs ?_ hm⟩
    rw [executeWith_apply]
    exact bind_of_error (bind_of_error h)

/-- A machine shows that nothing has been done yet since it was this machine. -/
theorem stands_start (m : Machine) : Stands m (.start m.data) ⟨m.ip, m.returns⟩ m :=
  ⟨⟨rfl, rfl, rfl, rfl, rfl⟩, rfl, rfl⟩

/-- To note a dispatch makes no progress. -/
theorem Stands.noted (hm : Stands base s here m) (current : Option Int) (log : List LogRecord) :
    Stands base s here { m with current := current, log := log } :=
  ⟨⟨hm.data, hm.console, hm.memory, hm.tracing, hm.mode⟩, hm.ip, hm.returns⟩

section Entering

variable (hp : p.HeldBy base.memory) (ht : Traceable base) (hs : s.status = .running)
  (hm : Stands base s ⟨m.ip, m.returns⟩ m)
include hp ht hm

/-- A word that is threaded code is entered from outside any thread. -/
theorem invoke_thread (bound : Nat) {b : Body} (hcallee : p code = some (.thread b)) :
    ∃ m₁, invoke (bound + 1) (.token code) m = .ok () m₁ ∧
      Stands base s ⟨some (code + 1), m.ip :: m.returns⟩ m₁ := by
  have hfield := hm.memory ▸ (hp.threads code b hcallee).1
  obtain ⟨log, hinvoke⟩ := invoke_of_native bound (hm.toShows.traceable ht) hfield
  exact ⟨_, hinvoke, ⟨hm.data, hm.console, hm.memory, hm.tracing, hm.mode⟩, rfl, rfl⟩

include hs

/-- A word that means something does it when it is executed. -/
theorem Means.execute_yields (h : Means p self (.call code) s t) :
    ∃ bound, Yields (execute bound (.token code)) base ⟨m.ip, m.returns⟩ t m := by
  suffices hone : ∃ k, Yields (executeWith (invoke 1) k (.token code)) base ⟨m.ip, m.returns⟩ t m by
    obtain ⟨k, hyields⟩ := hone
    refine ⟨k + 1, hyields.of_approximates (executeWith_approximates (fun x => ?_) (by omega) _)⟩
    exact invoke_approximates (by omega) x
  cases h with
  | stopped h => exact absurd hs h
  | calculation _ hcallee =>
    have hfield := hm.memory ▸ hp.primitives _ _ hcallee
    obtain ⟨log, hinvoke⟩ := invoke_of_native 0 (hm.toShows.traceable ht) hfield
    exact ((hm.noted _ log).calculation_yields.congr hinvoke).executeWith_yields
  | thread _ hcallee hb =>
    obtain ⟨hcode, hexit⟩ := Memory.hasCode_append.mp (hp.threads _ _ hcallee).2
    rw [Body.length_code] at hexit
    obtain ⟨m₁, hinvoke, hm₁⟩ := invoke_thread hp ht hm 0 hcallee
    have hlevel := Nat.le_refl m.returns.length
    exact Lands.executeWith_yields hinvoke Progress.back_status_ne_left
      ((hb.lands hp ht hs hlevel hcode hm₁).leave hp ht hlevel hexit.1)

/-! ## From the run to the meaning -/

/-- A word whose run comes to an end means something. -/
theorem means_of_execute (hcode : p code ≠ none)
    (h : ∀ m₁, execute bound (.token code) m ≠ .error .exhausted m₁) :
    ∃ t, Means p code (.call code) s t := by
  cases bound with
  | zero => exact absurd rfl (h m)
  | succ n =>
    cases hcallee : p code with
    | none => exact absurd hcallee hcode
    | some callee =>
      cases callee with
      | primitive c => exact ⟨_, .calculation hs hcallee⟩
      | thread b =>
        obtain ⟨m₁, hinvoke, hm₁⟩ := invoke_thread hp ht hm n hcallee
        have hends : Ends (invoke (n + 1)) m.returns.length (n + 1) m₁ := by
          intro m₂ hstop
          refine h m₂ ?_
          rw [execute, executeWith_apply]
          exact bind_of_error ((bind_of_ok hinvoke).trans hstop)
        have hbody := (Memory.hasCode_append.mp (hp.threads code b hcallee).2).1
        obtain ⟨t, hmeans⟩ :=
          Body.means_of_ends hp ht (n + 1) b hcode (hp.closed code b hcallee) hs
            (Nat.le_refl m.returns.length) hbody hm₁ hends
        exact ⟨t.back, .thread hs hcallee hmeans⟩

/-- A run that comes to an end does what the word means. -/
theorem execute_yields_of_ends (hcode : p code ≠ none)
    (h : ∀ m₁, execute bound (.token code) m ≠ .error .exhausted m₁) :
    ∃ t, Means p code (.call code) s t ∧
      Yields (execute bound (.token code)) base ⟨m.ip, m.returns⟩ t m := by
  obtain ⟨t, hmeans⟩ := means_of_execute hp ht hs hm hcode h
  obtain ⟨bound', hyields⟩ := hmeans.execute_yields hp ht hs hm
  exact ⟨t, hmeans, hyields.congr (execute_unique h hyields.not_exhausted)⟩

end Entering

/-- What was printed can be told from the console. -/
theorem Console.printing_inj {c : Console} {texts texts' : List String}
    (h : c.printing texts = c.printing texts') : texts = texts' := by
  have hpieces : texts.map (Voice.program, ·) ++ c.transcript.pieces =
      texts'.map (Voice.program, ·) ++ c.transcript.pieces := by
    simpa [Console.printing] using h
  refine List.map_injective_iff.mpr (fun _ _ htext => ?_) (List.append_cancel_right hpieces)
  exact (Prod.mk.inj htext).2

theorem Progress.ext_of {s : Progress} {status : Status} {data : List Cell} {texts : List String}
    (hstatus : s.status = status) (hdata : s.data = data) (hprinted : s.printed = texts) :
    s = ⟨status, data, texts⟩ := by
  subst hstatus hdata hprinted
  rfl

/-! ## Words -/

section Words

variable (hp : p.HeldBy m.memory) (ht : Traceable m) (hcode : p code ≠ none)
include hp ht hcode

/-- To execute a word ends well exactly when the word means so. -/
theorem execute_ok_iff (data : List Cell) (texts : List String) :
    (∃ bound m', execute bound (.token code) m = .ok () m' ∧
      m'.data = data ∧ m'.console = m.console.printing texts) ↔
    Means p code (.call code) (.start m.data) ⟨.running, data, texts⟩ := by
  constructor
  · rintro ⟨bound, m', hrun, hdata, hconsole⟩
    have hends : ∀ m₁, execute bound (.token code) m ≠ .error .exhausted m₁ := by simp [hrun]
    obtain ⟨t, hmeans, hyields⟩ := execute_yields_of_ends hp ht rfl (stands_start m) hcode hends
    cases hyields with
    | running hs h hm =>
      cases hrun.symm.trans h
      have hprinted := Console.printing_inj (hm.console.symm.trans hconsole)
      rwa [Progress.ext_of hs (hm.data.symm.trans hdata) hprinted] at hmeans
    | failed _ h => cases hrun.symm.trans h
  · intro hmeans
    obtain ⟨bound, hyields⟩ := hmeans.execute_yields hp ht rfl (stands_start m)
    cases hyields with
    | running _ h hm => exact ⟨bound, _, h, hm.data, hm.console⟩
    | failed hs => cases hs

/-- To execute a word fails exactly when the word means so. -/
theorem execute_fault_iff (f : Fault) (data : List Cell) (texts : List String) :
    (∃ bound m', execute bound (.token code) m = .error (.fault f) m' ∧
      m'.data = data ∧ m'.console = m.console.printing texts) ↔
    Means p code (.call code) (.start m.data) ⟨.failed f, data, texts⟩ := by
  constructor
  · rintro ⟨bound, m', hrun, hdata, hconsole⟩
    have hends : ∀ m₁, execute bound (.token code) m ≠ .error .exhausted m₁ := by simp [hrun]
    obtain ⟨t, hmeans, hyields⟩ := execute_yields_of_ends hp ht rfl (stands_start m) hcode hends
    cases hyields with
    | running _ h => cases hrun.symm.trans h
    | failed hs h hm =>
      cases hrun.symm.trans h
      have hprinted := Console.printing_inj (hm.console.symm.trans hconsole)
      rwa [Progress.ext_of hs (hm.data.symm.trans hdata) hprinted] at hmeans
  · intro hmeans
    obtain ⟨bound, hyields⟩ := hmeans.execute_yields hp ht rfl (stands_start m)
    cases hyields with
    | running hs => cases hs
    | failed hs h hm =>
      cases hs
      exact ⟨bound, _, h, hm.data, hm.console⟩

/-- A run that ends well leaves the thread and the memory as they were. -/
theorem execute_restores (hrun : execute bound (.token code) m = .ok () m') :
    m'.ip = m.ip ∧ m'.returns = m.returns ∧ m'.memory = m.memory := by
  have hends : ∀ m₁, execute bound (.token code) m ≠ .error .exhausted m₁ := by simp [hrun]
  obtain ⟨t, -, hyields⟩ := execute_yields_of_ends hp ht rfl (stands_start m) hcode hends
  cases hyields with
  | running _ h hm =>
    cases hrun.symm.trans h
    exact ⟨hm.ip, hm.returns, hm.memory⟩
  | failed _ h => cases hrun.symm.trans h

/-- Nothing but a fault stops a run, short of its bound. -/
theorem execute_stops {stop : Stop} (hrun : execute bound (.token code) m = .error stop m') :
    stop = .exhausted ∨ ∃ f, stop = .fault f := by
  by_cases hstop : stop = .exhausted
  · exact .inl hstop
  · have hends : ∀ m₁, execute bound (.token code) m ≠ .error .exhausted m₁ := by
      intro m₁ hexhausted
      cases hrun.symm.trans hexhausted
      exact hstop rfl
    obtain ⟨t, -, hyields⟩ := execute_yields_of_ends hp ht rfl (stands_start m) hcode hends
    cases hyields with
    | running _ h => cases hrun.symm.trans h
    | failed _ h =>
      cases hrun.symm.trans h
      exact .inr ⟨_, rfl⟩

/-- **Threaded code runs with the meaning of its structure**: to execute a word of a program ends
well exactly when the word means so, with the data stack and the texts that it means, and fails
exactly when the word means so, with the same fault, data stack and texts. It does not stop for any
other reason. A run that ends well leaves the instruction pointer, the return stack and the memory
as they were. -/
theorem execute_means :
    (∀ data texts,
      (∃ bound m', execute bound (.token code) m = .ok () m' ∧
        m'.data = data ∧ m'.console = m.console.printing texts) ↔
      Means p code (.call code) (.start m.data) ⟨.running, data, texts⟩) ∧
    (∀ f data texts,
      (∃ bound m', execute bound (.token code) m = .error (.fault f) m' ∧
        m'.data = data ∧ m'.console = m.console.printing texts) ↔
      Means p code (.call code) (.start m.data) ⟨.failed f, data, texts⟩) ∧
    (∀ bound m', execute bound (.token code) m = .ok () m' →
      m'.ip = m.ip ∧ m'.returns = m.returns ∧ m'.memory = m.memory) ∧
    ∀ bound stop m', execute bound (.token code) m = .error stop m' →
      stop = .exhausted ∨ ∃ f, stop = .fault f :=
  ⟨execute_ok_iff hp ht hcode, execute_fault_iff hp ht hcode,
    fun _ _ => execute_restores hp ht hcode, fun _ _ _ => execute_stops hp ht hcode⟩

end Words

/-! ## A word that calls itself, and one that cannot be traced -/

/-- `DUP IF 1- RECURSE THEN` counts down to zero. -/
def countdownBody : Body := .seq (.call 28) (.ifThen (.seq (.call 120) .recurse))

/-- The words that counting down takes. -/
def countdown : Program := fun addr =>
  if addr = 368 then some (.thread countdownBody)
  else if addr = 28 then some (.primitive (.stack .dup))
  else if addr = 120 then some (.primitive (.arithmetic .decrement))
  else none

/-- A machine in the middle of a thread that is to count down from two. -/
def countdownMachine : Machine where
  data := [.int 2]
  returns := [some 5]
  memory := Kernel.memory.appendAll
    (.native .enter :: countdownBody.code 368 ++ [Kernel.exitToken])
  ip := some 9

-- the kernel is read cell by cell
set_option maxRecDepth 10000 in
theorem countdown_heldBy : countdown.HeldBy countdownMachine.memory where
  steering := by
    intro w hw
    cases w with
    | execute => exact absurd rfl hw
    | _ => rfl
  primitives := by
    intro addr c hc
    unfold countdown at hc
    split_ifs at hc with _ hdup hdecrement
    · cases hc
    · cases hdup
      cases hc
      rfl
    · cases hdecrement
      cases hc
      rfl
  threads := by
    intro addr b hb
    unfold countdown at hb
    split_ifs at hb with hself
    · cases hself
      cases hb
      exact ⟨rfl, rfl, rfl, rfl, rfl, rfl, rfl, trivial⟩
    · cases hb
    · cases hb
  closed := by
    intro addr b hb
    unfold countdown at hb
    split_ifs at hb
    · cases hb
      intro code hcode
      simp [countdownBody, Body.calls] at hcode
      rcases hcode with rfl | rfl <;> simp [countdown]
    · cases hb
    · cases hb

/-- It counts down from every number. -/
theorem countdown_means (n : Nat) :
    Means countdown 368 (.call 368) (.start [.int n]) (.start [.int 0]) := by
  have hdup (x : Cell) : Means countdown 368 (.call 28) (.start [x]) (.start [x, x]) :=
    .calculation (c := .stack .dup) rfl rfl
  induction n with
  | zero =>
    have htest : (Progress.start [.int 0, .int 0]).test = (false, .start [.int 0]) := rfl
    exact .thread rfl rfl (.seq (hdup _) (.ifThen htest .empty))
  | succ n ih =>
    have htrue : Cell.expectTruth ThreadWord.branchFalse.name (.int (n + 1 : Nat)) = .ok true := by
      simp [Cell.expectTruth, Cell.expectInt, Cell.int?]
      omega
    have htest : (Progress.start [.int (n + 1 : Nat), .int (n + 1 : Nat)]).test =
        (true, .start [.int (n + 1 : Nat)]) := Progress.test_of_ok rfl rfl htrue
    have hless :
        Means countdown 368 (.call 120) (.start [.int (n + 1 : Nat)]) (.start [.int n]) := by
      have hpred : ((n + 1 : Nat) : Int) - 1 = n := by omega
      rw [← hpred]
      exact .calculation (c := .arithmetic .decrement) rfl rfl
    exact .thread rfl rfl (.seq (hdup _) (.ifThen htest (.seq hless (.recurse ih))))

theorem countdown_two_execute :
    countdown.HeldBy countdownMachine.memory ∧ Traceable countdownMachine ∧
      ∃ bound m', execute bound (.token 368) countdownMachine = .ok () m' ∧
        m'.data = [.int 0] ∧ m'.ip = some 9 ∧ m'.returns = [some 5] := by
  have htrace : Traceable countdownMachine := fun h => by cases h
  have hcode : countdown 368 ≠ none := by simp [countdown]
  obtain ⟨hok, -, hframe, -⟩ := execute_means countdown_heldBy htrace hcode
  obtain ⟨bound, m', hrun, hdata, -⟩ := (hok [.int 0] []).mpr (countdown_means 2)
  obtain ⟨hip, hreturns, -⟩ := hframe bound m' hrun
  exact ⟨countdown_heldBy, htrace, bound, m', hrun, hdata, hip, hreturns⟩

/-- The program of a word that pushes seven. -/
def seven : Program := fun addr =>
  if addr = 371 then some (.thread (.literal (.int 7))) else none

/-- A machine that logs its dispatches, with the link of the newest header written over. -/
def brokenLinkMachine : Machine where
  memory :=
    { Kernel.memory.appendAll [.int 9999, .text "SEVEN", .flags 0, .native .enter, Kernel.litToken,
        .int 7, Kernel.exitToken] with latest := some 368 }
  tracing := true

-- the kernel is read cell by cell
set_option maxRecDepth 10000 in
/-- Without labels a word that means something can fail all the same. -/
theorem execute_broken_link_fails :
    seven.HeldBy brokenLinkMachine.memory ∧
      Means seven 371 (.call 371) (.start []) (.start [.int 7]) ∧
      ¬ ∃ bound m', execute bound (.token 371) brokenLinkMachine = .ok () m' := by
  refine ⟨⟨?_, ?_, ?_, ?_⟩, .thread rfl rfl (.literal rfl), ?_⟩
  · intro w hw
    cases w with
    | execute => exact absurd rfl hw
    | _ => rfl
  · intro addr c hc
    unfold seven at hc
    split_ifs at hc
    cases hc
  · intro addr b hb
    unfold seven at hb
    split_ifs at hb with hself
    cases hself
    cases hb
    exact ⟨rfl, rfl, rfl, rfl, trivial⟩
  · intro addr b hb
    unfold seven at hb
    split_ifs at hb
    cases hb
    intro code hcode
    cases hcode
  · rintro ⟨bound, m', hrun⟩
    obtain ⟨m₁, hfails⟩ : ∃ m₁, execute 5 (.token 371) brokenLinkMachine =
      .error (.fault (.outOfRange (.int 9999) 375)) m₁ := ⟨_, rfl⟩
    have heq := execute_unique (fun m₁ => by rw [hrun]; simp) (fun m₁ => by rw [hfails]; simp)
    cases hrun.symm.trans (heq.trans hfails)

end ThreadedForth
