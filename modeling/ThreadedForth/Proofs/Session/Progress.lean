import Mathlib.Data.List.Chain
import ThreadedForth.Proofs.Compiler.Booted
import ThreadedForth.Proofs.Session.Requests
import ThreadedForth.Proofs.Session.Rounds

/-!
# A session that restarts makes progress

As long as `QUIT` can be started each time (`Session.Begins`), a round that ends in a fault has read
a token, and the reset after it drops the rest of a line at most. So the lines are begun in their
order and none is left out, and a session reports no more faults than it begins lines
(`Session.Advances`). If all that is done about each token comes to an end, so does the session
(`Session.restarting_makes_progress`). The lines after `BYE` are never begun, and where dispatches
are logged and have no label no token is read at all (`Session.bye_leaves_lines`).
-/

namespace ThreadedForth

open ThreadedForth.Action

/-- The number of faults that were reported. -/
def Transcript.reports (t : Transcript) : Nat := t.pieces.countP fun piece => piece.1 = .session

/-- Whether the current line is partly read, as a number. -/
def Source.partlyRead (s : Source) : Nat := if s.rest = [] then 0 else 1

/-- Where it is asked for the first token, the reader stops only at the end of the input. -/
def Machine.ReaderOnlyEnds (m : Machine) : Prop :=
  ∀ stop c, m.firstToken = .error stop c → stop = .endOfInput

/-- What a machine looks like after a fault: the stacks are empty, and of the input only the rest of
the current line has been dropped. -/
structure Machine.Cleared (m m' : Machine) : Prop where
  data : m'.data = []
  returns : m'.returns = []
  mode : m'.mode = .immediate
  ip : m'.ip = none
  current : m'.current = none
  memory : m'.memory = m.memory
  source : m'.console.source = m.console.source.skipLine

namespace Session

/-- A round of the session begins with this machine. -/
inductive Begins : Machine → Machine → Prop
  | first (m : Machine) : Begins m m
  | again {bound : Nat} {m m₁ m' : Machine} (hround : Round.Goes bound ⟨m, .ok (), m₁⟩)
    (hlater : Begins m₁ m') : Begins m m'
  | restarts {bound : Nat} {m m₁ m' : Machine} {f : Fault}
    (hround : Round.Goes bound ⟨m, .error (.fault f), m₁⟩) (hlater : Begins (m₁.restarted f) m') :
    Begins m m'

/-- The lines that were begun in a round. -/
def Round.lines (r : Round) : List String :=
  r.start.console.source.linesToCome.take
    (r.finish.console.source.lineCount - r.start.console.source.lineCount)

/-- It has read a token first of all, and the input has flowed from there. -/
def Round.ReadsToken (r : Round) : Prop :=
  ∃ token c, r.start.firstToken = .ok token c ∧ r.finish.FlowedFrom c

/-- The lines of a round are the first of those that were to come. At the end of the input they are
all of them, unless `BYE` has ended it. -/
def Round.Orderly (r : Round) : Prop :=
  r.start.console.Flows r.lines r.finish.console ∧
      (r.outcome = .error .endOfInput → r.finish.SaidBye) ∨
    r.outcome = .error .endOfInput ∧ r.start.console.RunsOut r.lines r.finish.console

/-- What is known of a session that restarts. -/
structure Advances (m : Machine) (rounds : List Round) (outcome : Except Stop Unit) (m' : Machine) :
    Prop where
  /-- A round that ends in a fault has read a token. -/
  reads : ∀ r ∈ rounds, r.Faulted → r.ReadsToken
  /-- After it the next one begins with empty stacks and between two lines. -/
  clears : rounds.IsChain fun r next => r.Faulted → r.finish.Cleared next.start
  /-- In each round lines are begun in their order. -/
  orderly : ∀ r ∈ rounds, r.Orderly
  /-- So they are in the whole session, and none is left out. -/
  inOrder : rounds.flatMap Round.lines <+: m.console.source.linesToCome
  lineCount : m'.console.source.lineCount =
    m.console.source.lineCount + (rounds.flatMap Round.lines).length
  /-- At its end all lines have been begun, unless `BYE` has ended it. -/
  complete : outcome = .ok () →
    rounds.flatMap Round.lines = m.console.source.linesToCome ∨ m'.SaidBye
  /-- From between two lines on there are at most as many reports as lines. -/
  reports : m.console.source.rest = [] → m'.console.transcript.reports ≤
    m.console.transcript.reports + (rounds.flatMap Round.lines).length
  ends : outcome = .ok () → m'.returns = [] ∧ m'.ip = none

variable {bound n : Nat} {restart : Bool} {m m₁ m' : Machine} {rounds : List Round}
  {outcome : Except Stop Unit} {f : Fault} {r : Round}

/-! ## Rounds -/

theorem cleared_restarted (m : Machine) (f : Fault) : m.Cleared (m.restarted f) :=
  ⟨rfl, rfl, rfl, rfl, rfl, rfl, rfl⟩

theorem Round.Goes.flowsOut (h : r.Goes bound) :
    r.outcome = .error .endOfInput ∧ (∃ ls, r.start.console.RunsOut ls r.finish.console) ∨
      (r.outcome = .error .endOfInput → r.finish.SaidBye) ∧
        r.finish.FlowedFrom r.start.console := by
  obtain ⟨m, outcome, m'⟩ := r
  have hflows := execute_flows bound Kernel.quitToken m
  rw [Round.Goes, observe] at h
  cases hrun : execute bound Kernel.quitToken m with
  | ok _ m₁ =>
    rw [hrun] at hflows h
    cases h
    exact .inr ⟨by simp, hflows⟩
  | error stop m₁ =>
    rw [hrun] at hflows h
    cases h
    by_cases hstop : stop = .endOfInput
    · subst hstop
      rcases hflows with hout | ⟨hbye, hflowed⟩
      · exact .inl ⟨rfl, hout⟩
      · exact .inr ⟨fun _ => hbye, hflowed⟩
    · refine .inr ⟨fun h => absurd (Except.error.inj h) hstop, ?_⟩
      cases stop with
      | endOfInput => exact absurd rfl hstop
      | _ => exact hflows

theorem Round.Goes.orderly (h : r.Goes bound) : r.Orderly := by
  rcases h.flowsOut with ⟨hend, ls, hout⟩ | ⟨hbye, ls, hflows⟩
  · have hls : r.lines = ls := by
      rw [Round.lines, hout.lineCount, hout.lines, Nat.add_sub_cancel_left, List.take_length]
    exact .inr ⟨hend, hls ▸ hout⟩
  · have hls : r.lines = ls := by
      rw [Round.lines, hflows.lineCount, hflows.lines, Nat.add_sub_cancel_left,
        List.take_left]
    exact .inl ⟨hls ▸ hflows, hbye⟩

/-- A round that was started and does not stop at the end of the input reads a token. -/
theorem Round.Goes.readsToken (h : r.Goes bound) (hcan : r.start.CanRestart)
    (hreader : r.start.ReaderOnlyEnds) (hend : r.outcome ≠ .error .endOfInput)
    (htired : r.outcome ≠ .error .exhausted) : r.ReadsToken := by
  obtain ⟨m, outcome, m'⟩ := r
  rw [Round.Goes, observe] at h
  cases bound with
  | zero =>
    cases h
    exact absurd rfl htired
  | succ bound =>
    rcases hcan.execute_cases bound with ⟨stop, c, m₁, htake, hstop⟩ | ⟨token, c, htake, hflows⟩
    · obtain rfl := hreader stop c htake
      rw [hstop] at h
      cases h
      exact absurd rfl hend
    · refine ⟨token, c, htake, ?_⟩
      cases hrun : execute (bound + 1) Kernel.quitToken m with
      | ok _ m₁ =>
        rw [hrun] at h hflows
        cases h
        exact hflows
      | error stop m₁ =>
        rw [hrun] at h hflows
        cases h
        cases stop with
        | endOfInput => exact absurd rfl hend
        | _ => exact hflows

/-- A token that was read is no longer left, and it was read from a line. -/
theorem Round.ReadsToken.advances (h : r.ReadsToken) :
    r.finish.console.source.left < r.start.console.source.left ∧
      ∃ ls, r.start.console.Flows ls r.finish.console ∧
        (ls = [] → r.start.console.source.rest ≠ []) := by
  obtain ⟨token, c, htake, ls, hflows⟩ := h
  have hread := Reading.nextToken_flows r.start.inQuit
  have htake' : Reading.nextToken r.start.inQuit.attendant r.start.inQuit.console = .ok token c :=
    htake
  rw [htake'] at hread
  obtain ⟨ls₀, hfirst, hless, hline⟩ := hread
  refine ⟨hflows.left_le.trans_lt hless, ls₀ ++ ls, Console.Flows.trans hfirst hflows,
    fun hnil => ?_⟩
  exact hline (List.append_eq_nil_iff.mp hnil).1

/-- A round that does not stop at the end of the input goes on within the lines to come. -/
theorem Round.Orderly.flows (h : r.Orderly) (hend : r.outcome ≠ .error .endOfInput) :
    r.start.console.Flows r.lines r.finish.console := by
  rcases h with ⟨hflows, -⟩ | ⟨hend', -⟩
  · exact hflows
  · exact absurd hend' hend

/-! ## Reports -/

theorem reports_of_unreported {t t' : Transcript} (h : t.Unreported t') :
    t'.reports = t.reports := by
  obtain ⟨said, hsaid, hnone⟩ := h
  have hzero : said.countP (fun piece => piece.1 = .session) = 0 :=
    List.countP_eq_zero.mpr fun piece hpiece => by simpa using hnone piece hpiece
  rw [Transcript.reports, hsaid, List.countP_append, hzero, Nat.zero_add, Transcript.reports]

theorem reports_restarted (m : Machine) (f : Fault) :
    (m.restarted f).console.transcript.reports = m.console.transcript.reports + 1 :=
  List.countP_cons_of_pos (by simp)

theorem partlyRead_restarted (m : Machine) (f : Fault) :
    (m.restarted f).console.source.partlyRead = 0 := rfl

theorem partlyRead_le_one (s : Source) : s.partlyRead ≤ 1 := by
  rw [Source.partlyRead]
  split_ifs <;> omega

/-- A line that is partly read was begun, or was so before. -/
theorem partlyRead_le {c c' : Console} {ls : List String} (h : c.Flows ls c') :
    c'.source.partlyRead ≤ c.source.partlyRead + ls.length := by
  by_cases hls : ls = []
  · by_cases hrest : c.source.rest = []
    · rw [Source.partlyRead, if_pos (h.rest_eq_nil hls hrest)]
      exact Nat.zero_le _
    · rw [Source.partlyRead, Source.partlyRead, if_neg hrest]
      split_ifs <;> omega
  · have hlength := List.length_pos_iff.mpr hls
    have hone := partlyRead_le_one c'.source
    omega

/-- Where a token was read, a line was begun or partly read before. -/
theorem one_le_of_readsToken (h : r.ReadsToken) (horderly : r.Orderly)
    (hend : r.outcome ≠ .error .endOfInput) :
    1 ≤ r.start.console.source.partlyRead + r.lines.length := by
  obtain ⟨-, ls, hflows, hline⟩ := h.advances
  by_cases hrest : r.start.console.source.rest = []
  · have hls : 0 < ls.length := List.length_pos_iff.mpr fun hnil => hline hnil hrest
    have hcount := hflows.lineCount
    have hcount' := (horderly.flows hend).lineCount
    omega
  · rw [Source.partlyRead, if_neg hrest]
    omega

/-! ## Sessions -/

/-- Each round of a session is one that begins. -/
theorem Driven.begins (h : Driven bound restart n m rounds outcome m') :
    ∀ r ∈ rounds, Begins m r.start ∧ r.Goes bound := by
  induction h with
  | tired => simp
  | again hround _ ih =>
    exact List.forall_mem_cons.mpr ⟨⟨.first _, hround⟩, fun r hr => ⟨.again hround (ih r hr).1,
      (ih r hr).2⟩⟩
  | closes hround => exact List.forall_mem_singleton.mpr ⟨.first _, hround⟩
  | restarts _ hround _ ih =>
    exact List.forall_mem_cons.mpr ⟨⟨.first _, hround⟩, fun r hr => ⟨.restarts hround (ih r hr).1,
      (ih r hr).2⟩⟩
  | fails _ hround => exact List.forall_mem_singleton.mpr ⟨.first _, hround⟩
  | stops _ _ hround => exact List.forall_mem_singleton.mpr ⟨.first _, hround⟩

theorem Driven.head_start (h : Driven bound restart n m rounds outcome m') :
    ∀ r ∈ rounds.head?, r.start = m := by
  intro r hr
  cases h with
  | tired => cases hr
  | _ =>
    cases hr
    rfl

/-- After a fault the stacks are empty and the next round begins between two lines. -/
theorem Driven.clears (h : Driven bound restart n m rounds outcome m') :
    rounds.IsChain fun r next => r.Faulted → r.finish.Cleared next.start := by
  induction h with
  | tired => exact .nil
  | again hround hlater ih =>
    refine List.isChain_cons.mpr ⟨fun next hnext hfault => ?_, ih⟩
    obtain ⟨f, hf⟩ := hfault
    cases hf
  | @restarts n m m₁ m' f rounds outcome _ hround hlater ih =>
    refine List.isChain_cons.mpr ⟨fun next hnext _ => ?_, ih⟩
    rw [hlater.head_start next hnext]
    exact cleared_restarted m₁ f
  | _ => exact .singleton _

/-- The lines of a session are those of its rounds, in their order. -/
theorem Driven.lines (h : Driven bound restart n m rounds outcome m') :
    m'.console.source.lineCount =
        m.console.source.lineCount + (rounds.flatMap Round.lines).length ∧
      (m.console.source.linesToCome =
          rounds.flatMap Round.lines ++ m'.console.source.linesToCome ∧
          (outcome = .ok () → m'.SaidBye) ∨
        m.console.source.linesToCome = rounds.flatMap Round.lines) := by
  induction h with
  | tired m => exact ⟨rfl, .inl ⟨rfl, by simp⟩⟩
  | @again n m m₁ m' rounds outcome hround _ ih =>
    have hflows := hround.orderly.flows (by simp)
    obtain ⟨hcount, hlines⟩ := ih
    rw [List.flatMap_cons, List.length_append, List.append_assoc, hflows.lines]
    refine ⟨by rw [hcount, hflows.lineCount, Nat.add_assoc], ?_⟩
    exact hlines.imp (fun h => ⟨congrArg _ h.1, h.2⟩) (congrArg _)
  | @restarts n m m₁ m' f rounds outcome _ hround _ ih =>
    have hflows := hround.orderly.flows (by simp)
    obtain ⟨hcount, hlines⟩ := ih
    rw [List.flatMap_cons, List.length_append, List.append_assoc, hflows.lines]
    refine ⟨hcount.trans (by rw [← Nat.add_assoc, ← hflows.lineCount]; rfl), ?_⟩
    exact hlines.imp (fun h => ⟨congrArg _ h.1, h.2⟩) (congrArg _)
  | @closes n m m₁ hround =>
    rw [List.flatMap_singleton]
    rcases hround.orderly with ⟨hflows, hbye⟩ | ⟨-, hout⟩
    · exact ⟨hflows.lineCount, .inl ⟨hflows.lines, fun _ => hbye rfl⟩⟩
    · exact ⟨hout.lineCount, .inr hout.lines⟩
  | fails _ hround =>
    rw [List.flatMap_singleton]
    have hflows := hround.orderly.flows (by simp)
    exact ⟨hflows.lineCount, .inl ⟨hflows.lines, by simp⟩⟩
  | stops hend _ hround =>
    rw [List.flatMap_singleton]
    have hflows := hround.orderly.flows (by simpa using hend)
    exact ⟨hflows.lineCount, .inl ⟨hflows.lines, by simp⟩⟩

/-- Each report is paid for by a line: one that was begun, or one that was partly read before. A
line that is partly read in the end has not been paid with. -/
theorem Driven.reports_le (h : Driven bound true n m rounds outcome m')
    (hreads : ∀ r ∈ rounds, r.Faulted → r.ReadsToken) :
    m'.console.transcript.reports ≤ m.console.transcript.reports +
      m.console.source.partlyRead + (rounds.flatMap Round.lines).length := by
  induction h with
  | tired m => omega
  | @again n m m₁ m' rounds outcome hround _ ih =>
    have hrest := ih (List.forall_mem_cons.mp hreads).2
    have hsame := reports_of_unreported (Round.unreported hround)
    have hpartly := partlyRead_le (hround.orderly.flows (by simp))
    rw [List.flatMap_cons, List.length_append]
    dsimp only at hsame hpartly
    omega
  | @restarts n m m₁ m' f rounds outcome _ hround _ ih =>
    obtain ⟨hfirst, hlater⟩ := List.forall_mem_cons.mp hreads
    have hrest := ih hlater
    have hsame := reports_of_unreported (Round.unreported hround)
    have hpaid := one_le_of_readsToken (hfirst ⟨f, rfl⟩) hround.orderly (by simp)
    rw [List.flatMap_cons, List.length_append]
    rw [reports_restarted, partlyRead_restarted] at hrest
    dsimp only at hsame hpaid
    omega
  | closes hround =>
    have hsame := reports_of_unreported (Round.unreported hround)
    dsimp only at hsame
    exact (Nat.le_of_eq hsame).trans (by omega)
  | fails hrestart => cases hrestart
  | stops _ _ hround =>
    have hsame := reports_of_unreported (Round.unreported hround)
    dsimp only at hsame
    exact (Nat.le_of_eq hsame).trans (by omega)

theorem Driven.ends (h : Driven bound restart n m rounds outcome m') (hok : outcome = .ok ()) :
    m'.returns = [] ∧ m'.ip = none := by
  induction h with
  | again _ _ ih => exact ih hok
  | restarts _ _ _ ih => exact ih hok
  | closes => exact ⟨rfl, rfl⟩
  | _ => cases hok

/-- A session that restarts makes progress. -/
theorem Driven.progress (h : Driven bound true n m rounds outcome m')
    (hsound : ∀ s, Begins m s → s.CanRestart ∧ s.ReaderOnlyEnds) :
    Advances m rounds outcome m' := by
  have hreads : ∀ r ∈ rounds, r.Faulted → r.ReadsToken := by
    rintro r hr ⟨f, hf⟩
    obtain ⟨hbegins, hgoes⟩ := h.begins r hr
    obtain ⟨hcan, hreader⟩ := hsound _ hbegins
    exact hgoes.readsToken hcan hreader (by simp [hf]) (by simp [hf])
  obtain ⟨hcount, hlines⟩ := h.lines
  refine ⟨hreads, h.clears, fun r hr => (h.begins r hr).2.orderly, ?_, hcount, fun hok => ?_,
    fun hrest => ?_, h.ends⟩
  · rcases hlines with ⟨hlines, -⟩ | hlines
    · exact ⟨_, hlines.symm⟩
    · exact ⟨[], by rw [List.append_nil, hlines]⟩
  · rcases hlines with ⟨-, hbye⟩ | hlines
    · exact .inr (hbye hok)
    · exact .inl hlines.symm
  · have hle := h.reports_le hreads
    rw [Source.partlyRead, if_pos hrest] at hle
    exact hle

/-! ## Coming to an end -/

theorem Round.Goes.mono {b : Nat} (h : r.Goes bound) (hb : bound ≤ b)
    (htired : r.outcome ≠ .error .exhausted) : r.Goes b := by
  rw [Round.Goes, observe] at h ⊢
  rcases execute_approximates hb Kernel.quitToken r.start with heq | ⟨m', hstop⟩
  · rw [← heq]
    exact h
  · rw [hstop] at h
    exact absurd (EStateM.Result.ok.inj h).1.symm htired

/-- A session that has ended does so with larger bounds too. -/
theorem Driven.mono {b k : Nat} (h : Driven bound restart n m rounds outcome m') (hb : bound ≤ b)
    (hk : n ≤ k) (htired : outcome ≠ .error .exhausted) :
    Driven b restart k m rounds outcome m' := by
  induction h generalizing k with
  | tired => exact absurd rfl htired
  | again hround _ ih =>
    obtain ⟨k, rfl⟩ : ∃ j, k = j + 1 := ⟨k - 1, by omega⟩
    exact .again (hround.mono hb (by simp)) (ih (by omega) htired)
  | closes hround =>
    obtain ⟨k, rfl⟩ : ∃ j, k = j + 1 := ⟨k - 1, by omega⟩
    exact .closes (hround.mono hb (by simp))
  | restarts hrestart hround _ ih =>
    obtain ⟨k, rfl⟩ : ∃ j, k = j + 1 := ⟨k - 1, by omega⟩
    exact .restarts hrestart (hround.mono hb (by simp)) (ih (by omega) htired)
  | fails hrestart hround =>
    obtain ⟨k, rfl⟩ : ∃ j, k = j + 1 := ⟨k - 1, by omega⟩
    exact .fails hrestart (hround.mono hb (by simp))
  | stops hend hfault hround =>
    obtain ⟨k, rfl⟩ : ∃ j, k = j + 1 := ⟨k - 1, by omega⟩
    exact .stops hend hfault (hround.mono hb htired)

/-- With each round less is left of the input, so there are finitely many of them. -/
theorem exists_driven_ok (hsound : ∀ s, Begins m s → s.CanRestart ∧ s.ReaderOnlyEnds)
    (hprocesses : ∀ s, Begins m s → s.Processes) :
    ∃ bound n rounds m', Driven bound true n m rounds (.ok ()) m' := by
  induction hleft : m.console.source.left using Nat.strong_induction_on generalizing m with
  | _ left ih =>
    obtain ⟨hcan, hreader⟩ := hsound m (.first m)
    obtain ⟨bound, hended⟩ := hcan.ends (hprocesses m (.first m))
    -- the session goes on from a machine on which less is left
    have hgoOn {outcome : Except Stop Unit} {m₁ s : Machine}
        (hround : Round.Goes bound ⟨m, outcome, m₁⟩)
        (hend : outcome ≠ .error .endOfInput) (htired : outcome ≠ .error .exhausted)
        (hs : s.console.source.left ≤ m₁.console.source.left)
        (hbegins : ∀ s', Begins s s' → Begins m s') :
        ∃ b n rounds m', Driven (max bound b) true n s rounds (.ok ()) m' := by
      have hless := (hround.readsToken hcan hreader hend htired).advances.1
      obtain ⟨b, n, rounds, m', hdriven⟩ := ih _ (hleft ▸ hs.trans_lt hless)
        (fun s' h => hsound s' (hbegins s' h)) (fun s' h => hprocesses s' (hbegins s' h)) rfl
      exact ⟨b, n, rounds, m', hdriven.mono (Nat.le_max_right _ _) (Nat.le_refl n) (by simp)⟩
    cases hrun : execute bound Kernel.quitToken m with
    | ok _ m₁ =>
      have hround : Round.Goes bound ⟨m, .ok (), m₁⟩ := by rw [Round.Goes, observe, hrun]
      obtain ⟨b, n, rounds, m', hdriven⟩ :=
        hgoOn hround (by simp) (by simp) (Nat.le_refl _) fun s' h => .again hround h
      exact ⟨_, _, _, _, .again (hround.mono (Nat.le_max_left _ _) (by simp)) hdriven⟩
    | error stop m₁ =>
      have hround : Round.Goes bound ⟨m, .error stop, m₁⟩ := by rw [Round.Goes, observe, hrun]
      rw [hrun] at hended
      cases stop with
      | endOfInput => exact ⟨bound, 1, _, _, .closes hround⟩
      | fault f =>
        have hskip : (m₁.restarted f).console.source.left ≤ m₁.console.source.left :=
          (Console.Flows.skipLine m₁.console).left_le
        obtain ⟨b, n, rounds, m', hdriven⟩ :=
          hgoOn hround (by simp) (by simp) hskip fun s' h => .restarts hround h
        exact ⟨_, _, _, _, .restarts rfl (hround.mono (Nat.le_max_left _ _) (by simp)) hdriven⟩
      | _ => exact hended.elim

/-- **A session that restarts makes progress**, as long as `QUIT` can be started each time and the
reader stops only at the end of the input. And if all that is done about each token comes to an end,
the session does. -/
theorem restarting_makes_progress (hsound : ∀ s, Begins m s → s.CanRestart ∧ s.ReaderOnlyEnds) :
    (∀ bound, ∃ rounds outcome m', Driven bound true bound m rounds outcome m' ∧
      observe (run bound true) m = .ok outcome m' ∧ Advances m rounds outcome m') ∧
    ((∀ s, Begins m s → s.Processes) →
      ∃ k m', m'.returns = [] ∧ m'.ip = none ∧ ∀ bound ≥ k, run bound true m = .ok () m') := by
  refine ⟨fun bound => ?_, fun hprocesses => ?_⟩
  · obtain ⟨rounds, outcome, m', hdriven⟩ := exists_driven bound true bound m
    exact ⟨rounds, outcome, m', hdriven, hdriven.run, hdriven.progress hsound⟩
  · obtain ⟨bound, n, rounds, m', hdriven⟩ := exists_driven_ok hsound hprocesses
    obtain ⟨hreturns, hip⟩ := hdriven.ends rfl
    refine ⟨max bound n, m', hreturns, hip, fun b hb => ?_⟩
    have hrun := (hdriven.mono (b := b) (k := b) (by omega) (by omega) (by simp)).run
    rw [observe] at hrun
    rw [run]
    cases h : runWithin b true b m with
    | ok _ m₁ =>
      rw [h] at hrun
      cases hrun
      rfl
    | error stop m₁ =>
      rw [h] at hrun
      cases hrun

/-! ## Known rounds -/

section Known

variable {stop : Stop}

/-- A round whose outcome is known. -/
theorem goes_of_reason (h : reason (execute bound Kernel.quitToken m) = some stop) :
    Round.Goes bound ⟨m, .error stop, after (execute bound Kernel.quitToken) m⟩ := by
  obtain ⟨m', hrun⟩ := exists_of_reason h
  rw [Round.Goes, observe, after, hrun]

/-- From one machine there is one way to go, whatever the bound is. -/
theorem Round.Goes.unique {b : Nat} {o o' : Except Stop Unit} {m₁ m₂ : Machine}
    (h : Round.Goes bound ⟨m, o, m₁⟩) (h' : Round.Goes b ⟨m, o', m₂⟩)
    (htired : o ≠ .error .exhausted) (htired' : o' ≠ .error .exhausted) : o' = o ∧ m₂ = m₁ := by
  have hmax := h.mono (Nat.le_max_left bound b) htired
  have hmax' := h'.mono (Nat.le_max_right bound b) htired'
  rw [Round.Goes] at hmax hmax'
  exact (EStateM.Result.ok.inj (hmax'.symm.trans hmax))

/-- Nothing begins after a round that stops at the end of the input. -/
theorem Begins.eq_of_closes {s : Machine} (h : Begins m s)
    (hround : Round.Goes bound ⟨m, .error .endOfInput, m₁⟩) : s = m := by
  cases h with
  | first => rfl
  | again hround' => cases (hround.unique hround' (by simp) (by simp)).1
  | restarts hround' => cases (hround.unique hround' (by simp) (by simp)).1

/-- After a round that fails, the next one begins. -/
theorem Begins.eq_or_of_fails {s : Machine} (h : Begins m s)
    (hround : Round.Goes bound ⟨m, .error (.fault f), m₁⟩) : s = m ∨ Begins (m₁.restarted f) s := by
  cases h with
  | first => exact .inl rfl
  | again hround' => cases (hround.unique hround' (by simp) (by simp)).1
  | restarts hround' hlater =>
    obtain ⟨hf, rfl⟩ := hround.unique hround' (by simp) (by simp)
    cases hf
    exact .inr hlater

/-- Why the first step of `QUIT` stops, if it does. -/
def firstStop (bound : Nat) (m : Machine) : Option Stop :=
  match invoke bound Kernel.quitToken m with
  | .ok _ m₁ => reason (takeSteps (invoke bound) m.returns.length 1 m₁)
  | .error _ _ => none

/-- Where the first step stops, all that is done about the one token comes to an end. -/
theorem processes_of_firstStop {stop : Stop} (h : firstStop bound m = some stop)
    (hstop : stop = .endOfInput ∨ ∃ f, stop = .fault f) : m.Processes := by
  rw [firstStop] at h
  cases hfirst : invoke bound Kernel.quitToken m with
  | error stop m₁ =>
    rw [hfirst] at h
    cases h
  | ok x m₁ =>
    rw [hfirst] at h
    obtain ⟨m₂, hstep⟩ := exists_of_reason h
    have hended : HasEnded (takeSteps (invoke bound) m.returns.length 1 m₁) := by
      rw [hstep]
      rcases hstop with rfl | ⟨f, rfl⟩ <;> trivial
    rintro m' ⟨b, k, m₁', hfirst', hsteps⟩ hrequests
    have hmax := invoke_approximates (Nat.le_max_left bound b)
    have hmax' := invoke_approximates (Nat.le_max_right bound b)
    have hstart := (hmax Kernel.quitToken).of_ok hfirst
    obtain rfl : m₁ = m₁' :=
      (EStateM.Result.ok.inj (hstart.symm.trans ((hmax' Kernel.quitToken).of_ok hfirst'))).2
    cases k with
    | zero =>
      cases hsteps
      refine ⟨bound, 0, ?_⟩
      rw [hstep] at hended ⊢
      exact hended
    | succ k =>
      -- the first step stops with any bound, so there is no machine after it
      obtain ⟨hd, m₃, hone, -⟩ := takeSteps_succ_eq_ok hsteps
      have hone' : takeSteps (invoke b) m.returns.length 1 m₁ = .ok () m₃ := by
        rw [takeSteps_of_deeper hd, bind_of_ok hone]
        rfl
      have hsame := hended.of_approximates (takeSteps_approximates hmax m.returns.length 1)
      rw [(takeSteps_approximates hmax' m.returns.length 1).of_ok hone', hstep] at hsame
      cases hsame

/-- A test for a machine without a reader that logs no dispatch, on which `QUIT` can be started. -/
def startsSilently (m : Machine) : Bool :=
  decide (m.memory.HasCode (Kernel.quitHeader + 3) (.native .enter :: Kernel.quitBody))
    && decide (m.memory.Intact (.input .interpret)) && ! m.tracing && m.console.source.reader.isNone

theorem sound_of_startsSilently (h : startsSilently m = true) :
    m.CanRestart ∧ m.ReaderOnlyEnds := by
  simp only [startsSilently, Bool.and_eq_true, decide_eq_true_eq, Bool.not_eq_true',
    Option.isNone_iff_eq_none] at h
  obtain ⟨⟨⟨hquit, hinterpret⟩, hsilent⟩, hreader⟩ := h
  refine ⟨⟨hquit, hinterpret, canNote_of_silent hsilent _, canNote_of_silent hsilent _⟩, ?_⟩
  intro stop c hstop
  rcases Reading.nextToken_stops hstop with hend | ⟨⟨r, hr, -⟩, -⟩
  · exact hend
  · have hr' : m.console.source.reader = some r := hr
    rw [hreader] at hr'
    cases hr'

end Known

open Kernel

/-- A booted machine with these lines to come. -/
def bootedWith (lines : List String) : Machine :=
  { memory := bootedMemory, console := { source := { pending := lines } } }

/-- What is left by the round of `ABORT`, with these lines to come after it. -/
def afterAbort (lines : List String) : Machine :=
  after (execute 10 quitToken) (bootedWith ("ABORT" :: lines))

/-- What is left by the round after it. -/
def afterNext (lines : List String) : Machine :=
  after (execute 10 quitToken) ((afterAbort lines).restarted .abort)

/-- A session whose only line fails has two rounds and comes to an end. -/
theorem abort_makes_progress :
    (∀ s, Begins (bootedWith ["ABORT"]) s → s.CanRestart ∧ s.ReaderOnlyEnds) ∧
      (∀ s, Begins (bootedWith ["ABORT"]) s → s.Processes) ∧
      ∃ k m', m'.returns = [] ∧ m'.ip = none ∧
        ∀ bound ≥ k, run bound true (bootedWith ["ABORT"]) = .ok () m' := by
  have hfails : Round.Goes 10 ⟨bootedWith ["ABORT"], .error (.fault .abort), afterAbort []⟩ :=
    goes_of_reason (by decide +kernel)
  have hcloses : Round.Goes 10
      ⟨(afterAbort []).restarted .abort, .error .endOfInput, afterNext []⟩ :=
    goes_of_reason (by decide +kernel)
  have hbegins (s : Machine) (hs : Begins (bootedWith ["ABORT"]) s) :
      s = bootedWith ["ABORT"] ∨ s = (afterAbort []).restarted .abort :=
    (hs.eq_or_of_fails hfails).imp id fun h => h.eq_of_closes hcloses
  have hsound (s : Machine) (hs : Begins (bootedWith ["ABORT"]) s) :
      s.CanRestart ∧ s.ReaderOnlyEnds := by
    rcases hbegins s hs with rfl | rfl
    · exact sound_of_startsSilently (by decide +kernel)
    · exact sound_of_startsSilently (by decide +kernel)
  have hprocesses (s : Machine) (hs : Begins (bootedWith ["ABORT"]) s) : s.Processes := by
    rcases hbegins s hs with rfl | rfl
    · have hstop : firstStop 10 (bootedWith ["ABORT"]) = some (.fault .abort) := by decide +kernel
      exact processes_of_firstStop hstop (.inr ⟨.abort, rfl⟩)
    · have hstop : firstStop 10 ((afterAbort []).restarted .abort) = some .endOfInput := by
        decide +kernel
      exact processes_of_firstStop hstop (.inl rfl)
  exact ⟨hsound, hprocesses, (restarting_makes_progress hsound).2 hprocesses⟩

/-- A booted machine that logs dispatches, where the newest header is linked to no other. -/
def unlabelled : Machine :=
  { bootedWith ["1"] with memory := bootedMemory.write 543 (.int 9999), tracing := true }

/-- A line that is still pending after a fault is not begun if `BYE` comes before it. And where
dispatches are logged and have no label, a round fails that has begun no line. -/
theorem bye_leaves_lines :
    (∃ r next m', Driven 10 true 10 (bootedWith ["ABORT", "BYE", "1"]) [r, next] (.ok ()) m' ∧
      r.start.CanRestart ∧ next.start.CanRestart ∧ r.Faulted ∧
      next.start.console.source.pending = ["BYE", "1"] ∧ m'.console.source.pending = ["1"]) ∧
    ∃ r, Round.Goes 10 r ∧ r.Faulted ∧
      r.start.memory.HasCode (quitHeader + 3) (.native .enter :: quitBody) ∧
      r.start.memory.Intact (.input .interpret) ∧ r.start.console.source.pending = ["1"] ∧
      r.finish.console.source.pending = ["1"] ∧ r.finish.console.source.lineCount = 0 := by
  have hfails : Round.Goes 10 ⟨bootedWith ["ABORT", "BYE", "1"], .error (.fault .abort),
      afterAbort ["BYE", "1"]⟩ := goes_of_reason (by decide +kernel)
  have hcloses : Round.Goes 10
      ⟨(afterAbort ["BYE", "1"]).restarted .abort, .error .endOfInput, afterNext ["BYE", "1"]⟩ :=
    goes_of_reason (by decide +kernel)
  have hpending :
      ((afterAbort ["BYE", "1"]).restarted .abort).console.source.pending = ["BYE", "1"] ∧
      (after closeSession (afterNext ["BYE", "1"])).console.source.pending = ["1"] := by
    decide +kernel
  obtain ⟨m', hunlabelled, hlater, hnone⟩ : ∃ m',
      Round.Goes 10 ⟨unlabelled, .error (.fault (.outOfRange (.int 9999) 550)), m'⟩ ∧
      m'.console.source.pending = ["1"] ∧ m'.console.source.lineCount = 0 :=
    ⟨_, goes_of_reason (by decide +kernel), by decide +kernel, by decide +kernel⟩
  have hwhole : unlabelled.memory.HasCode (quitHeader + 3) (.native .enter :: quitBody) ∧
      unlabelled.memory.Intact (.input .interpret) := by decide +kernel
  refine ⟨⟨_, _, _, .restarts rfl hfails (.closes hcloses), ?_, ?_, ⟨_, rfl⟩, hpending⟩,
    ⟨_, hunlabelled, ⟨_, rfl⟩, hwhole.1, hwhole.2, rfl, hlater, hnone⟩⟩
  · exact (sound_of_startsSilently (by decide +kernel)).1
  · exact (sound_of_startsSilently (by decide +kernel)).1

end Session

end ThreadedForth
