import ThreadedForth.Proofs.Machine.Flow
import ThreadedForth.Session

/-!
# The rounds of a session

The driver of a session runs `QUIT` in rounds. A round that comes to its end is followed by another
one; one that ends in a fault is reported and followed by a reset; the end of the input closes the
session (`Session.Driven`). What the driver does is all in its rounds (`Session.Driven.run`,
`Session.exists_driven`).

A session that stops at the first fault goes through the rounds of the one that restarts, up to the
first that ends in a fault, and has shown the same by then (`Session.run_stops_at_first_report`).
-/

namespace ThreadedForth

open ThreadedForth.Action

/-- The machine once a fault has been reported and the machine has been reset. -/
def Machine.afterFault (m : Machine) (f : Fault) : Machine :=
  after (Session.report f >>= fun _ => reset) m

/-- The machine on which the session goes on after a fault. -/
def Machine.restarted (m : Machine) (f : Fault) : Machine :=
  after (record .info .session "interpreter restarted") (m.afterFault f)

namespace Session

/-- One run of `QUIT`. -/
structure Round where
  start : Machine
  outcome : Except Stop Unit
  finish : Machine

/-- It ends in a fault. -/
def Round.Faulted (r : Round) : Prop := ∃ f, r.outcome = .error (.fault f)

/-- It is what becomes of `QUIT` within so many steps. -/
def Round.Goes (bound : Nat) (r : Round) : Prop :=
  observe (execute bound Kernel.quitToken) r.start = .ok r.outcome r.finish

/-- The rounds of a session of so many rounds at most, its outcome and the last machine. -/
inductive Driven (bound : Nat) (restart : Bool) :
    Nat → Machine → List Round → Except Stop Unit → Machine → Prop
  | tired (m : Machine) : Driven bound restart 0 m [] (.error .exhausted) m
  | again {n : Nat} {m m₁ m' : Machine} {rounds : List Round} {outcome : Except Stop Unit}
    (hround : Round.Goes bound ⟨m, .ok (), m₁⟩)
    (hlater : Driven bound restart n m₁ rounds outcome m') :
    Driven bound restart (n + 1) m (⟨m, .ok (), m₁⟩ :: rounds) outcome m'
  | closes {n : Nat} {m m₁ : Machine} (hround : Round.Goes bound ⟨m, .error .endOfInput, m₁⟩) :
    Driven bound restart (n + 1) m [⟨m, .error .endOfInput, m₁⟩] (.ok ()) (after closeSession m₁)
  | restarts {n : Nat} {m m₁ m' : Machine} {f : Fault} {rounds : List Round}
    {outcome : Except Stop Unit} (hrestart : restart = true)
    (hround : Round.Goes bound ⟨m, .error (.fault f), m₁⟩)
    (hlater : Driven bound restart n (m₁.restarted f) rounds outcome m') :
    Driven bound restart (n + 1) m (⟨m, .error (.fault f), m₁⟩ :: rounds) outcome m'
  | fails {n : Nat} {m m₁ : Machine} {f : Fault} (hrestart : restart = false)
    (hround : Round.Goes bound ⟨m, .error (.fault f), m₁⟩) :
    Driven bound restart (n + 1) m [⟨m, .error (.fault f), m₁⟩] (.error (.fault f))
      (m₁.afterFault f)
  | stops {n : Nat} {m m₁ : Machine} {stop : Stop} (hend : stop ≠ .endOfInput)
    (hfault : ∀ f, stop ≠ .fault f) (hround : Round.Goes bound ⟨m, .error stop, m₁⟩) :
    Driven bound restart (n + 1) m [⟨m, .error stop, m₁⟩] (.error stop) m₁

variable {bound n : Nat} {restart : Bool} {m m₁ m' : Machine} {rounds : List Round}
  {outcome : Except Stop Unit} {f : Fault}

/-! ## Sessions and their rounds -/

/-- What the driver does is what its rounds say. -/
theorem Driven.run (h : Driven bound restart n m rounds outcome m') :
    observe (runWithin bound restart n) m = .ok outcome m' := by
  induction h with
  | tired m => rfl
  | again hround _ ih =>
    simp only [observe, runWithin, bind_of_ok hround] at ih ⊢
    exact ih
  | closes hround =>
    simp only [observe, runWithin, bind_of_ok hround]
    rfl
  | restarts hrestart hround _ ih =>
    subst hrestart
    simp only [observe, runWithin, bind_of_ok hround] at ih ⊢
    exact ih
  | fails hrestart hround =>
    subst hrestart
    simp only [observe, runWithin, bind_of_ok hround]
    rfl
  | @stops n m m₁ stop hend hfault hround =>
    simp only [observe, runWithin, bind_of_ok hround]
    cases stop with
    | endOfInput => exact absurd rfl hend
    | fault f => exact absurd rfl (hfault f)
    | _ => rfl

/-- Every session has its rounds. -/
theorem exists_driven (bound : Nat) (restart : Bool) (n : Nat) (m : Machine) :
    ∃ rounds outcome m', Driven bound restart n m rounds outcome m' := by
  induction n generalizing m with
  | zero => exact ⟨_, _, _, .tired m⟩
  | succ n ih =>
    obtain ⟨outcome, m₁, hround⟩ :
        ∃ outcome m₁, Round.Goes bound ⟨m, outcome, m₁⟩ := by
      cases h : execute bound Kernel.quitToken m with
      | ok x m₁ => exact ⟨.ok (), m₁, by rw [Round.Goes, observe, h]⟩
      | error stop m₁ => exact ⟨.error stop, m₁, by rw [Round.Goes, observe, h]⟩
    cases outcome with
    | ok _ =>
      obtain ⟨rounds, outcome, m', hlater⟩ := ih m₁
      exact ⟨_, _, _, .again hround hlater⟩
    | error stop =>
      cases stop with
      | endOfInput => exact ⟨_, _, _, .closes hround⟩
      | fault f =>
        cases restart with
        | true =>
          obtain ⟨rounds, outcome, m', hlater⟩ := ih (m₁.restarted f)
          exact ⟨_, _, _, .restarts rfl hround hlater⟩
        | false => exact ⟨_, _, _, .fails rfl hround⟩
      | defect d => exact ⟨_, _, _, .stops (by simp) (by simp) hround⟩
      | exhausted => exact ⟨_, _, _, .stops (by simp) (by simp) hround⟩

/-! ## What is shown -/

/-- A round reports nothing itself. -/
theorem Round.unreported {r : Round} (h : r.Goes bound) :
    r.start.console.transcript.Unreported r.finish.console.transcript := by
  obtain ⟨m, outcome, m₁⟩ := r
  have hflows := execute_flows bound Kernel.quitToken m
  rw [Round.Goes, observe] at h
  cases hrun : execute bound Kernel.quitToken m with
  | ok _ m₂ =>
    rw [hrun] at hflows h
    cases h
    obtain ⟨ls, hls⟩ := hflows
    exact hls.shown
  | error stop m₂ =>
    rw [hrun] at hflows h
    cases h
    cases stop with
    | endOfInput =>
      rcases hflows with ⟨ls, hls⟩ | ⟨-, ls, hls⟩
      · exact hls.shown
      · exact hls.shown
    | _ =>
      obtain ⟨ls, hls⟩ := hflows
      exact hls.shown

/-- What was shown before is still there. -/
theorem Driven.shows (h : Driven bound restart n m rounds outcome m') :
    ∃ said, m'.console.transcript.pieces = said ++ m.console.transcript.pieces := by
  induction h with
  | tired m => exact ⟨[], rfl⟩
  | again hround _ ih =>
    obtain ⟨said, hsaid, -⟩ := Round.unreported hround
    obtain ⟨more, hmore⟩ := ih
    exact ⟨more ++ said, by rw [hmore, hsaid, List.append_assoc]⟩
  | closes hround => exact (Round.unreported hround).imp fun _ h => h.1
  | @restarts n m m₁ m' f rounds outcome _ hround _ ih =>
    obtain ⟨said, hsaid, -⟩ := Round.unreported hround
    obtain ⟨more, hmore⟩ := ih
    refine ⟨more ++ (.session, "error: " ++ f.message ++ "\n") :: said, ?_⟩
    rw [hmore, List.append_assoc]
    exact congrArg (more ++ (Voice.session, "error: " ++ f.message ++ "\n") :: ·) hsaid
  | @fails n m m₁ f _ hround =>
    obtain ⟨said, hsaid, -⟩ := Round.unreported hround
    exact ⟨(.session, "error: " ++ f.message ++ "\n") :: said,
      congrArg ((Voice.session, "error: " ++ f.message ++ "\n") :: ·) hsaid⟩
  | stops _ _ hround => exact (Round.unreported hround).imp fun _ h => h.1

/-- Nothing is reported where no round ends in a fault. -/
theorem Driven.unreported (h : Driven bound restart n m rounds outcome m')
    (hnone : ∀ r ∈ rounds, ¬ r.Faulted) :
    m.console.transcript.Unreported m'.console.transcript := by
  induction h with
  | tired m => exact .refl _
  | again hround _ ih =>
    exact (Round.unreported hround).trans (ih (List.forall_mem_cons.mp hnone).2)
  | closes hround => exact Round.unreported hround
  | restarts => exact absurd ⟨_, rfl⟩ (hnone _ List.mem_cons_self)
  | fails => exact absurd ⟨_, rfl⟩ (hnone _ List.mem_cons_self)
  | stops _ _ hround => exact Round.unreported hround

/-- From one transcript to another a fault was reported, at the end, and no other one. -/
def ReportsOnce (f : Fault) (t t' : Transcript) : Prop :=
  ∃ before, t.Unreported before ∧ t' = before.write .session ("error: " ++ f.message ++ "\n")

/-- A session that stops at the first fault reports that fault. -/
theorem Driven.reportsOnce (h : Driven bound false n m rounds (.error (.fault f)) m') :
    ReportsOnce f m.console.transcript m'.console.transcript := by
  generalize houtcome : (.error (.fault f) : Except Stop Unit) = outcome at h
  induction h with
  | tired => cases houtcome
  | again hround _ ih =>
    obtain ⟨before, hbefore, hlast⟩ := ih houtcome
    exact ⟨before, (Round.unreported hround).trans hbefore, hlast⟩
  | closes => cases houtcome
  | restarts hrestart => cases hrestart
  | fails _ hround =>
    cases houtcome
    exact ⟨_, Round.unreported hround, rfl⟩
  | stops _ hfault =>
    cases houtcome
    exact absurd rfl (hfault f)

/-! ## Up to the first fault -/

/-- A session fails only if it is not to restart, and then in its last round, which is the first one
that ends in a fault. -/
theorem Driven.last_of_fault (h : Driven bound restart n m rounds (.error (.fault f)) m') :
    restart = false ∧ ∃ before start finish,
      rounds = before ++ [⟨start, .error (.fault f), finish⟩] ∧ (∀ r ∈ before, ¬ r.Faulted) ∧
        m' = finish.afterFault f := by
  generalize houtcome : (.error (.fault f) : Except Stop Unit) = outcome at h
  induction h with
  | tired => cases houtcome
  | @again n m m₁ m' rounds outcome hround _ ih =>
    obtain ⟨hrestart, before, start, finish, rfl, hnone, hlast⟩ := ih houtcome
    have hends : ¬ Round.Faulted ⟨m, .ok (), m₁⟩ := by simp [Round.Faulted]
    exact ⟨hrestart, _ :: before, start, finish, rfl, List.forall_mem_cons.mpr ⟨hends, hnone⟩,
      hlast⟩
  | closes => cases houtcome
  | @restarts n m m₁ m' f' rounds outcome hrestart hround hlater ih =>
    obtain ⟨hstops, -⟩ := ih houtcome
    rw [hrestart] at hstops
    cases hstops
  | @fails n m m₁ f' hrestart hround =>
    cases houtcome
    exact ⟨hrestart, [], m, m₁, rfl, by simp, rfl⟩
  | stops _ hfault =>
    cases houtcome
    exact absurd rfl (hfault f)

/-- A session that is not to restart fails if one of its rounds ends in a fault. -/
theorem Driven.fails_of_faulted (h : Driven bound false n m rounds outcome m')
    (hfaulted : ∃ r ∈ rounds, r.Faulted) :
    ∃ f, outcome = .error (.fault f) := by
  induction h with
  | tired => simp at hfaulted
  | again _ _ ih => exact ih (by simpa [Round.Faulted] using hfaulted)
  | closes => simp [Round.Faulted] at hfaulted
  | restarts hrestart => cases hrestart
  | @fails n m m₁ f => exact ⟨f, rfl⟩
  | stops _ hfault => simp [Round.Faulted, hfault] at hfaulted

/-- If no round of a session ends in a fault, it makes no difference whether it would restart. Else
the session that does not restart goes through the rounds up to the first fault. -/
theorem Driven.upToFault (h : Driven bound true n m rounds outcome m') :
    (∀ r ∈ rounds, ¬ r.Faulted) ∧ Driven bound false n m rounds outcome m' ∨
      ∃ before start f finish later k,
        rounds = before ++ ⟨start, .error (.fault f), finish⟩ :: later ∧
        (∀ r ∈ before, ¬ r.Faulted) ∧
        Driven bound false n m (before ++ [⟨start, .error (.fault f), finish⟩]) (.error (.fault f))
          (finish.afterFault f) ∧
        Driven bound true k (finish.restarted f) later outcome m' := by
  induction h with
  | tired m => exact .inl ⟨by simp, .tired m⟩
  | @again n m m₁ m' rounds outcome hround _ ih =>
    have hends : ¬ Round.Faulted ⟨m, .ok (), m₁⟩ := by simp [Round.Faulted]
    rcases ih with ⟨hnone, hsame⟩ |
      ⟨before, start, f, finish, later, k, rfl, hnone, hstops, hgoesOn⟩
    · exact .inl ⟨List.forall_mem_cons.mpr ⟨hends, hnone⟩, .again hround hsame⟩
    · exact .inr ⟨_ :: before, start, f, finish, later, k, rfl,
        List.forall_mem_cons.mpr ⟨hends, hnone⟩, .again hround hstops, hgoesOn⟩
  | closes hround => exact .inl ⟨by simp [Round.Faulted], .closes hround⟩
  | @restarts n m m₁ m' f rounds outcome _ hround hlater _ =>
    exact .inr ⟨[], m, f, m₁, rounds, n, rfl, by simp, .fails rfl hround, hlater⟩
  | fails hrestart => cases hrestart
  | stops hend hfault hround =>
    exact .inl ⟨by simp [Round.Faulted, hfault], .stops hend hfault hround⟩

/-- **To stop at the first fault is to do the beginning of what a session does that restarts.** If
the session that restarts reports no fault, both do the same. Else the other one fails with the
first fault that is reported. What it has shown ends in that report and is what the session that
restarts has shown by then, and it leaves the machine that this one goes on from. -/
theorem run_stops_at_first_report (bound : Nat) (m : Machine) :
    ∃ rounds outcome last, Driven bound true bound m rounds outcome last ∧
      observe (run bound true) m = .ok outcome last ∧
      ((∀ r ∈ rounds, ¬ r.Faulted) ∧
          m.console.transcript.Unreported last.console.transcript ∧
          observe (run bound false) m = .ok outcome last ∨
        ∃ before start f finish later k,
          rounds = before ++ ⟨start, .error (.fault f), finish⟩ :: later ∧
          (∀ r ∈ before, ¬ r.Faulted) ∧
          observe (run bound false) m = .ok (.error (.fault f)) (finish.afterFault f) ∧
          ReportsOnce f m.console.transcript (finish.afterFault f).console.transcript ∧
          (∃ more, last.console.transcript.pieces =
            more ++ (finish.afterFault f).console.transcript.pieces) ∧
          Driven bound true k (finish.restarted f) later outcome last) := by
  obtain ⟨rounds, outcome, last, hdriven⟩ := exists_driven bound true bound m
  refine ⟨rounds, outcome, last, hdriven, hdriven.run, ?_⟩
  rcases hdriven.upToFault with
    ⟨hnone, hsame⟩ | ⟨before, start, f, finish, later, k, hrounds, hnone, hstops, hgoesOn⟩
  · exact .inl ⟨hnone, hdriven.unreported hnone, hsame.run⟩
  · exact .inr ⟨before, start, f, finish, later, k, hrounds, hnone, hstops.run, hstops.reportsOnce,
      hgoesOn.shows, hgoesOn⟩

end Session

end ThreadedForth
