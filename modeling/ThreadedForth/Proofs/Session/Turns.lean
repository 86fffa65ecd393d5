import ThreadedForth.Proofs.Session.Lockstep
import ThreadedForth.Proofs.Session.Rounds

/-!
# Sessions turn by turn

A session takes one turn after the other: a round is begun, the loop of `QUIT` takes a step, it
comes back, or a fault is reported and the session restarts (`Session.Turn`). At last it is closed
(`Session.Close`). Turns do not mention how many steps are allowed. What a session comes to in all
(`Session.ComesTo`) is what it comes to from wherever its turns have led (`Session.comesTo_iff`).

Where two machines go in lockstep, so do their turns (`Session.Path.along`).
-/

namespace ThreadedForth

open ThreadedForth.Action

/-! ## Turns -/

namespace Session

/-- Where a session stands. -/
inductive Stage
  /-- between two rounds -/
  | between
  /-- in a round that was begun with so many entries on the return stack, and with the thread there
  -/
  | within (depth : Nat) (back : Option Int)

namespace Stage

/-- What is done next. -/
def act (bound : Nat) : Stage → Action Unit
  | between => invoke bound Kernel.quitToken
  | within _ _ => stepWith (invoke bound)

/-- The round has not come back. -/
def Inside (m : Machine) : Stage → Prop
  | between => True
  | within depth _ => depth < m.returns.length

/-- Where the session stands then. -/
def next (m : Machine) : Stage → Stage
  | between => within m.returns.length m.ip
  | within depth back => within depth back

/-- This is what comes of it, with enough steps. -/
def Does (stage : Stage) (m : Machine) (result : EStateM.Result Stop Machine Unit) : Prop :=
  stage.Inside m ∧ ∃ bound, stage.act bound m = result ∧ ∀ m', result ≠ .error .exhausted m'

variable {stage : Stage} {m : Machine} {result result' : EStateM.Result Stop Machine Unit}

theorem act_approximates (stage : Stage) {bound bound' : Nat} (hb : bound ≤ bound') :
    Approximates (stage.act bound) (stage.act bound') := by
  cases stage with
  | between => exact invoke_approximates hb _
  | within depth back => exact stepWith_approximates (invoke_approximates hb)

/-- No more than one thing comes of it. -/
theorem Does.unique (h : stage.Does m result) (h' : stage.Does m result') : result' = result := by
  obtain ⟨-, bound, rfl, hends⟩ := h
  obtain ⟨-, bound', rfl, hends'⟩ := h'
  exact (stage.act_approximates (Nat.le_max_right bound bound')).unique
    (stage.act_approximates (Nat.le_max_left bound bound')) hends' hends

end Stage

/-- One turn, and how a round ends in it, if one does. -/
inductive Turn (restart : Bool) :
    Stage → Machine → List (Except Stop Unit) → Stage → Machine → Prop
  | goes {stage : Stage} {m m₁ : Machine} (h : stage.Does m (.ok () m₁)) :
    Turn restart stage m [] (stage.next m) m₁
  | comesBack {depth : Nat} {back : Option Int} {m : Machine} (h : m.returns.length ≤ depth) :
    Turn restart (.within depth back) m [.ok ()] .between { m with ip := back }
  | restarts {stage : Stage} {m m₁ : Machine} {f : Fault} (hrestart : restart = true)
    (h : stage.Does m (.error (.fault f) m₁)) :
    Turn restart stage m [.error (.fault f)] .between (m₁.restarted f)

/-- The last turn: how the last round ends, and how the session does. -/
inductive Close (restart : Bool) :
    Stage → Machine → Except Stop Unit → Except Stop Unit → Machine → Prop
  | ends {stage : Stage} {m m₁ : Machine} (h : stage.Does m (.error .endOfInput m₁)) :
    Close restart stage m (.error .endOfInput) (.ok ()) (after closeSession m₁)
  | fails {stage : Stage} {m m₁ : Machine} {f : Fault} (hrestart : restart = false)
    (h : stage.Does m (.error (.fault f) m₁)) :
    Close restart stage m (.error (.fault f)) (.error (.fault f)) (m₁.afterFault f)
  | breaks {stage : Stage} {m m₁ : Machine} {d : Defect}
    (h : stage.Does m (.error (.defect d) m₁)) :
    Close restart stage m (.error (.defect d)) (.error (.defect d)) m₁

/-- Turn by turn, and how the rounds end on the way. -/
inductive Path (restart : Bool) :
    Stage → Machine → List (Except Stop Unit) → Stage → Machine → Prop
  | refl (stage : Stage) (m : Machine) : Path restart stage m [] stage m
  | turn {stage stage₁ stage' : Stage} {m m₁ m' : Machine} {ends later : List (Except Stop Unit)}
    (h : Turn restart stage m ends stage₁ m₁) (hlater : Path restart stage₁ m₁ later stage' m') :
    Path restart stage m (ends ++ later) stage' m'

/-- What a session comes to: how its rounds end, how it ends, and the last machine. -/
def ComesTo (restart : Bool) (stage : Stage) (m : Machine) (ends : List (Except Stop Unit))
    (outcome : Except Stop Unit) (m' : Machine) : Prop :=
  ∃ before last stage₁ m₁, Path restart stage m before stage₁ m₁ ∧
    Close restart stage₁ m₁ last outcome m' ∧ ends = before ++ [last]

variable {restart : Bool} {stage stage₁ stage₂ stage' : Stage} {m m₁ m₂ m' : Machine}
  {ends ends' later : List (Except Stop Unit)} {last outcome : Except Stop Unit}

theorem Turn.path (h : Turn restart stage m ends stage' m') : Path restart stage m ends stage' m' :=
  List.append_nil ends ▸ .turn h (.refl _ _)

theorem Path.trans (h : Path restart stage m ends stage₁ m₁)
    (h' : Path restart stage₁ m₁ later stage' m') :
    Path restart stage m (ends ++ later) stage' m' := by
  induction h with
  | refl => exact h'
  | turn h _ ih =>
    rw [List.append_assoc]
    exact .turn h (ih h')

/-! ### No choice -/

/-- A session has no choice about its next turn. -/
theorem Turn.unique (h : Turn restart stage m ends stage₁ m₁)
    (h' : Turn restart stage m ends' stage₂ m₂) : ends' = ends ∧ stage₂ = stage₁ ∧ m₂ = m₁ := by
  cases h with
  | goes h =>
    cases h' with
    | goes h' =>
      cases h.unique h'
      exact ⟨rfl, rfl, rfl⟩
    | comesBack hback => exact absurd h.1 (Nat.not_lt.mpr hback)
    | restarts _ h' => cases h.unique h'
  | comesBack hback =>
    cases h' with
    | goes h' => exact absurd h'.1 (Nat.not_lt.mpr hback)
    | comesBack _ => exact ⟨rfl, rfl, rfl⟩
    | restarts _ h' => exact absurd h'.1 (Nat.not_lt.mpr hback)
  | restarts _ h =>
    cases h' with
    | goes h' => cases h.unique h'
    | comesBack hback => exact absurd h.1 (Nat.not_lt.mpr hback)
    | restarts _ h' =>
      cases h.unique h'
      exact ⟨rfl, rfl, rfl⟩

theorem Close.does (h : Close restart stage m last outcome m') :
    ∃ stop m₁, stage.Does m (.error stop m₁) ∧ (restart = true → ∀ f, stop ≠ .fault f) := by
  cases h with
  | ends h => exact ⟨_, _, h, by simp⟩
  | fails hrestart h => exact ⟨_, _, h, by simp [hrestart]⟩
  | breaks h => exact ⟨_, _, h, by simp⟩

/-- The last turn has none after it. -/
theorem Turn.not_close (h : Turn restart stage m ends stage₁ m₁) :
    ¬ Close restart stage m last outcome m' := by
  intro hclose
  obtain ⟨stop, m₂, hdoes, hstop⟩ := hclose.does
  cases h with
  | goes h => cases hdoes.unique h
  | comesBack hback => exact absurd hdoes.1 (Nat.not_lt.mpr hback)
  | @restarts _ _ _ f hrestart h =>
    cases hdoes.unique h
    exact hstop hrestart f rfl

/-- What a session comes to, it comes to from wherever its turns have led. -/
theorem Path.after (h : Path restart stage m ends stage₁ m₁)
    (h' : Path restart stage m ends' stage₂ m₂) (hclose : Close restart stage₂ m₂ last outcome m') :
    ∃ later, ends' = ends ++ later ∧ Path restart stage₁ m₁ later stage₂ m₂ := by
  induction h generalizing ends' with
  | refl => exact ⟨ends', rfl, h'⟩
  | turn h _ ih =>
    cases h' with
    | refl => exact absurd hclose h.not_close
    | turn h' hlater =>
      obtain ⟨rfl, rfl, rfl⟩ := h.unique h'
      obtain ⟨later, rfl, hpath⟩ := ih hlater
      exact ⟨later, (List.append_assoc ..).symm, hpath⟩

/-- **What a session comes to** is what it comes to from wherever its turns have led. -/
theorem comesTo_iff (h : Path restart stage m ends stage₁ m₁) {all : List (Except Stop Unit)} :
    ComesTo restart stage m all outcome m' ↔
      ∃ later, all = ends ++ later ∧ ComesTo restart stage₁ m₁ later outcome m' := by
  constructor
  · rintro ⟨before, last, stage₂, m₂, hpath, hclose, rfl⟩
    obtain ⟨later, rfl, hlater⟩ := h.after hpath hclose
    exact ⟨later ++ [last], List.append_assoc .., later, last, stage₂, m₂, hlater, hclose, rfl⟩
  · rintro ⟨_, rfl, before, last, stage₂, m₂, hpath, hclose, rfl⟩
    exact ⟨ends ++ before, last, stage₂, m₂, h.trans hpath, hclose, (List.append_assoc ..).symm⟩

theorem Close.unique {last' outcome' : Except Stop Unit} (h : Close restart stage m last outcome m₁)
    (h' : Close restart stage m last' outcome' m₂) :
    last' = last ∧ outcome' = outcome ∧ m₂ = m₁ := by
  cases h with
  | ends h =>
    cases h' with
    | ends h' =>
      cases h.unique h'
      exact ⟨rfl, rfl, rfl⟩
    | fails _ h' => cases h.unique h'
    | breaks h' => cases h.unique h'
  | fails _ h =>
    cases h' with
    | ends h' => cases h.unique h'
    | fails _ h' =>
      cases h.unique h'
      exact ⟨rfl, rfl, rfl⟩
    | breaks h' => cases h.unique h'
  | breaks h =>
    cases h' with
    | ends h' => cases h.unique h'
    | fails _ h' => cases h.unique h'
    | breaks h' =>
      cases h.unique h'
      exact ⟨rfl, rfl, rfl⟩

/-- A session comes to one thing. -/
theorem ComesTo.unique {outcome' : Except Stop Unit} (h : ComesTo restart stage m ends outcome m₁)
    (h' : ComesTo restart stage m ends' outcome' m₂) :
    ends' = ends ∧ outcome' = outcome ∧ m₂ = m₁ := by
  obtain ⟨before, last, stage₁, x, hpath, hclose, rfl⟩ := h
  obtain ⟨_, rfl, before', last', stage₂, y, hpath', hclose', rfl⟩ := (comesTo_iff hpath).mp h'
  cases hpath' with
  | refl =>
    obtain ⟨rfl, rfl, rfl⟩ := hclose.unique hclose'
    exact ⟨rfl, rfl, rfl⟩
  | turn hturn _ => exact absurd hclose hturn.not_close

/-! ## Turns and rounds -/

/-- What is left of a round, with a bound on the steps of the loop. -/
def Stage.round (bound k : Nat) : Stage → Action Unit
  | between => execute bound Kernel.quitToken
  | within depth back => do
    returnTo (invoke bound) depth k
    modify fun m => { m with ip := back }

/-- What a session comes to if it is given enough steps: how its rounds end, how it ends, and the
last machine. -/
def RunsTo (restart : Bool) (m : Machine) (ends : List (Except Stop Unit))
    (outcome : Except Stop Unit) (m' : Machine) : Prop :=
  outcome ≠ .error .exhausted ∧ ∃ bound rounds, observe (run bound restart) m = .ok outcome m' ∧
    Driven bound restart bound m rounds outcome m' ∧ rounds.map Round.outcome = ends

section Rounds

variable {bound k n depth : Nat} {back : Option Int} {stop : Stop}

theorem Driven.runsTo {rounds : List Round} (h : Driven bound restart bound m rounds outcome m')
    (hends : outcome ≠ .error .exhausted) :
    RunsTo restart m (rounds.map Round.outcome) outcome m' :=
  ⟨hends, bound, rounds, h.run, h, rfl⟩

theorem exists_runsTo (h : run bound restart m = .ok () m') :
    ∃ ends, RunsTo restart m ends (.ok ()) m' := by
  obtain ⟨rounds, outcome, last, hdriven⟩ := exists_driven bound restart bound m
  have hrun := hdriven.run
  rw [observe, show runWithin bound restart bound m = .ok () m' from h] at hrun
  cases hrun
  exact ⟨_, hdriven.runsTo (by simp)⟩

/-- The loop goes turn by turn. -/
theorem path_of_returnTo (restart : Bool) (back : Option Int)
    {result : EStateM.Result Stop Machine Unit}
    (h : returnTo (invoke bound) depth k m = result) (hends : ∀ m', result ≠ .error .exhausted m') :
    ∃ x, Path restart (.within depth back) m [] (.within depth back) x ∧
      (result = .ok () x ∧ x.returns.length ≤ depth ∨
        ∃ stop m₁, result = .error stop m₁ ∧
          (Stage.within depth back).Does x (.error stop m₁)) := by
  induction k generalizing m with
  | zero => exact absurd h.symm (hends m)
  | succ k ih =>
    rcases Nat.lt_or_ge depth m.returns.length with hd | hd
    · rw [returnTo_of_deeper hd] at h
      cases hstep : stepWith (invoke bound) m with
      | ok _ m₁ =>
        rw [bind_of_ok hstep] at h
        obtain ⟨x, hpath, hx⟩ := ih h
        have hturn : Turn restart (.within depth back) m [] (.within depth back) m₁ :=
          .goes ⟨hd, bound, hstep, by simp⟩
        exact ⟨x, hturn.path.trans hpath, hx⟩
      | error stop m₁ =>
        rw [bind_of_error hstep] at h
        subst h
        exact ⟨m, .refl _ _, .inr ⟨stop, m₁, rfl, hd, bound, hstep, hends⟩⟩
    · rw [returnTo_of_not_deeper hd] at h
      exact ⟨m, .refl _ _, .inl ⟨h.symm, hd⟩⟩

/-- When the loop comes to the end of the input, the session comes to its end. -/
theorem comesTo_of_returnTo (restart : Bool) (back : Option Int)
    (h : returnTo (invoke bound) depth k m = .error .endOfInput m₁) :
    ComesTo restart (.within depth back) m [.error .endOfInput] (.ok ()) (after closeSession m₁) := by
  obtain ⟨x, hpath, ⟨hback, -⟩ | ⟨stop, m₂, hstop, hdoes⟩⟩ :=
    path_of_returnTo restart back h (by simp)
  · cases hback
  · cases hstop
    exact ⟨[], .error .endOfInput, .within depth back, x, hpath, .ends hdoes, rfl⟩

theorem path_of_takeSteps (h : takeSteps (invoke bound) depth k m = .ok () m') :
    Path restart (.within depth back) m [] (.within depth back) m' := by
  induction k generalizing m with
  | zero =>
    cases h
    exact .refl _ _
  | succ k ih =>
    obtain ⟨hd, m₁, hstep, hlater⟩ := takeSteps_succ_eq_ok h
    have hturn : Turn restart (.within depth back) m [] (.within depth back) m₁ :=
      .goes ⟨hd, bound, hstep, by simp⟩
    exact hturn.path.trans (ih hlater)

/-- A round goes turn by turn. -/
theorem path_of_round {o : Except Stop Unit} (h : Round.Goes bound ⟨m, o, m₁⟩)
    (hends : o ≠ .error .exhausted) :
    o = .ok () ∧ Path restart .between m [.ok ()] .between m₁ ∨
      ∃ stop stage x, o = .error stop ∧ Path restart .between m [] stage x ∧
        stage.Does x (.error stop m₁) := by
  rw [Round.Goes, observe, execute, executeWith_apply] at h
  cases hstart : invoke bound Kernel.quitToken m with
  | error stop m₂ =>
    rw [bind_of_error (bind_of_error hstart)] at h
    cases h
    exact .inr ⟨stop, .between, m, rfl, .refl _ _, trivial, bound, hstart, by simpa using hends⟩
  | ok _ m₂ =>
    rw [bind_apply, bind_of_ok hstart] at h
    have henter : Turn restart .between m [] (.within m.returns.length m.ip) m₂ :=
      .goes ⟨trivial, bound, hstart, by simp⟩
    have hloop := path_of_returnTo restart m.ip rfl (fun m' hgiven => by
      rw [hgiven] at h
      cases h
      exact hends rfl)
    obtain ⟨x, hpath, ⟨hcomes, hx⟩ | ⟨stop, m₃, hstops, hdoes⟩⟩ := hloop
    · rw [hcomes] at h
      have hresult : (.ok (.ok ()) { x with ip := m.ip } : EStateM.Result Stop Machine _) =
          .ok o m₁ := h
      obtain ⟨rfl, rfl⟩ := EStateM.Result.ok.inj hresult
      exact .inl ⟨rfl, henter.path.trans (hpath.trans (Turn.comesBack hx).path)⟩
    · rw [hstops] at h
      cases h
      exact .inr ⟨stop, _, x, rfl, henter.path.trans hpath, hdoes⟩

theorem comesTo_of_driven {rounds : List Round} (h : Driven bound restart n m rounds outcome m')
    (hends : outcome ≠ .error .exhausted) :
    ComesTo restart .between m (rounds.map Round.outcome) outcome m' := by
  have hclose {m m₁ m' : Machine} {stop : Stop} {outcome : Except Stop Unit}
      (hround : Round.Goes bound ⟨m, .error stop, m₁⟩) (hstop : stop ≠ .exhausted)
      (hclose : ∀ stage x, stage.Does x (.error stop m₁) →
        Close restart stage x (.error stop) outcome m') :
      ComesTo restart .between m [.error stop] outcome m' := by
    rcases path_of_round hround (by simpa using hstop) with
      ⟨heq, -⟩ | ⟨_, stage, x, heq, hpath, hdoes⟩
    · cases heq
    · cases heq
      exact ⟨[], _, stage, x, hpath, hclose stage x hdoes, rfl⟩
  induction h with
  | tired => exact absurd rfl hends
  | again hround _ ih =>
    rcases path_of_round hround (by simp) with ⟨-, hpath⟩ | ⟨_, _, _, heq, -⟩
    · exact (comesTo_iff hpath).mpr ⟨_, rfl, ih hends⟩
    · cases heq
  | closes hround => exact hclose hround (by simp) fun _ _ => .ends
  | @restarts n m m₁ m' f rounds outcome hrestart hround _ ih =>
    rcases path_of_round hround (by simp) with ⟨heq, -⟩ | ⟨_, stage, x, heq, hpath, hdoes⟩
    · cases heq
    · cases heq
      have hturn : Path restart .between m [.error (.fault f)] .between (m₁.restarted f) :=
        hpath.trans (Turn.restarts hrestart hdoes).path
      exact (comesTo_iff hturn).mpr ⟨_, rfl, ih hends⟩
  | fails hrestart hround => exact hclose hround (by simp) fun _ _ => .fails hrestart
  | @stops n m m₁ stop hend hfault hround =>
    cases stop with
    | endOfInput => exact absurd rfl hend
    | fault f => exact absurd rfl (hfault f)
    | exhausted => exact absurd rfl hends
    | defect d => exact hclose hround (by simp) fun _ _ => .breaks

/-- The rounds that begin with what is left of this one, for all bounds that are large enough. -/
def Rounds (restart : Bool) (stage : Stage) (m : Machine) (ends : List (Except Stop Unit))
    (outcome : Except Stop Unit) (m' : Machine) : Prop :=
  ∃ enough, ∀ bound ≥ enough, ∀ k ≥ enough, ∀ n ≥ enough, ∃ o m₁ rounds,
    observe (stage.round bound k) m = .ok o m₁ ∧ ends = o :: rounds.map Round.outcome ∧
    ∀ start, Round.Goes bound ⟨start, o, m₁⟩ →
      Driven bound restart n start (⟨start, o, m₁⟩ :: rounds) outcome m'

theorem Stage.Does.round_error (h : stage.Does m (.error stop m₁)) :
    ∃ enough, ∀ bound ≥ enough, ∀ k ≥ enough,
      observe (stage.round bound k) m = .ok (.error stop) m₁ := by
  obtain ⟨hinside, least, hact, hends⟩ := h
  refine ⟨least + 1, fun bound hbound k hk => ?_⟩
  have hact := (stage.act_approximates (show least ≤ bound by omega)).of_error hact
    (by rintro rfl; exact hends _ rfl)
  cases stage with
  | between =>
    have hstart : invoke bound Kernel.quitToken m = .error stop m₁ := hact
    rw [observe, Stage.round, execute, executeWith_apply, bind_of_error (bind_of_error hstart)]
  | within depth back =>
    obtain ⟨k, rfl⟩ : ∃ j, k = j + 1 := ⟨k - 1, by omega⟩
    rw [observe, Stage.round, bind_of_error ((returnTo_of_deeper hinside).trans
      (bind_of_error hact))]

theorem Close.rounds (h : Close restart stage m last outcome m') :
    Rounds restart stage m [last] outcome m' := by
  have hrounds {stop : Stop} {m₁ : Machine} (h : stage.Does m (.error stop m₁))
      (hdriven : ∀ bound n start, Round.Goes bound ⟨start, .error stop, m₁⟩ →
        Driven bound restart (n + 1) start [⟨start, .error stop, m₁⟩] outcome m') :
      Rounds restart stage m [.error stop] outcome m' := by
    obtain ⟨enough, hround⟩ := h.round_error
    refine ⟨enough + 1, fun bound hbound k hk n hn => ⟨_, m₁, [], hround bound (by omega) k
      (by omega), rfl, fun start hgoes => ?_⟩⟩
    obtain ⟨n, rfl⟩ : ∃ j, n = j + 1 := ⟨n - 1, by omega⟩
    exact hdriven bound n start hgoes
  cases h with
  | ends h => exact hrounds h fun _ _ _ => .closes
  | fails hrestart h => exact hrounds h fun _ _ _ => .fails hrestart
  | breaks h => exact hrounds h fun _ _ _ => .stops (by simp) (by simp)

theorem Turn.rounds (h : Turn restart stage m ends stage₁ m₁)
    (hlater : Rounds restart stage₁ m₁ later outcome m') :
    Rounds restart stage m (ends ++ later) outcome m' := by
  obtain ⟨enough, hlater⟩ := hlater
  cases h with
  | goes h =>
    obtain ⟨hinside, least, hact, -⟩ := h
    refine ⟨max enough least + 1, fun bound hbound k hk n hn => ?_⟩
    have hact := (stage.act_approximates (show least ≤ bound by omega)).of_ok hact
    cases stage with
    | between =>
      obtain ⟨o, m₂, rounds, hround, hrounds⟩ :=
        hlater bound (by omega) bound (by omega) n (by omega)
      have hstart : invoke bound Kernel.quitToken m = .ok () m₁ := hact
      refine ⟨o, m₂, rounds, ?_, hrounds⟩
      rw [← hround, observe, observe, Stage.round, execute, executeWith_apply, bind_apply,
        bind_of_ok hstart]
      rfl
    | within depth back =>
      obtain ⟨k, rfl⟩ : ∃ j, k = j + 1 := ⟨k - 1, by omega⟩
      obtain ⟨o, m₂, rounds, hround, hrounds⟩ := hlater bound (by omega) k (by omega) n (by omega)
      have hstep : stepWith (invoke bound) m = .ok () m₁ := hact
      refine ⟨o, m₂, rounds, ?_, hrounds⟩
      rw [← hround, observe, observe, Stage.round, bind_apply, returnTo_of_deeper hinside,
        bind_of_ok hstep]
      rfl
  | @comesBack depth back m hback =>
    refine ⟨enough + 1, fun bound hbound k hk n hn => ?_⟩
    obtain ⟨k, rfl⟩ : ∃ j, k = j + 1 := ⟨k - 1, by omega⟩
    obtain ⟨n, rfl⟩ : ∃ j, n = j + 1 := ⟨n - 1, by omega⟩
    obtain ⟨o, m₂, rounds, hround, rfl, hdriven⟩ :=
      hlater bound (by omega) k (by omega) n (by omega)
    refine ⟨.ok (), { m with ip := back }, _ :: rounds, ?_, rfl, fun start hgoes =>
      .again hgoes (hdriven _ hround)⟩
    rw [observe, Stage.round, bind_of_ok (returnTo_of_not_deeper hback)]
    rfl
  | @restarts _ m m₁ f hrestart h =>
    obtain ⟨least, hstops⟩ := h.round_error
    refine ⟨max enough least + 1, fun bound hbound k hk n hn => ?_⟩
    obtain ⟨n, rfl⟩ : ∃ j, n = j + 1 := ⟨n - 1, by omega⟩
    obtain ⟨o, m₂, rounds, hround, rfl, hdriven⟩ :=
      hlater bound (by omega) k (by omega) n (by omega)
    exact ⟨_, m₁, _ :: rounds, hstops bound (by omega) k (by omega), rfl, fun start hgoes =>
      .restarts hrestart hgoes (hdriven _ hround)⟩

theorem Path.rounds (h : Path restart stage m ends stage₁ m₁)
    (hlater : Rounds restart stage₁ m₁ later outcome m') :
    Rounds restart stage m (ends ++ later) outcome m' := by
  induction h with
  | refl => exact hlater
  | turn h _ ih =>
    rw [List.append_assoc]
    exact h.rounds (ih hlater)

theorem Close.outcome_ne (h : Close restart stage m last outcome m') :
    outcome ≠ .error .exhausted := by
  cases h <;> simp

/-- **Turns and rounds** come to the same. -/
theorem runsTo_iff :
    RunsTo restart m ends outcome m' ↔ ComesTo restart .between m ends outcome m' := by
  constructor
  · rintro ⟨hends, bound, rounds, -, hdriven, rfl⟩
    exact comesTo_of_driven hdriven hends
  · rintro ⟨before, last, stage₁, m₁, hpath, hclose, rfl⟩
    obtain ⟨enough, hrounds⟩ := hpath.rounds hclose.rounds
    obtain ⟨o, m₂, rounds, hround, hends, hdriven⟩ :=
      hrounds enough (Nat.le_refl _) enough (Nat.le_refl _) enough (Nat.le_refl _)
    rw [hends]
    exact (hdriven m hround).runsTo hclose.outcome_ne

end Rounds

/-! ## Turns in lockstep -/

section Lockstep

variable {C : Coupling} {n n₁ : Machine} {result : EStateM.Result Stop Machine Unit}

/-- What always ends well leaves machines that go together, or the left one is lost. -/
theorem rel_after {act : Action Unit} (hact : C.Keeps act act)
    (hends : ∀ m, ∃ m', act m = .ok () m') (hrel : C.Rel m n) :
    C.Lost (after act m) ∨ C.Rel (after act m) (after act n) := by
  have hlocked := hact.along m n hrel
  obtain ⟨m', hm⟩ := hends m
  obtain ⟨n', hn⟩ := hends n
  rw [hm, hn] at hlocked
  rw [after, after, hm, hn]
  rcases hlocked with hgone | hagree
  · exact .inl hgone
  · cases hagree with
    | ok h => exact .inr h

theorem lost_after {act : Action Unit} (hact : C.Keeps act act)
    (hends : ∀ m, ∃ m', act m = .ok () m') (hlost : C.Lost m) : C.Lost (after act m) := by
  have hgone := hact.apart m hlost
  obtain ⟨m', hm⟩ := hends m
  rw [hm] at hgone
  rw [after, hm]
  exact hgone

theorem keeps_afterFault (hback : C.back [] []) (f : Fault) :
    C.Keeps (report f >>= fun _ => reset) (report f >>= fun _ => reset) :=
  (Coupling.keeps_sessionReport f).bind fun _ => Coupling.keeps_reset hback

theorem lost_restarted (hback : C.back [] []) (f : Fault) (hlost : C.Lost m) :
    C.Lost (m.restarted f) :=
  lost_after (Coupling.keeps_record _ _ _) (fun _ => ⟨_, rfl⟩)
    (lost_after (keeps_afterFault hback f) (fun _ => ⟨_, rfl⟩) hlost)

theorem rel_restarted (hback : C.back [] []) (f : Fault) (hrel : C.Rel m n)
    (hlost : ¬ C.Lost (m.restarted f)) : C.Rel (m.restarted f) (n.restarted f) := by
  rcases rel_after (keeps_afterFault hback f) (fun _ => ⟨_, rfl⟩) hrel with hgone | hrel
  · exact absurd (lost_after (Coupling.keeps_record _ _ _) (fun _ => ⟨_, rfl⟩) hgone) hlost
  · exact (rel_after (Coupling.keeps_record _ _ _) (fun _ => ⟨_, rfl⟩) hrel).resolve_left hlost

/-- What has not given up has the same outcome as something that has not. -/
theorem ends_of_agree {R : Machine → Machine → Prop} {Q : Unit → Machine → Machine → Prop}
    {result result' : EStateM.Result Stop Machine Unit} (h : Agree R Q result result')
    (hends : ∀ m', result ≠ .error .exhausted m') : ∀ m', result' ≠ .error .exhausted m' := by
  rintro m' rfl
  cases h with
  | error _ => exact hends _ rfl

variable (hwatch : C.watch = fun _ _ => true)

include hwatch in
theorem keeps_act (stage : Stage) (bound : Nat) : C.Keeps (stage.act bound) (stage.act bound) := by
  have hinvoke (x : Cell) : C.Keeps (invoke bound x) (invoke bound x) := by
    have hkeeps := C.invoke bound x
    rwa [hwatch, invokeWatched_true] at hkeeps
  cases stage with
  | between => exact hinvoke _
  | within depth back => exact Coupling.keeps_stepWith hinvoke

include hwatch in
/-- What is done next goes in lockstep. -/
theorem Stage.Does.along (hrel : C.Rel m n) (h : stage.Does m result)
    (hgone : ¬ Gone C.Lost result) :
    ∃ result', stage.Does n result' ∧ Agree C.Rel (fun _ => C.Rel) result result' := by
  obtain ⟨hinside, bound, rfl, hends⟩ := h
  have hagree := ((keeps_act hwatch stage bound).along m n hrel).resolve_left hgone
  refine ⟨_, ⟨?_, bound, rfl, ends_of_agree hagree hends⟩, hagree⟩
  cases stage with
  | between => trivial
  | within depth back =>
    rw [Stage.Inside, C.depth hrel.back]
    exact hinside

theorem Stage.next_eq (hrel : C.Rel m n) (stage : Stage) : stage.next n = stage.next m := by
  cases stage with
  | between => rw [Stage.next, Stage.next, C.depth hrel.back, ip_of_core hrel.core]
  | within depth back => rfl

variable (hback : C.back [] [])

include hwatch hback in
/-- What is lost stays lost. -/
theorem Turn.lost (h : Turn restart stage m ends stage₁ m₁) (hlost : C.Lost m) : C.Lost m₁ := by
  have hgone (bound : Nat) := (keeps_act hwatch stage bound).apart m hlost
  cases h with
  | goes h =>
    obtain ⟨-, bound, hact, -⟩ := h
    have hleft := hgone bound
    rw [hact] at hleft
    exact hleft
  | comesBack _ => exact hlost
  | restarts _ h =>
    obtain ⟨-, bound, hact, -⟩ := h
    have hleft := hgone bound
    rw [hact] at hleft
    exact lost_restarted hback _ (hleft.resolve_left (by simp))

include hback in
/-- A turn is taken on both sides, if what is done next goes in lockstep. -/
theorem Turn.follows (hinside : stage.Inside m) (hnext : stage.next n = stage.next m)
    (hdoes : ∀ result, stage.Does m result → ¬ Gone C.Lost result →
      ∃ result', stage.Does n result' ∧ Agree C.Rel (fun _ => C.Rel) result result')
    (h : Turn restart stage m ends stage₁ m₁) (hlost : ¬ C.Lost m₁) :
    ∃ n₁, Turn restart stage n ends stage₁ n₁ ∧ C.Rel m₁ n₁ := by
  cases h with
  | goes h =>
    obtain ⟨_, hright, hagree⟩ := hdoes _ h hlost
    cases hagree with
    | ok hrel => exact ⟨_, hnext ▸ .goes hright, hrel⟩
  | comesBack h => exact absurd hinside (Nat.not_lt.mpr h)
  | restarts hrestart h =>
    obtain ⟨_, hright, hagree⟩ := hdoes _ h fun hgone =>
      hlost (lost_restarted hback _ (hgone.resolve_left (by simp)))
    cases hagree with
    | error hrel => exact ⟨_, .restarts hrestart hright, rel_restarted hback _ hrel hlost⟩

include hwatch hback in
/-- Turns go in lockstep. -/
theorem Turn.along (hrel : C.Rel m n) (h : Turn restart stage m ends stage₁ m₁)
    (hlost : ¬ C.Lost m₁) : ∃ n₁, Turn restart stage n ends stage₁ n₁ ∧ C.Rel m₁ n₁ := by
  cases h with
  | @comesBack _ back _ h =>
    exact ⟨_, .comesBack ((C.depth hrel.back).trans_le h),
      congrArg (fun k : Core => { k with ip := back }) hrel.core, hrel.tracing, hrel.remarks,
      hrel.back, hrel.console⟩
  | goes h =>
    exact Turn.follows hback h.1 (stage.next_eq hrel) (fun _ h => h.along hwatch hrel) (.goes h)
      hlost
  | restarts hrestart h =>
    exact Turn.follows hback h.1 (stage.next_eq hrel) (fun _ h => h.along hwatch hrel)
      (.restarts hrestart h) hlost

include hwatch hback in
theorem Path.lost (h : Path restart stage m ends stage₁ m₁) (hlost : C.Lost m) : C.Lost m₁ := by
  induction h with
  | refl => exact hlost
  | turn h _ ih => exact ih (h.lost hwatch hback hlost)

include hwatch hback in
/-- **Turn by turn in lockstep.** A session takes the turns that another one takes as long as that
is not lost. -/
theorem Path.along (hrel : C.Rel m n) (h : Path restart stage m ends stage₁ m₁)
    (hlost : ¬ C.Lost m₁) : ∃ n₁, Path restart stage n ends stage₁ n₁ ∧ C.Rel m₁ n₁ := by
  induction h generalizing n with
  | refl => exact ⟨n, .refl _ _, hrel⟩
  | turn h hlater ih =>
    obtain ⟨n₁, hturn, hrel₁⟩ := h.along hwatch hback hrel fun hgone =>
      hlost (hlater.lost hwatch hback hgone)
    obtain ⟨n₂, hpath, hrel₂⟩ := ih hrel₁ hlost
    exact ⟨n₂, .turn hturn hpath, hrel₂⟩

variable (hnone : ∀ m, ¬ C.Lost m)

theorem not_gone_of_does (hnone : ∀ m, ¬ C.Lost m) (h : stage.Does m result) :
    ¬ Gone C.Lost result := by
  obtain ⟨-, bound, -, hends⟩ := h
  intro hgone
  obtain ⟨m', rfl⟩ := hgone.exhausted hnone
  exact hends m' rfl

include hback hnone in
/-- The last turn is taken on both sides. -/
theorem Close.follows
    (hdoes : ∀ result, stage.Does m result → ¬ Gone C.Lost result →
      ∃ result', stage.Does n result' ∧ Agree C.Rel (fun _ => C.Rel) result result')
    (h : Close restart stage m last outcome m') :
    ∃ n', Close restart stage n last outcome n' ∧ C.Rel m' n' := by
  have hclosed {act : Action Unit} (hact : C.Keeps act act) (hends : ∀ m, ∃ m', act m = .ok () m')
      {m n : Machine} (hrel : C.Rel m n) : C.Rel (after act m) (after act n) :=
    (rel_after hact hends hrel).resolve_left (hnone _)
  cases h with
  | ends h =>
    obtain ⟨_, hright, hagree⟩ := hdoes _ h (not_gone_of_does hnone h)
    cases hagree with
    | error hrel => exact ⟨_, .ends hright,
        hclosed (Coupling.keeps_closeSession hback) (fun _ => ⟨_, rfl⟩) hrel⟩
  | fails hrestart h =>
    obtain ⟨_, hright, hagree⟩ := hdoes _ h (not_gone_of_does hnone h)
    cases hagree with
    | error hrel => exact ⟨_, .fails hrestart hright,
        hclosed (keeps_afterFault hback _) (fun _ => ⟨_, rfl⟩) hrel⟩
  | breaks h =>
    obtain ⟨_, hright, hagree⟩ := hdoes _ h (not_gone_of_does hnone h)
    cases hagree with
    | error hrel => exact ⟨_, .breaks hright, hrel⟩

include hwatch hback hnone in
/-- Where nothing is lost, a session comes to the same as the other one. -/
theorem ComesTo.along (hrel : C.Rel m n) (h : ComesTo restart stage m ends outcome m') :
    ∃ n', ComesTo restart stage n ends outcome n' ∧ C.Rel m' n' := by
  obtain ⟨before, last, stage₁, m₁, hpath, hclose, rfl⟩ := h
  obtain ⟨n₁, hpath', hrel₁⟩ := hpath.along hwatch hback hrel (hnone _)
  obtain ⟨n', hclose', hrel'⟩ := Close.follows hback hnone (fun _ h => h.along hwatch hrel₁) hclose
  exact ⟨n', ⟨before, last, stage₁, n₁, hpath', hclose', rfl⟩, hrel'⟩

include hwatch hback hnone in
/-- It does so already if what is done next goes in lockstep. -/
theorem ComesTo.follows (hinside : stage.Inside m) (hnext : stage.next n = stage.next m)
    (hdoes : ∀ result, stage.Does m result → ¬ Gone C.Lost result →
      ∃ result', stage.Does n result' ∧ Agree C.Rel (fun _ => C.Rel) result result')
    (h : ComesTo restart stage m ends outcome m') :
    ∃ n', ComesTo restart stage n ends outcome n' ∧ C.Rel m' n' := by
  obtain ⟨before, last, stage₁, m₁, hpath, hclose, rfl⟩ := h
  cases hpath with
  | refl =>
    obtain ⟨n', hclose', hrel'⟩ := Close.follows hback hnone hdoes hclose
    exact ⟨n', ⟨[], last, stage, n, .refl _ _, hclose', rfl⟩, hrel'⟩
  | turn hturn hlater =>
    obtain ⟨n₁, hturn', hrel₁⟩ := Turn.follows hback hinside hnext hdoes hturn (hnone _)
    obtain ⟨n', hcomes, hrel'⟩ :=
      ComesTo.along hwatch hback hnone hrel₁ ⟨_, last, _, _, hlater, hclose, rfl⟩
    exact ⟨n', (comesTo_iff hturn'.path).mpr ⟨_, List.append_assoc .., hcomes⟩, hrel'⟩

end Lockstep

end Session

end ThreadedForth
