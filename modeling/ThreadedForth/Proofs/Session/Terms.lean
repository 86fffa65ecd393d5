import ThreadedForth.Proofs.Compiler.Booted
import ThreadedForth.Proofs.Compiler.Pass
import ThreadedForth.Proofs.Host.Answer
import ThreadedForth.Proofs.Machine.Stretch
import ThreadedForth.Proofs.Machine.Terms
import ThreadedForth.Proofs.Session.Record

/-!
# The terms of a session

What may be on the data stack, and why a request may be stopped, depends on what has happened. A
`Regime` says how. Values may be on the stack at any time, and a run may stop for any reason that is
no defect; apart from that, each event may allow more: `LIT` the cell behind it, a search along a
link that is no number any reason to stop. Every session keeps to every regime (`Regime.serve`).

Two regimes tell what sessions are safe from. The data stack holds values only, unless `LIT` stood
before a cell that is none (`serve_keeps_values`); and each request ends well or with a fault,
unless an operation was carried out that no word guards against (`serve_stops_with_faults`). Neither
can be had without the condition, since programs write the memory as they like
(`code_field_on_data_stack`, `text_for_a_link_stops`).
-/

namespace ThreadedForth

open ThreadedForth.Action ThreadedForth.Recorded ThreadedForth.Session

/-! ## Regimes -/

/-- Which cells may be on the data stack and why a run may stop, given the events so far. -/
structure Regime where
  allows : List Event → Cell → Prop
  excuses : List Event → Stop → Prop
  /-- values may be there -/
  values : ∀ past (x : Cell), x.isValue → allows past x
  /-- the reasons that are no defects are good ones -/
  regular : ∀ past (stop : Stop), stop.Regular → excuses past stop
  /-- what was allowed stays allowed -/
  allows_note : ∀ e past x, allows past x → allows (e :: past) x
  excuses_note : ∀ e past stop, excuses past stop → excuses (e :: past) stop
  /-- the cell behind `LIT` may be there -/
  literal : ∀ x (m : Machine) past y, m.behaviour x = some (.primitive (.thread .lit)) →
    m.memory.get (pointerCell m.ip) = .ok y → allows (.entry x m :: past) y
  /-- `0BRANCH` may stop where there is no thread -/
  nowhere : ∀ x (m : Machine) past stop,
    m.behaviour x = some (.primitive (.thread .branchFalse)) → m.ip = none →
    excuses (.entry x m :: past) stop
  /-- a search may stop at a link that is no number -/
  link : ∀ x (m : Machine) past stop, (∃ h ∈ m.memory.chain.headers, h.number? = none) →
    excuses (.entry x m :: past) stop
  /-- reading may stop where the host does -/
  host : ∀ x (m : Machine) past line stop, Reading.Attended m.console →
    m.attendant.answer line = some (.error stop) → excuses (.entry x m :: past) stop
  /-- no text may come of a code that is no character -/
  code : ∀ (m : Machine) past code f stop, m.data.head?.bind Cell.int? = some code →
    characterOf code = .error f → excuses (.back m :: past) stop

namespace Regime

variable {α : Type} {G : Regime} {past : List Event} {m : Machine} {log : List LogRecord}
  {addr : Int} {n : Native} {x : Cell} {r : Record}

/-- The cells on the data stack are allowed. -/
def Holds (G : Regime) (past : List Event) (m : Machine) : Prop := AllOf (G.allows past) m.data

/-- What a run keeps. -/
def invariant (G : Regime) : Invariant where
  ready _ r := r.Steady G.Holds
  settled r := r.Steady G.Holds
  reading r := r.Steady G.Holds
  stopped stop r := r.Steady G.Holds ∧ G.excuses r.past stop

/-- To note an event makes no difference to the data stack. -/
theorem note {e : Event} (h : Record.Steady G.Holds ⟨past, e.machine⟩)
    (hdata : m.data = e.machine.data) : Record.Steady G.Holds ⟨e :: past, m⟩ := by
  refine Record.Steady.note h fun hold x hx => ?_
  rw [hdata] at hx
  exact G.allows_note e past x (hold x hx)

/-! ## Dispatches -/

/-- On entry of a word the regime gives the terms on which it runs. -/
theorem terms_of_entry (G : Regime) (past : List Event) (m : Machine) (x : Cell)
    (current : Option Int) (log : List LogRecord) :
    Terms (G.allows (.entry x m :: past)) (G.excuses (.entry x m :: past))
      { m with current := current, log := log } where
  values := G.values _
  regular := G.regular _
  links h hh hn stop := G.link x m past stop ⟨h, hh, hn⟩
  answers hattended line stop hanswer := by
    have hsame : Machine.attendant { m with current := current, log := log } = m.attendant :=
      Machine.attendant_congr rfl rfl rfl rfl rfl
    rw [hsame] at hanswer
    exact G.host x m past line stop hattended hanswer

/-- What keeps to these terms keeps to the regime. -/
theorem lift_of_keeping {act : Action α}
    (h : ∀ past m log, m.memory.get (.int addr) = .ok (.native n) →
      AllOf (G.allows (.entry (.token addr) m :: past)) m.data →
      Keeping (G.allows (.entry (.token addr) m :: past))
        (G.excuses (.entry (.token addr) m :: past))
        { m with current := some addr, log := log } act) :
    Ensures (G.invariant.Arrived n addr) (lift act) (fun _ r => r.Steady G.Holds)
      G.invariant.stopped := by
  refine ensures_lift ?_
  rintro _ ⟨past, m, log, hsteady, hcell, rfl⟩
  let arrived : Machine := { m with current := some addr, log := log }
  have hnoted : Record.Steady G.Holds ⟨.entry (.token addr) m :: past, arrived⟩ := note hsteady rfl
  have hact := h past m log hcell hnoted.now arrived rfl
  cases hrun : act arrived with
  | ok y m' =>
    rw [hrun] at hact
    exact ⟨hnoted.before, hact⟩
  | error stop m' =>
    rw [hrun] at hact
    exact ⟨⟨hnoted.before, hact.1⟩, hact.2⟩

theorem behaviour_of_get (h : m.memory.get (.int addr) = .ok (.native n)) :
    m.behaviour (.token addr) = some n := by
  simp [Machine.behaviour, h]

/-- A primitive that runs no other word keeps to the regime. -/
theorem alone (hn : n.runsWords = false) :
    Ensures (G.invariant.Arrived n addr) (lift (n.alone addr)) (fun _ r => r.Steady G.Holds)
      G.invariant.stopped := by
  refine lift_of_keeping fun past m log hcell hdata => ?_
  have ht := G.terms_of_entry past m (.token addr) (some addr) log
  refine Native.alone_keeping ht hdata hn addr ?_ ?_
  · rintro rfl y hy
    exact G.literal _ m past y (behaviour_of_get hcell) hy
  · rintro rfl hip stop
    exact G.nowhere _ m past stop (behaviour_of_get hcell) hip

/-- `EXECUTE` takes its operand. -/
theorem passes : Ensures (G.invariant.Arrived n addr) (lift (popToken ThreadWord.execute.name))
    (fun _ r => r.Steady G.Holds) G.invariant.stopped :=
  lift_of_keeping fun past m log _ hdata =>
    Moves.keeping hdata (G.terms_of_entry past m (.token addr) (some addr) log).popToken.moves

/-- `INTERPRET` takes a token. -/
theorem interprets : Ensures (G.invariant.Arrived n addr) (lift (nextToken >>= choose))
    (fun _ r => r.Steady G.Holds) G.invariant.stopped :=
  lift_of_keeping fun past m log _ hdata =>
    ((G.terms_of_entry past m (.token addr) (some addr) log).interprets hdata).imp
      (fun _ _ h => h.1) fun _ _ h => h

/-- A dispatch that stops for a good reason before its behaviour is performed. -/
theorem refused {stop : Stop} (h : Record.Steady G.Holds ⟨past, m⟩)
    (hstop : G.excuses (.entry x m :: past) stop) :
    G.invariant.stopped stop ⟨.entry x m :: past, m⟩ :=
  ⟨note (e := .entry x m) h rfl, hstop⟩

/-- A dispatch cannot be logged. -/
theorem unlabelled {stop : Stop} (h : Record.Steady G.Holds ⟨past, m⟩)
    (hlabel : m.memory.label addr = .error stop) :
    G.invariant.stopped stop ⟨.entry (.token addr) m :: past, m⟩ := by
  refine refused h ?_
  rcases Memory.label_stops hlabel with hregular | hlink
  · exact G.regular _ _ hregular
  · exact G.link _ m past stop hlink

/-- The thread is moved on. -/
theorem steps (h : r.Steady G.Holds) :
    Ensures (fun r' => r' = r) (lift nextCell) (fun _ r => r.Steady G.Holds)
      G.invariant.stopped := by
  refine ensures_lift ?_
  rintro r' rfl
  rcases nextCell_cases r'.machine with ⟨f, hfails⟩ | ⟨ip, x, -, -, hnext⟩
  · rw [hfails]
    exact ⟨h, G.regular _ _ (Stop.regular_fault f)⟩
  · rw [hnext]
    exact ⟨h.before, h.now⟩

/-- A word has been run to its end, and the thread goes on where it was. -/
theorem returns (ip : Option Int) (h : r.Steady G.Holds) (hm : m = { r.machine with ip := ip }) :
    Record.Steady G.Holds ⟨.back m :: r.past, m⟩ := by
  have hmoved : Record.Steady G.Holds ⟨r.past, m⟩ := by
    rw [hm]
    exact ⟨h.before, h.now⟩
  exact note (e := .back m) hmoved rfl

/-! ## Reading a text -/

/-- What leaves allowed cells, and stops with faults only. -/
theorem lift_of_ensures {act : Action α}
    (hact : ∀ past, Ensures (G.Holds past) act (fun _ m => G.Holds past m)
      fun stop m => G.Holds past m ∧ ∃ f, stop = .fault f) :
    Ensures (fun r : Record => r.Steady G.Holds) (lift act) (fun _ r => r.Steady G.Holds)
      G.invariant.stopped := by
  refine ensures_lift ?_
  rintro ⟨past, m⟩ ⟨hbefore, hnow⟩
  have hrun := hact past m hnow
  cases h : act m with
  | ok x m' =>
    rw [h] at hrun
    exact ⟨hbefore, hrun⟩
  | error stop m' =>
    rw [h] at hrun
    obtain ⟨hdata, f, rfl⟩ := hrun
    exact ⟨⟨hbefore, hdata⟩, G.regular _ _ (Stop.regular_fault f)⟩

theorem pops : Ensures (fun r : Record => r.Steady G.Holds) (lift pop)
    (fun _ r => r.Steady G.Holds) G.invariant.stopped := by
  refine lift_of_ensures fun past m hm => ?_
  have hpop := DataAction.leaves_pop m.data hm
  rw [pop, onData]
  cases h : DataAction.pop m.data with
  | ok x data =>
    rw [h] at hpop
    exact hpop.1
  | error f data =>
    rw [h] at hpop
    exact ⟨hpop, f, rfl⟩

theorem quotes (text : String) : Ensures (fun r : Record => r.Steady G.Holds)
    (lift (Action.literal (.text text))) (fun _ r => r.Steady G.Holds) G.invariant.stopped := by
  refine lift_of_ensures fun past m hm => ?_
  rw [Action.literal, bind_of_ok (get_apply m)]
  cases m.mode with
  | compile => exact hm
  | immediate => exact hm.cons (G.values past _ rfl)

theorem prints (text : String) : Ensures (fun r : Record => r.Steady G.Holds)
    (lift (printText text)) (fun _ r => r.Steady G.Holds) G.invariant.stopped := by
  refine lift_of_ensures fun past m hm => ?_
  rw [printText, bind_of_ok (get_apply m)]
  cases m.mode with
  | compile => exact hm
  | immediate => exact hm

/-- The character of the code that `KEY` has left. -/
theorem takesKey : Ensures G.invariant.Returned (lift takeKey) (fun _ r => r.Steady G.Holds)
    G.invariant.stopped := by
  refine ensures_lift ?_
  rintro ⟨_, m⟩ ⟨⟨hbefore, hnow⟩, past, hpast⟩
  dsimp only at hpast
  subst hpast
  have hleaves := leaves_takeKey (G.values _) m hnow
  cases h : takeKey m with
  | ok c m' =>
    rw [h] at hleaves
    exact ⟨hbefore, hleaves⟩
  | error stop m' =>
    rw [h] at hleaves
    refine ⟨⟨hbefore, hleaves⟩, ?_⟩
    rcases takeKey_stops h with hregular | ⟨code, f, hcode, hf⟩
    · exact G.regular _ _ hregular
    · exact G.code m past code f stop hcode hf

/-! ## Runs and sessions -/

/-- **Every part of a run keeps to the regime.** -/
theorem kept (G : Regime) : G.invariant.Kept where
  tired x r h := by
    rcases h with h | h | h
    all_goals exact ⟨h, G.regular _ _ Stop.regular_exhausted⟩
  refused x past m f h := refused h (G.regular _ _ (Stop.regular_fault f))
  unlabelled addr past m stop n h _ hlabel := unlabelled h hlabel
  steps x r₀ r _ hsettled _ := steps hsettled
  returns x r₀ r m _ hsettled _ hm := returns r₀.machine.ip hsettled hm
  alone n addr hn := alone hn
  passes addr := passes
  interprets addr := interprets.imp (fun found r hr => by cases found <;> exact hr) fun _ _ => id
  begins w addr r hw harrived := by
    obtain ⟨past, m, log, hsteady, -, rfl⟩ := harrived
    exact note hsteady rfl
  reads bound he := (he Kernel.keyToken).bind fun _ => takesKey
  skips bound he := ((he Kernel.keyToken).imp (fun _ r hr => hr.1) fun _ _ => id).bind fun _ => pops
  ends r hr := hr
  quotes := quotes
  prints := prints

theorem lasts (G : Regime) :
    G.invariant.Lasts (fun r => r.Steady G.Holds) fun stop past => G.excuses past stop where
  outside past m console log h := ⟨h.before, h.now⟩
  leaves past m h := ⟨h.before, h.now⟩
  resets past m m' f h hm := by
    have hreset : Record.Steady G.Holds ⟨past, m'⟩ := by
      rw [hm]
      exact ⟨h.before, List.forall_mem_nil _⟩
    exact note (e := .fault f m') hreset rfl
  starts past m h := note (e := .start m) h rfl
  ends r h := h
  stops stop r h := h
  tires past := G.regular past _ Stop.regular_exhausted
  grows stop e past h := G.excuses_note e past stop h

/-- **A session keeps to the regime**: at every moment the cells on the data stack are allowed, and
each request that was stopped was stopped for a good reason. -/
theorem serve (G : Regime) (bound : Nat) (requests : List Request) {m₀ : Machine}
    (hm₀ : G.Holds [] m₀) :
    ∃ outcomes r, Recorded.serve bound requests ⟨[], m₀⟩ = .ok outcomes r ∧
      Session.serve bound requests m₀ = .ok outcomes r.machine ∧
      (∀ past m, r.Moment past m → G.Holds past m) ∧
      ∀ outcome ∈ outcomes, ∀ stop, outcome = .error stop → G.excuses r.past stop := by
  have hlasts : Ensures (fun r => r.Steady G.Holds) (Recorded.serve bound requests)
      (fun outcomes r => r.Steady G.Holds ∧
        ∀ outcome ∈ outcomes, StopsFor (fun stop past => G.excuses past stop) outcome r.past)
      (fun _ _ => False) := G.lasts.serve G.kept requests
  have hrun := hlasts ⟨[], m₀⟩ ⟨trivial, hm₀⟩
  have hfollows := serve_follows bound requests ⟨[], m₀⟩
  cases hserve : Recorded.serve bound requests ⟨[], m₀⟩ with
  | error stop r =>
    rw [hserve] at hrun
    exact hrun.elim
  | ok outcomes r =>
    rw [hserve] at hrun hfollows
    exact ⟨outcomes, r, rfl, hfollows, fun past m hm => hrun.1.moment hm, hrun.2⟩

end Regime

/-! ## Values -/

/-- If `LIT` is dispatched, the cell behind it is a value. -/
def Event.PushesValue (e : Event) : Prop :=
  e.behaviour = some (.primitive (.thread .lit)) →
    ∀ x, e.machine.memory.get (pointerCell e.machine.ip) = .ok x → x.isValue

/-- Values are allowed, as long as `LIT` has pushed nothing else. -/
def valueRegime : Regime where
  allows past x := (∀ e ∈ past, e.PushesValue) → x.isValue
  excuses _ _ := True
  values _ _ hx _ := hx
  regular _ _ _ := trivial
  allows_note _ _ _ hx hall := hx (List.forall_mem_cons.mp hall).2
  excuses_note _ _ _ _ := trivial
  literal _ _ _ y hlit hy hall := (List.forall_mem_cons.mp hall).1 hlit y hy
  nowhere _ _ _ _ _ _ := trivial
  link _ _ _ _ _ := trivial
  host _ _ _ _ _ _ _ := trivial
  code _ _ _ _ _ _ _ := trivial

/-- **The data stack holds values** at every moment of a session up to which `LIT` has pushed
nothing but values. No other word pushes a code field or a missing link. -/
theorem serve_keeps_values (bound : Nat) (requests : List Request) (m₀ : Machine)
    (hm₀ : ∀ x ∈ m₀.data, x.isValue) :
    ∃ outcomes r, Recorded.serve bound requests ⟨[], m₀⟩ = .ok outcomes r ∧
      Session.serve bound requests m₀ = .ok outcomes r.machine ∧
      ∀ past m, r.Moment past m → (∀ e ∈ past, e.PushesValue) → ∀ x ∈ m.data, x.isValue := by
  have hholds : valueRegime.Holds [] m₀ := fun x hx _ => hm₀ x hx
  obtain ⟨outcomes, r, hserve, hsession, hall, -⟩ := valueRegime.serve bound requests hholds
  refine ⟨outcomes, r, hserve, hsession, fun past m hm hpast x hx => ?_⟩
  exact hall past m hm x hx hpast

open Kernel

/-- So it is in the sessions of a booted machine. -/
theorem booted_session_keeps_values :
    (∀ x ∈ bootedMachine.data, x.isValue) ∧
      ∃ outcomes r, Recorded.serve 20 [.interpret .shared ": TWICE DUP + ;", .run true]
          ⟨[], bootedMachine⟩ = .ok outcomes r ∧
        Session.serve 20 [.interpret .shared ": TWICE DUP + ;", .run true] bootedMachine =
          .ok outcomes r.machine ∧
        ∀ past m, r.Moment past m → (∀ e ∈ past, e.PushesValue) → ∀ x ∈ m.data, x.isValue := by
  have hvalues : ∀ x ∈ bootedMachine.data, x.isValue := by decide
  exact ⟨hvalues, serve_keeps_values _ _ _ hvalues⟩

/-- A line that defines a word with a code field behind `LIT`. -/
def strayLiteral : String := ": BAD LIT [ DOCOL, ] ;"

/-- The machine that has read the line as far as `[`. -/
def openLiteral : Machine where
  returns := [none]
  memory := bootedMemory.withWord "BAD" Flags.hidden [litToken]
  ip := some (quitHeader + 4)
  current := some (codeField (.thread .branch))
  console.source := {
    taken := ": BAD LIT [".toList.reverse
    rest := " DOCOL, ] ;\n".toList
    lineCount := 1 }

/-- The machine that has read the line. -/
def closedLiteral : Machine where
  memory := bootedMemory.withWord "BAD" 0 [litToken, .native .enter, exitToken]
  current := some (codeField (.input .interpret))
  console.source := { taken := (strayLiteral.toList ++ ['\n']).reverse, lineCount := 1 }

theorem interprets_strayLiteral : interpretText 20 .shared strayLiteral { memory := bootedMemory } =
    .ok "" closedLiteral := by
  let start : Machine := { memory := bootedMemory }
  let fed : Machine := { start with console.source.pending := [strayLiteral] }
  let read : Machine := { closedLiteral with returns := [none], ip := some (quitHeader + 5) }
  -- in two stretches, since each of the words is looked for in the whole dictionary
  have hopens : (Action.invoke 20 quitToken >>= fun _ => takeSteps (Action.invoke 20) 0 6) fed =
      .ok () openLiteral := by decide +kernel
  have hcloses : Action.returnTo (Action.invoke 20) 0 14 openLiteral = .error .endOfInput read := by
    decide +kernel
  have hquit : Action.execute 20 quitToken fed = .error .endOfInput read :=
    execute_of_stretch rfl hopens hcloses rfl
  have hfed := interpretFed_of_end (m := fed) rfl hquit
  have hfeed : fed =
      { start with console := { source := start.console.source.feed strayLiteral } } := by
    rw [Source.feed, Text.lines_of_oneLine (by decide) (by decide)]
    rfl
  exact (interpretText_of_quiet (m := start) hfeed hfed rfl .shared :)

/-- A definition may put a code field behind `LIT`, and then it comes to lie on the data stack. -/
theorem code_field_on_data_stack :
    ∃ outcomes m', Session.serve 20
        [.interpret .shared ": BAD LIT [ DOCOL, ] ;", .interpret .shared "BAD"]
        { memory := bootedMemory } = .ok outcomes m' ∧
      m'.data = [.native .enter] ∧ (Cell.native .enter).isValue = false := by
  have hruns : endsWell (fun _ m => decide (m.data = [.native .enter]))
      (interpretText 20 .shared "BAD" closedLiteral) = true := by decide +kernel
  obtain ⟨printed, m', hrun, hdata⟩ := exists_of_endsWell hruns
  exact ⟨_, m', serve_interpret interprets_strayLiteral (serve_interpret hrun rfl),
    of_decide_eq_true hdata, rfl⟩

/-! ## Reasons to stop -/

/-- At such an event something may happen that no word guards against. -/
inductive Event.Unguarded : Event → Prop
  /-- a link of the dictionary is no number -/
  | link {x h : Cell} {m : Machine} (hmem : h ∈ m.memory.chain.headers) (hn : h.number? = none) :
      Unguarded (.entry x m)
  /-- `0BRANCH` is run outside of a thread -/
  | nowhere {x : Cell} {m : Machine} (hb : m.behaviour x = some (.primitive (.thread .branchFalse)))
      (hip : m.ip = none) : Unguarded (.entry x m)
  /-- the host attends to the input, and there is a line that it cannot answer -/
  | host {x : Cell} {m : Machine} {line : String} {d : Defect}
      (hattended : Reading.Attended m.console)
      (hanswer : m.attendant.answer line = some (.error (.defect d))) : Unguarded (.entry x m)
  /-- a word that was run in place of `KEY` has left a code that is no character -/
  | code {m : Machine} {code : Int} {f : Fault} (hcode : m.data.head?.bind Cell.int? = some code)
      (hf : characterOf code = .error f) : Unguarded (.back m)

/-- A reason that is no defect is a good one, and every other one after an unguarded event. -/
def faultRegime : Regime where
  allows _ _ := True
  excuses past stop := stop.Regular ∨ ∃ e ∈ past, e.Unguarded
  values _ _ _ := trivial
  regular _ _ hstop := .inl hstop
  allows_note _ _ _ _ := trivial
  excuses_note e past stop := .imp id fun ⟨e', he', h⟩ => ⟨e', List.mem_cons_of_mem e he', h⟩
  literal _ _ _ _ _ _ := trivial
  nowhere x m past stop hb hip := .inr ⟨_, List.mem_cons_self .., .nowhere hb hip⟩
  link x m past stop hlink := by
    obtain ⟨h, hmem, hn⟩ := hlink
    exact .inr ⟨_, List.mem_cons_self .., .link hmem hn⟩
  host x m past line stop hattended hanswer := by
    cases stop with
    | defect d => exact .inr ⟨_, List.mem_cons_self .., .host hattended hanswer⟩
    | fault f => exact .inl (Stop.regular_fault f)
    | endOfInput => exact .inl Stop.regular_endOfInput
    | exhausted => exact .inl Stop.regular_exhausted
  code m past code f stop hcode hf := .inr ⟨_, List.mem_cons_self .., .code hcode hf⟩

section Requests

variable {α β : Type} {T T' : Stop → Prop} {bound : Nat}

/-- An action stops for such reasons only. -/
abbrev StopsOnly (T : Stop → Prop) (act : Action α) : Prop :=
  Ensures (fun _ => True) act (fun _ _ => True) fun stop _ => T stop

theorem StopsOnly.bind {act : Action α} {f : α → Action β} (ha : StopsOnly T act)
    (hf : ∀ x, StopsOnly T (f x)) : StopsOnly T (act >>= f) := Ensures.bind ha hf

theorem stopsOnly_get : StopsOnly T (get : Action Machine) := fun _ _ => trivial

theorem stopsOnly_modify (f : Machine → Machine) : StopsOnly T (modify f : Action Unit) :=
  fun _ _ => trivial

theorem stopsOnly_pure (x : α) : StopsOnly T (pure x : Action α) := fun _ _ => trivial

theorem stopsOnly_throw {stop : Stop} (h : T stop) : StopsOnly T (throw stop : Action α) :=
  fun _ _ => h

theorem StopsOnly.observe_bind {act : Action α} {f : Except Stop α → Action β}
    (ha : StopsOnly T' act)
    (hf : ∀ outcome, (∀ stop, outcome = .error stop → T' stop) → StopsOnly T (f outcome)) :
    StopsOnly T (Action.observe act >>= f) := by
  intro m _
  have hact := ha m trivial
  rw [bind_apply, Action.observe]
  cases h : act m with
  | ok x m₁ =>
    refine hf (.ok x) (fun stop hstop => ?_) m₁ trivial
    cases hstop
  | error stop m₁ =>
    rw [h] at hact
    refine hf (.error stop) (fun stop' hstop => ?_) m₁ trivial
    cases hstop
    exact hact

theorem stopsOnly_settle {outcome : Except Stop α}
    (h : ∀ stop, outcome = .error stop → T stop) : StopsOnly T (settle outcome) := by
  cases outcome with
  | ok x => exact stopsOnly_pure x
  | error stop => exact stopsOnly_throw (h stop rfl)

/-- No request is stopped by the end of the input, and to go through the input with restarts is not
stopped by a fault either. -/
def Session.Request.Allows : Request → Stop → Prop
  | .run true, stop => stop = .exhausted ∨ ∃ d, stop = .defect d
  | _, stop => stop ≠ .endOfInput

theorem stopsOnly_any (act : Action α) : StopsOnly (fun _ => True) act := by
  intro m _
  cases act m <;> trivial

theorem interpretFed_stopsOnly :
    StopsOnly (fun stop => stop ≠ .endOfInput) (Session.interpretFed bound) := by
  refine stopsOnly_get.bind fun m => (stopsOnly_modify _).bind fun _ =>
    (stopsOnly_any _).observe_bind fun outcome _ => (stopsOnly_modify _).bind fun _ => ?_
  cases outcome with
  | ok _ => exact stopsOnly_pure _
  | error stop =>
    cases stop with
    | endOfInput => exact stopsOnly_modify _
    | fault f =>
      have hreset : StopsOnly (fun stop => stop ≠ .endOfInput) reset :=
        (stopsOnly_modify _).bind fun _ => stopsOnly_modify _
      exact (stopsOnly_modify _).bind fun _ => hreset.bind fun _ => stopsOnly_throw (by simp)
    | defect d => exact stopsOnly_throw (by simp)
    | exhausted => exact stopsOnly_throw (by simp)

theorem interpretText_stopsOnly (sink : Sink) (text : String) :
    StopsOnly (fun stop => stop ≠ .endOfInput) (Session.interpretText bound sink text) :=
  stopsOnly_get.bind fun _ => (stopsOnly_modify _).bind fun _ => (stopsOnly_modify _).bind fun _ =>
    interpretFed_stopsOnly.observe_bind fun _ hstops => stopsOnly_get.bind fun _ =>
      (stopsOnly_modify _).bind fun _ => (stopsOnly_settle hstops).bind fun _ => stopsOnly_pure _

theorem loadText_stopsOnly (text : String) :
    StopsOnly (fun stop => stop ≠ .endOfInput) (Session.loadText bound text) :=
  stopsOnly_get.bind fun _ => (stopsOnly_modify _).bind fun _ =>
    (interpretText_stopsOnly .shared text).observe_bind fun _ hstops =>
      (stopsOnly_modify _).bind fun _ => stopsOnly_settle hstops

theorem runWithin_stopsOnly (restart : Bool) (rounds : Nat) :
    StopsOnly (Request.run restart).Allows (Session.runWithin bound restart rounds) := by
  have hregular : (Request.run restart).Allows .exhausted := by
    cases restart <;> simp [Request.Allows]
  have hdefect (d : Defect) : (Request.run restart).Allows (.defect d) := by
    cases restart <;> simp [Request.Allows]
  induction rounds with
  | zero => exact stopsOnly_throw hregular
  | succ n ih =>
    refine (stopsOnly_any _).observe_bind fun outcome _ => ?_
    cases outcome with
    | ok _ => exact ih
    | error stop =>
      cases stop with
      | endOfInput =>
        exact (stopsOnly_modify _).bind fun _ => stopsOnly_get.bind fun _ => stopsOnly_modify _
      | fault f =>
        have hreport : StopsOnly (Request.run restart).Allows (report f) :=
          (stopsOnly_modify _).bind fun _ => stopsOnly_get.bind fun _ =>
            (stopsOnly_modify _).bind fun _ => stopsOnly_modify _
        have hreset : StopsOnly (Request.run restart).Allows reset :=
          (stopsOnly_modify _).bind fun _ => stopsOnly_modify _
        refine hreport.bind fun _ => hreset.bind fun _ => ?_
        cases restart with
        | true => exact (stopsOnly_modify _).bind fun _ => ih
        | false => exact stopsOnly_throw (by simp [Request.Allows])
      | defect d => exact stopsOnly_throw (hdefect d)
      | exhausted => exact stopsOnly_throw hregular

theorem perform_stopsOnly (request : Request) :
    StopsOnly request.Allows (request.perform bound) := by
  cases request with
  | interpret sink text => exact interpretText_stopsOnly sink text
  | load text => exact loadText_stopsOnly text
  | run restart => exact (runWithin_stopsOnly restart bound).bind fun _ => stopsOnly_pure _

/-- Each request is stopped for a reason that it allows. -/
theorem serve_allows {requests : List Request} {outcomes : List (Except Stop String)}
    {m m' : Machine} (h : Session.serve bound requests m = .ok outcomes m') :
    List.Forall₂ (fun request outcome => ∀ stop, outcome = .error stop → request.Allows stop)
      requests outcomes := by
  induction requests generalizing outcomes m with
  | nil =>
    cases h
    exact .nil
  | cons request requests ih =>
    rw [Session.serve, bind_eq_ok] at h
    obtain ⟨outcome, m₁, hobserve, hrest⟩ := h
    obtain ⟨later, m₂, hlater, hend⟩ := bind_eq_ok.mp hrest
    cases hend
    refine .cons (fun stop hstop => ?_) (ih hlater)
    have hperform : StopsOnly request.Allows (request.perform bound) := perform_stopsOnly request
    have hperform := hperform m trivial
    rw [Action.observe] at hobserve
    cases hrun : request.perform bound m with
    | ok x m₃ =>
      rw [hrun] at hobserve
      cases hobserve
      cases hstop
    | error stop' m₃ =>
      rw [hrun] at hobserve hperform
      cases hobserve
      cases hstop
      exact hperform

end Requests

/-- **Requests are stopped by faults only**, and by no fault if the input is run with restarts,
unless something has happened that no word guards against. -/
theorem serve_stops_with_faults (bound : Nat) (requests : List Request) (m₀ : Machine) :
    ∃ outcomes r, Recorded.serve bound requests ⟨[], m₀⟩ = .ok outcomes r ∧
      Session.serve bound requests m₀ = .ok outcomes r.machine ∧
      List.Forall₂ (fun request outcome => ∀ stop, outcome = .error stop → request.Allows stop)
        requests outcomes ∧
      ∀ outcome ∈ outcomes, ∀ d, outcome = .error (.defect d) → ∃ e ∈ r.past, e.Unguarded := by
  have hholds : faultRegime.Holds [] m₀ := fun _ _ => trivial
  obtain ⟨outcomes, r, hserve, hsession, -, hstops⟩ := faultRegime.serve bound requests hholds
  refine ⟨outcomes, r, hserve, hsession, serve_allows hsession, fun outcome hmem d hd => ?_⟩
  rcases hstops outcome hmem _ hd with hregular | hunguarded
  · exact absurd rfl (hregular d)
  · exact hunguarded

/-- A program may store a text where the newest link stands. Then the next search ends in an
operation that has no meaning for a text. -/
theorem text_for_a_link_stops :
    ∃ m, Session.interpretText 20 .shared "S\" x\" LATEST !" { memory := bootedMemory } = .ok "" m ∧
      ∃ m', Session.interpretText 20 .shared "DUP" m = .error (.defect .meaningless) m' := by
  have hends : endsWell (fun printed m => printed = "" ∧
      reason (Session.interpretText 20 .shared "DUP" m) = some (.defect .meaningless))
      (Session.interpretText 20 .shared "S\" x\" LATEST !" { memory := bootedMemory }) = true := by
    decide +kernel
  obtain ⟨printed, m, hfirst, htest⟩ := exists_of_endsWell hends
  obtain ⟨rfl, hreason⟩ := of_decide_eq_true htest
  exact ⟨m, hfirst, exists_of_reason hreason⟩

end ThreadedForth
