import ThreadedForth.Proofs.Machine.Upkeep
import ThreadedForth.Session

/-!
# Recorded sessions

A session that serves one request after the other, whatever becomes of each (`Session.serve`), and
the same session with a record (`Recorded.serve`, `Recorded.serve_follows`). Its driver notes each
start of `QUIT`, and each fault that comes to it once the machine is reset.

Between two runs of `QUIT` the driver does no more than to change the console and the log, to leave
the thread and to reset the machine. So what is said of runs carries over to sessions
(`Invariant.Lasts.serve`).
-/

namespace ThreadedForth

open ThreadedForth.Action

namespace Session

/-- What can be asked of a session. -/
inductive Request
  /-- to interpret a text -/
  | interpret (sink : Sink) (text : String)
  /-- to interpret a text beside the input -/
  | load (text : String)
  /-- to go through the input, with a restart after each fault or not -/
  | run (restart : Bool)

/-- Does what was asked, and gives what was printed if that can be had. -/
def Request.perform (bound : Nat) : Request → Action String
  | .interpret sink text => interpretText bound sink text
  | .load text => loadText bound text
  | .run restart => do
    Session.run bound restart
    return ""

/-- Serves requests in turn, and gives the outcome of each. -/
def serve (bound : Nat) : List Request → Action (List (Except Stop String))
  | [] => return []
  | request :: requests => do
    let outcome ← observe (request.perform bound)
    let outcomes ← serve bound requests
    return outcome :: outcomes

/-- A text that ends well is served, and then the requests that follow. -/
theorem serve_interpret {bound : Nat} {sink : Sink} {text out : String} {requests : List Request}
    {outcomes : List (Except Stop String)} {m m₁ m' : Machine}
    (h : interpretText bound sink text m = .ok out m₁)
    (h' : serve bound requests m₁ = .ok outcomes m') :
    serve bound (.interpret sink text :: requests) m = .ok (.ok out :: outcomes) m' := by
  simp only [serve, Request.perform, bind_apply, observe, h, h', pure_apply]

end Session

open ThreadedForth.Session

namespace Recorded

variable {α β : Type}

/-! ## Sessions with a record -/

/-- Runs `QUIT`. -/
def quit (bound : Nat) : Recorded (Except Stop Unit) := do
  note .start
  observe (execute bound Kernel.quitToken)

/-- Resets the machine after a fault. -/
def resetAfter (f : Fault) : Recorded Unit := do
  lift reset
  note (.fault f)

/-- Interprets the fed lines to their end. -/
def interpretFed (bound : Nat) : Recorded Unit := do
  let reader := (← get).machine.console.source.reader
  lift (setReader none)
  let outcome ← quit bound
  lift (setReader reader)
  match outcome with
  | .error .endOfInput => lift leaveThread
  | .error (.fault f) =>
    lift (modifySource Source.clear)
    resetAfter f
    throw (.fault f)
  | outcome => lift (settle outcome)

/-- Interprets a text, and gives what it printed if that can be had. -/
def interpretText (bound : Nat) (sink : Sink) (text : String) : Recorded String := do
  let before := (← get).machine.console.transcript
  lift (setTranscript {})
  lift (modifySource (·.feed text))
  let outcome ← observe (interpretFed bound)
  let printed := (← get).machine.console.transcript
  lift (setTranscript (if sink = .separate then before else before.append printed))
  lift (settle outcome)
  return if sink = .writeOnly then "" else printed.printed

/-- Interprets a text with a source of its own. -/
def loadText (bound : Nat) (text : String) : Recorded String := do
  let source := (← get).machine.console.source
  lift (modifySource fun _ => {})
  let outcome ← observe (interpretText bound .shared text)
  lift (modifySource fun _ => source)
  lift (settle outcome)

/-- Runs the input, with a bound on the number of restarts. -/
def runWithin (bound : Nat) (restart : Bool) : Nat → Recorded Unit
  | 0 => throw .exhausted
  | rounds + 1 => do
    match ← quit bound with
    | .ok () => runWithin bound restart rounds
    | .error .endOfInput => lift closeSession
    | .error (.fault f) =>
      lift (report f)
      resetAfter f
      if ! restart then throw (.fault f)
      lift (record .info .session "interpreter restarted")
      runWithin bound restart rounds
    | .error stop => throw stop

/-- Does what was asked. -/
def answer (bound : Nat) : Request → Recorded String
  | .interpret sink text => interpretText bound sink text
  | .load text => loadText bound text
  | .run restart => do
    runWithin bound restart bound
    return ""

/-- Serves requests in turn. -/
def serve (bound : Nat) : List Request → Recorded (List (Except Stop String))
  | [] => return []
  | request :: requests => do
    let outcome ← observe (answer bound request)
    let outcomes ← serve bound requests
    return outcome :: outcomes

/-! ## Recorded sessions are sessions -/

theorem follows_get_bind {f : Machine → Recorded α} {g : Machine → Action α}
    (h : ∀ m, Follows (f m) (g m)) : Follows (get >>= fun r => f r.machine) (get >>= g) :=
  fun r => h r.machine r

theorem quit_follows (bound : Nat) :
    Follows (quit bound) (Action.observe (Action.execute bound Kernel.quitToken)) :=
  (execute_follows bound _).observe.noted _

theorem resetAfter_follows (f : Fault) : Follows (resetAfter f) reset :=
  (follows_lift reset).bind fun _ => follows_note _

theorem interpretFed_follows (bound : Nat) :
    Follows (interpretFed bound) (Session.interpretFed bound) := by
  intro r
  simp only [interpretFed, Session.interpretFed, bind_of_ok (get_apply _)]
  refine ((follows_lift _).bind fun _ => (quit_follows bound).bind fun outcome =>
    (follows_lift _).bind fun _ => ?_) r
  cases outcome with
  | ok _ => exact follows_lift _
  | error stop =>
    cases stop with
    | endOfInput => exact follows_lift leaveThread
    | fault f =>
      exact (follows_lift _).bind fun _ => (resetAfter_follows f).bind fun _ => follows_throw _
    | _ => exact follows_lift _

theorem interpretText_follows (bound : Nat) (sink : Sink) (text : String) :
    Follows (interpretText bound sink text) (Session.interpretText bound sink text) :=
  follows_get_bind fun _ => (follows_lift _).bind fun _ => (follows_lift _).bind fun _ =>
    (interpretFed_follows bound).observe.bind fun _ => follows_get_bind fun _ =>
      (follows_lift _).bind fun _ => (follows_lift _).bind fun _ => follows_pure _

theorem loadText_follows (bound : Nat) (text : String) :
    Follows (loadText bound text) (Session.loadText bound text) :=
  follows_get_bind fun _ => (follows_lift _).bind fun _ =>
    (interpretText_follows bound .shared text).observe.bind fun _ =>
      (follows_lift _).bind fun _ => follows_lift _

theorem runWithin_follows (bound : Nat) (restart : Bool) (rounds : Nat) :
    Follows (runWithin bound restart rounds) (Session.runWithin bound restart rounds) := by
  induction rounds with
  | zero => exact follows_throw _
  | succ n ih =>
    refine (quit_follows bound).bind fun outcome => ?_
    cases outcome with
    | ok _ => exact ih
    | error stop =>
      cases stop with
      | endOfInput => exact follows_lift closeSession
      | fault f =>
        refine (follows_lift _).bind fun _ => (resetAfter_follows f).bind fun _ => ?_
        cases restart with
        | true => exact (follows_lift _).bind fun _ => ih
        | false => exact (follows_throw (.fault f)).bind fun _ => (follows_lift _).bind fun _ => ih
      | _ => exact follows_throw _

theorem answer_follows (bound : Nat) (request : Request) :
    Follows (answer bound request) (request.perform bound) := by
  cases request with
  | interpret sink text => exact interpretText_follows bound sink text
  | load text => exact loadText_follows bound text
  | run restart => exact (runWithin_follows bound restart bound).bind fun _ => follows_pure _

/-- A recorded session goes as the session does. -/
theorem serve_follows (bound : Nat) (requests : List Request) :
    Follows (serve bound requests) (Session.serve bound requests) := by
  induction requests with
  | nil => exact follows_pure _
  | cons request requests ih =>
    exact (answer_follows bound request).observe.bind fun _ => ih.bind fun _ =>
      follows_pure _

end Recorded

/-! ## What a session keeps -/

open ThreadedForth.Recorded

variable {α β : Type} {P H : Record → Prop} {T : Stop → List Event → Prop}

/-- The reason to stop, if there was one, is one of these. -/
def StopsFor (T : Stop → List Event → Prop) (outcome : Except Stop α) (past : List Event) : Prop :=
  ∀ stop, outcome = .error stop → T stop past

/-- From records of one kind something leads to records of which `H` holds. It stops only for
reasons of which `T` holds, given what has happened. -/
abbrev Leads (P H : Record → Prop) (T : Stop → List Event → Prop) (act : Recorded α) : Prop :=
  Ensures P act (fun _ => H) (fun stop r => H r ∧ T stop r.past)

/-- It does so from records of which `H` holds. -/
abbrev Preserves (H : Record → Prop) (T : Stop → List Event → Prop) (act : Recorded α) : Prop :=
  Leads H H T act

theorem preserves_pure (x : α) : Preserves H T (pure x) := ensures_pure fun _ hr => hr

theorem leads_get_bind {f : Record → Recorded β} (hf : ∀ r, Leads P H T (f r)) :
    Leads P H T (get >>= f) := fun r hr => hf r r hr

/-- `H` holds, and the reason to stop that was observed is kept in mind. -/
def Settled (H : Record → Prop) (T : Stop → List Event → Prop) (outcome : Except Stop α)
    (r : Record) : Prop :=
  H r ∧ StopsFor T outcome r.past

theorem Leads.observed {act : Recorded α} {E : Stop → Record → Prop} (ha : Leads P H T act) :
    Ensures P (observe act) (fun outcome => Settled H T outcome) E := by
  refine (ensures_observe ha).imp (fun outcome r hr => ?_) fun _ _ => id
  cases outcome with
  | ok x =>
    refine ⟨hr.1 x rfl, fun stop hstop => ?_⟩
    cases hstop
  | error stop =>
    obtain ⟨hH, hT⟩ := hr.2 stop rfl
    refine ⟨hH, fun stop' hstop => ?_⟩
    cases hstop
    exact hT

theorem Leads.observe_bind {act : Recorded α} {f : Except Stop α → Recorded β}
    (ha : Leads P H T act) (hf : ∀ outcome, Leads (Settled H T outcome) H T (f outcome)) :
    Leads P H T (observe act >>= f) := Ensures.bind ha.observed hf

theorem leads_throw {stop : Stop} : Leads (Settled H T (.error stop : Except Stop α)) H T
    (throw stop : Recorded β) := ensures_throw fun _ hr => ⟨hr.1, hr.2 stop rfl⟩

theorem leads_settle (outcome : Except Stop α) :
    Leads (Settled H T outcome) H T (lift (settle outcome)) := by
  cases outcome with
  | ok x => exact fun _ hr => hr.1
  | error stop => exact leads_throw

/-! ## What the driver does -/

/-- An action that ends well and changes nothing but the console and the log. -/
def Outside (act : Action α) : Prop :=
  ∀ m, ∃ x console log, act m = .ok x { m with console := console, log := log }

theorem Outside.bind {act : Action α} {f : α → Action β} (ha : Outside act)
    (hf : ∀ x, Outside (f x)) : Outside (act >>= f) := by
  intro m
  obtain ⟨x, console, log, hact⟩ := ha m
  obtain ⟨y, console', log', hrest⟩ := hf x { m with console := console, log := log }
  exact ⟨y, console', log', (bind_of_ok hact).trans hrest⟩

theorem outside_get : Outside (get : Action Machine) := fun m => ⟨m, m.console, m.log, rfl⟩

theorem outside_write (voice : Voice) (text : String) : Outside (write voice text) :=
  fun m => ⟨(), _, m.log, rfl⟩

theorem outside_record (level : Level) (channel : Channel) (text : String) :
    Outside (record level channel text) := fun m => ⟨(), m.console, _, rfl⟩

theorem outside_modifySource (f : Source → Source) : Outside (modifySource f) :=
  fun m => ⟨(), _, m.log, rfl⟩

theorem outside_setTranscript (t : Transcript) : Outside (setTranscript t) :=
  fun m => ⟨(), _, m.log, rfl⟩

theorem outside_report (f : Fault) : Outside (report f) :=
  (outside_write _ _).bind fun _ => outside_get.bind fun _ => (outside_record _ _ _).bind fun _ =>
    outside_record _ _ _

/-- What the driver does between two runs of `QUIT` makes no difference. -/
structure Undriven (H : Record → Prop) : Prop where
  outside : ∀ past (m : Machine) console log, H ⟨past, m⟩ →
    H ⟨past, { m with console := console, log := log }⟩
  leaves : ∀ past (m : Machine), H ⟨past, m⟩ → H ⟨past, { m with returns := [], ip := none }⟩
  resets : ∀ past (m m' : Machine) f, H ⟨past, m⟩ →
    m' = { m with data := [], returns := [], mode := .immediate, ip := none, current := none } →
    H ⟨.fault f m' :: past, m'⟩

namespace Undriven

variable (hH : Undriven H) {E : Stop → Record → Prop}

include hH

theorem lift_outside {act : Action α} (ha : Outside act) : Ensures H (lift act) (fun _ => H) E := by
  refine ensures_lift fun r hr => ?_
  obtain ⟨x, console, log, hact⟩ := ha r.machine
  rw [hact]
  exact hH.outside _ _ _ _ hr

theorem leaveThread : Ensures H (lift Session.leaveThread) (fun _ => H) E :=
  ensures_lift fun _ hr => hH.leaves _ _ hr

theorem closeSession : Ensures H (lift Session.closeSession) (fun _ => H) E := by
  rw [Session.closeSession, lift_bind]
  exact hH.leaveThread.bind fun _ => hH.lift_outside (outside_get.bind fun _ =>
    outside_record _ _ _)

theorem resetAfter (f : Fault) : Ensures H (Recorded.resetAfter f) (fun _ => H) E :=
  fun r hr => hH.resets _ _ _ f (hH.outside _ r.machine _ r.machine.log hr) rfl

/-- A reason that still holds when more has happened can be kept in mind. -/
theorem settled (hT : ∀ stop e past, T stop past → T stop (e :: past)) (outcome : Except Stop α) :
    Undriven (Settled H T outcome) where
  outside _ _ _ _ hr := ⟨hH.outside _ _ _ _ hr.1, hr.2⟩
  leaves _ _ hr := ⟨hH.leaves _ _ hr.1, hr.2⟩
  resets _ _ _ _ hr hm :=
    ⟨hH.resets _ _ _ _ hr.1 hm, fun stop hstop => hT stop _ _ (hr.2 stop hstop)⟩

end Undriven

/-- An invariant of runs lasts for a session: from one run of `QUIT` to the next `H` holds, and runs
stop only for reasons of which `T` holds, which go on to hold when more has happened. -/
structure Invariant.Lasts (I : Invariant) (H : Record → Prop) (T : Stop → List Event → Prop) : Prop
    extends Undriven H where
  starts : ∀ past m, H ⟨past, m⟩ → I.ready Kernel.quitToken ⟨.start m :: past, m⟩
  ends : ∀ r, I.settled r → H r
  stops : ∀ stop r, I.stopped stop r → H r ∧ T stop r.past
  tires : ∀ past, T .exhausted past
  grows : ∀ stop e past, T stop past → T stop (e :: past)

namespace Invariant.Lasts

variable {I : Invariant} (hI : I.Kept) (hH : I.Lasts H T) {bound : Nat}

include hH

theorem settled (outcome : Except Stop α) : Undriven (Settled H T outcome) :=
  hH.toUndriven.settled hH.grows outcome

include hI

theorem quit_bind {f : Except Stop Unit → Recorded β}
    (hf : ∀ outcome, Leads (Settled H T outcome) H T (f outcome)) :
    Preserves H T (Recorded.quit bound >>= f) := by
  have hexecute : Ensures (I.ready Kernel.quitToken) (execute bound Kernel.quitToken) (fun _ => H)
      (fun stop r => H r ∧ T stop r.past) :=
    (hI.execute bound Kernel.quitToken).imp (fun _ r hr => hH.ends r hr.1) hH.stops
  have hrun : Preserves H T (note .start >>= fun _ => execute bound Kernel.quitToken) :=
    fun r hr => hexecute _ (hH.starts r.past r.machine hr)
  exact hrun.observe_bind hf

theorem interpretFed : Preserves H T (Recorded.interpretFed bound) := by
  refine leads_get_bind fun _ => (hH.lift_outside (outside_modifySource _)).bind fun _ =>
    hH.quit_bind hI fun outcome => ?_
  refine ((hH.settled outcome).lift_outside (outside_modifySource _)).bind fun _ => ?_
  cases outcome with
  | ok _ => exact leads_settle _
  | error stop =>
    cases stop with
    | endOfInput => exact hH.leaveThread.weaken fun _ hr => hr.1
    | fault f =>
      exact ((hH.settled _).lift_outside (outside_modifySource _)).bind fun _ =>
        ((hH.settled _).resetAfter f).bind fun _ => leads_throw
    | _ => exact leads_settle _

theorem interpretText (sink : Sink) (text : String) :
    Preserves H T (Recorded.interpretText bound sink text) :=
  leads_get_bind fun _ => (hH.lift_outside (outside_setTranscript _)).bind fun _ =>
    (hH.lift_outside (outside_modifySource _)).bind fun _ =>
      (hH.interpretFed hI).observe_bind fun outcome => leads_get_bind fun _ =>
        ((hH.settled outcome).lift_outside (outside_setTranscript _)).bind fun _ =>
          (leads_settle outcome).bind fun _ => preserves_pure _

theorem loadText (text : String) : Preserves H T (Recorded.loadText bound text) :=
  leads_get_bind fun _ => (hH.lift_outside (outside_modifySource _)).bind fun _ =>
    (hH.interpretText hI .shared text).observe_bind fun outcome =>
      ((hH.settled outcome).lift_outside (outside_modifySource _)).bind fun _ =>
        leads_settle outcome

theorem runWithin (restart : Bool) (rounds : Nat) :
    Preserves H T (Recorded.runWithin bound restart rounds) := by
  induction rounds with
  | zero => exact ensures_throw fun r hr => ⟨hr, hH.tires r.past⟩
  | succ n ih =>
    refine hH.quit_bind hI fun outcome => ?_
    cases outcome with
    | ok _ => exact ih.weaken fun _ hr => hr.1
    | error stop =>
      cases stop with
      | endOfInput => exact hH.closeSession.weaken fun _ hr => hr.1
      | fault f =>
        refine ((hH.settled _).lift_outside (outside_report f)).bind fun _ =>
          ((hH.settled _).resetAfter f).bind fun _ => ?_
        have hrest := (hH.lift_outside (outside_record .info .session "interpreter restarted")).bind
          fun _ => ih
        cases restart with
        | true => exact hrest.weaken fun _ hr => hr.1
        | false => exact leads_throw.bind fun _ => hrest
      | _ => exact leads_throw

theorem answer (request : Request) : Preserves H T (Recorded.answer bound request) := by
  cases request with
  | interpret sink text => exact hH.interpretText hI sink text
  | load text => exact hH.loadText hI text
  | run restart => exact (hH.runWithin hI restart bound).bind fun _ => preserves_pure _

end Invariant.Lasts

/-! ## Records grow -/

/-- A record has grown from these events. -/
def grown (past₀ : List Event) : Invariant where
  ready _ r := past₀ <:+ r.past
  settled r := past₀ <:+ r.past
  reading r := past₀ <:+ r.past
  stopped _ r := past₀ <:+ r.past

section Growing

variable {past₀ : List Event}

/-- What is not noted leaves the events as they are. -/
theorem grown_lift (act : Action α) :
    Ensures (fun r => past₀ <:+ r.past) (lift act) (fun _ r => past₀ <:+ r.past)
      (fun _ r => past₀ <:+ r.past) := by
  refine ensures_lift fun r hr => ?_
  cases act r.machine <;> exact hr

theorem arrived_grows {n : Native} {addr : Int} {r : Record} (h : (grown past₀).Arrived n addr r) :
    past₀ <:+ r.past := by
  obtain ⟨past, m, log, hready, -, rfl⟩ := h
  exact hready.trans (List.suffix_cons _ _)

theorem grown_kept (past₀ : List Event) : (grown past₀).Kept where
  tired _ _ h := h.elim id (Or.elim · id id)
  refused _ _ _ _ h := h.trans (List.suffix_cons _ _)
  unlabelled _ _ _ _ _ h _ _ := h.trans (List.suffix_cons _ _)
  steps _ _ r _ hr _ := (grown_lift nextCell).weaken fun r' hr' => by
    rw [hr']
    exact hr
  returns _ _ _ _ _ hr _ _ := hr.trans (List.suffix_cons _ _)
  alone n addr _ := (grown_lift _).weaken fun r hr => arrived_grows hr
  passes addr := (grown_lift _).weaken fun r hr => arrived_grows hr
  interprets addr :=
    ((grown_lift _).weaken fun r hr => arrived_grows hr).imp (fun found r hr => by
      cases found <;> exact hr) fun _ _ => id
  begins _ _ r _ hr := arrived_grows hr
  reads bound he := ((he _).imp (fun _ r hr => hr.1) fun _ _ => id).bind fun _ =>
    grown_lift _
  skips bound he := ((he _).imp (fun _ r hr => hr.1) fun _ _ => id).bind fun _ =>
    grown_lift _
  ends _ hr := hr
  quotes _ := grown_lift _
  prints _ := grown_lift _

theorem grown_lasts (past₀ : List Event) :
    (grown past₀).Lasts (fun r => past₀ <:+ r.past) fun _ _ => True where
  outside _ _ _ _ h := h
  leaves _ _ h := h
  resets _ _ _ _ h _ := h.trans (List.suffix_cons _ _)
  starts _ _ h := h.trans (List.suffix_cons _ _)
  ends _ h := h
  stops _ _ h := ⟨h, trivial⟩
  tires _ := trivial
  grows _ _ _ _ := trivial

theorem serve_grows (past₀ : List Event) (bound : Nat) (requests : List Request) :
    Ensures (fun r => past₀ <:+ r.past) (Recorded.serve bound requests) (fun _ r => past₀ <:+ r.past)
      (fun _ _ => False) := by
  induction requests with
  | nil => exact ensures_pure fun _ hr => hr
  | cons request requests ih =>
    have hanswer : Preserves (fun r => past₀ <:+ r.past) (fun _ _ => True)
        (Recorded.answer bound request) := (grown_lasts past₀).answer (grown_kept past₀) request
    refine (hanswer.observed.imp (fun _ r hr => hr.1) fun _ _ => id).bind fun outcome => ?_
    exact ih.bind fun outcomes => ensures_pure fun _ hr => hr

end Growing

namespace Invariant.Lasts

variable {I : Invariant} (hI : I.Kept) (hH : I.Lasts H T) {bound : Nat}

include hH in
theorem of_suffix {past later : List Event} {stop : Stop} (h : T stop past)
    (hsuffix : past <:+ later) : T stop later := by
  obtain ⟨es, rfl⟩ := hsuffix
  induction es with
  | nil => exact h
  | cons e es ih => exact hH.grows stop e _ ih

include hH hI

/-- **What lasts holds at the end of every session**, and each request that was stopped was stopped
for a reason that is allowed. -/
theorem serve (requests : List Request) :
    Ensures H (Recorded.serve bound requests)
      (fun outcomes r => H r ∧ ∀ outcome ∈ outcomes, StopsFor T outcome r.past)
      (fun _ _ => False) := by
  induction requests with
  | nil => exact ensures_pure fun _ hr => ⟨hr, List.forall_mem_nil _⟩
  | cons request requests ih =>
    refine (hH.answer hI request).observed.bind fun outcome => ?_
    refine Ensures.bind (Q := fun outcomes r =>
      H r ∧ ∀ outcome' ∈ outcome :: outcomes, StopsFor T outcome' r.past) ?_ fun _ =>
        ensures_pure fun _ hr => hr
    rintro r ⟨hr, hstops⟩
    have hrest := ih r hr
    have hgrows := serve_grows r.past bound requests r (List.suffix_refl _)
    cases hserve : Recorded.serve bound requests r with
    | error stop r' =>
      rw [hserve] at hgrows
      exact hgrows
    | ok outcomes r' =>
      rw [hserve] at hrest hgrows
      refine ⟨hrest.1, List.forall_mem_cons.mpr ⟨fun stop hstop => ?_, hrest.2⟩⟩
      exact hH.of_suffix (hstops stop hstop) hgrows

end Invariant.Lasts

end ThreadedForth
