import ThreadedForth.Proofs.Machine.Plain
import ThreadedForth.Proofs.Machine.Stretch
import ThreadedForth.Proofs.Machine.Upkeep
import ThreadedForth.Proofs.Source.Flow

/-!
# The input flows through a run

Whatever words a run is made of, and however they call one another, the input flows on
(`Action.Flows`): lines are begun in the order in which they are to come, and the session reports
nothing. Where the input ends, no line is to come, or the word that was entered last is `BYE`
(`Action.execute_flows`).
-/

namespace ThreadedForth

open ThreadedForth.Action ThreadedForth.Recorded

variable {α β : Type} {c : Console} {m : Machine}

/-- The word that was entered last is `BYE`. -/
def Machine.SaidBye (m : Machine) : Prop :=
  ∃ addr, m.current = some addr ∧
    m.memory.get (.int addr) = .ok (.native (.primitive (.session .bye)))

/-- Some lines were begun since. -/
def Machine.FlowedFrom (c : Console) (m : Machine) : Prop := ∃ ls, c.Flows ls m.console

/-- Where a run has stopped the input has flowed, or it is at its end. -/
def StoppedFrom (c : Console) : Stop → Machine → Prop
  | .endOfInput, m => (∃ ls, c.RunsOut ls m.console) ∨ m.SaidBye ∧ m.FlowedFrom c
  | _, m => m.FlowedFrom c

theorem stoppedFrom_of_ne {stop : Stop} (hstop : stop ≠ .endOfInput) (h : m.FlowedFrom c) :
    StoppedFrom c stop m := by
  cases stop with
  | endOfInput => exact absurd rfl hstop
  | _ => exact h

namespace Action

/-! ## Parts of a run -/

/-- What an action comes to: the input has flowed, or it is at its end. -/
def FlowsOut (c : Console) : EStateM.Result Stop Machine α → Prop
  | .ok _ m => m.FlowedFrom c
  | .error stop m => StoppedFrom c stop m

/-- The input flows through an action. -/
def Flows (act : Action α) : Prop := ∀ m, FlowsOut m.console (act m)

theorem FlowsOut.after_flow {c₁ : Console} {ls : List String} (hflows : c.Flows ls c₁)
    {result : EStateM.Result Stop Machine α} (h : FlowsOut c₁ result) : FlowsOut c result := by
  cases result with
  | ok x m => exact h.imp' (ls ++ ·) fun _ hls => hflows.trans hls
  | error stop m =>
    cases stop with
    | endOfInput =>
      exact h.imp (·.imp' (ls ++ ·) fun _ hls => hflows.runsOut hls)
        fun ⟨hbye, hls⟩ => ⟨hbye, hls.imp' (ls ++ ·) fun _ hls => hflows.trans hls⟩
    | _ => exact h.imp' (ls ++ ·) fun _ hls => hflows.trans hls

theorem flows_get : Flows (get : Action Machine) := fun _ => ⟨[], .refl _⟩

theorem flows_exhausted : Flows (throw .exhausted : Action α) := fun _ => ⟨[], .refl _⟩

theorem Flows.bind {act : Action α} {k : α → Action β} (hact : Flows act)
    (hk : ∀ x, Flows (k x)) : Flows (act >>= k) := by
  intro m
  have hfirst := hact m
  rw [bind_apply]
  cases hrun : act m with
  | ok x m₁ =>
    rw [hrun] at hfirst
    obtain ⟨ls, hls⟩ := hfirst
    exact (hk x m₁).after_flow hls
  | error stop m₁ =>
    rw [hrun] at hfirst
    exact hfirst

/-- A plain action takes of the current line at most, and prints. -/
theorem Plain.flows_within {act : Action α} (h : Plain act) (m : Machine) :
    m.console.Flows [] (after act m).console := by
  induction h generalizing m with
  | core hact =>
    rw [hact.after_eq]
    exact .refl _
  | enter addr => exact .refl _
  | emit text => exact .write _ (by simp) _
  | report name => exact .write _ (by simp) _
  | skipLine => exact .skipLine _
  | @bind α β act k hact hk ih ihk =>
    have hfirst := ih m
    rw [after] at hfirst ⊢
    rw [bind_apply]
    cases hrun : act m with
    | ok x m₁ =>
      rw [hrun] at hfirst
      exact hfirst.trans (ihk x m₁)
    | error stop m₁ =>
      rw [hrun] at hfirst
      exact hfirst

theorem Plain.flows {act : Action α} (h : Plain act) : Flows act := by
  intro m
  have hflows := h.flows_within m
  rw [after] at hflows
  cases hrun : act m with
  | ok x m₁ =>
    rw [hrun] at hflows
    exact ⟨_, hflows⟩
  | error stop m₁ =>
    rw [hrun] at hflows
    refine stoppedFrom_of_ne ?_ ⟨_, hflows⟩
    rintro rfl
    exact h.inside _ _ hrun

theorem flows_onConsole {act : Attendant → Reading α}
    (hact : ∀ m : Machine,
      Reading.Outflow m.console (Reading.Advances m.console) (act m.attendant m.console)) :
    Flows (get >>= fun m => onConsole (act m.attendant)) := by
  intro m
  have hflows := hact m
  rw [bind_of_ok (get_apply _), onConsole]
  cases hrun : act m.attendant m.console with
  | ok x c' =>
    rw [hrun] at hflows
    exact hflows.imp fun _ h => h.1
  | error stop c' =>
    rw [hrun] at hflows
    cases stop with
    | endOfInput => exact .inl hflows
    | _ => exact hflows

theorem nextToken_flows : Flows nextToken := flows_onConsole Reading.nextToken_flows

theorem nextChar_flows : Flows nextChar := flows_onConsole Reading.nextChar_flows

theorem flows_made {reads : Bool} {act : Action Unit} (hact : Made reads act) : Flows act := by
  cases hact with
  | plain hact => exact hact.flows
  | token _ hk => exact nextToken_flows.bind fun name => (hk name).flows
  | char _ hk => exact nextChar_flows.bind fun x => (hk x).flows

end Action

/-! ## What a run keeps -/

/-- What a run keeps that has begun with a console. -/
def flowing (c : Console) : Invariant where
  ready _ r := r.machine.FlowedFrom c
  settled r := r.machine.FlowedFrom c
  reading r := r.machine.FlowedFrom c
  stopped stop r := StoppedFrom c stop r.machine

theorem ensures_flows {act : Action α} (hact : Flows act) :
    Ensures (fun r : Record => r.machine.FlowedFrom c) (lift act)
      (fun _ r => r.machine.FlowedFrom c) (flowing c).stopped := by
  refine ensures_lift ?_
  rintro r ⟨ls, hls⟩
  have hout := (hact r.machine).after_flow hls
  cases hrun : act r.machine with
  | ok x m =>
    rw [hrun] at hout
    exact hout
  | error stop m =>
    rw [hrun] at hout
    exact hout

theorem flowed_of_arrived {n : Native} {addr : Int} {r : Record}
    (h : (flowing c).Arrived n addr r) : r.machine.FlowedFrom c := by
  obtain ⟨past, m, log, hm, -, rfl⟩ := h
  exact hm

theorem flowing_alone {n : Native} (hn : n.runsWords = false) (addr : Int) :
    Ensures ((flowing c).Arrived n addr) (lift (n.alone addr)) (fun _ => (flowing c).settled)
      (flowing c).stopped := by
  by_cases hbye : n = .primitive (.session .bye)
  · subst hbye
    refine ensures_lift ?_
    rintro _ ⟨past, m, log, hm, hcell, rfl⟩
    exact .inr ⟨⟨addr, rfl, hcell⟩, hm⟩
  by_cases hexit : n = .primitive (.thread .exit)
  · subst hexit
    refine Ensures.weaken ?_ fun r => flowed_of_arrived
    refine ensures_lift fun r hr => ?_
    rcases exit_cases (fun _ => pure ()) r.machine with ⟨-, h⟩ | ⟨ip, rest, -, h⟩
    · have hfails : (Native.primitive (.thread .exit)).alone addr r.machine = _ := h
      rw [hfails]
      exact hr
    · have hleaves : (Native.primitive (.thread .exit)).alone addr r.machine = _ := h
      rw [hleaves]
      exact hr
  exact (ensures_flows (flows_made (Native.alone_made hn hexit hbye addr))).weaken fun r =>
    flowed_of_arrived

/-- **Through every part of a run the input flows.** -/
theorem flowing_kept (c : Console) : (flowing c).Kept where
  tired x r h := by rcases h with h | h | h <;> exact h
  refused x past m f h := h
  unlabelled addr past m stop n h _ hlabel := by
    refine stoppedFrom_of_ne ?_ h
    rintro rfl
    exact Memory.inside_label addr hlabel
  steps x r₀ r _ hsettled _ := (ensures_flows (Plain.core local_nextCell).flows).weaken
    fun r' hr' => by
      rw [hr']
      exact hsettled
  returns x r₀ r m _ hsettled _ hm := by
    rw [hm]
    exact hsettled
  alone n addr hn := flowing_alone hn addr
  passes addr :=
    (ensures_flows (Plain.core (local_onData _)).flows).weaken fun r => flowed_of_arrived
  interprets addr := by
    have hflows : Flows (nextToken >>= choose) :=
      nextToken_flows.bind fun name => (plain_choose name).flows
    refine ((ensures_flows hflows).weaken fun r => flowed_of_arrived).imp (fun found r hr => ?_)
      fun _ _ => id
    cases found <;> exact hr
  begins w addr r _ harrived := flowed_of_arrived harrived
  reads bound he := ((he _).imp (fun _ r hr => hr.1) fun _ _ => id).bind fun _ =>
    ensures_flows (Plain.core local_takeKey).flows
  skips bound he := ((he _).imp (fun _ r hr => hr.1) fun _ _ => id).bind fun _ =>
    ensures_flows (Plain.core (local_onData _)).flows
  ends r hr := hr
  quotes text := ensures_flows (Plain.core (local_literal _)).flows
  prints text := ensures_flows (plain_printText text).flows

/-! ## Runs -/

namespace Action

/-- **The input flows through a dispatch.** -/
theorem invoke_flows (bound : Nat) (x : Cell) : Flows (invoke bound x) := by
  intro m
  have hrun := (flowing_kept m.console).invoke bound x ⟨[], m⟩ ⟨[], .refl _⟩
  rw [invoke_follows bound x ⟨[], m⟩]
  cases h : Recorded.invoke bound x ⟨[], m⟩ with
  | ok _ r =>
    rw [h] at hrun
    exact hrun
  | error stop r =>
    rw [h] at hrun
    exact hrun

/-- **The input flows through a word** that is run to its end. -/
theorem execute_flows (bound : Nat) (x : Cell) : Flows (execute bound x) := by
  intro m
  have hrun := (flowing_kept m.console).execute bound x ⟨[], m⟩ ⟨[], .refl _⟩
  rw [execute_follows bound x ⟨[], m⟩]
  cases h : Recorded.execute bound x ⟨[], m⟩ with
  | ok _ r =>
    rw [h] at hrun
    exact hrun.1
  | error stop r =>
    rw [h] at hrun
    exact hrun

theorem interpretToken_flows (bound : Nat) (name : String) :
    Flows (interpretToken (execute bound) name) := by
  rw [interpretToken_eq]
  refine (plain_choose name).flows.bind fun found => ?_
  cases found with
  | none => exact (plain_pure ()).flows
  | some x => exact execute_flows bound x

theorem stepWith_flows (bound : Nat) : Flows (stepWith (invoke bound)) := by
  rw [stepWith_eq]
  exact (Plain.core local_nextCell).flows.bind fun x => invoke_flows bound x

theorem returnTo_flows (bound depth n : Nat) : Flows (returnTo (invoke bound) depth n) := by
  induction n with
  | zero => exact flows_exhausted
  | succ n ih =>
    refine flows_get.bind fun m => ?_
    by_cases hd : Stack.deeperThan depth m.returns = true
    · rw [if_pos hd]
      exact (stepWith_flows bound).bind fun _ => ih
    · rw [if_neg hd]
      exact (plain_pure ()).flows

theorem takeSteps_flows (bound depth n : Nat) : Flows (takeSteps (invoke bound) depth n) := by
  induction n with
  | zero => exact (plain_pure ()).flows
  | succ n ih =>
    refine flows_get.bind fun m => ?_
    by_cases hd : Stack.deeperThan depth m.returns = true
    · rw [if_pos hd]
      exact (stepWith_flows bound).bind fun _ => ih
    · rw [if_neg hd]
      exact flows_exhausted

end Action

end ThreadedForth
