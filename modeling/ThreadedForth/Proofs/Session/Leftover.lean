import ThreadedForth.Proofs.Compiler.Booted
import ThreadedForth.Proofs.Compiler.Pass
import ThreadedForth.Proofs.Machine.Plain
import ThreadedForth.Proofs.Reading
import ThreadedForth.Proofs.Session.Record

/-!
# What is left of a text

A text is fed and `QUIT` is run with the reader out of reach. When the input ends, every line has
been used up, for a word that finds no more to read has looked at all that there was. After a fault
what is left is dropped. But `QUIT` may come to its end before the input does, where its own return
address has been taken from it, or where `BYE` says so; then the rest of the text stays, and
whatever is interpreted next begins with it (`interpretText_leaves_nothing`,
`rest_of_text_is_run_later`).
-/

namespace ThreadedForth

open ThreadedForth.Action ThreadedForth.Recorded ThreadedForth.Session

variable {α : Type} {m m' : Machine} {past : List Event}

/-- `BYE` has ended the input. -/
def SaysBye (past : List Event) : Prop :=
  ∃ e ∈ past.head?, e.behaviour = some (.primitive (.session .bye))

/-- `QUIT` has come to its end. -/
def QuitReturned (past : List Event) : Prop := ∃ m, past.head? = some (.back m)

/-- The reader is out of reach. -/
def Detached (m : Machine) : Prop := m.console.source.reader = none

/-- Where the input ends, nothing is left of it, unless `BYE` has ended it. -/
def EndsEmpty (stop : Stop) (past : List Event) (m : Machine) : Prop :=
  stop = .endOfInput → m.console.source.hasPending = false ∨ SaysBye past

theorem endsEmpty_of_ne {stop : Stop} (hstop : stop ≠ .endOfInput) : EndsEmpty stop past m :=
  fun h => absurd h hstop

/-- What a run keeps, with the reader out of reach. -/
def drain : Invariant where
  ready _ r := Detached r.machine
  settled r := Detached r.machine
  reading r := Detached r.machine
  stopped stop r := Detached r.machine ∧ EndsEmpty stop r.past r.machine

/-! ## Parts of a run -/

theorem detached_of_skipsTo (h : SkipsTo m.console.source m'.console.source) (hm : Detached m) :
    Detached m' := by
  rcases h with h | h
  · exact (congrArg Source.reader h).trans hm
  · exact (congrArg Source.reader h).trans hm

/-- A plain action neither brings the reader back nor ends the input. -/
theorem ensures_plain {act : Action α} (hact : Plain act) :
    Ensures (fun r : Record => Detached r.machine) (lift act) (fun _ r => Detached r.machine)
      drain.stopped := by
  refine ensures_lift fun r hr => ?_
  have hskips := hact.skipsTo r.machine
  rw [after] at hskips
  cases hrun : act r.machine with
  | ok x m' =>
    rw [hrun] at hskips
    exact detached_of_skipsTo hskips hr
  | error stop m' =>
    rw [hrun] at hskips
    refine ⟨detached_of_skipsTo hskips hr, ?_⟩
    rintro rfl
    exact absurd hrun (hact.inside _ _)

/-- Reading ends the input only where nothing is left. -/
theorem ensures_seeking {take? : Source → Option (α × Source)} (htake : Reading.ByLine take?)
    {act : Action α} (hact : ∀ m, Detached m → act m =
      onConsole (Reading.seek m.attendant take? (m.console.source.pending.length + 1)) m) :
    Ensures (fun r : Record => Detached r.machine) (lift act) (fun _ r => Detached r.machine)
      drain.stopped := by
  refine ensures_lift fun r hr => ?_
  have hseek := Reading.ensures_seek_alone htake r.machine.attendant
    (r.machine.console.source.pending.length + 1) r.machine.console ⟨hr, Nat.lt_succ_self _⟩
  rw [hact _ hr, onConsole]
  cases hrun : Reading.seek r.machine.attendant take?
      (r.machine.console.source.pending.length + 1) r.machine.console with
  | ok x c =>
    rw [hrun] at hseek
    exact hseek
  | error stop c =>
    rw [hrun] at hseek
    exact ⟨hseek.1, fun _ => .inl hseek.2.2⟩

theorem linesLeft_of_detached (hm : Detached m) :
    m.console.source.linesLeft = m.console.source.pending.length := by
  rw [Source.linesLeft, hm, Nat.add_zero]

theorem ensures_nextToken : Ensures (fun r : Record => Detached r.machine) (lift nextToken)
    (fun _ r => Detached r.machine) drain.stopped :=
  ensures_seeking Reading.takeToken?_byLine fun m hm => by
    rw [← linesLeft_of_detached hm]
    rfl

theorem ensures_nextChar : Ensures (fun r : Record => Detached r.machine) (lift nextChar)
    (fun _ r => Detached r.machine) drain.stopped :=
  ensures_seeking Reading.takeChar?_byLine fun m hm => by
    rw [← linesLeft_of_detached hm]
    rfl

theorem ensures_made {reads : Bool} {act : Action Unit} (hact : Made reads act) :
    Ensures (fun r : Record => Detached r.machine) (lift act) (fun _ r => Detached r.machine)
      drain.stopped := by
  cases hact with
  | plain hact => exact ensures_plain hact
  | token _ hk =>
    rw [lift_bind]
    exact ensures_nextToken.bind fun name => ensures_plain (hk name)
  | char _ hk =>
    rw [lift_bind]
    exact ensures_nextChar.bind fun c => ensures_plain (hk c)

theorem detached_of_arrived {n : Native} {addr : Int} {r : Record} (h : drain.Arrived n addr r) :
    Detached r.machine := by
  obtain ⟨past, m, log, hm, -, rfl⟩ := h
  exact hm

theorem drain_alone {n : Native} (hn : n.runsWords = false) (addr : Int) :
    Ensures (drain.Arrived n addr) (lift (n.alone addr)) (fun _ => drain.settled)
      drain.stopped := by
  by_cases hbye : n = .primitive (.session .bye)
  · subst hbye
    refine ensures_lift ?_
    rintro _ ⟨past, m, log, hm, hcell, rfl⟩
    have hb : m.behaviour (.token addr) = some (.primitive (.session .bye)) := by
      simp [Machine.behaviour, hcell]
    exact ⟨hm, fun _ => .inr ⟨_, rfl, hb⟩⟩
  by_cases hexit : n = .primitive (.thread .exit)
  · subst hexit
    refine Ensures.weaken ?_ fun r => detached_of_arrived
    refine ensures_lift fun r hr => ?_
    rcases exit_cases (fun _ => pure ()) r.machine with ⟨-, h⟩ | ⟨ip, rest, -, h⟩
    · have hfails : (Native.primitive (.thread .exit)).alone addr r.machine = _ := h
      rw [hfails]
      exact ⟨hr, endsEmpty_of_ne (by simp)⟩
    · have hleaves : (Native.primitive (.thread .exit)).alone addr r.machine = _ := h
      rw [hleaves]
      exact hr
  exact (ensures_made (Native.alone_made hn hexit hbye addr)).weaken fun r => detached_of_arrived

/-- **Every part of a run keeps the reader out of reach, and ends the input only where nothing is
left of it.** -/
theorem drain_kept : drain.Kept where
  tired x r h := ⟨by rcases h with h | h | h <;> exact h, endsEmpty_of_ne (by simp)⟩
  refused x past m f h := ⟨h, endsEmpty_of_ne (by simp)⟩
  unlabelled addr past m stop n h _ hlabel := by
    refine ⟨h, endsEmpty_of_ne ?_⟩
    rintro rfl
    exact Memory.inside_label addr hlabel
  steps x r₀ r _ hsettled _ := (ensures_plain (.core local_nextCell)).weaken fun r' hr' => by
    rw [hr']
    exact hsettled
  returns x r₀ r m _ hsettled _ hm := by
    rw [hm]
    exact hsettled
  alone n addr hn := drain_alone hn addr
  passes addr := (ensures_plain (.core (local_onData _))).weaken fun r => detached_of_arrived
  interprets addr := by
    rw [lift_bind]
    refine ((ensures_nextToken.weaken fun r => detached_of_arrived).bind fun name =>
      ensures_plain (plain_choose name)).imp (fun found r hr => ?_) fun _ _ => id
    cases found <;> exact hr
  begins w addr r _ harrived := detached_of_arrived harrived
  reads bound he := ((he _).imp (fun _ r hr => hr.1) fun _ _ => id).bind fun _ =>
    ensures_plain (.core local_takeKey)
  skips bound he := ((he _).imp (fun _ r hr => hr.1) fun _ _ => id).bind fun _ =>
    ensures_plain (.core (local_onData _))
  ends r hr := hr
  quotes text := ensures_plain (.core (local_literal _))
  prints text := ensures_plain (plain_printText text)

/-! ## Texts -/

/-- Nothing that was fed is left. -/
def Empty (m : Machine) : Prop := m.console.source.hasPending = false

/-- Nothing is left, or `QUIT` has come to its end too early. -/
def Spent (r : Record) : Prop := Empty r.machine ∨ SaysBye r.past ∨ QuitReturned r.past

/-- After a fault nothing is left. -/
abbrev Dropped (stop : Stop) (r : Record) : Prop := (∃ f, stop = .fault f) → Empty r.machine

/-- What is known once `QUIT` has been run. -/
def Drained (outcome : Except Stop Unit) (r : Record) : Prop :=
  (outcome = .ok () → QuitReturned r.past) ∧
    (outcome = .error .endOfInput → Empty r.machine ∨ SaysBye r.past)

theorem quit_drains (bound : Nat) {E : Stop → Record → Prop} :
    Ensures (fun r => Detached r.machine) (Recorded.quit bound) Drained E := by
  have hrun : Ensures (fun r : Record => Detached r.machine) (note .start >>= fun _ =>
      execute bound Kernel.quitToken) (fun _ => drain.Returned) drain.stopped :=
    fun r hr => drain_kept.execute bound Kernel.quitToken _ hr
  refine (ensures_observe hrun).imp (fun outcome r hr => ⟨fun hok => ?_, fun hend => ?_⟩)
    fun _ _ => id
  · obtain ⟨-, past, hpast⟩ := hr.1 () hok
    exact ⟨r.machine, by rw [hpast]; rfl⟩
  · exact (hr.2 _ hend).2 rfl

/-- The fed lines are used up at the end, unless `QUIT` ends too early, and after a fault they are
dropped. -/
theorem interpretFed_spends (bound : Nat) :
    Ensures (fun _ => True) (Recorded.interpretFed bound) (fun _ => Spent) Dropped := by
  refine ensures_get_bind fun r _ => ?_
  have hdetach : Ensures (fun r' => r' = r) (lift (setReader none))
      (fun _ r => Detached r.machine) Dropped := ensures_lift fun _ _ => rfl
  refine hdetach.bind fun _ => (quit_drains bound).bind fun outcome => ?_
  have hattach : Ensures (Drained outcome) (lift (setReader r.machine.console.source.reader))
      (fun _ => Drained outcome) Dropped := ensures_lift fun r hr => ⟨hr.1, hr.2⟩
  refine hattach.bind fun _ => ?_
  cases outcome with
  | ok _ => exact fun r hr => .inr (.inr (hr.1 rfl))
  | error stop =>
    cases stop with
    | endOfInput =>
      refine ensures_lift fun r hr => ?_
      rcases hr.2 rfl with hempty | hbye
      · exact .inl hempty
      · exact .inr (.inl hbye)
    | fault f => exact fun r _ _ => rfl
    | defect d => exact ensures_throw fun r _ => by simp [Dropped]
    | exhausted => exact ensures_throw fun r _ => by simp [Dropped]

/-- What is known of a text, whatever its outcome is. -/
def Interpreted (outcome : Except Stop α) (r : Record) : Prop :=
  (∀ x, outcome = .ok x → Spent r) ∧ ∀ stop, outcome = .error stop → Dropped stop r

theorem ensures_settle (outcome : Except Stop α) :
    Ensures (Interpreted outcome) (lift (settle outcome)) (fun _ => Spent) Dropped := by
  cases outcome with
  | ok x => exact fun r hr => hr.1 x rfl
  | error stop => exact fun r hr => hr.2 stop rfl

theorem interpretText_spends (bound : Nat) (sink : Sink) (text : String) :
    Ensures (fun _ => True) (Recorded.interpretText bound sink text) (fun _ => Spent) Dropped := by
  have hset (t : Transcript) {P : Record → Prop} (hP : ∀ past m, P ⟨past, m⟩ →
      P ⟨past, { m with console := { m.console with transcript := t } }⟩) :
      Ensures P (lift (setTranscript t)) (fun _ => P) Dropped := fun r hr => hP r.past r.machine hr
  have hfed : Ensures (fun _ => True) (lift (modifySource (·.feed text))) (fun _ _ => True)
      Dropped := fun _ _ => trivial
  refine ensures_get_bind fun r _ => Ensures.weaken ?_ fun _ _ => trivial
  refine (hset {} fun _ _ _ => trivial).bind fun _ => hfed.bind fun _ =>
    (ensures_observe (interpretFed_spends bound)).bind fun outcome => ?_
  refine ensures_get_bind fun r hr => Ensures.weaken ?_ fun r' hr' => hr' ▸ hr
  exact (hset _ (P := Interpreted outcome) fun past m h => h).bind fun _ =>
    (ensures_settle outcome).bind fun _ => ensures_pure fun r hr => hr

/-- **What is left of a text.** After a fault nothing is left. If the text is interpreted to its end
nothing is left either, unless `QUIT` has come to its end before, or `BYE` has ended the input. -/
theorem interpretText_leaves_nothing (bound : Nat) (sink : Sink) (text : String) (m : Machine) :
    ∃ outcome r, Recorded.observe (Recorded.interpretText bound sink text) ⟨[], m⟩ = .ok outcome r ∧
      Action.observe (Session.interpretText bound sink text) m = .ok outcome r.machine ∧
      (∀ f, outcome = .error (.fault f) → r.machine.console.source.hasPending = false) ∧
      ∀ printed, outcome = .ok printed →
        r.machine.console.source.hasPending = false ∨ SaysBye r.past ∨ QuitReturned r.past := by
  have hobserved : Ensures (fun _ => True)
      (Recorded.observe (Recorded.interpretText bound sink text)) Interpreted
      (fun _ _ => False) := ensures_observe (interpretText_spends bound sink text)
  have hrun := hobserved ⟨[], m⟩ trivial
  have hfollows := (interpretText_follows bound sink text).observe ⟨[], m⟩
  cases h : Recorded.observe (Recorded.interpretText bound sink text) ⟨[], m⟩ with
  | error stop r =>
    rw [h] at hrun
    exact hrun.elim
  | ok outcome r =>
    rw [h] at hrun hfollows
    exact ⟨outcome, r, rfl, hfollows, fun f hf => hrun.2 _ hf ⟨f, rfl⟩, fun printed => hrun.1 printed⟩

open Kernel

/-- `EXIT` takes the return address of `QUIT`, and the numeral behind it is left. It is interpreted
with the next text, which is empty itself. -/
theorem rest_of_text_is_run_later :
    ∃ m, Session.interpretText 10 .shared "EXIT 1" { memory := bootedMemory } = .ok "" m ∧
      m.console.source.hasPending = true ∧
      ∃ m', Session.interpretText 10 .shared "" m = .ok "" m' ∧ m'.data = [.int 1] := by
  have hends : endsWell (fun printed m => printed = "" ∧ m.console.source.hasPending = true ∧
      endsWell (fun printed m' => printed = "" ∧ m'.data = [.int 1])
        (Session.interpretText 10 .shared "" m))
      (Session.interpretText 10 .shared "EXIT 1" { memory := bootedMemory }) = true := by
    decide +kernel
  obtain ⟨printed, m, hfirst, htest⟩ := exists_of_endsWell hends
  obtain ⟨rfl, hpending, hrest⟩ := of_decide_eq_true htest
  obtain ⟨printed, m', hsecond, htest⟩ := exists_of_endsWell hrest
  obtain ⟨rfl, hdata⟩ := of_decide_eq_true htest
  exact ⟨m, hfirst, hpending, m', hsecond, hdata⟩

end ThreadedForth
