import ThreadedForth.Proofs.Compiler.Veil

/-!
# Sessions do not show open definitions

The invariant of `Proofs.Compiler.Veil` holds at every moment of every session (`veil_kept`,
`veil_lasts`). So what is asked of a session, and whether it faults or comes to the end of the
input on the way, makes no difference: a definition that is not closed is not visible
(`serve_hides_open`).
-/

namespace ThreadedForth

open ThreadedForth.Action ThreadedForth.Course ThreadedForth.Recorded ThreadedForth.Session

variable {p : Prop} {past : List Event} {m m' : Machine} {x : Cell} {n : Native}

/-- What holds at a moment of an orderly session. The kernel is in place if it was in the first
place, which is what `p` stands for. -/
structure Guarded (p : Prop) (past : List Event) (m : Machine) : Prop where
  veiled : Veiled past m
  kernel : p → SparesKernel past → m.memory.OnKernel

/-- What has to hold at each moment. -/
def Guard (p : Prop) (past : List Event) (m : Machine) : Prop := Orderly past → Guarded p past m

/-- What a run keeps of it. -/
def veil (p : Prop) : Invariant where
  ready _ r := r.Steady (Guard p) ∧ (Orderly r.past → Underway r.past r.machine)
  settled r := r.Steady (Guard p) ∧ (Orderly r.past → Underway r.past r.machine)
  reading r := r.Steady (Guard p) ∧ Idle r.past
  stopped _ r := r.Steady (Guard p)

/-! ## Moments -/

theorem Guarded.entry (hg : Guarded p past m) (hu : Underway past m)
    (hproper : (Event.entry x m).Proper past) (hb : m.behaviour x = some n)
    (ha : n.Alters m m'.memory)
    (hmode : n ≠ .primitive (.compiler .rightBracket) → m'.mode = m.mode ∨ m'.mode = .immediate) :
    Guarded p (.entry x m :: past) m' where
  veiled := hg.veiled.entry hu hproper hb ha hmode
  kernel hp hspares := by
    obtain ⟨hfirst, hrest⟩ := List.forall_mem_cons.mp hspares
    exact (hg.kernel hp hrest).entry hu hproper hb ha hfirst

theorem Guarded.other {e : Event} (hg : Guarded p past m) (he : e.behaviour = none)
    (hmemory : m'.memory = m.memory) (hmode : m'.mode = m.mode ∨ m'.mode = .immediate)
    (hfault : (∃ f m, e = .fault f m) → m'.mode = .immediate) : Guarded p (e :: past) m' where
  veiled := hg.veiled.other he hmemory hmode hfault
  kernel hp hspares := by
    rw [hmemory]
    exact hg.kernel hp (List.forall_mem_cons.mp hspares).2

theorem Guarded.append (hg : Guarded p past m) {xs : List Cell}
    (hmemory : m'.memory = m.memory.appendAll xs)
    (hmode : m'.mode = m.mode ∨ m'.mode = .immediate) : Guarded p past m' where
  veiled := hg.veiled.append hmemory hmode
  kernel hp hspares := by
    rw [hmemory]
    exact (hg.kernel hp hspares).appendAll xs

/-- The console, the log, the stacks and the thread do not matter. -/
theorem Guard.congr (h : Guard p past m) (hmemory : m'.memory = m.memory)
    (hmode : m'.mode = m.mode ∨ m'.mode = .immediate) : Guard p past m' :=
  fun ho => (h ho).append (hmemory.trans (Memory.appendAll_nil _).symm) hmode

/-- A dispatch is noted. -/
theorem Guard.entry (h : Guard p past m) (hu : Orderly past → Underway past m)
    (hb : m.behaviour x = some n) (ha : n.Alters m m'.memory)
    (hmode : n ≠ .primitive (.compiler .rightBracket) → m'.mode = m.mode ∨ m'.mode = .immediate) :
    Guard p (.entry x m :: past) m' :=
  fun ⟨hproper, ho⟩ => (h ho).entry (hu ho) hproper hb ha hmode

/-- Something else is noted, as of now. -/
theorem Guard.other {e : Event} (h : Guard p past e.machine) (he : e.behaviour = none)
    (hfault : (∃ f m, e = .fault f m) → e.machine.mode = .immediate) :
    Guard p (e :: past) e.machine :=
  fun ⟨_, ho⟩ => (h ho).other he rfl (.inl rfl) hfault

theorem Underway.congr (hu : Underway past m) (hdata : m'.data = m.data)
    (hmemory : m'.memory = m.memory) (hmode : m'.mode = m.mode) : Underway past m' where
  made := by
    rw [hmemory, hdata]
    exact hu.made
  compiling := by
    rw [hmemory, hdata, hmode]
    exact hu.compiling

/-! ## Quiet actions -/

/-- An action leaves the mode alone, and appends to the memory at most. -/
structure Quiet {α : Type} (act : Action α) : Prop where
  mode : Keeps Machine.mode act
  memory : ∀ m, ∃ xs, (after act m).memory = m.memory.appendAll xs

section QuietActions

variable {α β : Type}

theorem quiet_of_keeps {act : Action α} (hmode : Keeps Machine.mode act)
    (hmemory : Keeps Machine.memory act) : Quiet act :=
  ⟨hmode, fun m => ⟨[], by rw [hmemory m, Memory.appendAll_nil]⟩⟩

theorem Quiet.bind {act : Action α} {f : α → Action β} (ha : Quiet act) (hf : ∀ x, Quiet (f x)) :
    Quiet (act >>= f) where
  mode := keeps_bind ha.mode fun x => (hf x).mode
  memory m := by
    obtain ⟨xs, hxs⟩ := ha.memory m
    rw [after] at hxs ⊢
    rw [bind_apply]
    cases hact : act m with
    | ok x m₁ =>
      rw [hact] at hxs
      obtain ⟨ys, hys⟩ := (hf x).memory m₁
      exact ⟨xs ++ ys, by rw [← Memory.appendAll_appendAll, ← hxs]; exact hys⟩
    | error stop m₁ =>
      rw [hact] at hxs
      exact ⟨xs, hxs⟩

theorem quiet_pure (x : α) : Quiet (pure x : Action α) := quiet_of_keeps (keeps_pure x) (keeps_pure x)

theorem quiet_throw (stop : Stop) : Quiet (throw stop : Action α) :=
  quiet_of_keeps (keeps_throw stop) (keeps_throw stop)

theorem quiet_get : Quiet (get : Action Machine) := quiet_of_keeps keeps_get keeps_get

theorem quiet_onData (act : DataAction α) : Quiet (onData act) :=
  quiet_of_keeps (keeps_onData (fun _ _ => rfl) act) (keeps_onData (fun _ _ => rfl) act)

theorem quiet_ask (g : Memory → Except Stop α) : Quiet (ask g) :=
  quiet_of_keeps (keeps_ask g) (keeps_ask g)

theorem quiet_nextToken : Quiet nextToken :=
  quiet_of_keeps (keeps_nextToken fun _ _ => rfl) (keeps_nextToken fun _ _ => rfl)

theorem quiet_push (x : Cell) : Quiet (push x) :=
  quiet_of_keeps (keeps_push (fun _ _ => rfl) x) (keeps_push (fun _ _ => rfl) x)

theorem quiet_append (x : Cell) : Quiet (append x) :=
  ⟨keeps_append (fun _ _ => rfl) x, fun m => ⟨[x], Memory.append_eq_appendAll m.memory x⟩⟩

theorem quiet_compileLiteral (x : Cell) : Quiet (compileLiteral x) :=
  (quiet_append _).bind fun _ => quiet_append x

theorem quiet_literal (x : Cell) : Quiet (literal x) := by
  refine quiet_get.bind fun m => ?_
  cases m.mode with
  | compile => exact quiet_compileLiteral x
  | immediate => exact quiet_push x

theorem quiet_emit (text : String) : Quiet (emit text) :=
  quiet_of_keeps (keeps_emit (fun _ _ => rfl) text) (keeps_emit (fun _ _ => rfl) text)

theorem quiet_printText (text : String) : Quiet (printText text) := by
  refine quiet_get.bind fun m => ?_
  cases m.mode with
  | compile => exact (quiet_compileLiteral _).bind fun _ => quiet_append _
  | immediate => exact quiet_emit text

theorem quiet_takeKey : Quiet takeKey := by
  refine (quiet_onData _).bind fun code => ?_
  cases characterOf code with
  | ok c => exact quiet_pure c
  | error f => exact quiet_throw _

theorem quiet_choose (name : String) : Quiet (choose name) := by
  refine (quiet_ask _).bind fun found => ?_
  cases found with
  | none =>
    cases Numeral.read? name with
    | none =>
      exact (quiet_of_keeps (keeps_reportUnknown (fun _ _ => rfl) (fun _ _ => rfl) name)
        (keeps_reportUnknown (fun _ _ => rfl) (fun _ _ => rfl) name)).bind fun _ => quiet_pure _
    | some k => exact (quiet_literal _).bind fun _ => quiet_pure _
  | some h =>
    have hlift : Quiet (liftM (h.plus headerSize) : Action Int) :=
      quiet_of_keeps (keeps_liftM_stop _) (keeps_liftM_stop _)
    refine hlift.bind fun code => quiet_get.bind fun m => ?_
    by_cases hmode : m.mode = .immediate
    · rw [if_pos hmode]
      exact quiet_pure _
    · rw [if_neg hmode]
      refine (quiet_ask _).bind fun immediate => ?_
      cases immediate with
      | true => exact quiet_pure _
      | false => exact (quiet_append _).bind fun _ => quiet_pure _

end QuietActions

/-! ## Parts of a run -/

theorem Native.Alters.congr {memory : Memory} (ha : n.Alters m memory) (hdata : m'.data = m.data)
    (hmemory : m'.memory = m.memory) : n.Alters m' memory := by
  cases ha with
  | keeps => exact hmemory ▸ .keeps n
  | appends n xs => exact hmemory ▸ .appends n xs
  | creates name => exact hmemory ▸ .creates name
  | stores y hw hd hi => exact hmemory ▸ .stores y hw (hdata.trans hd) (hmemory ▸ hi)
  | allots hd hx => exact hmemory ▸ .allots (hdata.trans hd) hx
  | hides hd hc => exact .hides (hdata.trans hd) (hmemory ▸ hc)
  | reveals hd hc => exact .reveals (hdata.trans hd) (hmemory ▸ hc)
  | immediates hl hc => exact .immediates (hmemory ▸ hl) (hmemory ▸ hc)

/-- A behaviour that runs no other word leaves the mode, or goes back to immediate mode, unless it
is that of `]`. -/
theorem Native.alone_mode_or (hn : n.runsWords = false)
    (hright : n ≠ .primitive (.compiler .rightBracket)) (addr : Int) (m : Machine) :
    (after (n.alone addr) m).mode = m.mode ∨ (after (n.alone addr) m).mode = .immediate := by
  by_cases hleft : n = .primitive (.compiler .leftBracket)
  · subst hleft
    exact .inr rfl
  · exact .inl (alone_mode hn hleft hright addr m)

theorem veil_alone (n : Native) (addr : Int) (hn : n.runsWords = false) :
    Ensures ((veil p).Arrived n addr) (lift (n.alone addr)) (fun _ => (veil p).settled)
      (veil p).stopped := by
  refine ensures_lift ?_
  rintro _ ⟨past, m, log, ⟨hsteady, hu⟩, hcell, rfl⟩
  have hb : m.behaviour (.token addr) = some n := by simp [Machine.behaviour, hcell]
  let arrived : Machine := { m with current := some addr, log := log }
  have hafter :
      Record.Steady (Guard p) ⟨.entry (.token addr) m :: past, after (n.alone addr) arrived⟩ :=
    hsteady.note fun hg => hg.entry hu hb ((n.alone_alters hn addr arrived).congr rfl rfl)
      fun hright => n.alone_mode_or hn hright addr arrived
  rw [after] at hafter
  cases hrun : n.alone addr arrived with
  | ok _ m' =>
    rw [hrun] at hafter
    exact ⟨hafter, fun ho => (hu ho.2).entry (hsteady.now ho.2).veiled hb hrun hn⟩
  | error stop m' =>
    rw [hrun] at hafter
    exact hafter

/-- A word has been entered that runs other words. -/
theorem veil_arrived {addr : Int} {r : Record} (hn : n.runsWords = true)
    (h : (veil p).Arrived n addr r) : (veil p).reading r := by
  obtain ⟨past, m, log, ⟨hsteady, hu⟩, hcell, rfl⟩ := h
  have hb : m.behaviour (.token addr) = some n := by simp [Machine.behaviour, hcell]
  refine ⟨hsteady.note fun hg => hg.entry hu hb (.keeps n) fun _ => .inl rfl,
    idle_of_runsWords fun n' hn' => ?_⟩
  obtain rfl : n = n' := Option.some.inj (hb.symm.trans hn')
  exact hn

/-- A quiet action makes no difference where no pass is under way. -/
theorem veil_quiet {α : Type} {act : Action α} (ha : Quiet act) :
    Ensures (veil p).reading (lift act) (fun _ => (veil p).reading) (veil p).stopped := by
  refine ensures_lift ?_
  rintro ⟨past, m⟩ ⟨hsteady, hidle⟩
  obtain ⟨xs, hxs⟩ := ha.memory m
  have hafter : Record.Steady (Guard p) ⟨past, after act m⟩ :=
    hsteady.change fun hg ho => (hg ho).append hxs (.inl (ha.mode m))
  rw [after] at hafter
  cases hact : act m with
  | ok x m' =>
    rw [hact] at hafter
    exact ⟨hafter, hidle⟩
  | error stop m' =>
    rw [hact] at hafter
    exact hafter

theorem veil_ready {r : Record} (h : (veil p).reading r) (x : Cell) : (veil p).ready x r :=
  ⟨h.1, fun _ => h.2.underway _⟩

theorem veil_settled {r : Record} (h : (veil p).reading r) : (veil p).settled r :=
  ⟨h.1, fun _ => h.2.underway _⟩

theorem veil_returned {r : Record} (h : (veil p).Returned r) : (veil p).reading r := by
  obtain ⟨⟨hsteady, -⟩, past, hpast⟩ := h
  refine ⟨hsteady, ?_⟩
  rw [hpast]
  exact idle_of_runsWords fun n hn => by cases hn

/-- A dispatch that stops before its behaviour is performed changes nothing. -/
theorem veil_refused (stop : Stop) (h : (veil p).ready x ⟨past, m⟩) :
    (veil p).stopped stop ⟨.entry x m :: past, m⟩ := by
  obtain ⟨hsteady, hu⟩ := h
  cases hb : m.behaviour x with
  | none => exact hsteady.note fun hg => hg.other (e := .entry x m) hb (by simp)
  | some n => exact hsteady.note fun hg => hg.entry hu hb (.keeps n) fun _ => .inl rfl

/-- The thread is moved on. -/
theorem veil_steps {r : Record} (h : (veil p).settled r) :
    Ensures (fun r' => r' = r) (lift nextCell) (veil p).ready (veil p).stopped := by
  obtain ⟨hsteady, hu⟩ := h
  refine ensures_lift ?_
  rintro r' rfl
  rcases nextCell_cases r'.machine with ⟨f, hfails⟩ | ⟨ip, x, -, -, hnext⟩
  · rw [hfails]
    exact hsteady
  · rw [hnext]
    exact ⟨hsteady.change fun hg => hg.congr rfl (.inl rfl), fun ho => (hu ho).congr rfl rfl rfl⟩

/-- A word has been run to its end, and the thread goes on where it was. -/
theorem veil_returns {r : Record} (ip : Option Int) (h : (veil p).settled r)
    (hm : m = { r.machine with ip := ip }) : (veil p).settled ⟨.back m :: r.past, m⟩ := by
  have hmoved : Record.Steady (Guard p) ⟨r.past, m⟩ := by
    rw [hm]
    exact h.1.change fun hg => hg.congr rfl (.inl rfl)
  have hidle : Idle (.back m :: r.past) := idle_of_runsWords fun n hn => by cases hn
  exact ⟨hmoved.note fun hg => hg.other (e := .back m) rfl (by simp), fun _ => hidle.underway m⟩

/-- Every part of a run keeps the invariant. -/
theorem veil_kept (p : Prop) : (veil p).Kept where
  tired x r h := by
    rcases h with h | h | h
    · exact h.1
    · exact h.1
    · exact h.1
  refused x past m f h := veil_refused (.fault f) h
  unlabelled addr past m stop n h _ _ := veil_refused stop h
  steps x r₀ r _ hsettled _ := veil_steps hsettled
  returns x r₀ r m _ hsettled _ hm := veil_returns r₀.machine.ip hsettled hm
  alone n addr hn := veil_alone n addr hn
  passes addr := by
    refine ((veil_quiet (quiet_onData _)).weaken fun r hr => veil_arrived rfl hr).imp ?_ fun _ _ => id
    exact fun code r hr => veil_ready hr _
  interprets addr := by
    refine ((veil_quiet (quiet_nextToken.bind quiet_choose)).weaken fun r hr =>
      veil_arrived rfl hr).imp (fun found r hr => ?_) fun _ _ => id
    cases found with
    | none => exact veil_settled hr
    | some x => exact veil_ready hr x
  begins w addr r hw harrived := by
    refine veil_arrived ?_ harrived
    cases w with
    | lineComment => exact absurd rfl hw
    | _ => rfl
  reads bound he :=
    (((he Kernel.keyToken).weaken fun r hr => veil_ready hr _).imp (fun _ r hr => veil_returned hr)
      fun _ _ => id).bind fun _ => veil_quiet quiet_takeKey
  skips bound he :=
    (((he Kernel.keyToken).weaken fun r hr => veil_ready hr _).imp (fun _ r hr => veil_returned hr)
      fun _ _ => id).bind fun _ => veil_quiet (quiet_onData _)
  ends r hr := veil_settled hr
  quotes text := (veil_quiet (quiet_literal _)).imp (fun _ r hr => veil_settled hr) fun _ _ => id
  prints text := (veil_quiet (quiet_printText _)).imp (fun _ r hr => veil_settled hr) fun _ _ => id

/-! ## Whole sessions -/

/-- Every session keeps the invariant. -/
theorem veil_lasts (p : Prop) : (veil p).Lasts (Record.Steady (Guard p)) fun _ _ => True where
  outside past m console log h := h.change fun hg => hg.congr rfl (.inl rfl)
  leaves past m h := h.change fun hg => hg.congr rfl (.inl rfl)
  resets past m m' f h hm := by
    have hreset : Record.Steady (Guard p) ⟨past, m'⟩ :=
      h.change fun hg => hg.congr (by rw [hm]) (.inr (by rw [hm]))
    exact hreset.note fun hg => hg.other (e := .fault f m') rfl fun _ => by rw [hm, Event.machine]
  starts past m h := by
    have hidle : Idle (.start m :: past) := idle_of_runsWords fun n hn => by cases hn
    exact ⟨h.note fun hg => hg.other (e := .start m) rfl (by simp), fun _ => hidle.underway m⟩
  ends r h := h.1
  stops _ r h := ⟨h, trivial⟩
  tires _ := trivial
  grows _ _ _ _ := trivial

theorem guard_begin (m : Machine) : Guard m.memory.OnKernel [] m := fun _ =>
  { veiled :=
      { hidden := fun _ ho => by cases ho
        latest := fun _ ho => by cases ho
        abandoned := fun _ ha => by cases ha }
    kernel := fun hk _ => hk }

/-- **A definition that is not closed is not visible.** At every moment of a session up to which
`HIDDEN` and `]` were parts of `:` and `REVEAL` was a part of `;`, no search comes upon the header
of an open definition, and each finds what it would if that header were not there. A definition that
was open when a fault was raised stays open. On a kernel that was spared, a stray `;` faults and
changes nothing in the memory. -/
theorem serve_hides_open (m₀ : Machine) (bound : Nat) (requests : List Request) :
    ∃ outcomes r, Recorded.serve bound requests ⟨[], m₀⟩ = .ok outcomes r ∧
      Session.serve bound requests m₀ = .ok outcomes r.machine ∧
      ∀ past m, r.Moment past m → Orderly past →
        (∀ h, Open h past → m.memory.Unseen h) ∧
        (∀ h, Abandoned h past → Open h past) ∧
        (m₀.memory.OnKernel → SparesKernel past → m.mode = .immediate →
          m.memory.find ";" = .ok (some (.int Kernel.semicolonHeader)) → ∀ bound, ∃ m',
            interpretToken (Action.execute (bound + 1)) ";" m = .error (.fault .notCompiling) m' ∧
              m'.memory = m.memory) := by
  have hall : Ensures (Record.Steady (Guard m₀.memory.OnKernel)) (Recorded.serve bound requests) _ _ :=
    (veil_lasts _).serve (veil_kept _) requests
  have hrun := hall ⟨[], m₀⟩ ⟨trivial, guard_begin m₀⟩
  have hfollows := serve_follows bound requests ⟨[], m₀⟩
  cases hserve : Recorded.serve bound requests ⟨[], m₀⟩ with
  | error stop r =>
    rw [hserve] at hrun
    exact hrun.elim
  | ok outcomes r =>
    rw [hserve] at hrun hfollows
    refine ⟨outcomes, r, rfl, hfollows, fun past m hm ho => ?_⟩
    have hg : Guarded m₀.memory.OnKernel past m := hrun.1.moment hm ho
    refine ⟨fun h hopen => Memory.unseen_of_hidden (hg.veiled.hidden h hopen),
      fun h habandoned => (hg.veiled.abandoned h habandoned).1, fun hk hspares hmode hfind bound => ?_⟩
    exact stray_semicolon_fails (hg.kernel hk hspares) hmode hfind bound

end ThreadedForth
