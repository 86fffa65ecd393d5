import ThreadedForth.Proofs.Machine.Bound
import ThreadedForth.Proofs.Machine.Dispatch
import ThreadedForth.Proofs.Machine.Link
import ThreadedForth.Proofs.Machine.Plain

/-!
# Runs in lockstep

Two runs of the same words on machines that differ in what no word looks at: where the lines come
from, say, or what has appeared before the user. A `Coupling` says how they differ, and has to be
kept by the parts of which words are made. Then whole runs go in lockstep: the outcome is the same,
and the machines differ in the same way (`Coupling.execute`).

The runs may part. The run on the left may be watched and give up at a dispatch that does not pass,
and it may be lost, once its source has come to a point from which there is no way back. Nothing is
claimed from there on.
-/

namespace ThreadedForth

open ThreadedForth.Action

variable {α β : Type}

/-! ## Couplings -/

/-- How two machines differ on which the same words run: in their consoles, in where words go back
to, and in the log. -/
structure Coupling where
  /-- how the consoles differ -/
  feed : Feed
  /-- how the return stacks differ -/
  back : List (Option Int) → List (Option Int) → Prop
  /-- the dispatches on the left at which the runs do not part -/
  watch : Watch
  /-- what is known of a behaviour that is run, and of the machine on the left -/
  allows : Native → Machine → Prop
  allowed : ∀ {addr : Int} {n : Native} {m : Machine} (current : Option Int) (log : List LogRecord),
    watch (.token addr) m = true → m.memory.get (.int addr) = .ok (.native n) →
    allows n { m with current := current, log := log }
  depth : ∀ {r r'}, back r r' → r'.length = r.length
  enters : ∀ {r r'} (ip : Option Int), back r r' → back (ip :: r) (ip :: r')
  exits : ∀ {m : Machine} {ip ip' : Option Int} {r r' : List (Option Int)},
    allows (.primitive (.thread .exit)) m → m.returns = ip :: r → back (ip :: r) (ip' :: r') →
    ip' = ip ∧ back r r'
  attends : ∀ {n : Native} {m m' : Machine}, n.reads = true → allows n m → m'.core = m.core →
    m'.remarks = m.remarks → back m.returns m'.returns → feed.hosts m.attendant m'.attendant

namespace Coupling

/-- A coupling of machines with the same return stack. -/
def withReturns (feed : Feed) (watch : Watch) (allows : Native → Machine → Prop)
    (allowed : ∀ {addr : Int} {n : Native} {m : Machine} (current : Option Int) (log : List LogRecord),
      watch (.token addr) m = true → m.memory.get (.int addr) = .ok (.native n) →
      allows n { m with current := current, log := log })
    (attends : ∀ {n : Native} {m m' : Machine}, n.reads = true → allows n m → m'.core = m.core →
      m'.remarks = m.remarks → m'.returns = m.returns →
      feed.hosts m.attendant m'.attendant) : Coupling where
  feed := feed
  back r r' := r' = r
  watch := watch
  allows := allows
  allowed := allowed
  depth h := congrArg List.length h
  enters ip h := congrArg (ip :: ·) h
  exits _ _ h := List.cons.inj h
  attends := attends

variable (C : Coupling)

/-- The machine on the left goes together with that on the right. -/
structure Rel (m m' : Machine) : Prop where
  core : m'.core = m.core
  tracing : m'.tracing = m.tracing
  remarks : m'.remarks = m.remarks
  back : C.back m.returns m'.returns
  console : C.feed.rel m.console m'.console

/-- From this machine on the left there is no way back. -/
def Lost (m : Machine) : Prop := C.feed.lost m.console.source

/-- Two actions go in lockstep from machines of the first kind on. -/
abbrev Lockstep (P : Machine → Machine → Prop) (act act' : Action α)
    (Q : α → Machine → Machine → Prop) : Prop :=
  ThreadedForth.Lockstep C.Lost C.Rel P act act' Q

/-- They do so as long as the machines go together. -/
abbrev Keeps (act act' : Action α) : Prop := C.Lockstep C.Rel act act' fun _ => C.Rel

variable {C} {act : Action α} {m m' : Machine}

theorem keeps_pure (x : α) : C.Keeps (pure x) (pure x) := lockstep_pure fun _ _ h => h

theorem Rel.withCore (h : C.Rel m m') (k : Core) : C.Rel (m.withCore k) (m'.withCore k) :=
  ⟨rfl, h.tracing, h.remarks, h.back, h.console⟩

theorem Rel.noted (h : C.Rel m m') (current current' : Option Int) (log log' : List LogRecord) :
    C.Rel { m with current := current, log := log } { m' with current := current', log := log' } :=
  ⟨h.core, h.tracing, h.remarks, h.back, h.console⟩

theorem Rel.writes (h : C.Rel m m') (voice : Voice) (text : String) :
    C.Rel { m with console.transcript := m.console.transcript.write voice text }
      { m' with console.transcript := m'.console.transcript.write voice text } :=
  ⟨h.core, h.tracing, h.remarks, h.back, C.feed.writes voice text h.console⟩

/-! ## Plain actions -/

theorem keeps_local (hact : Local act) : C.Keeps act act where
  apart m hm := by
    have hsame := hact.same m m rfl
    cases hrun : act m with
    | ok x m₁ =>
      rw [hrun] at hsame
      obtain ⟨-, hm₁⟩ := EStateM.Result.ok.inj hsame
      rw [hm₁]
      exact hm
    | error stop m₁ =>
      rw [hrun] at hsame
      obtain ⟨-, hm₁⟩ := EStateM.Result.error.inj hsame
      rw [hm₁]
      exact .inr hm
  along m m' hm := by
    have hleft := hact.same m m rfl
    rw [hact.same m m' hm.core]
    right
    cases hrun : act m with
    | ok x m₁ =>
      rw [hrun] at hleft
      rw [hleft]
      exact .ok (hm.withCore m₁.core)
    | error stop m₁ =>
      rw [hrun] at hleft
      rw [hleft]
      exact .error (hm.withCore m₁.core)

theorem keeps_write (voice : Voice) (text : String) : C.Keeps (write voice text) (write voice text) :=
  lockstep_modify (fun _ hm => hm) fun _ _ hm => hm.writes voice text

theorem keeps_report (name : String) : C.Keeps (reportUnknown name) (reportUnknown name) where
  apart _ hm := hm
  along _ _ hm := .inr (.ok ((hm.noted _ _ _ _).writes _ _))

theorem keeps_enter (addr : Int) :
    C.Keeps (modify fun m => { m with returns := m.ip :: m.returns, ip := some (addr + 1) })
      (modify fun m => { m with returns := m.ip :: m.returns, ip := some (addr + 1) }) := by
  have hpush : C.Keeps (modify fun m => { m with returns := m.ip :: m.returns } : Action Unit)
      (modify fun m => { m with returns := m.ip :: m.returns }) :=
    lockstep_modify (fun _ hm => hm) fun m m' hm =>
      ⟨hm.core, hm.tracing, hm.remarks, ip_of_core hm.core ▸ C.enters m.ip hm.back, hm.console⟩
  exact hpush.bind fun _ => keeps_local (local_setPointer (some (addr + 1)))

/-- **Plain actions go in lockstep.** -/
theorem keeps_plain (hact : Plain act) : C.Keeps act act := by
  induction hact with
  | core hact => exact keeps_local hact
  | enter addr => exact keeps_enter addr
  | emit text => exact keeps_write .program text
  | report name => exact keeps_report name
  | skipLine =>
    exact ⟨fun _ hm => C.feed.lost_skips hm, fun _ _ hm => (C.feed.skips hm.console).imp id
      fun h => .ok ⟨hm.core, hm.tracing, hm.remarks, hm.back, h⟩⟩
  | bind _ _ ih ihk => exact ih.bind ihk

/-! ## Primitives -/

/-- The machines go together, and the behaviour may be run. -/
def Admits (C : Coupling) (n : Native) (m m' : Machine) : Prop := C.Rel m m' ∧ C.allows n m

/-- What reads from the console first. -/
theorem keeps_onConsole {n : Native} (hreads : n.reads = true) {read : Attendant → Reading α}
    (hread : ∀ host host', C.feed.hosts host host' → C.feed.Keeps (read host) (read host'))
    (hgone : ∀ host {c : Console}, C.feed.lost c.source →
      Gone (fun c => C.feed.lost c.source) (read host c)) :
    C.Lockstep (C.Admits n) (get >>= fun m => onConsole (read m.attendant))
      (get >>= fun m => onConsole (read m.attendant)) fun _ => C.Rel where
  apart m hm := by
    have hact := hgone m.attendant hm
    rw [bind_of_ok (get_apply m), onConsole]
    cases hrun : read m.attendant m.console with
    | ok x c =>
      rw [hrun] at hact
      exact hact
    | error stop c =>
      rw [hrun] at hact
      exact hact
  along m m' hm := by
    obtain ⟨hrel, hallows⟩ := hm
    have hhosts := C.attends hreads hallows hrel.core hrel.remarks hrel.back
    have hact := (hread _ _ hhosts).along _ _ hrel.console
    rw [bind_of_ok (get_apply m), bind_of_ok (get_apply m'), onConsole, onConsole]
    generalize read m.attendant m.console = left at hact
    generalize read m'.attendant m'.console = right at hact
    rcases hact with hgone | hagree
    · left
      cases left with
      | ok x c => exact hgone
      | error stop c => exact hgone
    · right
      cases hagree with
      | ok hc => exact .ok ⟨hrel.core, hrel.tracing, hrel.remarks, hrel.back, hc⟩
      | error hc => exact .error ⟨hrel.core, hrel.tracing, hrel.remarks, hrel.back, hc⟩

theorem keeps_nextToken {n : Native} (hreads : n.reads = true) :
    C.Lockstep (C.Admits n) nextToken nextToken fun _ => C.Rel :=
  keeps_onConsole hreads
    (fun host _ hhosts => ⟨fun _ => C.feed.lost_tokens host, fun _ _ => C.feed.tokens hhosts⟩)
    C.feed.lost_tokens

theorem keeps_nextChar {n : Native} (hreads : n.reads = true) :
    C.Lockstep (C.Admits n) nextChar nextChar fun _ => C.Rel :=
  keeps_onConsole hreads
    (fun host _ hhosts => ⟨fun _ => C.feed.lost_chars host, fun _ _ => C.feed.chars hhosts⟩)
    C.feed.lost_chars

theorem keeps_exit (invoke : Cell → Action Unit) :
    C.Lockstep (C.Admits (.primitive (.thread .exit))) (ThreadWord.exit.perform invoke)
      (ThreadWord.exit.perform invoke) fun _ => C.Rel where
  apart m hm := by
    rcases exit_cases invoke m with ⟨-, h⟩ | ⟨ip, rest, -, h⟩
    · rw [h]
      exact .inr hm
    · rw [h]
      exact hm
  along m m' hm := by
    have hdepth := C.depth hm.1.back
    right
    rcases exit_cases invoke m with ⟨hnil, h⟩ | ⟨ip, rest, hcons, h⟩
    · rcases exit_cases invoke m' with ⟨-, h'⟩ | ⟨ip', rest', hcons', -⟩
      · rw [h, h']
        exact .error hm.1
      · rw [hnil, hcons'] at hdepth
        cases hdepth
    · rcases exit_cases invoke m' with ⟨hnil', -⟩ | ⟨ip', rest', hcons', h'⟩
      · rw [hcons, hnil'] at hdepth
        cases hdepth
      · rw [h, h']
        have hback := hm.1.back
        rw [hcons, hcons'] at hback
        obtain ⟨rfl, hrest⟩ := C.exits hm.2 hcons hback
        have hcore := congrArg (fun k : Core => { k with ip := ip' }) hm.1.core
        exact .ok ⟨hcore, hm.1.tracing, hm.1.remarks, hrest, hm.1.console⟩

/-- A primitive that runs no other word goes in lockstep. -/
theorem keeps_alone {n : Native} (hn : n.runsWords = false) (addr : Int) :
    C.Lockstep (C.Admits n) (n.alone addr) (n.alone addr) fun _ => C.Rel := by
  by_cases hexit : n = .primitive (.thread .exit)
  · subst hexit
    exact keeps_exit fun _ => pure ()
  by_cases hbye : n = .primitive (.session .bye)
  · subst hbye
    exact ⟨fun _ hm => .inr hm, fun _ _ hm => .inr (.error hm.1)⟩
  have hmade := Native.alone_made hn hexit hbye addr
  generalize n.alone addr = act at hmade
  cases hmade with
  | plain hact => exact (keeps_plain hact).weaken fun _ _ hm => hm.1
  | token hreads hk => exact (keeps_nextToken hreads).bind fun name => keeps_plain (hk name)
  | char hreads hk => exact (keeps_nextChar hreads).bind fun c => keeps_plain (hk c)

/-! ## Words that run other words -/

section Words

variable {i i' e e' : Cell → Action Unit} {bound : Nat} {n : Native}
  (hi : ∀ x, C.Keeps (i x) (i' x))
  (he : ∀ x, C.Keeps (e x) (e' x))

include he in
theorem keeps_readKey : C.Keeps (readKey e) (readKey e') :=
  (he _).bind fun _ => keeps_local local_takeKey

include he in
theorem keeps_readUntil (delimiter : Char) (k : Nat) (before : List Char) :
    C.Keeps (readUntil e delimiter k before) (readUntil e' delimiter k before) := by
  induction k generalizing before with
  | zero => exact lockstep_exhausted
  | succ k ih =>
    refine (keeps_readKey he).bind fun c => ?_
    by_cases hc : c = delimiter
    · rw [if_pos hc, if_pos hc]
      exact keeps_pure _
    · rw [if_neg hc, if_neg hc]
      exact ih _

include he in
theorem keeps_readText (k : Nat) : C.Keeps (readText e k) (readText e' k) :=
  (he _).bind fun _ => (keeps_local (local_onData _)).bind fun _ =>
    (keeps_readUntil he _ _ _).bind fun _ => keeps_pure _

include he in
theorem keeps_interpretToken (name : String) :
    C.Keeps (interpretToken e name) (interpretToken e' name) := by
  rw [interpretToken_eq, interpretToken_eq]
  refine (keeps_plain (plain_choose name)).bind fun found => ?_
  cases found with
  | none => exact keeps_pure _
  | some x => exact he x

include hi he in
/-- A behaviour goes in lockstep when the words that it runs do. -/
theorem keeps_perform (n : Native) (addr : Int) :
    C.Lockstep (C.Admits n) (n.perform addr i e bound) (n.perform addr i' e' bound)
      fun _ => C.Rel := by
  cases hn : n.runsWords with
  | false =>
    rw [Native.perform_eq_alone hn, Native.perform_eq_alone hn]
    exact keeps_alone hn addr
  | true =>
    have hadmits {act act' : Action Unit} (h : C.Keeps act act') :
        C.Lockstep (C.Admits n) act act' fun _ => C.Rel := h.weaken fun _ _ hm => hm.1
    cases n with
    | primitive p =>
      cases p with
      | thread w =>
        cases w with
        | execute => exact hadmits ((keeps_local (local_onData _)).bind fun _ => hi _)
        | _ => cases hn
      | input w =>
        cases w with
        | interpret => exact (keeps_nextToken rfl).bind fun name => keeps_interpretToken he name
        | _ => cases hn
      | text w =>
        cases w with
        | text =>
          exact hadmits ((keeps_readText he _).bind fun _ => keeps_local (local_literal _))
        | print =>
          exact hadmits ((keeps_readText he _).bind fun text => keeps_plain (plain_printText text))
        | comment => exact hadmits ((keeps_readUntil he _ _ _).bind fun _ => keeps_pure _)
        | lineComment => cases hn
      | _ => cases hn
    | _ => cases hn

include hi in
theorem keeps_stepWith : C.Keeps (stepWith i) (stepWith i') := by
  rw [Recorded.stepWith_eq, Recorded.stepWith_eq]
  exact (keeps_local local_nextCell).bind hi

include hi in
theorem keeps_returnTo (depth k : Nat) : C.Keeps (returnTo i depth k) (returnTo i' depth k) := by
  induction k with
  | zero => exact lockstep_exhausted
  | succ k ih =>
    have hstep := (keeps_stepWith hi).bind fun _ => ih
    refine ⟨fun m hm => ?_, fun m m' hm => ?_⟩
    · by_cases hd : depth < m.returns.length
      · rw [returnTo_of_deeper hd]
        exact hstep.apart m hm
      · rw [returnTo_of_not_deeper (Nat.not_lt.mp hd)]
        exact hm
    · by_cases hd : depth < m.returns.length
      · rw [returnTo_of_deeper hd, returnTo_of_deeper (C.depth hm.back ▸ hd)]
        exact hstep.along m m' hm
      · rw [returnTo_of_not_deeper (Nat.not_lt.mp hd),
          returnTo_of_not_deeper (C.depth hm.back ▸ Nat.not_lt.mp hd)]
        exact .inr (.ok hm)

include hi in
theorem keeps_executeWith (x : Cell) :
    C.Keeps (executeWith i bound x) (executeWith i' bound x) := by
  have hword (depth : Nat) (ip : Option Int) := ((hi x).bind fun _ =>
    keeps_returnTo hi depth bound).bind fun _ => keeps_local (local_setPointer ip)
  refine ⟨fun m hm => ?_, fun m m' hm => ?_⟩
  · rw [executeWith_apply]
    exact (hword _ _).apart m hm
  · rw [executeWith_apply, executeWith_apply, C.depth hm.back, ip_of_core hm.core]
    exact (hword _ _).along m m' hm

end Words

/-! ## Dispatches -/

/-- The dispatch of a behaviour, with what is known of it. -/
def Dispatches (C : Coupling) (x : Cell) (found : Int × Native) (m m' : Machine) : Prop :=
  C.Rel m m' ∧ C.watch x m = true ∧ x = .token found.1 ∧
    m.memory.get (.int found.1) = .ok (.native found.2)

theorem keeps_arrive (x : Cell) (found : Int × Native) :
    C.Lockstep (C.Dispatches x found) (arrive found.1) (arrive found.1)
      fun _ => C.Admits found.2 where
  apart m hm := by
    rcases arrive_cases found.1 m with ⟨-, log, h⟩ | ⟨stop, -, -, h⟩
    · rw [h]
      exact hm
    · rw [h]
      exact .inr hm
  along := by
    rintro m m' ⟨hrel, hwatch, rfl, hcell⟩
    have hmemory := memory_of_core hrel.core
    have htracing := hrel.tracing
    right
    rcases arrive_cases found.1 m with ⟨hlabel, log, h⟩ | ⟨stop, ht, hlabel, h⟩
    · rcases arrive_cases found.1 m' with ⟨-, log', h'⟩ | ⟨stop', ht', hlabel', -⟩
      · rw [h, h']
        exact .ok ⟨hrel.noted _ _ _ _, C.allowed _ _ hwatch hcell⟩
      · obtain ⟨name, hname⟩ := hlabel (htracing ▸ ht')
        rw [hmemory, hname] at hlabel'
        cases hlabel'
    · rcases arrive_cases found.1 m' with ⟨hlabel', -⟩ | ⟨stop', -, hlabel', h'⟩
      · obtain ⟨name, hname⟩ := hlabel' (htracing.trans ht)
        rw [hmemory, hlabel] at hname
        cases hname
      · obtain rfl : stop = stop' := by
          rw [hmemory, hlabel] at hlabel'
          exact Except.error.inj hlabel'
        rw [h, h']
        exact .error hrel

theorem keeps_codeField (x : Cell) :
    C.Lockstep (fun m m' => C.Rel m m' ∧ C.watch x m = true) (Recorded.codeField x)
      (Recorded.codeField x) (C.Dispatches x) where
  apart := (keeps_local (local_codeField x)).apart
  along m m' hm := by
    have hagree := (keeps_local (local_codeField x)).along m m' hm.1
    rcases Recorded.codeField_cases x m with ⟨found, hx, hcell, h⟩ | ⟨f, h⟩
    · rw [h] at hagree ⊢
      refine Or.imp id (fun hagree => ?_) hagree
      generalize Recorded.codeField x m' = right at hagree
      cases hagree with
      | ok hrel => exact .ok ⟨hrel, hm.2, hx, hcell⟩
    · rw [h] at hagree ⊢
      refine Or.imp id (fun hagree => ?_) hagree
      generalize Recorded.codeField x m' = right at hagree
      cases hagree with
      | error hrel => exact .error hrel

/-- **A dispatch goes in lockstep**, with all that it leads to. -/
theorem invoke (C : Coupling) (bound : Nat) (x : Cell) :
    C.Keeps (invokeWatched C.watch bound x) (Action.invoke bound x) := by
  induction bound generalizing x with
  | zero => exact lockstep_exhausted
  | succ n ih =>
    have henter : C.Lockstep (fun m m' => C.Rel m m' ∧ C.watch x m = true)
        (enterWith (invokeWatched C.watch n) n x) (enterWith (Action.invoke n) n x)
        fun _ => C.Rel := by
      rw [Recorded.enterWith_eq, Recorded.enterWith_eq]
      exact (keeps_codeField x).bind fun found => (keeps_arrive x found).bind fun _ =>
        keeps_perform ih (keeps_executeWith ih) found.2 found.1
    refine ⟨fun m hm => ?_, fun m m' hm => ?_⟩
    · rw [invokeWatched_succ]
      cases C.watch x m with
      | true => exact henter.apart m hm
      | false => exact .inl rfl
    · rw [invokeWatched_succ]
      cases hwatch : C.watch x m with
      | true => exact henter.along m m' ⟨hm, hwatch⟩
      | false => exact .inl (.inl rfl)

/-- **Whole words go in lockstep.** -/
theorem execute (C : Coupling) (bound : Nat) (x : Cell) :
    C.Keeps (executeWatched C.watch bound x) (Action.execute bound x) :=
  keeps_executeWith (C.invoke bound) x

end Coupling

end ThreadedForth
