import ThreadedForth.Proofs.Machine.Dispatch
import ThreadedForth.Proofs.Machine.Record
import ThreadedForth.Proofs.Machine.Triple

/-!
# What a run keeps

The induction over runs, made once. An `Invariant` says what holds of the record before a dispatch,
after one, while a text is read, and wherever the run stops. It is `Kept` if every small part of a
run keeps it: the step of a thread, the behaviours that run no other word, and the parts of those
that do. Then every run keeps it, however its words call one another (`Invariant.Kept.execute`).
-/

namespace ThreadedForth

open ThreadedForth.Action

namespace Recorded

variable {α β : Type}

/-! ## Triples of recorded runs -/

variable {P : Record → Prop} {Q : α → Record → Prop} {R : β → Record → Prop}
  {E : Stop → Record → Prop}

theorem ensures_note_bind {event : Machine → Event} {act : Recorded β}
    (h : Ensures (fun r => ∃ past, r.past = event r.machine :: past ∧ P ⟨past, r.machine⟩) act R
      E) : Ensures P (note event >>= fun _ => act) R E :=
  fun r hr => h { r with past := event r.machine :: r.past } ⟨r.past, rfl, hr⟩

theorem ensures_note {event : Machine → Event} {Q : Unit → Record → Prop}
    (h : ∀ r, P r → Q () ⟨event r.machine :: r.past, r.machine⟩) : Ensures P (note event) Q E := h

theorem ensures_lift {act : Action α}
    (h : ∀ r, P r → match act r.machine with
      | .ok x m => Q x { r with machine := m }
      | .error stop m => E stop { r with machine := m }) : Ensures P (lift act) Q E := by
  intro r hr
  have hact := h r hr
  rw [lift]
  cases ha : act r.machine with
  | ok x m =>
    rw [ha] at hact
    exact hact
  | error stop m =>
    rw [ha] at hact
    exact hact

/-- What is observed stops nothing. -/
theorem ensures_observe {act : Recorded α} (h : Ensures P act Q E) {E' : Stop → Record → Prop} :
    Ensures P (observe act) (fun outcome r => (∀ x, outcome = .ok x → Q x r) ∧
      ∀ stop, outcome = .error stop → E stop r) E' := by
  intro r hr
  have hact := h r hr
  rw [Recorded.observe]
  cases ha : act r with
  | ok x r₁ =>
    rw [ha] at hact
    refine ⟨fun y hy => ?_, fun stop hstop => ?_⟩
    · cases hy
      exact hact
    · cases hstop
  | error stop r₁ =>
    rw [ha] at hact
    refine ⟨fun y hy => ?_, fun stop' hstop => ?_⟩
    · cases hy
    · cases hstop
      exact hact

end Recorded

open ThreadedForth.Recorded

/-! ## Invariants -/

/-- What holds of a record, depending on where the run is. -/
structure Invariant where
  /-- before the dispatch of a cell -/
  ready : Cell → Record → Prop
  /-- after a dispatch -/
  settled : Record → Prop
  /-- while a text is read -/
  reading : Record → Prop
  /-- where the run stops -/
  stopped : Stop → Record → Prop

namespace Invariant

/-- The native behaviour of a code field has just been entered. -/
def Arrived (I : Invariant) (n : Native) (addr : Int) (r : Record) : Prop :=
  ∃ past m log, I.ready (.token addr) ⟨past, m⟩ ∧ m.memory.get (.int addr) = .ok (.native n) ∧
    r = ⟨.entry (.token addr) m :: past, { m with current := some addr, log := log }⟩

/-- A word has just been run to its end, and the invariant holds. -/
def Returned (I : Invariant) (r : Record) : Prop :=
  I.settled r ∧ ∃ past, r.past = .back r.machine :: past

/-- Every part of a run keeps the invariant. -/
structure Kept (I : Invariant) : Prop where
  /-- where the bound is used up -/
  tired : ∀ x r, I.ready x r ∨ I.settled r ∨ I.reading r → I.stopped .exhausted r
  /-- where a cell cannot be entered -/
  refused : ∀ x past m f, I.ready x ⟨past, m⟩ → I.stopped (.fault f) ⟨.entry x m :: past, m⟩
  /-- where a dispatch cannot be logged -/
  unlabelled : ∀ addr past m stop n, I.ready (.token addr) ⟨past, m⟩ →
    m.memory.get (.int addr) = .ok (.native n) → m.memory.label addr = .error stop →
    I.stopped stop ⟨.entry (.token addr) m :: past, m⟩
  /-- the step of a loop that has begun with the first of these records -/
  steps : ∀ x r₀ r, I.ready x r₀ → I.settled r →
    r₀.machine.returns.length < r.machine.returns.length →
    Ensures (fun r' => r' = r) (lift nextCell) I.ready I.stopped
  /-- the end of a loop that has begun with the first of these records -/
  returns : ∀ x r₀ r m, I.ready x r₀ → I.settled r →
    r.machine.returns.length ≤ r₀.machine.returns.length →
    m = { r.machine with ip := r₀.machine.ip } → I.settled ⟨.back m :: r.past, m⟩
  /-- a behaviour that runs no other word -/
  alone : ∀ n addr, n.runsWords = false →
    Ensures (I.Arrived n addr) (lift (n.alone addr)) (fun _ => I.settled) I.stopped
  /-- `EXECUTE` takes what it enters -/
  passes : ∀ addr, Ensures (I.Arrived (.primitive (.thread .execute)) addr)
    (lift (popToken ThreadWord.execute.name)) (fun code => I.ready (.token code)) I.stopped
  /-- `INTERPRET` takes a token and decides what becomes of it -/
  interprets : ∀ addr, Ensures (I.Arrived (.primitive (.input .interpret)) addr)
    (lift (nextToken >>= choose))
    (fun | none => I.settled | some x => I.ready x) I.stopped
  /-- a word that reads a text begins to read -/
  begins : ∀ w addr r, w ≠ .lineComment → I.Arrived (.primitive (.text w)) addr r → I.reading r
  /-- one character is read -/
  reads : ∀ bound, (∀ x, Ensures (I.ready x) (execute bound x) (fun _ => I.Returned) I.stopped) →
    Ensures I.reading (readKey (execute bound)) (fun _ => I.reading) I.stopped
  /-- one character is passed over -/
  skips : ∀ bound, (∀ x, Ensures (I.ready x) (execute bound x) (fun _ => I.Returned) I.stopped) →
    Ensures I.reading (execute bound Kernel.keyToken >>= fun _ => lift pop) (fun _ => I.reading)
      I.stopped
  /-- nothing is done with what was read -/
  ends : ∀ r, I.reading r → I.settled r
  /-- what was read becomes a literal -/
  quotes : ∀ text, Ensures I.reading (lift (literal (.text text))) (fun _ => I.settled) I.stopped
  /-- what was read is printed -/
  prints : ∀ text, Ensures I.reading (lift (printText text)) (fun _ => I.settled) I.stopped

namespace Kept

variable {I : Invariant} (hI : I.Kept) {bound : Nat}

/-! ## Reading a text -/

section Reading

variable (he : ∀ x, Ensures (I.ready x) (execute bound x) (fun _ => I.Returned) I.stopped)

include hI he in
theorem readUntil (delimiter : Char) (n : Nat) (before : List Char) :
    Ensures I.reading (Recorded.readUntil (execute bound) delimiter n before)
      (fun _ => I.reading) I.stopped := by
  induction n generalizing before with
  | zero => exact ensures_throw fun r hr => hI.tired (.int 0) r (.inr (.inr hr))
  | succ n ih =>
    refine (hI.reads bound he).bind fun c => ?_
    by_cases hc : c = delimiter
    · rw [if_pos hc]
      exact ensures_pure fun _ hr => hr
    · rw [if_neg hc]
      exact ih _

include hI he in
theorem readText (n : Nat) :
    Ensures I.reading (Recorded.readText (execute bound) n) (fun _ => I.reading) I.stopped := by
  have hrest := (hI.skips bound he).bind (f := fun _ =>
      Recorded.readUntil (execute bound) '"' n [] >>= fun before =>
        pure (String.ofList before.reverse)) (R := fun _ => I.reading) fun _ =>
    (hI.readUntil he '"' n []).bind fun before => ensures_pure fun _ hr => hr
  intro r hr
  have h := hrest r hr
  simp only [bind_assoc] at h
  exact h

end Reading

/-! ## Dispatches -/

include hI in
theorem arrive (n : Native) (addr : Int) :
    Ensures (fun r => ∃ past, r.past = .entry (.token addr) r.machine :: past ∧
        I.ready (.token addr) ⟨past, r.machine⟩ ∧
        r.machine.memory.get (.int addr) = .ok (.native n))
      (lift (Action.arrive addr)) (fun _ => I.Arrived n addr) I.stopped := by
  refine ensures_lift ?_
  rintro ⟨_, m⟩ ⟨past, hpast, hready, hn⟩
  dsimp only at hpast hready hn ⊢
  subst hpast
  rcases Action.arrive_cases addr m with ⟨-, log, h⟩ | ⟨stop, -, hlabel, h⟩
  · rw [h]
    exact ⟨past, m, log, hready, hn, rfl⟩
  · rw [h]
    exact hI.unlabelled addr past m stop n hready hn hlabel

include hI in
theorem codeField (x : Cell) :
    Ensures (fun r => ∃ past, r.past = .entry x r.machine :: past ∧ I.ready x ⟨past, r.machine⟩)
      (lift (Recorded.codeField x))
      (fun found r => x = .token found.1 ∧ ∃ past,
        r.past = .entry (.token found.1) r.machine :: past ∧
        I.ready (.token found.1) ⟨past, r.machine⟩ ∧
        r.machine.memory.get (.int found.1) = .ok (.native found.2)) I.stopped := by
  refine ensures_lift ?_
  rintro ⟨_, m⟩ ⟨past, hpast, hready⟩
  dsimp only at hpast hready ⊢
  subst hpast
  rcases Recorded.codeField_cases x m with ⟨found, rfl, hcell, h⟩ | ⟨f, h⟩
  · rw [h]
    exact ⟨rfl, past, rfl, hready, hcell⟩
  · rw [h]
    exact hI.refused x past m f hready

variable (hi : ∀ x, Ensures (I.ready x) (invoke bound x) (fun _ => I.settled) I.stopped)

/-! ## Whole words -/

include hI hi in
/-- The loop keeps the invariant until it comes back. -/
theorem returnTo {x : Cell} {r₀ : Record} (hready : I.ready x r₀) (n : Nat) :
    Ensures I.settled (Recorded.returnTo (invoke bound) r₀.machine.returns.length n)
      (fun _ r => I.settled r ∧ r.machine.returns.length ≤ r₀.machine.returns.length)
      I.stopped := by
  induction n with
  | zero => exact ensures_throw fun r hr => hI.tired x r (.inr (.inl hr))
  | succ n ih =>
    refine ensures_get_bind fun r hr => ?_
    by_cases hd : Stack.deeperThan r₀.machine.returns.length r.machine.returns = true
    · rw [if_pos hd]
      have hstep : Ensures (fun r' => r' = r) (stepWith (invoke bound)) (fun _ => I.settled)
          I.stopped :=
        (hI.steps x r₀ r hready hr (Stack.deeperThan_eq_true_iff.mp hd)).bind hi
      exact hstep.bind fun _ => ih
    · rw [if_neg hd]
      rw [Stack.deeperThan_eq_true_iff, Nat.not_lt] at hd
      exact ensures_pure fun r' hr' => hr' ▸ ⟨hr, hd⟩

include hI hi in
/-- A word that is run to its end keeps the invariant if its dispatches do. -/
theorem executeOf (x : Cell) :
    Ensures (I.ready x) (Recorded.execute bound x) (fun _ => I.Returned) I.stopped := by
  refine ensures_get_bind fun r hr => ?_
  have hfirst : Ensures (fun r' => r' = r) (invoke bound x) (fun _ => I.settled) I.stopped :=
    (hi x).weaken fun r' hr' => hr' ▸ hr
  refine hfirst.bind fun _ => (hI.returnTo hi hr bound).bind fun _ => ?_
  have hback : Ensures (fun r' => I.settled r' ∧
        r'.machine.returns.length ≤ r.machine.returns.length)
      (lift (goBack r.machine.ip)) (fun _ r' => I.Returned ⟨.back r'.machine :: r'.past,
        r'.machine⟩) I.stopped :=
    ensures_lift fun r' hr' => ⟨hI.returns x r r' _ hr hr'.1 hr'.2 rfl, r'.past, rfl⟩
  exact hback.bind fun _ => ensures_note fun r' hr' => hr'

include hI hi in
theorem perform (n : Native) (addr : Int) :
    Ensures (I.Arrived n addr) (Recorded.perform n addr (invoke bound) (Recorded.execute bound) bound)
      (fun _ => I.settled) I.stopped := by
  have he := hI.executeOf hi
  cases hn : n.runsWords with
  | false =>
    rw [perform_eq_lift hn]
    exact hI.alone n addr hn
  | true =>
    cases n with
    | primitive p =>
      cases p with
      | thread w =>
        cases w with
        | execute => exact (hI.passes addr).bind fun code => hi _
        | _ => cases hn
      | input w =>
        cases w with
        | interpret =>
          have hchoose := hI.interprets addr
          rw [lift_bind] at hchoose
          have hall := hchoose.bind (f := fun
            | none => pure ()
            | some x => Recorded.execute bound x) (R := fun _ => I.settled) fun found => by
              cases found with
              | none => exact ensures_pure fun _ hr => hr
              | some x => exact (he x).imp (fun _ _ hr => hr.1) fun _ _ hr => hr
          intro r hr
          have h := hall r hr
          simp only [bind_assoc] at h
          exact h
        | _ => cases hn
      | text w =>
        cases w with
        | text =>
          refine Ensures.weaken ?_ (hI.begins _ addr · (by simp))
          exact (hI.readText he bound).bind fun text => hI.quotes text
        | print =>
          refine Ensures.weaken ?_ (hI.begins _ addr · (by simp))
          exact (hI.readText he bound).bind fun text => hI.prints text
        | comment =>
          refine Ensures.weaken ?_ (hI.begins _ addr · (by simp))
          exact (hI.readUntil he ')' bound []).bind fun _ => ensures_pure hI.ends
        | lineComment => cases hn
      | _ => cases hn
    | _ => cases hn

end Kept

/-- **A dispatch keeps the invariant**, with all that it leads to. -/
theorem Kept.invoke {I : Invariant} (hI : I.Kept) (bound : Nat) (x : Cell) :
    Ensures (I.ready x) (Recorded.invoke bound x) (fun _ => I.settled) I.stopped := by
  induction bound generalizing x with
  | zero => exact ensures_throw fun r hr => hI.tired x r (.inl hr)
  | succ n ih =>
    refine ensures_note_bind ((hI.codeField x).bind fun found => ?_)
    refine Ensures.bind (Q := fun _ => I.Arrived found.2 found.1) ?_ fun _ =>
      hI.perform ih found.2 found.1
    exact (hI.arrive found.2 found.1).weaken fun r hr => hr.2

/-- **A word that is run to its end keeps the invariant**, however its words call one another. -/
theorem Kept.execute {I : Invariant} (hI : I.Kept) (bound : Nat) (x : Cell) :
    Ensures (I.ready x) (Recorded.execute bound x) (fun _ => I.Returned) I.stopped :=
  hI.executeOf (hI.invoke bound) x

end Invariant

end ThreadedForth
