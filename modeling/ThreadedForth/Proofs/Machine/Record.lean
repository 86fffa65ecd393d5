import ThreadedForth.Machine.Dispatch
import ThreadedForth.Proofs.Machine.Action

/-!
# Recorded runs

A run with a record of what happened on the way to the machine now: each dispatch, with the machine
as the cell was entered (`Event.entry`), the end of each word that was run to its end
(`Event.back`), and what the driver of the session notes besides. A record only grows, so that one
can speak of what has happened since, and in what order.

`Recorded.invoke` and `Recorded.execute` are the runs of `Action.invoke` and `Action.execute` with a
record. Nothing depends on the record: without it they are the same runs
(`Recorded.invoke_follows`, `Recorded.execute_follows`).
-/

namespace ThreadedForth

/-- What a record notes. -/
inductive Event
  /-- the driver starts `QUIT` -/
  | start (m : Machine)
  /-- a cell is dispatched -/
  | entry (x : Cell) (m : Machine)
  /-- a word was run to its end -/
  | back (m : Machine)
  /-- a fault has come to the driver, and the machine was reset -/
  | fault (f : Fault) (m : Machine)

/-- The machine at an event. -/
def Event.machine : Event → Machine
  | .start m => m
  | .entry _ m => m
  | .back m => m
  | .fault _ m => m

/-- A machine, and the events on the way to it. -/
structure Record where
  /-- the events, last first -/
  past : List Event
  machine : Machine

/-- The moments that a record tells of, each with the events before it: those of its events, and the
last one. -/
inductive Record.Moment (r : Record) : List Event → Machine → Prop
  | earlier {later past : List Event} {e : Event} (h : r.past = later ++ e :: past) :
      Moment r past e.machine
  | now : Moment r r.past r.machine

/-- Something holds at the moment of each event. -/
def Always (G : List Event → Machine → Prop) : List Event → Prop
  | [] => True
  | e :: past => G past e.machine ∧ Always G past

/-- Something has held all the time, and holds now. -/
structure Record.Steady (G : List Event → Machine → Prop) (r : Record) : Prop where
  before : Always G r.past
  now : G r.past r.machine

/-- A run with a record. -/
abbrev Recorded := EStateM Stop Record

section Moments

variable {G : List Event → Machine → Prop} {past later : List Event} {m m' : Machine}

theorem Always.of_append (h : Always G (later ++ past)) : Always G past := by
  induction later with
  | nil => exact h
  | cons e later ih => exact ih h.2

/-- What has held all the time holds at every moment. -/
theorem Record.Steady.moment {r : Record} (h : r.Steady G) (hm : r.Moment past m) : G past m := by
  cases hm with
  | earlier hpast =>
    have hbefore := h.before
    rw [hpast] at hbefore
    exact hbefore.of_append.1
  | now => exact h.now

theorem Record.Steady.change (h : Record.Steady G ⟨past, m⟩) (hG : G past m → G past m') :
    Record.Steady G ⟨past, m'⟩ := ⟨h.before, hG h.now⟩

theorem Record.Steady.note {e : Event} (h : Record.Steady G ⟨past, e.machine⟩)
    (hG : G past e.machine → G (e :: past) m) : Record.Steady G ⟨e :: past, m⟩ :=
  ⟨⟨h.now, h.before⟩, hG h.now⟩

end Moments

namespace Native

/-- A native behaviour that runs other words. -/
def runsWords : Native → Bool
  | .primitive (.thread .execute) | .primitive (.input .interpret) | .primitive (.text .text)
  | .primitive (.text .print) | .primitive (.text .comment) => true
  | _ => false

/-- What a native behaviour does that runs no other word. -/
def alone (n : Native) (addr : Int) : Action Unit :=
  n.perform addr (fun _ => pure ()) (fun _ => pure ()) 0

theorem perform_eq_alone {n : Native} (h : n.runsWords = false) (addr : Int)
    (i e : Cell → Action Unit) (bound : Nat) : n.perform addr i e bound = n.alone addr := by
  cases n with
  | primitive p =>
    cases p with
    | thread w =>
      cases w with
      | execute => cases h
      | _ => rfl
    | input w =>
      cases w with
      | interpret => cases h
      | _ => rfl
    | text w =>
      cases w with
      | lineComment => rfl
      | _ => cases h
    | _ => rfl
  | _ => rfl

end Native

namespace Action

/-- What becomes of a token: nothing is left to do, or a word is to be run. -/
def choose (name : String) : Action (Option Cell) := do
  match ← ask fun memory => memory.find name with
  | none =>
    match Numeral.read? name with
    | none => reportUnknown name
    | some n => literal (.int n)
    return none
  | some h =>
    let code := Cell.token (← liftM (h.plus headerSize))
    if (← get).mode = .immediate then return some code
    else if ← ask fun memory => memory.isImmediate h then return some code
    else
      append code
      return none

/-- Takes the character whose code `KEY` has left. -/
def takeKey : Action Char := do
  let code ← popInt InputWord.key.name
  match characterOf code with
  | .ok c => return c
  | .error _ => throw (.defect (.noCharacter code))

/-- Compiles a text to be printed, or prints it. -/
def printText (text : String) : Action Unit := do
  match (← get).mode with
  | .compile =>
    compileLiteral (.text text)
    append Kernel.tellToken
  | .immediate => emit text

theorem interpretToken_eq (e : Cell → Action Unit) (name : String) :
    interpretToken e name = choose name >>= fun
      | none => pure ()
      | some x => e x := by
  funext m
  simp only [interpretToken, choose, bind_apply]
  cases ask (fun memory => memory.find name) m with
  | error stop m₁ => rfl
  | ok found m₁ =>
    cases found with
    | none =>
      cases Numeral.read? name with
      | none => simp only [bind_apply]; cases reportUnknown name m₁ <;> rfl
      | some n => simp only [bind_apply]; cases literal (.int n) m₁ <;> rfl
    | some h =>
      simp only [bind_apply]
      cases (liftM (h.plus headerSize) : Action Int) m₁ with
      | error stop m₂ => rfl
      | ok code m₂ =>
        simp only [get_apply]
        by_cases hm : m₂.mode = .immediate
        · simp [hm]
        · simp only [hm, if_false, bind_apply]
          cases ask (fun memory => memory.isImmediate h) m₂ with
          | error stop m₃ => rfl
          | ok immediate m₃ =>
            cases immediate with
            | true => rfl
            | false =>
              simp only [Bool.false_eq_true, if_false, bind_apply]
              cases append (.token code) m₃ <;> rfl

end Action

open ThreadedForth.Action

namespace Recorded

variable {α β : Type}

/-! ## Actions with a record -/

/-- An action on the machine, of which nothing is noted. -/
def lift (act : Action α) : Recorded α := fun r =>
  match act r.machine with
  | .ok x m => .ok x { r with machine := m }
  | .error stop m => .error stop { r with machine := m }

/-- Notes an event. -/
def note (event : Machine → Event) : Recorded Unit :=
  modify fun r => { r with past := event r.machine :: r.past }

/-- Does something and gives its outcome, whatever it is. -/
def observe (act : Recorded α) : Recorded (Except Stop α) := fun r =>
  match act r with
  | .ok x r => .ok (.ok x) r
  | .error stop r => .ok (.error stop) r

/-! ## Dispatch -/

/-- Interprets a token. -/
def interpretToken (execute : Cell → Recorded Unit) (name : String) : Recorded Unit := do
  match ← lift (choose name) with
  | none => return
  | some x => execute x

/-- Takes a character by way of the word `KEY`. -/
def readKey (execute : Cell → Recorded Unit) : Recorded Char := do
  execute Kernel.keyToken
  lift takeKey

/-- Takes characters up to a delimiter. -/
def readUntil (execute : Cell → Recorded Unit) (delimiter : Char) : Nat → List Char →
    Recorded (List Char)
  | 0, _ => throw .exhausted
  | bound + 1, before => do
    let c ← readKey execute
    if c = delimiter then return before
    readUntil execute delimiter bound (c :: before)

/-- Takes a text. -/
def readText (execute : Cell → Recorded Unit) (bound : Nat) : Recorded String := do
  execute Kernel.keyToken
  let _ ← lift pop
  let before ← readUntil execute '"' bound []
  return String.ofList before.reverse

/-- Runs the behaviour of the code field at an address. -/
def perform (n : Native) (addr : Int) (invoke execute : Cell → Recorded Unit) (bound : Nat) :
    Recorded Unit :=
  match n with
  | .primitive (.thread .execute) => do
    invoke (.token (← lift (popToken ThreadWord.execute.name)))
  | .primitive (.input .interpret) => do interpretToken execute (← lift nextToken)
  | .primitive (.text .text) => do lift (literal (.text (← readText execute bound)))
  | .primitive (.text .print) => do lift (printText (← readText execute bound))
  | .primitive (.text .comment) => do
    let _ ← readUntil execute ')' bound []
  | n => lift (n.alone addr)

theorem perform_eq_lift {n : Native} (h : n.runsWords = false) (addr : Int)
    (i e : Cell → Recorded Unit) (bound : Nat) :
    perform n addr i e bound = lift (n.alone addr) := by
  rw [perform] <;> rintro rfl <;> cases h

/-- The cell of the thread, which is moved on. -/
def nextCell : Action Cell := do
  match (← get).ip with
  | none => fail .noThread
  | some ip =>
    let x ← ask fun memory => memory.get (.int ip)
    modify fun m => { m with ip := some (ip + 1) }
    return x

theorem nextCell_of_ip {m : Machine} {ip : Int} {x : Cell} (hip : m.ip = some ip)
    (hx : m.memory.get (.int ip) = .ok x) : nextCell m = .ok x { m with ip := some (ip + 1) } := by
  simp only [nextCell, bind_apply, get_apply, ask_apply, hip, hx]
  rfl

/-- The thread has a next cell and is moved on, or nothing is changed. -/
theorem nextCell_cases (m : Machine) :
    (∃ f, nextCell m = .error (.fault f) m) ∨
      ∃ ip x, m.ip = some ip ∧ m.memory.get (.int ip) = .ok x ∧
        nextCell m = .ok x { m with ip := some (ip + 1) } := by
  cases hip : m.ip with
  | none => exact .inl ⟨.noThread, by simp [nextCell, bind_apply, hip]⟩
  | some ip =>
    cases hx : m.memory.get (.int ip) with
    | error f => exact .inl ⟨f, by simp [nextCell, bind_apply, ask_apply, hip, hx]⟩
    | ok x => exact .inr ⟨ip, x, rfl, hx, nextCell_of_ip hip hx⟩

/-- Takes the next cell of the thread and enters it. -/
def stepWith (invoke : Cell → Recorded Unit) : Recorded Unit := do invoke (← lift nextCell)

/-- Takes steps until the return stack is no deeper than it was. -/
def returnTo (invoke : Cell → Recorded Unit) (depth : Nat) : Nat → Recorded Unit
  | 0 => throw .exhausted
  | bound + 1 => do
    if Stack.deeperThan depth (← get).machine.returns then
      stepWith invoke
      returnTo invoke depth bound

/-- Goes on where the thread was. -/
def goBack (ip : Option Int) : Action Unit := modify fun m => { m with ip := ip }

/-- Runs a word to its end and goes on where the thread was, and notes that it does. -/
def executeWith (invoke : Cell → Recorded Unit) (bound : Nat) (x : Cell) : Recorded Unit := do
  let m := (← get).machine
  invoke x
  returnTo invoke m.returns.length bound
  lift (goBack m.ip)
  note .back

/-- The address of a code field that a cell leads to, and the behaviour there. -/
def codeField : Cell → Action (Int × Native)
  | .token addr => do
    match ← ask fun memory => memory.get (.int addr) with
    | .native n => return (addr, n)
    | _ => fail (.noCodeField addr)
  | x => do fail (.notExecutable x (← get).ip)

/-- A cell leads to a code field, or cannot be entered. -/
theorem codeField_cases (x : Cell) (m : Machine) :
    (∃ found, x = .token found.1 ∧ m.memory.get (.int found.1) = .ok (.native found.2) ∧
      codeField x m = .ok found m) ∨
    ∃ f, codeField x m = .error (.fault f) m := by
  cases x with
  | token addr =>
    cases hcell : m.memory.get (.int addr) with
    | error f => exact .inr ⟨f, by simp [codeField, bind_apply, ask_apply, hcell]⟩
    | ok cell =>
      cases cell with
      | native n =>
        exact .inl ⟨(addr, n), rfl, hcell, by simp [codeField, bind_apply, ask_apply, hcell]⟩
      | _ => exact .inr ⟨_, by simp [codeField, bind_apply, ask_apply, hcell]; rfl⟩
  | _ => exact .inr ⟨_, rfl⟩

/-- Enters the word of an execution token, given how to enter the words that it runs in turn. -/
def enterWith (inner : Cell → Recorded Unit) (bound : Nat) (x : Cell) : Recorded Unit := do
  let (addr, n) ← lift (codeField x)
  lift (arrive addr)
  perform n addr inner (executeWith inner bound) bound

/-- Enters the word of an execution token, and notes that it does. -/
def invoke : Nat → Cell → Recorded Unit
  | 0, _ => throw .exhausted
  | bound + 1, x => do
    note (.entry x)
    enterWith (invoke bound) bound x

/-- Runs a word to its end. -/
def execute (bound : Nat) (x : Cell) : Recorded Unit := executeWith (invoke bound) bound x

/-! ## Recorded runs are runs -/

/-- What comes of a run without its record. -/
def forget : EStateM.Result Stop Record α → EStateM.Result Stop Machine α
  | .ok x r => .ok x r.machine
  | .error stop r => .error stop r.machine

/-- A recorded run goes as a run does. -/
def Follows (act : Recorded α) (real : Action α) : Prop :=
  ∀ r, real r.machine = forget (act r)

theorem lift_bind (act : Action α) (f : α → Action β) :
    lift (act >>= f) = lift act >>= fun x => lift (f x) := by
  funext r
  simp only [lift, bind_apply]
  cases act r.machine <;> rfl

theorem lift_of_ok {act : Action α} {past : List Event} {m m' : Machine} {x : α}
    (h : act m = .ok x m') : lift act ⟨past, m⟩ = .ok x ⟨past, m'⟩ := by
  rw [lift, h]

theorem follows_lift (act : Action α) : Follows (lift act) act := by
  intro r
  rw [lift]
  cases act r.machine <;> rfl

theorem follows_pure (x : α) : Follows (pure x) (pure x) := fun _ => rfl

theorem follows_throw (stop : Stop) : Follows (throw stop : Recorded α) (throw stop) := fun _ => rfl

theorem Follows.bind {act : Recorded α} {real : Action α} {f : α → Recorded β}
    {g : α → Action β} (ha : Follows act real) (hf : ∀ x, Follows (f x) (g x)) :
    Follows (act >>= f) (real >>= g) := by
  intro r
  rw [bind_apply, bind_apply, ha r]
  cases act r with
  | ok x r₁ => exact hf x r₁
  | error stop r₁ => rfl

/-- To note an event makes no difference. -/
theorem follows_note (event : Machine → Event) : Follows (note event) (pure ()) := fun _ => rfl

/-- To note an event first makes no difference. -/
theorem Follows.noted {act : Recorded α} {real : Action α} (ha : Follows act real)
    (event : Machine → Event) : Follows (note event >>= fun _ => act) real :=
  (follows_note event).bind fun _ => ha

theorem Follows.observe {act : Recorded α} {real : Action α} (ha : Follows act real) :
    Follows (observe act) (Action.observe real) := by
  intro r
  rw [Action.observe, ha r, Recorded.observe]
  cases act r <;> rfl

section Words

variable {i e : Cell → Recorded Unit} {i' e' : Cell → Action Unit} {bound : Nat}
  (hi : ∀ x, Follows (i x) (i' x)) (he : ∀ x, Follows (e x) (e' x))

include he in
theorem interpretToken_follows (name : String) :
    Follows (interpretToken e name) (Action.interpretToken e' name) := by
  rw [interpretToken_eq]
  refine (follows_lift _).bind fun found => ?_
  cases found with
  | none => exact follows_pure _
  | some x => exact he x

include he in
theorem readKey_follows : Follows (readKey e) (Action.readKey e') :=
  (he _).bind fun _ => follows_lift takeKey

include he in
theorem readUntil_follows (delimiter : Char) (before : List Char) :
    Follows (readUntil e delimiter bound before) (Action.readUntil e' delimiter bound before) := by
  induction bound generalizing before with
  | zero => exact follows_throw _
  | succ n ih =>
    refine (readKey_follows he).bind fun c => ?_
    by_cases hc : c = delimiter
    · rw [if_pos hc, if_pos hc]
      exact follows_pure _
    · rw [if_neg hc, if_neg hc]
      exact ih _

include he in
theorem readText_follows : Follows (readText e bound) (Action.readText e' bound) :=
  (he _).bind fun _ => (follows_lift _).bind fun _ =>
    (readUntil_follows he _ _).bind fun _ => follows_pure _

include hi he in
theorem perform_follows (n : Native) (addr : Int) :
    Follows (perform n addr i e bound) (n.perform addr i' e' bound) := by
  cases hn : n.runsWords with
  | false =>
    rw [Native.perform_eq_alone hn]
    rw [perform_eq_lift hn]
    exact follows_lift _
  | true =>
    cases n with
    | primitive p =>
      cases p with
      | thread w =>
        cases w with
        | execute => exact (follows_lift _).bind fun addr => hi _
        | _ => cases hn
      | input w =>
        cases w with
        | interpret => exact (follows_lift _).bind fun name => interpretToken_follows he name
        | _ => cases hn
      | text w =>
        cases w with
        | text => exact (readText_follows he).bind fun text => follows_lift _
        | print => exact (readText_follows he).bind fun text => follows_lift (printText text)
        | comment => exact (readUntil_follows he _ _).bind fun _ => follows_pure _
        | lineComment => cases hn
      | _ => cases hn
    | _ => cases hn

theorem stepWith_eq (i' : Cell → Action Unit) : Action.stepWith i' = nextCell >>= i' := by
  funext m
  simp only [Action.stepWith, nextCell, bind_apply, get_apply]
  cases m.ip with
  | none => rfl
  | some ip =>
    simp only [bind_apply]
    cases ask (fun memory => memory.get (.int ip)) m <;> rfl

include hi in
theorem stepWith_follows : Follows (stepWith i) (Action.stepWith i') := by
  rw [stepWith_eq]
  exact (follows_lift _).bind hi

include hi in
theorem returnTo_follows (depth : Nat) :
    Follows (returnTo i depth bound) (Action.returnTo i' depth bound) := by
  induction bound with
  | zero => exact follows_throw _
  | succ n ih =>
    intro r
    simp only [Action.returnTo, returnTo, bind_apply, get_apply]
    by_cases hd : Stack.deeperThan depth r.machine.returns
    · rw [if_pos hd, if_pos hd]
      exact (stepWith_follows hi).bind (fun _ => ih) r
    · rw [if_neg hd, if_neg hd]
      rfl

include hi in
theorem executeWith_follows (x : Cell) :
    Follows (executeWith i bound x) (Action.executeWith i' bound x) := by
  intro r
  simp only [Action.executeWith, executeWith, bind_of_ok (get_apply _)]
  exact ((hi x).bind fun _ => (returnTo_follows hi _).bind fun _ =>
    (follows_lift (goBack _)).bind fun _ => follows_note .back) r

theorem enterWith_eq (i' : Cell → Action Unit) (x : Cell) :
    Action.enterWith i' bound x = codeField x >>= fun found => arrive found.1 >>= fun _ =>
      found.2.perform found.1 i' (Action.executeWith i' bound) bound := by
  funext m
  cases x with
  | token addr =>
    simp only [Action.enterWith, codeField, bind_apply]
    cases ask (fun memory => memory.get (.int addr)) m with
    | error stop m₁ => rfl
    | ok cell m₁ => cases cell <;> rfl
  | _ => rfl

include hi in
theorem enterWith_follows (x : Cell) :
    Follows (enterWith i bound x) (Action.enterWith i' bound x) := by
  rw [enterWith_eq]
  exact (follows_lift _).bind fun found => (follows_lift _).bind fun _ =>
    perform_follows hi (executeWith_follows hi) found.2 found.1

end Words

/-- A recorded dispatch goes as a dispatch does. -/
theorem invoke_follows (bound : Nat) (x : Cell) :
    Follows (invoke bound x) (Action.invoke bound x) := by
  induction bound generalizing x with
  | zero => exact follows_throw _
  | succ n ih => exact (enterWith_follows ih x).noted _

/-- A recorded run of a word goes as a run of the word does. -/
theorem execute_follows (bound : Nat) (x : Cell) :
    Follows (execute bound x) (Action.execute bound x) :=
  executeWith_follows (invoke_follows bound) x

end Recorded

end ThreadedForth
