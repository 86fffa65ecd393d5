import ThreadedForth.Proofs.Compiler.Booted
import ThreadedForth.Proofs.Machine.Dispatch
import ThreadedForth.Proofs.Memory.Code
import ThreadedForth.Proofs.Source.Silence

/-!
# Words that are interrupted

A word of the machine that fails or comes to the end of the input has taken cells off the data
stack, and may have read; nothing else has changed (`Native.spares_when_interrupted`). For every
word checks all that it wants to know before it puts anything down. So a word is a part that only
takes (`Peels`), followed by a part that cannot be interrupted (`Puts`), and both together are what
may be interrupted without harm (`Checks`).

`EXECUTE` and `INTERPRET` are left out, as they run any word. The words that read a text run `KEY`,
which must be what it was when they were written.
-/

namespace ThreadedForth

open ThreadedForth.Action

variable {α β : Type}

/-- What interrupts a word: a fault, or the end of the input. -/
def Stop.Interrupts : Stop → Prop
  | .fault _ | .endOfInput => True
  | _ => False

/-! ## Calculations -/

namespace DataAction

/-- An action takes cells off the top of a stack, and puts none there. -/
abbrev Peels (data : List Cell) (act : DataAction α) : Prop :=
  Ensures (· <:+ data) act (fun _ rest => rest <:+ data) fun _ rest => rest <:+ data

/-- An action that fails has only taken cells off the top of a stack. -/
abbrev Checks (data : List Cell) (act : DataAction α) : Prop :=
  Ensures (· <:+ data) act (fun _ _ => True) fun _ rest => rest <:+ data

/-- An action does not fail. -/
abbrev Puts (data : List Cell) (act : DataAction α) : Prop :=
  Ensures (fun _ => True) act (fun _ _ => True) fun _ rest => rest <:+ data

variable {data : List Cell} {op : String}

theorem Puts.checks {act : DataAction α} (h : Puts data act) : Checks data act :=
  h.weaken fun _ _ => trivial

theorem puts_pure (x : α) : Puts data (pure x) := fun _ _ => trivial

theorem puts_push (x : Cell) : Puts data (push x) := fun _ _ => trivial

theorem puts_push_push (x y : Cell) : Puts data (push x >>= fun _ => push y) :=
  (puts_push x).bind fun _ => puts_push y

theorem peels_lift (o : Except Fault α) : Peels data (liftM o) := by
  intro rest hrest
  cases o <;> exact hrest

theorem peels_pop : Peels data pop := by
  intro rest hrest
  cases rest with
  | nil => exact hrest
  | cons x rest => exact (List.suffix_cons x rest).trans hrest

theorem peels_look (depth : Nat) : Peels data (look depth) := ensures_look fun _ _ => peels_lift _

theorem peels_popInt : Peels data (popInt op) := peels_pop.bind fun _ => peels_lift _

theorem peels_popText : Peels data (popText op) := peels_pop.bind fun _ => peels_lift _

theorem peels_popToken : Peels data (popToken op) := peels_pop.bind fun _ => peels_lift _

theorem peels_popTruth : Peels data (popTruth op) := peels_pop.bind fun _ => peels_lift _

theorem peels_popIntCell : Peels data (popIntCell op) :=
  peels_pop.bind fun _ => (peels_lift _).bind fun _ _ hrest => hrest

/-- Where an action fails, nothing comes after it. -/
theorem checks_throw_bind (f : Fault) (k : α → DataAction β) : Checks data (throw f >>= k) :=
  fun _ hrest => hrest

/-! ### Kinds of calculations -/

theorem checks_calculate (op : String) (f : Int → Int → Int) : Checks data (calculate op f) :=
  peels_popInt.bind fun _ => peels_popInt.bind fun _ => (puts_push _).checks

theorem checks_divide (op : String) (f : Int → Int → Int) : Checks data (divide op f) := by
  refine peels_popInt.bind fun b => peels_popInt.bind fun a => ?_
  by_cases hb : b = 0
  · rw [if_pos hb]
    exact checks_throw_bind _ _
  · rw [if_neg hb]
    exact (puts_push _).checks

theorem checks_choose (op : String) (precedes : Int → Int → Bool) :
    Checks data (choose op precedes) :=
  peels_popIntCell.bind fun _ => peels_popIntCell.bind fun _ => (peels_lift _).bind fun _ =>
    (peels_lift _).bind fun _ => (puts_push _).checks

theorem checks_change (op : String) (f : Int → Int) : Checks data (change op f) :=
  peels_popInt.bind fun _ => (puts_push _).checks

theorem checks_compareInts (op : String) (holds : Int → Int → Bool) :
    Checks data (compareInts op holds) :=
  peels_popInt.bind fun _ => peels_popInt.bind fun _ => (puts_push _).checks

theorem checks_compareCells (holds : Cell → Cell → Bool) : Checks data (compareCells holds) :=
  peels_pop.bind fun _ => peels_pop.bind fun _ => (puts_push _).checks

theorem checks_combine (op : String) (truth : Bool → Bool → Bool) (bits : Int → Int → Int) :
    Checks data (combine op truth bits) :=
  peels_pop.bind fun _ => peels_pop.bind fun _ => (peels_lift _).bind fun _ => (puts_push _).checks

end DataAction

section Calculations

open DataAction

variable {data : List Cell}

theorem StackWord.checks (w : StackWord) : DataAction.Checks data w.run := by
  cases w with
  | drop => exact peels_pop.bind fun _ => (puts_pure _).checks
  | dup => exact (peels_look 0).bind fun _ => (puts_push _).checks
  | swap => exact peels_pop.bind fun _ => peels_pop.bind fun _ => (puts_push_push _ _).checks
  | «over» => exact (peels_look 1).bind fun _ => (puts_push _).checks
  | rot =>
    exact peels_pop.bind fun _ => peels_pop.bind fun _ => peels_pop.bind fun _ =>
      (puts_push _).checks.bind fun _ => puts_push_push _ _
  | rotBack =>
    exact peels_pop.bind fun _ => peels_pop.bind fun _ => peels_pop.bind fun _ =>
      (puts_push _).checks.bind fun _ => puts_push_push _ _
  | nip => exact peels_pop.bind fun _ => peels_pop.bind fun _ => (puts_push _).checks
  | twoDup =>
    exact (peels_look 0).bind fun _ => (peels_look 1).bind fun _ => (puts_push_push _ _).checks
  | twoDrop => exact peels_pop.bind fun _ => peels_pop.bind fun _ => (puts_pure _).checks
  | twoSwap =>
    exact peels_pop.bind fun _ => peels_pop.bind fun _ => peels_pop.bind fun _ =>
      peels_pop.bind fun _ => (puts_push _).checks.bind fun _ => (puts_push _).bind fun _ =>
        puts_push_push _ _
  | twoOver =>
    exact (peels_look 3).bind fun _ => (peels_look 2).bind fun _ => (puts_push_push _ _).checks
  | dupTrue =>
    refine (peels_look 0).bind fun x => (peels_lift _).bind fun truth => ?_
    cases truth with
    | true => exact (puts_push x).checks
    | false => exact (puts_pure _).checks
  | depth => exact ensures_look fun _ _ => (puts_push _).checks

theorem ArithmeticWord.checks (w : ArithmeticWord) : DataAction.Checks data w.run := by
  cases w with
  | add => exact checks_calculate _ _
  | sub => exact checks_calculate _ _
  | mul => exact checks_calculate _ _
  | div => exact checks_divide _ _
  | mod => exact checks_divide _ _
  | min => exact checks_choose _ _
  | max => exact checks_choose _ _
  | divMod =>
    -- the divisor is checked before the dividend is taken
    refine peels_popInt.bind fun b => ?_
    have hrest : DataAction.Checks data (popInt ArithmeticWord.divMod.name >>= fun a =>
        push (.int (a.fmod b)) >>= fun _ => push (.int (a.fdiv b))) :=
      peels_popInt.bind fun _ => (puts_push_push _ _).checks
    by_cases hb : b = 0
    · rw [if_pos hb]
      exact checks_throw_bind _ _
    · rw [if_neg hb]
      exact hrest
  | negate => exact checks_change _ _
  | abs => exact checks_change _ _
  | increment => exact checks_change _ _
  | decrement => exact checks_change _ _

theorem ComparisonWord.checks (w : ComparisonWord) : DataAction.Checks data w.run := by
  cases w with
  | less => exact checks_compareInts _ _
  | greater => exact checks_compareInts _ _
  | lessEqual => exact checks_compareInts _ _
  | greaterEqual => exact checks_compareInts _ _
  | equal => exact checks_compareCells _
  | notEqual => exact checks_compareCells _
  | isZero => exact peels_popTruth.bind fun _ => (puts_push _).checks
  | isNegative => exact peels_popInt.bind fun _ => (puts_push _).checks
  | isPositive => exact peels_popInt.bind fun _ => (puts_push _).checks

theorem LogicWord.checks (w : LogicWord) : DataAction.Checks data w.run := by
  cases w with
  | and => exact checks_combine _ _ _
  | or => exact checks_combine _ _ _
  | xor => exact checks_combine _ _ _
  | invert =>
    refine peels_popIntCell.bind fun x => ?_
    have hint : DataAction.Checks data (liftM (x.expectInt LogicWord.invert.name) >>= fun n =>
        pushInt (Bits.complement n)) := (peels_lift _).bind fun _ => (puts_push _).checks
    cases x with
    | flags bits => exact (puts_push _).checks
    | _ => exact hint
  | not => exact peels_popTruth.bind fun _ => (puts_push _).checks
  | true => exact (puts_push _).checks
  | false => exact (puts_push _).checks

theorem OutputWord.checks (w : OutputWord) : DataAction.Checks data w.run := by
  cases w with
  | dot => exact peels_popInt.bind fun _ => (puts_pure _).checks
  | emit =>
    exact peels_popInt.bind fun _ => (peels_lift _).bind fun _ => (puts_pure _).checks
  | tell => exact peels_popText.imp (fun _ _ _ => trivial) fun _ _ => id
  | showStack => exact ensures_look fun _ _ => (puts_pure _).checks
  | dump => exact ensures_look fun _ _ => (puts_pure _).checks

theorem Calculation.checks (c : Calculation) : DataAction.Checks data c.run := by
  cases c with
  | stack w => exact w.checks.bind fun _ => puts_pure _
  | arithmetic w => exact w.checks.bind fun _ => puts_pure _
  | comparison w => exact w.checks.bind fun _ => puts_pure _
  | logic w => exact w.checks.bind fun _ => puts_pure _
  | output w => exact w.checks

end Calculations

/-! ## Actions -/

/-- From one machine to another no more was done than to take cells off the data stack, to read, and
to log. -/
structure Machine.Spares (m m' : Machine) : Prop where
  data : m'.data <:+ m.data
  returns : m'.returns = m.returns
  memory : m'.memory = m.memory
  mode : m'.mode = m.mode
  ip : m'.ip = m.ip
  said : m'.console.transcript.said = m.console.transcript.said

namespace Machine.Spares

variable {m₀ m : Machine}

theorem refl (m : Machine) : m.Spares m := ⟨List.suffix_refl _, rfl, rfl, rfl, rfl, rfl⟩

theorem withData (h : m₀.Spares m) {data : List Cell} (hdata : data <:+ m₀.data) :
    m₀.Spares { m with data := data } :=
  ⟨hdata, h.returns, h.memory, h.mode, h.ip, h.said⟩

theorem withConsole (h : m₀.Spares m) {console : Console}
    (hsaid : console.transcript.said = m.console.transcript.said) :
    m₀.Spares { m with console := console } :=
  ⟨h.data, h.returns, h.memory, h.mode, h.ip, hsaid.trans h.said⟩

end Machine.Spares

namespace Action

/-- A run that is interrupted has done no harm. -/
def Refused (m₀ : Machine) (stop : Stop) (m : Machine) : Prop := stop.Interrupts → m₀.Spares m

/-- An action takes cells and reads, and does nothing else. -/
abbrev Peels (m₀ : Machine) (act : Action α) : Prop :=
  Ensures m₀.Spares act (fun _ => m₀.Spares) (Refused m₀)

/-- An action that is interrupted has taken cells and read, and has done nothing else. -/
abbrev Checks (m₀ : Machine) (act : Action α) : Prop :=
  Ensures m₀.Spares act (fun _ _ => True) (Refused m₀)

/-- An action is not interrupted. -/
abbrev Puts (m₀ : Machine) (act : Action α) : Prop :=
  Ensures (fun _ => True) act (fun _ _ => True) (Refused m₀)

variable {m₀ : Machine}

theorem Puts.checks {act : Action α} (h : Puts m₀ act) : Checks m₀ act :=
  h.weaken fun _ _ => trivial

/-! ### What cannot be interrupted -/

theorem puts_pure (x : α) : Puts m₀ (pure x) := fun _ _ => trivial

theorem puts_modify (f : Machine → Machine) : Puts m₀ (modify f) := fun _ _ => trivial

theorem puts_push (x : Cell) : Puts m₀ (push x) := puts_modify _

theorem puts_append (x : Cell) : Puts m₀ (append x) := puts_modify _

theorem puts_compileLiteral (x : Cell) : Puts m₀ (compileLiteral x) :=
  (puts_append _).bind fun _ => puts_append _

theorem puts_literal (x : Cell) : Puts m₀ (literal x) := by
  refine ensures_look fun m _ => ?_
  cases m.mode with
  | compile => exact puts_compileLiteral x
  | immediate => exact puts_push x

/-- A thread that is nowhere is no fault. -/
theorem puts_advance (distance : Int) : Puts m₀ (advance distance) := by
  refine ensures_look fun m _ => ?_
  cases m.ip with
  | none => exact ensures_throw fun _ _ hstop => hstop.elim
  | some n => exact puts_modify _

/-! ### What only takes -/

theorem peels_throw (stop : Stop) : Peels m₀ (throw stop : Action α) := fun _ hm _ => hm

theorem peels_liftM_stop (o : Except Stop α) : Peels m₀ (liftM o : Action α) := by
  intro m hm
  cases o with
  | ok x => exact hm
  | error stop => exact fun _ => hm

theorem peels_liftM_fault (o : Except Fault α) : Peels m₀ (liftM o : Action α) := by
  intro m hm
  cases o with
  | ok x => exact hm
  | error f => exact fun _ => hm

theorem peels_ask (f : Memory → Except Stop α) : Peels m₀ (ask f) :=
  ensures_look fun _ _ => peels_liftM_stop _

theorem peels_threadCell : Peels m₀ threadCell := ensures_look fun _ _ => peels_ask _

theorem peels_tokenOf (name : String) : Peels m₀ (tokenOf name) :=
  ensures_look fun _ _ => peels_liftM_stop _

theorem peels_onData {act : DataAction α} (h : DataAction.Peels m₀.data act) :
    Peels m₀ (onData act) := by
  intro m hm
  have hact := h m.data hm.data
  rw [onData]
  cases hrun : act m.data with
  | ok x data =>
    rw [hrun] at hact
    exact hm.withData hact
  | error f data =>
    rw [hrun] at hact
    exact fun _ => hm.withData hact

theorem checks_onData {act : DataAction α} (h : DataAction.Checks m₀.data act) :
    Checks m₀ (onData act) := by
  intro m hm
  have hact := h m.data hm.data
  rw [onData]
  cases hrun : act m.data with
  | ok x data => trivial
  | error f data =>
    rw [hrun] at hact
    exact fun _ => hm.withData hact

theorem peels_onConsole {act : Reading α} (h : Reading.Quiet act) : Peels m₀ (onConsole act) := by
  intro m hm
  have hact := h m.console.transcript.said m.console rfl
  rw [onConsole]
  cases hrun : act m.console with
  | ok x console =>
    rw [hrun] at hact
    exact hm.withConsole hact
  | error stop console =>
    rw [hrun] at hact
    exact fun _ => hm.withConsole hact

theorem peels_nextToken : Peels m₀ nextToken :=
  ensures_look fun m _ => peels_onConsole (Reading.quiet_nextToken m.attendant)

theorem peels_nextChar : Peels m₀ nextChar :=
  ensures_look fun m _ => peels_onConsole (Reading.quiet_nextChar m.attendant)

/-! ### Both in a row -/

theorem checks_put (addr x : Cell) : Checks m₀ (put addr x) :=
  (peels_ask _).bind fun _ => (puts_modify _).checks

theorem checks_changeMemory (f : Memory → Except Stop Memory) : Checks m₀ (changeMemory f) :=
  (peels_ask _).bind fun _ => (puts_modify _).checks

theorem checks_jump (op : String) : Checks m₀ (jump op) :=
  peels_threadCell.bind fun _ => (peels_liftM_fault _).bind fun _ => (puts_advance _).checks

/-! ### By way of `KEY` -/

section Key

/-- As before, with one more cell on top. -/
def OneMore (m₀ m : Machine) : Prop := ∃ x m₁, m₀.Spares m₁ ∧ m = { m₁ with data := x :: m₁.data }

theorem ensures_pop_one : Ensures (OneMore m₀) pop (fun _ => m₀.Spares) (Refused m₀) := by
  rintro _ ⟨x, m, hm, rfl⟩
  exact hm

theorem ensures_popInt_one (op : String) :
    Ensures (OneMore m₀) (popInt op) (fun _ => m₀.Spares) (Refused m₀) := by
  rintro _ ⟨x, m, hm, rfl⟩
  have hpop : popInt op { m with data := x :: m.data } =
      (liftM (x.expectInt op) : Action Int) m := by
    simp only [popInt, onData, DataAction.popInt, DataAction.pop, bind_apply, Stack.pop_cons]
    cases x.expectInt op <;> rfl
  rw [hpop]
  exact peels_liftM_fault _ m hm

variable (hkey : m₀.memory.Intact (.input .key)) (bound : Nat)

include hkey

/-- To enter `KEY` leaves one cell. -/
theorem ensures_invoke_key :
    Ensures m₀.Spares (invoke bound Kernel.keyToken) (fun _ => OneMore m₀) (Refused m₀) := by
  intro m hm
  cases bound with
  | zero => exact fun hstop => hstop.elim
  | succ n =>
    have hcode : m.memory.get (.int (Kernel.codeField (.input .key))) =
        .ok (.native (.primitive (.input .key))) := hm.memory ▸ hkey
    have hrun : invoke (n + 1) Kernel.keyToken m = (arrive (Kernel.codeField (.input .key)) >>=
        fun _ => InputWord.key.perform (execute n)) m := enterWith_of_native hcode
    rw [hrun]
    have harrive : Ensures (fun m' => m' = m) (arrive (Kernel.codeField (.input .key)))
        (fun _ => m₀.Spares) (Refused m₀) := by
      rintro m' rfl
      rcases arrive_cases (Kernel.codeField (.input .key)) m' with ⟨-, log, h⟩ | ⟨stop, -, -, h⟩
      · rw [h]
        exact ⟨hm.data, hm.returns, hm.memory, hm.mode, hm.ip, hm.said⟩
      · rw [h]
        exact fun _ => hm
    have hpush (c : Char) : Ensures m₀.Spares (push (.int c.toNat)) (fun _ => OneMore m₀)
        (Refused m₀) := fun m hm => ⟨_, m, hm, rfl⟩
    exact harrive.bind (fun _ => peels_nextChar.bind hpush) m rfl

/-- `KEY` leaves one cell. -/
theorem ensures_key :
    Ensures m₀.Spares (execute bound Kernel.keyToken) (fun _ => OneMore m₀) (Refused m₀) := by
  intro m hm
  have hloop : Ensures (OneMore m₀) (returnTo (invoke bound) m.returns.length bound)
      (fun _ => OneMore m₀) (Refused m₀) := by
    rintro _ ⟨x, m₁, hm₁, rfl⟩
    cases bound with
    | zero => exact fun hstop => hstop.elim
    | succ n =>
      rw [returnTo_of_not_deeper (by rw [hm.returns, ← hm₁.returns])]
      exact ⟨x, m₁, hm₁, rfl⟩
  have hback : Ensures (OneMore m₀) (modify fun m' => { m' with ip := m.ip } : Action Unit)
      (fun _ => OneMore m₀) (Refused m₀) := by
    rintro _ ⟨x, m₁, hm₁, rfl⟩
    exact ⟨x, { m₁ with ip := m.ip },
      ⟨hm₁.data, hm₁.returns, hm₁.memory, hm₁.mode, hm.ip, hm₁.said⟩, rfl⟩
  have hrun := ((ensures_invoke_key hkey bound).bind fun _ => hloop).bind (fun _ => hback) m hm
  rw [execute, executeWith_apply]
  exact hrun

theorem peels_readKey : Peels m₀ (readKey (execute bound)) := by
  refine (ensures_key hkey bound).bind fun _ => (ensures_popInt_one _).bind fun code => ?_
  cases characterOf code with
  | ok c => exact fun _ hm => hm
  | error f => exact peels_throw _

/-- A text is read without harm, however many characters are read before the input ends. -/
theorem peels_readUntil (delimiter : Char) (length : Nat) (before : List Char) :
    Peels m₀ (readUntil (execute bound) delimiter length before) := by
  induction length generalizing before with
  | zero => exact peels_throw _
  | succ n ih =>
    refine (peels_readKey hkey bound).bind fun c => ?_
    by_cases hc : c = delimiter
    · rw [if_pos hc]
      exact fun _ hm => hm
    · rw [if_neg hc]
      exact ih _

theorem peels_readText (length : Nat) : Peels m₀ (readText (execute bound) length) :=
  (ensures_key hkey bound).bind fun _ => ensures_pop_one.bind fun _ =>
    (peels_readUntil hkey bound _ _ _).bind fun _ _ hm => hm

end Key

end Action

/-! ## Words -/

variable {m₀ : Machine}

theorem ThreadWord.checks {w : ThreadWord} (hexecute : w ≠ .execute) (i : Cell → Action Unit) :
    Checks m₀ (w.perform i) := by
  cases w with
  | exit =>
    refine ensures_look fun m _ => ?_
    cases m.returns with
    | nil => exact (peels_throw _).imp (fun _ _ _ => trivial) fun _ _ => id
    | cons ip rest => exact (puts_modify _).checks
  | lit =>
    exact peels_threadCell.bind fun _ => (puts_push _).checks.bind fun _ => puts_advance 1
  | branch => exact checks_jump _
  | branchFalse =>
    refine (peels_onData DataAction.peels_popTruth).bind fun truth => ?_
    cases truth with
    | true => exact (puts_advance 1).checks
    | false => exact checks_jump _
  | execute => exact absurd rfl hexecute

theorem MemoryWord.checks (w : MemoryWord) : Checks m₀ w.perform := by
  cases w with
  | fetch =>
    exact (peels_onData DataAction.peels_popIntCell).bind fun _ => (peels_ask _).bind fun _ =>
      (puts_push _).checks
  | store =>
    exact (peels_onData DataAction.peels_popIntCell).bind fun _ =>
      (peels_onData DataAction.peels_pop).bind fun _ => checks_put _ _
  | addStore =>
    exact (peels_onData DataAction.peels_popIntCell).bind fun _ =>
      (peels_onData DataAction.peels_popInt).bind fun _ => (peels_ask _).bind fun _ =>
        (peels_liftM_fault _).bind fun _ => checks_put _ _
  | comma => exact (peels_onData DataAction.peels_pop).bind fun _ => (puts_append _).checks
  | here => exact ensures_look fun _ _ => (puts_push _).checks
  | latest => exact ensures_look fun _ _ => (puts_push _).checks
  | allot => exact (peels_onData DataAction.peels_popInt).bind fun _ => (puts_modify _).checks

theorem CompilerWord.checks (w : CompilerWord) : Checks m₀ w.perform := by
  cases w with
  | create => exact (peels_onData DataAction.peels_popText).bind fun _ => (puts_modify _).checks
  | compileEnter => exact (puts_append _).checks
  | compileVariable => exact (puts_append _).checks
  | find =>
    exact (peels_onData DataAction.peels_popText).bind fun _ => (peels_ask _).bind fun _ =>
      (puts_push _).checks
  | toCode => exact (peels_onData DataAction.peels_popInt).bind fun _ => (puts_push _).checks
  | toBody => exact (peels_onData DataAction.peels_popToken).bind fun _ => (puts_push _).checks
  | hidden =>
    exact (peels_onData DataAction.peels_popIntCell).bind fun _ => checks_changeMemory _
  | reveal =>
    exact (peels_onData DataAction.peels_popIntCell).bind fun _ => checks_changeMemory _
  | whenCompiling =>
    refine ensures_look fun m _ => ?_
    by_cases hm : m.mode ≠ .compile
    · rw [if_pos hm]
      exact (peels_throw _).imp (fun _ _ _ => trivial) fun _ _ => id
    · rw [if_neg hm]
      exact (puts_pure _).checks
  | immediate =>
    refine ensures_look fun m _ => ?_
    cases m.memory.latest with
    | none => exact (peels_throw _).imp (fun _ _ _ => trivial) fun _ _ => id
    | some h => exact checks_changeMemory _
  | leftBracket => exact (puts_modify _).checks
  | rightBracket => exact (puts_modify _).checks
  | state => exact ensures_look fun _ _ => (puts_push _).checks
  | tick =>
    exact peels_nextToken.bind fun _ => (peels_tokenOf _).bind fun _ => (puts_push _).checks
  | compileTick =>
    exact peels_nextToken.bind fun _ => (peels_tokenOf _).bind fun _ => (puts_literal _).checks

theorem InputWord.checks {w : InputWord} (hinterpret : w ≠ .interpret) (e : Cell → Action Unit) :
    Checks m₀ (w.perform e) := by
  cases w with
  | word => exact peels_nextToken.bind fun _ => (puts_push _).checks
  | key => exact peels_nextChar.bind fun _ => (puts_push _).checks
  | number =>
    refine (peels_onData DataAction.peels_popText).bind fun name => ?_
    cases Numeral.read? name with
    | none => exact (puts_push _).checks.bind fun _ => puts_push _
    | some n => exact (puts_push _).checks.bind fun _ => puts_push _
  | char => exact peels_nextToken.bind fun _ => (puts_push _).checks
  | interpret => exact absurd rfl hinterpret

theorem TextWord.checks (hkey : m₀.memory.Intact (.input .key)) (bound length : Nat)
    (w : TextWord) : Checks m₀ (w.perform (execute bound) length) := by
  cases w with
  | text => exact (peels_readText hkey bound length).bind fun _ => (puts_literal _).checks
  | print =>
    refine (peels_readText hkey bound length).bind fun text => ensures_look fun m _ => ?_
    cases m.mode with
    | compile => exact (puts_compileLiteral _).checks.bind fun _ => puts_append _
    | immediate => exact (puts_modify _).checks
  | comment => exact (peels_readUntil hkey bound _ _ _).bind fun _ => (puts_pure _).checks
  | lineComment => exact (puts_modify _).checks

theorem SessionWord.checks (w : SessionWord) : Checks m₀ w.perform := by
  cases w with
  | abort => exact (peels_throw _).imp (fun _ _ _ => trivial) fun _ _ => id
  | bye => exact (peels_throw _).imp (fun _ _ _ => trivial) fun _ _ => id

theorem Native.checks (hkey : m₀.memory.Intact (.input .key)) {n : Native}
    (hexecute : n ≠ .primitive (.thread .execute)) (hinterpret : n ≠ .primitive (.input .interpret))
    (addr : Int) (bound : Nat) :
    Checks m₀ (n.perform addr (invoke bound) (execute bound) bound) := by
  cases n with
  | enter => exact (puts_modify _).checks
  | «variable» => exact (puts_push _).checks
  | primitive p =>
    cases p with
    | calculation c =>
      refine (checks_onData c.checks).bind fun text => ?_
      by_cases htext : text ≠ ""
      · rw [if_pos htext]
        exact puts_modify _
      · rw [if_neg htext]
        exact puts_pure _
    | thread w => exact ThreadWord.checks (fun h => hexecute (by rw [h])) _
    | memory w => exact w.checks
    | compiler w => exact w.checks
    | input w => exact InputWord.checks (fun h => hinterpret (by rw [h])) _
    | text w => exact w.checks hkey bound bound
    | session w => exact w.checks

/-- **A word of the machine that is interrupted has only taken cells off the data stack, and read.**
That goes for all but `EXECUTE` and `INTERPRET`, which run any word, as long as `KEY` is what it
was. -/
theorem Native.spares_when_interrupted {m m' : Machine} {n : Native} {stop : Stop} (addr : Int)
    (bound : Nat) (hkey : m.memory.Intact (.input .key))
    (hexecute : n ≠ .primitive (.thread .execute)) (hinterpret : n ≠ .primitive (.input .interpret))
    (hrun : n.perform addr (invoke bound) (execute bound) bound m = .error stop m')
    (hstop : stop.Interrupts) : m.Spares m' := by
  have hchecks := Native.checks hkey hexecute hinterpret addr bound m (.refl m)
  rw [hrun] at hchecks
  exact hchecks hstop

/-- A machine with a cell on its data stack, and with the start of a text in its input. -/
def unfinishedText : Machine where
  data := [.int 5]
  memory := Kernel.bootedMemory
  console := { source := { rest := " ab".toList } }

/-- The text is not ended. The cell stays, and nothing is said. -/
theorem unfinished_text_is_spared :
    unfinishedText.memory.Intact (.input .key) ∧
    ∃ m', (Native.primitive (.text .print)).perform (Kernel.codeField (.text .print)) (invoke 5)
      (execute 5) 5 unfinishedText = .error .endOfInput m' ∧ unfinishedText.Spares m' := by
  have hkey : unfinishedText.memory.Intact (.input .key) := by decide +kernel
  have hends : reason ((Native.primitive (.text .print)).perform (Kernel.codeField (.text .print))
      (invoke 5) (execute 5) 5 unfinishedText) = some .endOfInput := by decide +kernel
  obtain ⟨m', hrun⟩ := exists_of_reason hends
  exact ⟨hkey, m', hrun, Native.spares_when_interrupted _ 5 hkey (by simp) (by simp) hrun trivial⟩

end ThreadedForth
