import ThreadedForth.Machine.Dispatch
import ThreadedForth.Proofs.Machine.Action

/-!
# What actions leave alone

`Action.Keeps f act` says that `act` leaves `f` of the machine as it was, whether it ends well or
stops. Actions that are put together from such ones are such ones, so that for a primitive this is a
matter of following its definition. What a family of primitives may change is then said by the
assumptions on `f`: a part of the machine that does not depend on the data stack and the memory,
say, is left alone by every word that reads or writes memory (`MemoryWord.keeps`).
-/

namespace ThreadedForth

namespace Action

variable {α β γ : Type} {f : Machine → γ}

/-- The machine that an action leaves behind. -/
def after (act : Action α) (m : Machine) : Machine :=
  match act m with
  | .ok _ m' => m'
  | .error _ m' => m'

/-- An action leaves a part of the machine as it was. -/
def Keeps (f : Machine → γ) (act : Action α) : Prop := ∀ m, f (after act m) = f m

theorem Keeps.of_ok {act : Action α} {m m' : Machine} {x : α} (hk : Keeps f act)
    (h : act m = .ok x m') : f m' = f m := by
  have := hk m
  rwa [after, h] at this

theorem keeps_pure (x : α) : Keeps f (pure x : Action α) := fun _ => rfl

theorem keeps_throw (stop : Stop) : Keeps f (throw stop : Action α) := fun _ => rfl

theorem keeps_fail (fault : Fault) : Keeps f (fail fault : Action α) := fun _ => rfl

theorem keeps_get : Keeps f (get : Action Machine) := fun _ => rfl

theorem keeps_modify {g : Machine → Machine} (hg : ∀ m, f (g m) = f m) :
    Keeps f (modify g : Action Unit) := hg

theorem keeps_bind {act : Action α} {k : α → Action β} (ha : Keeps f act)
    (hk : ∀ x, Keeps f (k x)) : Keeps f (act >>= k) := by
  intro m
  rw [after, bind_apply]
  cases h : act m with
  | ok x m₁ => exact (hk x m₁).trans (ha.of_ok h)
  | error stop m₁ =>
    have := ha m
    rwa [after, h] at this

theorem keeps_liftM_stop (o : Except Stop α) : Keeps f (liftM o : Action α) := by
  intro m
  cases o <;> rfl

theorem keeps_liftM_fault (o : Except Fault α) : Keeps f (liftM o : Action α) := by
  intro m
  cases o <;> rfl

theorem keeps_ask (g : Memory → Except Stop α) : Keeps f (ask g) :=
  keeps_bind keeps_get fun _ => keeps_liftM_stop _

/-! ## Parts of the machine -/

/-- A part of the machine that does not depend on the data stack. -/
def IgnoresData (f : Machine → γ) : Prop := ∀ (m : Machine) data, f { m with data := data } = f m

/-- A part of the machine that does not depend on the memory. -/
def IgnoresMemory (f : Machine → γ) : Prop :=
  ∀ (m : Machine) memory, f { m with memory := memory } = f m

/-- A part of the machine that does not depend on the mode. -/
def IgnoresMode (f : Machine → γ) : Prop := ∀ (m : Machine) mode, f { m with mode := mode } = f m

/-- A part of the machine that does not depend on the console. -/
def IgnoresConsole (f : Machine → γ) : Prop :=
  ∀ (m : Machine) console, f { m with console := console } = f m

/-- A part of the machine that does not depend on where the thread is. -/
def IgnoresThread (f : Machine → γ) : Prop :=
  ∀ (m : Machine) ip current, f { m with ip := ip, current := current } = f m

/-- A part of the machine that does not depend on the log. -/
def IgnoresLog (f : Machine → γ) : Prop := ∀ (m : Machine) log, f { m with log := log } = f m

/-! ## Small actions -/

section SmallActions

variable (hdata : IgnoresData f) (hmemory : IgnoresMemory f) (hconsole : IgnoresConsole f)
  (hthread : IgnoresThread f) (hlog : IgnoresLog f)

include hdata in
theorem keeps_onData (act : DataAction α) : Keeps f (onData act) := by
  intro m
  rw [after, onData]
  cases act m.data <;> exact hdata m _

include hdata in
theorem keeps_push (x : Cell) : Keeps f (push x) := keeps_modify fun m => hdata m _

include hmemory in
theorem keeps_modifyMemory (g : Memory → Memory) : Keeps f (modifyMemory g) :=
  keeps_modify fun m => hmemory m _

include hmemory in
theorem keeps_changeMemory (g : Memory → Except Stop Memory) : Keeps f (changeMemory g) :=
  keeps_bind (keeps_ask _) fun _ => keeps_modifyMemory hmemory _

include hmemory in
theorem keeps_append (x : Cell) : Keeps f (append x) := keeps_modifyMemory hmemory _

include hmemory in
theorem keeps_put (addr x : Cell) : Keeps f (put addr x) :=
  keeps_bind (keeps_ask _) fun _ => keeps_modifyMemory hmemory _

include hconsole in
theorem keeps_onConsole (act : Reading α) : Keeps f (onConsole act) := by
  intro m
  rw [after, onConsole]
  cases act m.console <;> exact hconsole m _

include hconsole in
theorem keeps_nextToken : Keeps f nextToken :=
  keeps_bind keeps_get fun _ => keeps_onConsole hconsole _

include hconsole in
theorem keeps_nextChar : Keeps f nextChar :=
  keeps_bind keeps_get fun _ => keeps_onConsole hconsole _

include hconsole in
theorem keeps_emit (text : String) : Keeps f (emit text) := keeps_modify fun m => hconsole m _

theorem keeps_tokenOf (name : String) : Keeps f (tokenOf name) :=
  keeps_bind keeps_get fun _ => keeps_liftM_stop _

include hmemory in
theorem keeps_compileLiteral (x : Cell) : Keeps f (compileLiteral x) :=
  keeps_bind (keeps_append hmemory _) fun _ => keeps_append hmemory _

include hdata hmemory in
theorem keeps_literal (x : Cell) : Keeps f (literal x) := by
  refine keeps_bind keeps_get fun m => ?_
  cases m.mode with
  | compile => exact keeps_compileLiteral hmemory x
  | immediate => exact keeps_push hdata x

include hconsole hlog in
theorem keeps_reportUnknown (name : String) : Keeps f (reportUnknown name) :=
  keeps_bind keeps_get fun _ =>
    keeps_bind (keeps_modify fun m => hlog m _) fun _ => keeps_emit hconsole _

theorem keeps_threadCell : Keeps f threadCell := keeps_bind keeps_get fun _ => keeps_ask _

include hthread in
theorem keeps_advance (distance : Int) : Keeps f (advance distance) := by
  refine keeps_bind keeps_get fun m => ?_
  cases m.ip with
  | none => exact keeps_throw _
  | some n => exact keeps_modify fun m => hthread m _ m.current

include hthread in
theorem keeps_jump (op : String) : Keeps f (jump op) :=
  keeps_bind keeps_threadCell fun _ =>
    keeps_bind (keeps_liftM_fault _) fun _ => keeps_advance hthread _

include hlog in
theorem keeps_trace (addr : Int) : Keeps f (trace addr) := by
  refine keeps_bind keeps_get fun m => ?_
  by_cases ht : m.tracing
  · rw [if_pos ht]
    exact keeps_bind (keeps_liftM_stop _) fun _ => keeps_modify fun m => hlog m _
  · rw [if_neg ht]
    exact keeps_pure _

include hthread hlog in
theorem keeps_arrive (addr : Int) : Keeps f (arrive addr) :=
  keeps_bind (keeps_trace hlog addr) fun _ => keeps_modify fun m => hthread m m.ip _

end SmallActions

end Action

open ThreadedForth.Action

/-! ## Families of primitives -/

variable {γ : Type} {f : Machine → γ}

theorem MemoryWord.keeps (hdata : IgnoresData f) (hmemory : IgnoresMemory f) (w : MemoryWord) :
    Keeps f w.perform := by
  cases w with
  | fetch =>
    exact keeps_bind (keeps_onData hdata _) fun _ =>
      keeps_bind (keeps_ask _) fun _ => keeps_push hdata _
  | store =>
    exact keeps_bind (keeps_onData hdata _) fun _ =>
      keeps_bind (keeps_onData hdata _) fun _ => keeps_put hmemory _ _
  | addStore =>
    exact keeps_bind (keeps_onData hdata _) fun _ =>
      keeps_bind (keeps_onData hdata _) fun _ => keeps_bind (keeps_ask _) fun _ =>
        keeps_bind (keeps_liftM_fault _) fun _ => keeps_put hmemory _ _
  | comma => exact keeps_bind (keeps_onData hdata _) fun _ => keeps_append hmemory _
  | here => exact keeps_bind keeps_get fun _ => keeps_push hdata _
  | latest => exact keeps_bind keeps_get fun _ => keeps_push hdata _
  | allot => exact keeps_bind (keeps_onData hdata _) fun _ => keeps_modifyMemory hmemory _

/-- Only the two brackets change the mode. -/
theorem CompilerWord.keeps_of_ne (hdata : IgnoresData f) (hmemory : IgnoresMemory f)
    (hconsole : IgnoresConsole f) {w : CompilerWord} (hleft : w ≠ .leftBracket)
    (hright : w ≠ .rightBracket) : Keeps f w.perform := by
  cases w with
  | create => exact keeps_bind (keeps_onData hdata _) fun _ => keeps_modifyMemory hmemory _
  | compileEnter => exact keeps_append hmemory _
  | compileVariable => exact keeps_append hmemory _
  | find =>
    exact keeps_bind (keeps_onData hdata _) fun _ =>
      keeps_bind (keeps_ask _) fun _ => keeps_push hdata _
  | toCode => exact keeps_bind (keeps_onData hdata _) fun _ => keeps_push hdata _
  | toBody => exact keeps_bind (keeps_onData hdata _) fun _ => keeps_push hdata _
  | hidden => exact keeps_bind (keeps_onData hdata _) fun _ => keeps_changeMemory hmemory _
  | reveal => exact keeps_bind (keeps_onData hdata _) fun _ => keeps_changeMemory hmemory _
  | whenCompiling =>
    refine keeps_bind keeps_get fun m => ?_
    by_cases hm : m.mode ≠ .compile
    · rw [if_pos hm]
      exact keeps_fail _
    · rw [if_neg hm]
      exact keeps_pure _
  | immediate =>
    refine keeps_bind keeps_get fun m => ?_
    cases m.memory.latest with
    | none => exact keeps_fail _
    | some h => exact keeps_changeMemory hmemory _
  | leftBracket => exact absurd rfl hleft
  | rightBracket => exact absurd rfl hright
  | state => exact keeps_bind keeps_get fun _ => keeps_push hdata _
  | tick =>
    exact keeps_bind (keeps_nextToken hconsole) fun _ =>
      keeps_bind (keeps_tokenOf _) fun _ => keeps_push hdata _
  | compileTick =>
    exact keeps_bind (keeps_nextToken hconsole) fun _ =>
      keeps_bind (keeps_tokenOf _) fun _ => keeps_literal hdata hmemory _

theorem CompilerWord.keeps (hdata : IgnoresData f) (hmemory : IgnoresMemory f)
    (hmode : IgnoresMode f) (hconsole : IgnoresConsole f) (w : CompilerWord) :
    Keeps f w.perform := by
  by_cases hleft : w = .leftBracket
  · subst hleft
    exact keeps_modify fun m => hmode m _
  · by_cases hright : w = .rightBracket
    · subst hright
      exact keeps_modify fun m => hmode m _
    · exact keeps_of_ne hdata hmemory hconsole hleft hright

theorem SessionWord.keeps (w : SessionWord) : Keeps f w.perform := by
  cases w with
  | abort => exact keeps_fail _
  | bye => exact keeps_throw _

theorem Calculation.keeps (hdata : IgnoresData f) (hconsole : IgnoresConsole f) (c : Calculation)
    (invoke execute : Cell → Action Unit) (bound : Nat) :
    Keeps f ((Primitive.calculation c).perform invoke execute bound) := by
  refine keeps_bind (keeps_onData hdata _) fun text => ?_
  by_cases ht : text ≠ ""
  · rw [if_pos ht]
    exact keeps_emit hconsole _
  · rw [if_neg ht]
    exact keeps_pure _

end ThreadedForth
