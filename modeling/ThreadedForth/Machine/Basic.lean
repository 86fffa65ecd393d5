import ThreadedForth.Calculation
import ThreadedForth.Memory.Dictionary
import ThreadedForth.Source

/-!
# The machine

The state that a program works on: the two stacks, memory, the mode, the instruction pointer, the
console and the log. An `Action` changes a machine and may stop; what it did before it stopped stays
done.
-/

namespace ThreadedForth

/-! ## Log -/

/-- How much a log record matters. -/
inductive Level
  | debug | info | warning | error
  deriving DecidableEq

/-- The name of a level. -/
def Level.name : Level → String
  | .debug => "DEBUG" | .info => "INFO" | .warning => "WARNING" | .error => "ERROR"

/-- The rank of a level. -/
def Level.rank : Level → Nat
  | .debug => 10 | .info => 20 | .warning => 30 | .error => 40

/-- The part of the program that makes a log record. -/
inductive Channel
  | machine | session | host
  deriving DecidableEq

/-- A log record. -/
structure LogRecord where
  level : Level
  channel : Channel
  text : String

/-! ## State -/

/-- What happens to a token that names a word. -/
inductive Mode
  /-- it is run -/
  | immediate
  /-- it is compiled, unless the word is immediate -/
  | compile
  deriving DecidableEq

/-- The name of a mode. -/
def Mode.name : Mode → String
  | .immediate => "IMMEDIATE" | .compile => "COMPILE"

/-- The state that a program works on. -/
structure Machine where
  /-- the data stack, top first -/
  data : List Cell := []
  /-- the return stack, top first: where to go on, nowhere for a word that the host runs -/
  returns : List (Option Int) := []
  /-- headers, code and data -/
  memory : Memory := .fresh
  /-- what happens to words -/
  mode : Mode := .immediate
  /-- the address of the next cell of the thread -/
  ip : Option Int := none
  /-- the code field that was entered last -/
  current : Option Int := none
  /-- input and output -/
  console : Console := {}
  /-- whether each dispatch is logged -/
  tracing : Bool := false
  /-- remarks on words, by the address of their header, last first -/
  remarks : List (Int × String) := []
  /-- the log records, last first -/
  log : List LogRecord := []

instance : Inhabited Machine := ⟨{}⟩

/-- An action on a machine. -/
abbrev Action := EStateM Stop Machine

/-- What may fail with a fault may be part of an action. -/
instance : MonadLift (Except Fault) Action where
  monadLift
    | .ok x => pure x
    | .error f => throw (.fault f)

/-- What may stop may be part of an action. -/
instance : MonadLift (Except Stop) Action where
  monadLift
    | .ok x => pure x
    | .error stop => throw stop

namespace Action

/-- Stops with a fault. -/
def fail {α : Type} (f : Fault) : Action α := throw (.fault f)

/-- Does an action and gives its outcome, whatever it is. -/
def observe {α : Type} (act : Action α) : Action (Except Stop α) := fun m =>
  match act m with
  | .ok x m => .ok (.ok x) m
  | .error stop m => .ok (.error stop) m

/-- Gives the outcome of an action that was observed. -/
def settle {α : Type} : Except Stop α → Action α
  | .ok x => pure x
  | .error stop => throw stop

/-- An action on the data stack. -/
def onData {α : Type} (act : DataAction α) : Action α := fun m =>
  match act m.data with
  | .ok x data => .ok x { m with data := data }
  | .error f data => .error (.fault f) { m with data := data }

/-- An action on the console. -/
def onConsole {α : Type} (act : Reading α) : Action α := fun m =>
  match act m.console with
  | .ok x console => .ok x { m with console := console }
  | .error stop console => .error stop { m with console := console }

/-- What the memory tells. -/
def ask {α : Type} (f : Memory → Except Stop α) : Action α := do
  liftM (f (← get).memory)

/-- Changes the memory. -/
def modifyMemory (f : Memory → Memory) : Action Unit :=
  modify fun m => { m with memory := f m.memory }

/-- Puts a cell into memory. -/
def put (addr x : Cell) : Action Unit := do
  let i ← ask fun memory => memory.index addr
  modifyMemory (·.write i x)

/-- Puts a cell at the end of memory. -/
def append (x : Cell) : Action Unit := modifyMemory (·.append x)

/-- Writes for the user. -/
def write (voice : Voice) (text : String) : Action Unit :=
  modify fun m =>
    { m with console := { m.console with transcript := m.console.transcript.write voice text } }

/-- Writes what a word prints. -/
def emit (text : String) : Action Unit := write .program text

/-- Makes a log record. -/
def record (level : Level) (channel : Channel) (text : String) : Action Unit :=
  modify fun m => { m with log := ⟨level, channel, text⟩ :: m.log }

/-- Changes the source. -/
def modifySource (f : Source → Source) : Action Unit :=
  modify fun m => { m with console := { m.console with source := f m.console.source } }

/-- Clears both stacks, goes back to immediate mode and drops the current line. -/
def reset : Action Unit := do
  modify fun m =>
    { m with data := [], returns := [], mode := .immediate, ip := none, current := none }
  modifySource Source.skipLine

end Action

end ThreadedForth
