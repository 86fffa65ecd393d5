import ThreadedForth.Host.Command

/-!
# Threads

The small actions that words are made of: taking operands off the data stack and leaving results on
it, reading the input, moving the thread, and compiling cells. They live in the namespace `Action`.
-/

namespace ThreadedForth

namespace Action

/-! ## Operands -/

/-- Pushes a cell. -/
def push (x : Cell) : Action Unit := modify fun m => { m with data := x :: m.data }

/-- Takes the top cell. -/
def pop : Action Cell := onData DataAction.pop

/-- Takes an integer. -/
def popInt (op : String) : Action Int := onData (DataAction.popInt op)

/-- Takes an integer and gives the cell that holds it. -/
def popIntCell (op : String) : Action Cell := onData (DataAction.popIntCell op)

/-- Takes a text. -/
def popText (op : String) : Action String := onData (DataAction.popText op)

/-- Takes an execution token and gives its address. -/
def popToken (op : String) : Action Int := onData (DataAction.popToken op)

/-- Takes the truth of a cell. -/
def popTruth (op : String) : Action Bool := onData (DataAction.popTruth op)

/-- The next token of the input. -/
def nextToken : Action String := do
  let host := (← get).attendant
  onConsole (Reading.nextToken host)

/-- The next character of the input. -/
def nextChar : Action Char := do
  let host := (← get).attendant
  onConsole (Reading.nextChar host)

/-! ## Threads -/

/-- An instruction pointer as a cell. -/
def pointerCell : Option Int → Cell
  | none => .absent
  | some n => .int n

/-- The cell that the thread is at. -/
def threadCell : Action Cell := do
  let ip := pointerCell (← get).ip
  ask fun memory => memory.get ip

/-- Moves the thread. -/
def advance (distance : Int) : Action Unit := do
  match (← get).ip with
  | none => throw (.defect .meaningless)
  | some n => modify fun m => { m with ip := some (n + distance) }

/-- Moves the thread by the distance that stands in it. -/
def jump (op : String) : Action Unit := do
  let x ← threadCell
  advance (← liftM (x.expectInt op))

/-! ## Compiling -/

/-- Compiles a cell that is pushed when the thread comes to it. -/
def compileLiteral (x : Cell) : Action Unit := do
  append Kernel.litToken
  append x

/-- Compiles a literal inside a definition and pushes it outside. -/
def literal (x : Cell) : Action Unit := do
  match (← get).mode with
  | .compile => compileLiteral x
  | .immediate => push x

/-- The execution token of the word with a name. -/
def tokenOf (name : String) : Action Cell := do
  liftM ((← get).tokenOf name)

/-- Replaces the memory by one that is made from it. -/
def changeMemory (f : Memory → Except Stop Memory) : Action Unit := do
  let memory ← ask f
  modifyMemory fun _ => memory

end Action

end ThreadedForth
