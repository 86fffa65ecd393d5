import ThreadedForth.Machine.Behaviour

/-!
# Dispatch

How words run. `Action.invoke` enters the code field of an execution token. `Action.execute` runs a
word from outside any thread: a word that is threaded code leaves a return address on the return
stack, and steps are taken until the stack is no deeper than before. Both have a bound on the number
of steps, which goes down at each entry; a run that ends does not depend on it.
-/

namespace ThreadedForth.Action

/-- Logs that a word is entered. -/
def trace (addr : Int) : Action Unit := do
  let m ← get
  if m.tracing then
    let label ← liftM (m.memory.label addr)
    let data := String.intercalate ", " (m.data.reverse.map Cell.inspect)
    let ip := pointerText m.ip
    record .debug .machine s!"ip={ip} rdepth={m.returns.length} {label.plain} [{data}]"

/-- Notes that a word is entered. -/
def arrive (addr : Int) : Action Unit := do
  trace addr
  modify fun m => { m with current := some addr }

/-- Takes the next cell of the thread and enters it. -/
def stepWith (invoke : Cell → Action Unit) : Action Unit := do
  match (← get).ip with
  | none => fail .noThread
  | some ip =>
    let x ← ask fun memory => memory.get (.int ip)
    modify fun m => { m with ip := some (ip + 1) }
    invoke x

/-- Takes steps until the return stack is no deeper than it was. -/
def returnTo (invoke : Cell → Action Unit) (depth : Nat) : Nat → Action Unit
  | 0 => throw .exhausted
  | bound + 1 => do
    if Stack.deeperThan depth (← get).returns then
      stepWith invoke
      returnTo invoke depth bound

/-- Runs a word to its end and goes on where the thread was. -/
def executeWith (invoke : Cell → Action Unit) (bound : Nat) (x : Cell) : Action Unit := do
  let ip := (← get).ip
  let depth := (← get).returns.length
  invoke x
  returnTo invoke depth bound
  modify fun m => { m with ip := ip }

/-- Enters the word of an execution token, given how to enter the words that it runs in turn. -/
def enterWith (inner : Cell → Action Unit) (bound : Nat) : Cell → Action Unit
  | .token addr => do
    match ← ask fun memory => memory.get (.int addr) with
    | .native n =>
      arrive addr
      n.perform addr inner (executeWith inner bound) bound
    | _ => fail (.noCodeField addr)
  | x => do fail (.notExecutable x (← get).ip)

/-- Enters the word of an execution token. -/
def invoke : Nat → Cell → Action Unit
  | 0, _ => throw .exhausted
  | bound + 1, x => enterWith (invoke bound) bound x

/-- Takes one step of the thread. -/
def step (bound : Nat) : Action Unit := stepWith (invoke bound)

/-- Runs a word to its end. -/
def execute (bound : Nat) (x : Cell) : Action Unit := executeWith (invoke bound) bound x

end ThreadedForth.Action
