import ThreadedForth.Machine.Thread
import ThreadedForth.Numeral

/-!
# Behaviour of the words of the machine

What each native behaviour does. Several primitives run words in turn: `EXECUTE` enters one,
`INTERPRET` and the words that read texts run one to its end. They are given for any way to do so,
which `invoke` and `execute` stand for here; the module on dispatch puts the real ones in.
-/

namespace ThreadedForth

namespace Action

/-! ## Interpreting a token -/

/-- Reports a token that is neither a word nor a numeral. -/
def reportUnknown (name : String) : Action Unit := do
  let line := (← get).console.source.lineCount
  record .warning .machine s!"unknown token {Text.quoted name} (line {line})"
  emit ((Fault.unknownToken name).message ++ "\n")

/-- Interprets a token: a word is run or compiled, a numeral is a literal, and anything else is
reported. -/
def interpretToken (execute : Cell → Action Unit) (name : String) : Action Unit := do
  match ← ask fun memory => memory.find name with
  | none =>
    match Numeral.read? name with
    | none => reportUnknown name
    | some n => literal (.int n)
  | some h =>
    let code := Cell.token (← liftM (h.plus headerSize))
    if (← get).mode = .immediate then execute code
    else if ← ask fun memory => memory.isImmediate h then execute code
    else append code

/-! ## Reading a text -/

/-- Takes a character by way of the word `KEY`. -/
def readKey (execute : Cell → Action Unit) : Action Char := do
  execute Kernel.keyToken
  let code ← popInt InputWord.key.name
  match characterOf code with
  | .ok c => return c
  | .error _ => throw (.defect (.noCharacter code))

/-- Takes characters up to a delimiter, which is taken too, and gives those before it, last first.
-/
def readUntil (execute : Cell → Action Unit) (delimiter : Char) : Nat → List Char →
    Action (List Char)
  | 0, _ => throw .exhausted
  | bound + 1, before => do
    let c ← readKey execute
    if c = delimiter then return before
    readUntil execute delimiter bound (c :: before)

/-- Takes a text: one delimiter is passed over, and a double quote ends it. -/
def readText (execute : Cell → Action Unit) (bound : Nat) : Action String := do
  execute Kernel.keyToken
  let _ ← pop
  let before ← readUntil execute '"' bound []
  return String.ofList before.reverse

end Action

open ThreadedForth.Action

/-! ## Behaviour of the primitives -/

/-- Runs a word that steers the thread. -/
def ThreadWord.perform (w : ThreadWord) (invoke : Cell → Action Unit) : Action Unit :=
  match w with
  | .exit => do
    match (← get).returns with
    | [] => fail (.underflow "return")
    | ip :: returns => modify fun m => { m with ip := ip, returns := returns }
  | .lit => do
    push (← threadCell)
    advance 1
  | .branch => jump w.name
  | .branchFalse => do
    if ← popTruth w.name then advance 1 else jump w.name
  | .execute => do invoke (.token (← popToken w.name))

/-- Runs a word that reads or writes memory. -/
def MemoryWord.perform (w : MemoryWord) : Action Unit :=
  match w with
  | .fetch => do
    let addr ← popIntCell w.name
    push (← ask fun memory => memory.fetch addr)
  | .store => do
    let addr ← popIntCell w.name
    let x ← pop
    put addr x
  | .addStore => do
    let addr ← popIntCell w.name
    let n ← popInt w.name
    let x ← ask fun memory => memory.fetch addr
    put addr (.int ((← liftM (x.expectInt w.name)) + n))
  | .comma => do append (← pop)
  | .here => do push (.int (← get).memory.here)
  | .latest => do push (.int ((← get).memory.latest.getD 0))
  | .allot => do
    let delta ← popInt w.name
    modifyMemory (·.resize delta)

/-- Runs a word of the compiler. -/
def CompilerWord.perform (w : CompilerWord) : Action Unit :=
  match w with
  | .create => do
    let name ← popText w.name
    modifyMemory (·.allocateHeader name 0)
  | .compileEnter => append (.native .enter)
  | .compileVariable => append (.native .variable)
  | .find => do
    let name ← popText w.name
    push ((← ask fun memory => memory.find name).getD (.int 0))
  | .toCode => do push (.token ((← popInt w.name) + headerSize))
  | .toBody => do push (.int ((← popToken w.name) + 1))
  | .hidden => do
    let header ← popIntCell w.name
    changeMemory (·.toggleFlags header Flags.hidden)
  | .reveal => do
    let header ← popIntCell w.name
    changeMemory (·.clearFlags header Flags.hidden)
  | .whenCompiling => do
    if (← get).mode ≠ .compile then fail .notCompiling
  | .immediate => do
    match (← get).memory.latest with
    | none => fail .emptyDictionary
    | some h => changeMemory (·.toggleFlags (.int h) Flags.immediate)
  | .leftBracket => modify fun m => { m with mode := .immediate }
  | .rightBracket => modify fun m => { m with mode := .compile }
  | .state => do push (.bool ((← get).mode = .compile))
  | .tick => do push (← tokenOf (← nextToken))
  | .compileTick => do literal (← tokenOf (← nextToken))

/-- Runs a word that takes from the input. -/
def InputWord.perform (w : InputWord) (execute : Cell → Action Unit) : Action Unit :=
  match w with
  | .word => do push (.text (← nextToken))
  | .key => do push (.int (← nextChar).toNat)
  | .number => do
    let name ← popText w.name
    match Numeral.read? name with
    | none =>
      push (.text name)
      push (.bool false)
    | some n =>
      push (.int n)
      push (.bool true)
  | .char => do push (.int ((← nextToken).toList.headD ' ').toNat)
  | .interpret => do interpretToken execute (← nextToken)

/-- Runs a word that takes a text or a comment from the input. -/
def TextWord.perform (w : TextWord) (execute : Cell → Action Unit) (bound : Nat) : Action Unit :=
  match w with
  | .text => do literal (.text (← readText execute bound))
  | .print => do
    let text ← readText execute bound
    match (← get).mode with
    | .compile =>
      compileLiteral (.text text)
      append Kernel.tellToken
    | .immediate => emit text
  | .comment => do
    let _ ← readUntil execute ')' bound []
  | .lineComment => modifySource Source.skipLine

/-- Runs a word that ends the session or its line. -/
def SessionWord.perform : SessionWord → Action Unit
  | .abort => fail .abort
  | .bye => throw .endOfInput

/-- Runs a primitive, given how to enter a word, how to run one to its end, and a bound on the
length of a text. -/
def Primitive.perform (p : Primitive) (invoke execute : Cell → Action Unit) (bound : Nat) :
    Action Unit :=
  match p with
  | .calculation c => do
    let text ← onData c.run
    if text ≠ "" then emit text
  | .thread w => w.perform invoke
  | .memory w => w.perform
  | .compiler w => w.perform
  | .input w => w.perform execute
  | .text w => w.perform execute bound
  | .session w => w.perform

/-- Runs the behaviour of the code field at an address. -/
def Native.perform (n : Native) (addr : Int) (invoke execute : Cell → Action Unit) (bound : Nat) :
    Action Unit :=
  match n with
  | .enter => modify fun m => { m with returns := m.ip :: m.returns, ip := some (addr + 1) }
  | .variable => push (.int (addr + 1))
  | .primitive p => p.perform invoke execute bound

end ThreadedForth
