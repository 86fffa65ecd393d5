import ThreadedForth.Stack

/-!
# Calculations

What the primitives do that work on the data stack alone. Each takes its operands off the top, the
last one first, and checks each as the word prescribes; a fault leaves the stack without the cells
that were taken before it. `Calculation.run` gives the text that a primitive prints.
-/

namespace ThreadedForth

/-- An action on the data stack, which keeps what is left of the stack when it fails. -/
abbrev DataAction := EStateM Fault (List Cell)

/-- What may fail with a fault may be part of an action on the data stack. -/
instance : MonadLift (Except Fault) DataAction where
  monadLift
    | .ok x => pure x
    | .error f => throw f

namespace Cell

/-- The integer that a cell is, or the fault of a word that wants one. -/
def expectInt (op : String) (x : Cell) : Except Fault Int :=
  match x.int? with
  | some n => .ok n
  | none => .error (.expected op .integer x)

/-- The text that a cell is, or the fault of a word that wants one. -/
def expectText (op : String) : Cell → Except Fault String
  | .text s => .ok s
  | x => .error (.expected op .text x)

/-- The address of an execution token, or the fault of a word that wants one. -/
def expectToken (op : String) : Cell → Except Fault Int
  | .token addr => .ok addr
  | x => .error (.expected op .token x)

/-- The truth of a cell: a Boolean as it is, an integer when it is not zero. -/
def expectTruth (op : String) : Cell → Except Fault Bool
  | .bool b => .ok b
  | x => return (← x.expectInt op) != 0

/-- A connective of two cells: of Booleans by truth, of integers bit by bit. Flags stay flags. -/
def connect (op : String) (truth : Bool → Bool → Bool) (bits : Int → Int → Int) (a b : Cell) :
    Except Fault Cell :=
  match a, b with
  | .bool p, .bool q => .ok (.bool (truth p q))
  | _, _ => do
    let m ← a.expectInt op
    let n ← b.expectInt op
    match a, b with
    | .int _, .int _ => return .int (bits m n)
    | _, _ => return .flags (Flags.ofInt (bits m n))

end Cell

namespace DataAction

/-! ## Taking and leaving cells -/

/-- Takes the top cell. -/
def pop : DataAction Cell := Stack.pop "data"

/-- Puts a cell on top. -/
def push (x : Cell) : DataAction Unit := Stack.push x

/-- Puts an integer on top. -/
def pushInt (n : Int) : DataAction Unit := push (.int n)

/-- Puts a Boolean on top. -/
def pushBool (b : Bool) : DataAction Unit := push (.bool b)

/-- Looks at the cell at a depth. -/
def look (depth : Nat) : DataAction Cell := do
  liftM (Stack.look "data" depth (← get))

/-- Takes an integer. -/
def popInt (op : String) : DataAction Int := do
  let x ← pop
  liftM (x.expectInt op)

/-- Takes a text. -/
def popText (op : String) : DataAction String := do
  let x ← pop
  liftM (x.expectText op)

/-- Takes an execution token and gives its address. -/
def popToken (op : String) : DataAction Int := do
  let x ← pop
  liftM (x.expectToken op)

/-- Takes the truth of a cell. -/
def popTruth (op : String) : DataAction Bool := do
  let x ← pop
  liftM (x.expectTruth op)

/-- Takes an integer and gives the cell that holds it. -/
def popIntCell (op : String) : DataAction Cell := do
  let x ← pop
  let _ ← liftM (x.expectInt op)
  return x

/-! ## Taking operands and leaving results -/

/-- Takes two integers and leaves what a function makes of them. -/
def calculate (op : String) (f : Int → Int → Int) : DataAction Unit := do
  let b ← popInt op
  let a ← popInt op
  pushInt (f a b)

/-- Takes two integers and leaves a function of them that is defined unless the second one is zero.
-/
def divide (op : String) (f : Int → Int → Int) : DataAction Unit := do
  let b ← popInt op
  let a ← popInt op
  if b = 0 then throw (.divisionByZero op)
  pushInt (f a b)

/-- Takes two integers and leaves one of them as it was: the second if it comes first, and else the
first. -/
def choose (op : String) (precedes : Int → Int → Bool) : DataAction Unit := do
  let b ← popIntCell op
  let a ← popIntCell op
  let n ← liftM (b.expectInt op)
  let m ← liftM (a.expectInt op)
  push (if precedes n m then b else a)

/-- Takes an integer and leaves what a function makes of it. -/
def change (op : String) (f : Int → Int) : DataAction Unit := do
  pushInt (f (← popInt op))

/-- Takes two integers and leaves whether a relation holds between them. -/
def compareInts (op : String) (holds : Int → Int → Bool) : DataAction Unit := do
  let b ← popInt op
  let a ← popInt op
  pushBool (holds a b)

/-- Takes two cells of any kind and leaves whether a relation holds between them. -/
def compareCells (holds : Cell → Cell → Bool) : DataAction Unit := do
  let b ← pop
  let a ← pop
  pushBool (holds a b)

/-- Takes two cells and leaves their connective. -/
def combine (op : String) (truth : Bool → Bool → Bool) (bits : Int → Int → Int) :
    DataAction Unit := do
  let b ← pop
  let a ← pop
  push (← liftM (Cell.connect op truth bits a b))

end DataAction

open DataAction

/-! ## Stack words -/

/-- Runs a word that rearranges the data stack. -/
def StackWord.run : StackWord → DataAction Unit
  | .drop => do
    let _ ← pop
  | .dup => do push (← look 0)
  | .swap => do
    let b ← pop
    let a ← pop
    push b
    push a
  | .over => do push (← look 1)
  | .rot => do
    let c ← pop
    let b ← pop
    let a ← pop
    push b
    push c
    push a
  | .rotBack => do
    let c ← pop
    let b ← pop
    let a ← pop
    push c
    push a
    push b
  | .nip => do
    let b ← pop
    let _ ← pop
    push b
  | .twoDup => do
    let b ← look 0
    let a ← look 1
    push a
    push b
  | .twoDrop => do
    let _ ← pop
    let _ ← pop
  | .twoSwap => do
    let d ← pop
    let c ← pop
    let b ← pop
    let a ← pop
    push c
    push d
    push a
    push b
  | .twoOver => do
    let a ← look 3
    let b ← look 2
    push a
    push b
  | .dupTrue => do
    let x ← look 0
    if ← liftM (x.expectTruth StackWord.dupTrue.name) then push x
  | .depth => do pushInt (← get).length

/-! ## Arithmetic -/

/-- Runs a word that calculates. Division rounds down, so a remainder has the sign of its divisor.
-/
def ArithmeticWord.run (w : ArithmeticWord) : DataAction Unit :=
  match w with
  | .add => calculate w.name (· + ·)
  | .sub => calculate w.name (· - ·)
  | .mul => calculate w.name (· * ·)
  | .div => divide w.name Int.fdiv
  | .mod => divide w.name Int.fmod
  | .min => choose w.name (· < ·)
  | .max => choose w.name (· > ·)
  | .divMod => do
    let b ← popInt w.name
    if b = 0 then throw (.divisionByZero w.name)
    let a ← popInt w.name
    pushInt (a.fmod b)
    pushInt (a.fdiv b)
  | .negate => change w.name (- ·)
  | .abs => change w.name fun n => n.natAbs
  | .increment => change w.name (· + 1)
  | .decrement => change w.name (· - 1)

/-! ## Comparison -/

/-- Runs a word that compares. -/
def ComparisonWord.run (w : ComparisonWord) : DataAction Unit :=
  match w with
  | .less => compareInts w.name (· < ·)
  | .greater => compareInts w.name (· > ·)
  | .lessEqual => compareInts w.name (· ≤ ·)
  | .greaterEqual => compareInts w.name (· ≥ ·)
  | .equal => compareCells Cell.equal
  | .notEqual => compareCells fun a b => ! a.equal b
  | .isZero => do pushBool (! (← popTruth w.name))
  | .isNegative => do pushBool ((← popInt w.name) < 0)
  | .isPositive => do pushBool ((← popInt w.name) > 0)

/-! ## Logic -/

/-- Runs a connective. -/
def LogicWord.run (w : LogicWord) : DataAction Unit :=
  match w with
  | .and => combine w.name (· && ·) Bits.and
  | .or => combine w.name (· || ·) Bits.or
  | .xor => combine w.name (· ^^ ·) Bits.xor
  | .invert => do
    match ← popIntCell w.name with
    | .flags bits => push (.flags (Flags.ofInt (Bits.complement bits)))
    | x => pushInt (Bits.complement (← liftM (x.expectInt w.name)))
  | .not => do pushBool (! (← popTruth w.name))
  | .true => pushBool Bool.true
  | .false => pushBool Bool.false

/-! ## Output -/

/-- The character of a code. -/
def characterOf (code : Int) : Except Fault Char :=
  if 0 ≤ code && code ≤ 0x10ffff then .ok (Char.ofNat code.toNat) else .error (.noCharacter code)

/-- The whole data stack on a line, bottom first. -/
def stackLine (data : List Cell) : String :=
  let shown := String.intercalate " " (data.reverse.map Cell.display)
  s!"<{data.length}> {shown} \n"

/-- The cells of the data stack, one on a line, top first, each with its place from the bottom. -/
def dumpLines : List Cell → List String
  | [] => []
  | x :: data => s!"{data.length + 1}: {x.display}\n" :: dumpLines data

/-- Runs a word that prints, and gives the text it prints. -/
def OutputWord.run (w : OutputWord) : DataAction String :=
  match w with
  | .dot => return Numeral.write (← popInt w.name) ++ " "
  | .emit => do
    let code ← popInt w.name
    return String.singleton (← liftM (characterOf code))
  | .tell => popText w.name
  | .showStack => return stackLine (← get)
  | .dump => return String.join (dumpLines (← get))

/-- Runs a word that works on the data stack alone, and gives the text it prints. -/
def Calculation.run : Calculation → DataAction String
  | .stack w => do w.run; return ""
  | .arithmetic w => do w.run; return ""
  | .comparison w => do w.run; return ""
  | .logic w => do w.run; return ""
  | .output w => w.run

end ThreadedForth
