import ThreadedForth.Cell

/-!
# Faults

Why a word stops. A `Fault` is an error of the program that is run: it is reported and the session
goes on after it. The end of the input is no fault; it ends the session. A `Defect` is an operation
that has no meaning for the cells it meets and that no word guards against; it ends the session too.
-/

namespace ThreadedForth

/-- An error of the program that is run. -/
inductive Fault
  /-- a stack has too few cells -/
  | underflow (stack : String)
  /-- a word wants a cell with another tag -/
  | expected (op : String) (want : Tag) (got : Cell)
  /-- a cell that is no address in memory, which ends at `here` -/
  | outOfRange (addr : Cell) (here : Nat)
  /-- a cell of memory that is no value -/
  | notValue (x addr : Cell)
  /-- flags are sought where no flags are -/
  | noHeader (header x : Cell)
  /-- what is to be executed is no execution token -/
  | notExecutable (x : Cell) (ip : Option Int)
  /-- an execution token whose address holds no code field -/
  | noCodeField (addr : Int)
  /-- a step without a thread -/
  | noThread
  /-- a division by zero -/
  | divisionByZero (op : String)
  /-- a number that is no character -/
  | noCharacter (code : Int)
  /-- a word for definitions is used outside of one -/
  | notCompiling
  /-- there is no newest word -/
  | emptyDictionary
  /-- a token that is neither a word nor a numeral -/
  | unknownToken (token : String)
  /-- the program gives up -/
  | abort
  deriving DecidableEq

/-- The kinds of fault that a report names. -/
inductive FaultKind
  | general | underflow | cellType | address | abort | unknownToken
  deriving DecidableEq

/-- The name of a kind of fault. -/
def FaultKind.name : FaultKind → String
  | .general => "ForthError" | .underflow => "StackUnderflow" | .cellType => "CellTypeError"
  | .address => "AddressError" | .abort => "Abort" | .unknownToken => "UnknownToken"

/-- The integer that an instruction pointer holds, or the word for its absence. -/
def pointerText : Option Int → String
  | none => "None"
  | some n => Numeral.write n

namespace Fault

/-- The kind of a fault. -/
def kind : Fault → FaultKind
  | .underflow _ => .underflow
  | .expected .. | .notValue .. | .noHeader .. | .notExecutable .. | .noCodeField _
  | .noCharacter _ => .cellType
  | .outOfRange .. => .address
  | .noThread | .divisionByZero _ | .notCompiling | .emptyDictionary => .general
  | .unknownToken _ => .unknownToken
  | .abort => .abort

/-- What a report says of a fault. -/
def message : Fault → String
  | .underflow stack => s!"{stack} stack underflow"
  | .expected op want got => s!"{op} expects {want.name}, got {got.tag.name} {got.inspect}"
  | .outOfRange addr here => s!"address out of range: {addr.inspect} (HERE={here})"
  | .notValue x addr => s!"@: {x.inspect} at {addr.plain} is not a cell value"
  | .noHeader header x =>
    s!"no word header at {header.plain}: flags cell holds {x.tag.name} {x.inspect}"
  | .notExecutable x ip => s!"cannot execute {x.tag.name} {x.inspect} (ip={pointerText ip})"
  | .noCodeField addr => s!"no code field at {addr}"
  | .noThread => "nothing to step: no current thread"
  | .divisionByZero op => s!"{op}: division by zero"
  | .noCharacter code => s!"EMIT: character code out of range: {code}"
  | .notCompiling => "not inside a definition"
  | .emptyDictionary => "IMMEDIATE: empty dictionary"
  | .unknownToken token => s!"unknown token: {token}"
  | .abort => "ABORT"

end Fault

/-- An operation without meaning for the cells it meets. -/
inductive Defect
  /-- a sum, a comparison or a joining of cells that have none -/
  | meaningless
  /-- the letters of a cell that is no text -/
  | notText
  /-- an item beyond the end of a sequence -/
  | noItem
  /-- the character of a number that has none -/
  | noCharacter (code : Int)
  /-- a file whose bytes are no text -/
  | badEncoding
  /-- a file name that cannot name a file -/
  | badName
  /-- an option for a code without the code -/
  | noCode
  deriving DecidableEq

/-- Why a run stops before its end. -/
inductive Stop
  | fault (f : Fault)
  | endOfInput
  | defect (d : Defect)
  /-- the bound on the number of steps is used up -/
  | exhausted
  deriving DecidableEq

/-- What may fail with a fault may stop. -/
instance : MonadLift (Except Fault) (Except Stop) where
  monadLift := Except.mapError .fault

end ThreadedForth
