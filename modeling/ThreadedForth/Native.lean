/-!
# Native behaviours

What a code field can hold: the two behaviours of words that a program defines (`Native.enter`,
`Native.variable`) and the primitives. The primitives come in families by what they may touch. Those
of the first five families, gathered in `Calculation`, work on the data stack alone and may print;
the others reach the thread, the memory, the dictionary or the input.
-/

namespace ThreadedForth

/-- Words that rearrange the data stack. -/
inductive StackWord
  | drop | dup | swap | over | rot | rotBack | nip | twoDup | twoDrop | twoSwap | twoOver
  | dupTrue | depth
  deriving DecidableEq

/-- Words that calculate with integers. -/
inductive ArithmeticWord
  | add | sub | mul | div | mod | min | max | divMod | negate | abs | increment | decrement
  deriving DecidableEq

/-- Words that compare and leave a Boolean. -/
inductive ComparisonWord
  | less | greater | lessEqual | greaterEqual | equal | notEqual | isZero | isNegative | isPositive
  deriving DecidableEq

/-- Words that work bit by bit on integers and as connectives on Booleans. -/
inductive LogicWord
  | and | or | xor | invert | not | true | false
  deriving DecidableEq

/-- Words that print. -/
inductive OutputWord
  | dot | emit | tell | showStack | dump
  deriving DecidableEq

/-- A primitive that works on the data stack alone and may print. -/
inductive Calculation
  | stack (w : StackWord)
  | arithmetic (w : ArithmeticWord)
  | comparison (w : ComparisonWord)
  | logic (w : LogicWord)
  | output (w : OutputWord)
  deriving DecidableEq

/-- Words that steer the thread. -/
inductive ThreadWord
  | exit | lit | branch | branchFalse | execute
  deriving DecidableEq

/-- Words that read and write memory. -/
inductive MemoryWord
  | fetch | store | addStore | comma | here | latest | allot
  deriving DecidableEq

/-- Words that build and search the dictionary, and switch between the two modes. -/
inductive CompilerWord
  | create | compileEnter | compileVariable | find | toCode | toBody | hidden | reveal
  | whenCompiling | immediate | leftBracket | rightBracket | state | tick | compileTick
  deriving DecidableEq

/-- Words that take from the input. -/
inductive InputWord
  | word | key | number | char | interpret
  deriving DecidableEq

/-- Words that take a text or a comment from the input. -/
inductive TextWord
  | text | print | comment | lineComment
  deriving DecidableEq

/-- Words that end the session or its current line. -/
inductive SessionWord
  | abort | bye
  deriving DecidableEq

/-- A word of the machine itself. -/
inductive Primitive
  | calculation (c : Calculation)
  | thread (w : ThreadWord)
  | memory (w : MemoryWord)
  | compiler (w : CompilerWord)
  | input (w : InputWord)
  | text (w : TextWord)
  | session (w : SessionWord)
  deriving DecidableEq

/-- The behaviour that a code field holds. -/
inductive Native
  /-- runs the body that follows as a thread -/
  | enter
  /-- pushes the address of the body that follows -/
  | variable
  /-- a word of the machine itself -/
  | primitive (p : Primitive)
  deriving DecidableEq

/-! ## Names -/

/-- The name of a word that rearranges the data stack. -/
def StackWord.name : StackWord → String
  | .drop => "DROP" | .dup => "DUP" | .swap => "SWAP" | .over => "OVER" | .rot => "ROT"
  | .rotBack => "-ROT" | .nip => "NIP" | .twoDup => "2DUP"
  | .twoDrop => "2DROP" | .twoSwap => "2SWAP"
  | .twoOver => "2OVER" | .dupTrue => "?DUP" | .depth => "DEPTH"

/-- The name of a word that calculates. -/
def ArithmeticWord.name : ArithmeticWord → String
  | .add => "+" | .sub => "-" | .mul => "*" | .div => "/"
  | .mod => "MOD" | .min => "MIN" | .max => "MAX"
  | .divMod => "/MOD" | .negate => "NEGATE" | .abs => "ABS"
  | .increment => "1+" | .decrement => "1-"

/-- The name of a word that compares. -/
def ComparisonWord.name : ComparisonWord → String
  | .less => "<" | .greater => ">" | .lessEqual => "<=" | .greaterEqual => ">=" | .equal => "="
  | .notEqual => "<>" | .isZero => "0=" | .isNegative => "0<" | .isPositive => "0>"

/-- The name of a connective. -/
def LogicWord.name : LogicWord → String
  | .and => "AND" | .or => "OR" | .xor => "XOR"
  | .invert => "INVERT" | .not => "NOT" | .true => "TRUE"
  | .false => "FALSE"

/-- The name of a word that prints. -/
def OutputWord.name : OutputWord → String
  | .dot => "." | .emit => "EMIT" | .tell => "TELL" | .showStack => ".S" | .dump => "DUMP"

/-- The name of a word that works on the data stack alone. -/
def Calculation.name : Calculation → String
  | .stack w => w.name | .arithmetic w => w.name | .comparison w => w.name | .logic w => w.name
  | .output w => w.name

/-- The name of a word that steers the thread. -/
def ThreadWord.name : ThreadWord → String
  | .exit => "EXIT" | .lit => "LIT" | .branch => "BRANCH" | .branchFalse => "0BRANCH"
  | .execute => "EXECUTE"

/-- The name of a word that reads or writes memory. -/
def MemoryWord.name : MemoryWord → String
  | .fetch => "@" | .store => "!" | .addStore => "+!" | .comma => "," | .here => "HERE"
  | .latest => "LATEST" | .allot => "ALLOT"

/-- The name of a word of the compiler. -/
def CompilerWord.name : CompilerWord → String
  | .create => "CREATE" | .compileEnter => "DOCOL," | .compileVariable => "DOVAR," | .find => "FIND"
  | .toCode => ">CFA" | .toBody => ">BODY" | .hidden => "HIDDEN" | .reveal => "REVEAL"
  | .whenCompiling => "?COMP" | .immediate => "IMMEDIATE"
  | .leftBracket => "[" | .rightBracket => "]"
  | .state => "STATE" | .tick => "'" | .compileTick => "[']"

/-- The name of a word that takes from the input. -/
def InputWord.name : InputWord → String
  | .word => "WORD" | .key => "KEY" | .number => "NUMBER"
  | .char => "CHAR" | .interpret => "INTERPRET"

/-- The name of a word that takes a text or a comment. -/
def TextWord.name : TextWord → String
  | .text => "S\"" | .print => ".\"" | .comment => "(" | .lineComment => "\\"

/-- The name of a word that ends the session or its line. -/
def SessionWord.name : SessionWord → String
  | .abort => "ABORT" | .bye => "BYE"

/-- The name of a primitive. -/
def Primitive.name : Primitive → String
  | .calculation c => c.name | .thread w => w.name | .memory w => w.name | .compiler w => w.name
  | .input w => w.name | .text w => w.name | .session w => w.name

/-- The name of a native behaviour. -/
def Native.name : Native → String
  | .enter => "DOCOL" | .variable => "DOVAR" | .primitive p => p.name

end ThreadedForth
