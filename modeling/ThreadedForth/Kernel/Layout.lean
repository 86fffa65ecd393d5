import ThreadedForth.Cell

/-!
# Layout of the kernel

The primitives are the first words of every dictionary, each a header and a code field, in the order
of `Kernel.order`; so the execution token of a primitive is a matter of counting (`Kernel.token`).
The words `:`, `;` and `QUIT` are threaded code and come next.
-/

namespace ThreadedForth.Kernel

/-- The primitives in the order in which they are laid down. -/
def order : List Primitive :=
  [ThreadWord.exit, .lit, .branch, .branchFalse, .execute].map .thread
  ++ ([StackWord.drop, .dup, .swap, .over, .rot, .rotBack, .nip, .twoDup, .twoDrop, .twoSwap,
      .twoOver, .dupTrue, .depth].map Calculation.stack
    ++ [ArithmeticWord.add, .sub, .mul, .div, .mod, .min, .max, .divMod, .negate, .abs, .increment,
      .decrement].map Calculation.arithmetic
    ++ [ComparisonWord.less, .greater, .lessEqual, .greaterEqual, .equal, .notEqual, .isZero,
      .isNegative, .isPositive].map Calculation.comparison
    ++ [LogicWord.and, .or, .xor, .invert, .not, .true, .false].map Calculation.logic).map
      .calculation
  ++ [MemoryWord.fetch, .store, .addStore, .comma, .here, .latest, .allot].map .memory
  ++ [CompilerWord.create, .compileEnter, .compileVariable, .find, .toCode, .toBody, .hidden,
      .reveal, .whenCompiling, .immediate, .leftBracket, .rightBracket, .state, .tick,
      .compileTick].map .compiler
  ++ [InputWord.word, .key, .number, .char, .interpret].map .input
  ++ [OutputWord.dot, .emit, .tell, .showStack, .dump].map (.calculation ∘ .output)
  ++ [TextWord.text, .print, .comment, .lineComment].map .text
  ++ [SessionWord.abort, .bye].map .session

/-- The address of the header of a primitive. -/
def header (p : Primitive) : Int := 1 + 4 * (order.idxOf p : Int)

/-- The execution token of a primitive. -/
def token (p : Primitive) : Cell := .token (header p + 3)

/-- The execution token of `EXIT`. -/
def exitToken : Cell := token (.thread .exit)

/-- The execution token of `LIT`. -/
def litToken : Cell := token (.thread .lit)

/-- The execution token of `BRANCH`. -/
def branchToken : Cell := token (.thread .branch)

/-- The execution token of `0BRANCH`. -/
def branchFalseToken : Cell := token (.thread .branchFalse)

/-- The execution token of `KEY`. -/
def keyToken : Cell := token (.input .key)

/-- The execution token of `TELL`. -/
def tellToken : Cell := token (.calculation (.output .tell))

/-- The body of `:`, which starts a definition: its header is hidden until the definition ends. -/
def colonBody : List Cell :=
  [token (.input .word), token (.compiler .create), token (.compiler .compileEnter),
    token (.memory .latest), token (.compiler .hidden), token (.compiler .rightBracket)]

/-- The body of `;`, which ends a definition. -/
def semicolonBody : List Cell :=
  [token (.compiler .whenCompiling), litToken, exitToken, token (.memory .comma),
    token (.memory .latest), token (.compiler .reveal), token (.compiler .leftBracket)]

/-- The body of `QUIT`, which interprets one token after the other. -/
def quitBody : List Cell := [token (.input .interpret), branchToken, .int (-2)]

/-- The address of the header of `:`. -/
def colonHeader : Int := 1 + 4 * (order.length : Int)

/-- The address of the header of `;`. -/
def semicolonHeader : Int := colonHeader + 5 + colonBody.length

/-- The address of the header of `QUIT`. -/
def quitHeader : Int := semicolonHeader + 5 + semicolonBody.length

/-- The execution token of `QUIT`. -/
def quitToken : Cell := .token (quitHeader + 3)

end ThreadedForth.Kernel
