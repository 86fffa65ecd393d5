import ThreadedForth.Kernel.Layout
import ThreadedForth.Machine.Basic
import ThreadedForth.Memory.Image

/-!
# The kernel

The machine as it is before any text is interpreted: its dictionary holds the primitives and the
three words that are threaded code from the start.
-/

namespace ThreadedForth

/-- The flags of a primitive. -/
def Primitive.flags : Primitive → Nat
  | .compiler .immediate | .compiler .leftBracket | .compiler .compileTick | .text _ =>
    Flags.immediate
  | _ => 0

/-- What a primitive takes and leaves, in short. -/
def Primitive.remark : Primitive → String
  | .thread .exit => "( -- ) return from the current word"
  | .thread .lit => "( -- x ) push the next cell"
  | .thread .branch => "( -- ) ip += offset"
  | .thread .branchFalse => "( flag -- ) branch when false/zero"
  | .thread .execute => "( xt -- )"
  | .calculation (.stack .drop) => "( x -- )"
  | .calculation (.stack .dup) => "( x -- x x )"
  | .calculation (.stack .swap) => "( a b -- b a )"
  | .calculation (.stack .over) => "( a b -- a b a )"
  | .calculation (.stack .rot) => "( a b c -- b c a )"
  | .calculation (.stack .rotBack) => "( a b c -- c a b )"
  | .calculation (.stack .nip) => "( a b -- b )"
  | .calculation (.stack .twoDup) => "( a b -- a b a b )"
  | .calculation (.stack .twoDrop) => "( a b -- )"
  | .calculation (.stack .twoSwap) => "( a b c d -- c d a b )"
  | .calculation (.stack .twoOver) => "( a b c d -- a b c d a b )"
  | .calculation (.stack .dupTrue) => "( x -- x x | 0 )"
  | .calculation (.stack .depth) => "( -- n )"
  | .calculation (.arithmetic .add) => "( a b -- a+b )"
  | .calculation (.arithmetic .sub) => "( a b -- a-b )"
  | .calculation (.arithmetic .mul) => "( a b -- a*b )"
  | .calculation (.arithmetic .div) => "( a b -- a/b ) floored"
  | .calculation (.arithmetic .mod) => "( a b -- a mod b )"
  | .calculation (.arithmetic .min) => "( a b -- min )"
  | .calculation (.arithmetic .max) => "( a b -- max )"
  | .calculation (.arithmetic .divMod) => "( a b -- rem quot )"
  | .calculation (.arithmetic .negate) => "( n -- -n )"
  | .calculation (.arithmetic .abs) => "( n -- |n| )"
  | .calculation (.arithmetic .increment) => "( n -- n+1 )"
  | .calculation (.arithmetic .decrement) => "( n -- n-1 )"
  | .calculation (.comparison .equal) => "( a b -- flag ) same tag and value"
  | .calculation (.comparison .isZero) => "( x -- flag )"
  | .calculation (.comparison .isNegative) => "( n -- flag )"
  | .calculation (.comparison .isPositive) => "( n -- flag )"
  | .calculation (.comparison _) => "( a b -- flag )"
  | .calculation (.logic .invert) => "( n -- ~n )"
  | .calculation (.logic .not) => "( flag -- flag' )"
  | .calculation (.logic .true) => "( -- TRUE )"
  | .calculation (.logic .false) => "( -- FALSE )"
  | .calculation (.logic _) => "( a b -- x )"
  | .calculation (.output .dot) => "( n -- ) print decimal"
  | .calculation (.output .emit) => "( char -- )"
  | .calculation (.output .tell) => "( text -- )"
  | .calculation (.output .showStack) => "( -- ) print data stack, bottom first"
  | .calculation (.output .dump) => "( -- ) one line per cell, top first, 1-based"
  | .memory .fetch => "( addr -- x )"
  | .memory .store => "( x addr -- )"
  | .memory .addStore => "( n addr -- )"
  | .memory .comma => "( x -- ) append at HERE"
  | .memory .here => "( -- addr )"
  | .memory .latest => "( -- header )"
  | .memory .allot => "( n -- ) grow, or shrink when negative"
  | .compiler .create => "( name -- ) bare header"
  | .compiler .compileEnter => "( -- ) append the enter-nested code field"
  | .compiler .compileVariable => "( -- ) append the push-own-address code field"
  | .compiler .find => "( name -- header | 0 )"
  | .compiler .toCode => "( header -- xt )"
  | .compiler .toBody => "( xt -- addr )"
  | .compiler .hidden => "( header -- ) toggle hidden"
  | .compiler .reveal => "( header -- ) make visible"
  | .compiler .whenCompiling => "( -- ) fault unless compiling"
  | .compiler .immediate => "( -- ) toggle immediate on latest"
  | .compiler .leftBracket => "interpret state"
  | .compiler .rightBracket => "compile state"
  | .compiler .state => "( -- compiling? )"
  | .compiler .tick => "( <name> -- xt )"
  | .compiler .compileTick => "( <name> -- ) compile xt as literal"
  | .input .word => "( -- text )"
  | .input .key => "( -- char )"
  | .input .number => "( text -- n TRUE | text FALSE )"
  | .input .char => "( <word> -- char )"
  | .input .interpret => "( -- ) one outer step"
  | .text .text => "( <text\"> -- text )"
  | .text .print => "( <text\"> -- ) print text"
  | .text .comment => "( <text)> -- ) comment"
  | .text .lineComment => "( -- ) comment to end of line"
  | .session .abort => "( -- ) clear stacks and restart"
  | .session .bye => "( -- ) end the session"

namespace Kernel

/-- A primitive as a word of the dictionary. -/
def primitiveWord (p : Primitive) : WordImage := ⟨p.name, p.flags, [.native (.primitive p)]⟩

/-- A word that runs a body. -/
def threadedWord (name : String) (flags : Nat) (body : List Cell) : WordImage :=
  ⟨name, flags, .native .enter :: body ++ [exitToken]⟩

/-- The words of the kernel, oldest first. -/
def words : List WordImage :=
  order.map primitiveWord
    ++ [threadedWord ":" 0 colonBody, threadedWord ";" Flags.immediate semicolonBody,
      threadedWord "QUIT" 0 quitBody]

/-- The memory of the kernel. -/
def memory : Memory := .ofWords words

/-- The remarks on the words of the kernel. -/
def remarks : List (Int × String) :=
  order.map (fun p => (header p, p.remark))
    ++ [(colonHeader, "( <name> -- ) start colon definition"),
      (semicolonHeader, "end colon definition"),
      (quitHeader, "( -- ) outer interpreter loop")]

/-- The machine of the kernel. -/
def machine : Machine := { memory := memory, remarks := remarks }

end Kernel

end ThreadedForth
