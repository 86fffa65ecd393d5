import ThreadedForth.Bits
import ThreadedForth.Native
import ThreadedForth.Numeral
import ThreadedForth.Text.Quoted

/-!
# Cells

The values that memory and the stacks hold. A program works with integers, texts, Booleans and
execution tokens. Memory also holds what a dictionary is made of: code fields (`Cell.native`), the
flags of a header (`Cell.flags`, which count as an integer) and the link of the first header
(`Cell.absent`).

A cell is shown in three ways: quoted in a message (`inspect`), as part of a text (`plain`), and to
the user (`display`).
-/

namespace ThreadedForth

/-- What kind of value a cell is, as far as a program can tell. -/
inductive Tag
  | integer | text | boolean | token | native | absent
  deriving DecidableEq

/-- The name of a tag in messages. -/
def Tag.name : Tag → String
  | .integer => "Integer" | .text => "Text" | .boolean => "Boolean" | .token => "ExecutionToken"
  | .native => "Native" | .absent => "NoneType"

/-- A value in memory or on a stack. -/
inductive Cell
  | int (n : Int)
  | text (s : String)
  | bool (b : Bool)
  /-- an execution token: the address of a code field -/
  | token (addr : Int)
  /-- a code field -/
  | native (n : Native)
  /-- the flags of a header, see `Flags` -/
  | flags (bits : Nat)
  /-- the link of the first header -/
  | absent
  deriving DecidableEq

instance : Inhabited Cell := ⟨.int 0⟩

/-! ## Flags -/

namespace Flags

/-- The flag of a word that runs even while compiling. -/
def immediate : Nat := 1

/-- The flag of a word that a search passes over. -/
def hidden : Nat := 2

/-- All flags that have a name. -/
def named : Nat := 3

/-- The flags that an integer stands for. Below zero these are the ones that its two's complement
sets, among the named flags if it clears no other, else among all that its own digits reach. -/
def ofInt (n : Int) : Nat :=
  if 0 ≤ n then n.toNat
  else if -4 ≤ n then (4 + n).toNat
  else ((1 <<< Bits.length n : Nat) + n).toNat

/-- The names of the flags that are set, and the value of those without a name. -/
def names (bits : Nat) : List String :=
  let rest := bits / 4 * 4
  (if bits.testBit 0 then ["IMMEDIATE"] else []) ++ (if bits.testBit 1 then ["HIDDEN"] else [])
    ++ (if rest = 0 then [] else [toString rest])

/-- How a message shows flags. -/
def inspect (bits : Nat) : String :=
  if bits = 0 then "<WFlags.NONE: 0>"
  else if bits % 4 = 0 then s!"<WFlags: {bits}>"
  else
    let members := String.intercalate "|" (names bits)
    s!"<WFlags.{members}: {bits}>"

end Flags

namespace Cell

/-! ## Tags and numbers -/

/-- The tag of a cell. -/
def tag : Cell → Tag
  | .int _ => .integer
  | .flags _ => .integer
  | .text _ => .text
  | .bool _ => .boolean
  | .token _ => .token
  | .native _ => .native
  | .absent => .absent

/-- Whether a cell is one of the four kinds of value that a program works with. -/
def isValue (x : Cell) : Bool :=
  match x.tag with
  | .integer | .text | .boolean | .token => true
  | .native | .absent => false

/-- The integer that a cell is. Flags are one, a Boolean is none. -/
def int? : Cell → Option Int
  | .int n => some n
  | .flags bits => some bits
  | _ => none

/-- The number that a cell counts as in the arithmetic of header addresses, where a Boolean is zero
or one. -/
def number? : Cell → Option Int
  | .bool b => some (if b then 1 else 0)
  | x => x.int?

/-- A cell has a tag of its own exactly when it is an integer. -/
theorem tag_eq_integer_iff {x : Cell} : x.tag = .integer ↔ ∃ n, x.int? = some n := by
  cases x <;> simp [tag, int?]

/-- Equality as the comparison words decide it: same tag and same value. -/
def equal (x y : Cell) : Bool :=
  match x.int?, y.int? with
  | some m, some n => m == n
  | none, none => x == y
  | _, _ => false

/-- Equality of what two cells stand for, where a Boolean equals the number it counts as. -/
def alike (x y : Cell) : Bool :=
  match x.number?, y.number? with
  | some m, some n => m == n
  | none, none => x == y
  | _, _ => false

/-- The cells of a list without those that are alike an earlier one. -/
def distinct (xs : List Cell) : List Cell :=
  xs.foldl (fun seen x => if seen.any (·.alike x) then seen else seen ++ [x]) []

/-! ## Forms -/

/-- A cell in a message. -/
def inspect : Cell → String
  | .int n => Numeral.write n
  | .text s => Text.quoted s
  | .bool b => if b then "True" else "False"
  | .token addr => s!"XT[{addr}]"
  | .native n => s!"<native {n.name}>"
  | .flags bits => Flags.inspect bits
  | .absent => "None"

/-- A cell within a text. -/
def plain : Cell → String
  | .text s => s
  | .flags bits => Numeral.write bits
  | x => x.inspect

/-- A cell as the user sees it. -/
def display : Cell → String
  | .bool b => if b then "TRUE" else "FALSE"
  | .text s => "\"" ++ s ++ "\""
  | x => x.plain

end Cell

end ThreadedForth
