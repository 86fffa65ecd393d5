import ThreadedForth.Kernel.Layout
import ThreadedForth.Machine.Basic
import ThreadedForth.Text.Blank

/-!
# Looking into a machine

What a word is made of, as source text: `Machine.see` follows the code of a word up to the next
header and names each execution token. Nothing here changes the machine.
-/

namespace ThreadedForth.Machine

/-- The execution token of the word with a name. -/
def tokenOf (m : Machine) (name : String) : Except Stop Cell := do
  match ← m.memory.find name with
  | some h => return .token (← h.plus headerSize)
  | none => throw (.fault (.unknownToken name))

/-- Whether the cell after this one belongs to it. -/
def takesOperand (x : Cell) : Bool :=
  x = Kernel.litToken || x = Kernel.branchToken || x = Kernel.branchFalseToken

/-- A cell of a body, as source text if it is a name. -/
def part (m : Machine) : Cell → Except Stop Cell
  | .token code => m.memory.label code
  | x => return .text x.display

/-- A cell of a body together with the cell after it. -/
def partWith (m : Machine) (x operand : Cell) : Except Stop Cell := do
  if x = Kernel.litToken then return .text operand.display
  let name ← m.part x
  return .text (name.plain ++ "(" ++ operand.plain ++ ")")

/-- The cells of a body, as source text where they are names. -/
def parts (m : Machine) : List Cell → Except Stop (List Cell)
  | [] => return []
  | [x] => return [← m.part x]
  | x :: operand :: body => do
    if takesOperand x then
      let first ← m.partWith x operand
      return first :: (← m.parts body)
    else
      let first ← m.part x
      return first :: (← m.parts (operand :: body))

/-- Texts joined by spaces; only texts can be joined. -/
def joinTexts (xs : List Cell) : Except Stop String := do
  let texts ← xs.mapM fun
    | .text s => return s
    | _ => throw (Stop.defect .meaningless)
  return String.intercalate " " texts

/-- The parts of a body without the `EXIT` that every definition ends in. -/
def dropExit (xs : List Cell) : List Cell :=
  if xs.getLast? = some (.text "EXIT") then xs.dropLast else xs

/-- The remark on the word of a header. -/
def remarkOn (m : Machine) (header : Int) : String := (m.remarks.lookup header).getD ""

/-- A word as source text. -/
def see (m : Machine) (name : String) : Except Stop String := do
  let some h ← m.memory.find name | throw (.fault (.unknownToken name))
  let header ← h.plus 0
  let code := header + headerSize
  let behaviour ← m.memory.get (.int code)
  let suffix := if ← m.memory.isImmediate h then " IMMEDIATE" else ""
  let title := (← m.memory.nameOf h).plain
  match behaviour with
  | .native .variable =>
    let value ← m.memory.fetch (.int (code + 1))
    return "variable " ++ title ++ " (value=" ++ value.display ++ ")"
  | .native .enter =>
    let stop ← m.memory.endOf h
    let parts ← m.parts (m.memory.range (code + 1).toNat stop.toNat)
    let body ← joinTexts (dropExit parts)
    return ": " ++ title ++ " " ++ body ++ " ;" ++ suffix
  | _ =>
    return Text.trimEnd ("primitive " ++ title ++ " " ++ m.remarkOn header) ++ suffix

/-- The words of a list as source text; a name must be a text to be looked up. -/
def seeEach (m : Machine) : List Cell → Except Stop (List String)
  | [] => return []
  | .text name :: names => do
    let first ← m.see name
    return first :: (← m.seeEach names)
  | _ :: _ => throw (.defect .notText)

/-- All words that are not hidden as source text, newest first. -/
def seeAll (m : Machine) : Except Stop (List String) := do
  m.seeEach (← m.memory.words)

end ThreadedForth.Machine
