import ThreadedForth.Machine.Inspect

/-!
# Commands to the host

A line whose first word is one of a few commands that begin with a dot is for the host and never
reaches the program. The host answers it from the state of the machine (`Machine.answer`) and
changes nothing; the command `.bye` closes the input.
-/

namespace ThreadedForth

namespace Host

/-- The names of the commands, sorted. -/
def commands : List String := [".bye", ".dict", ".help", ".here", ".rstack", ".see", ".stack"]

/-- Whether a line is for the host. -/
def isCommand (line : String) : Bool :=
  match Text.words line with
  | [] => false
  | word :: _ => commands.contains word

/-- The answer to `.help`. -/
def help : String :=
  ".stack .rstack .dict [filter] .see <word> .here .bye\n"
    ++ "Forth: .S  WORD FIND >CFA EXECUTE  : ;  IF ELSE THEN  BEGIN UNTIL AGAIN WHILE REPEAT\n"

/-- The letters of a name in lower case. -/
def lowerName : Cell → Except Stop String
  | .text s => .ok (Text.lower s)
  | _ => .error (.defect .notText)

/-- Whether one text occurs in another. -/
def occursIn (part whole : List Char) : Bool :=
  part.isPrefixOf whole || match whole with
    | [] => false
    | _ :: rest => occursIn part rest

/-- The names that hold a text, whatever the case of the letters. -/
def filterNames (filter : String) : List Cell → Except Stop (List Cell)
  | [] => return []
  | name :: names => do
    let letters ← lowerName name
    let rest ← filterNames filter names
    return if occursIn (Text.lower filter).toList letters.toList then name :: rest else rest

/-- The text that a cell is; other cells have no place among sorted texts. -/
def sortable : Cell → Except Stop String
  | .text s => .ok s
  | _ => .error (.defect .meaningless)

/-- Texts in the order of their characters, on one line. -/
def sortedLine (names : List Cell) : Except Stop String := do
  let texts ← names.mapM sortable
  return String.intercalate " " (texts.mergeSort fun s t => ! (t < s)) ++ "\n"

end Host

namespace Machine

/-- The return stack on a line, bottom first. -/
def returnsLine (m : Machine) : String :=
  let shown := String.intercalate " " (m.returns.reverse.map pointerText)
  s!"<{m.returns.length}> {shown} \n"

/-- Where memory ends, which header is the newest, and the mode. -/
def hereLine (m : Machine) : String :=
  let latest := pointerText m.memory.latest
  s!"HERE={m.memory.here} LATEST={latest} STATE={m.mode.name}\n"

/-- The names of the words, sorted, or of those that hold a text. -/
def namesLine (m : Machine) (filter : Option String) : Except Stop String := do
  let names ← m.memory.words
  match filter with
  | none => Host.sortedLine names
  | some text => Host.sortedLine (← Host.filterNames text names)

/-- A word as source text, on a line. -/
def seeLine (m : Machine) (name : String) : Except Stop String :=
  match m.see name with
  | .ok text => .ok (text ++ "\n")
  | .error (.fault (.unknownToken _)) => .ok s!"unknown: {name}\n"
  | .error stop => .error stop

/-- The answer of the host to a line. -/
def answer (m : Machine) (line : String) : Except Stop String :=
  match Text.words line with
  | [] => .error (.defect .noItem)
  | command :: arguments =>
    if command = ".help" then .ok Host.help
    else if command = ".stack" then .ok (stackLine m.data)
    else if command = ".rstack" then .ok m.returnsLine
    else if command = ".dict" then m.namesLine arguments.head?
    else if command = ".see" then
      match arguments with
      | [] => .ok "usage: .see <word>\n"
      | name :: _ => m.seeLine name
    else if command = ".here" then .ok m.hereLine
    else if command = ".bye" then .error .endOfInput
    else .ok s!"unknown dot-cmd: {command}\n"

/-- The prompt, which shows whether a definition is open. -/
def prompt (m : Machine) : String :=
  match m.mode with
  | .immediate => "ok> "
  | .compile => "..> "

/-- What the host does while the machine reads. -/
def attendant (m : Machine) : Attendant where
  prompt := m.prompt
  answer line := if Host.isCommand line then some (m.answer line) else none

end Machine

end ThreadedForth
