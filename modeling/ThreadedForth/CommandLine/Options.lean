import ThreadedForth.Text.Digit
import ThreadedForth.Text.Quoted

/-!
# Options of the command line

Arguments are first told apart one by one (`classify`): those that name an option, those that are
values, and the separator, after which all are values. A long option may be cut short as long as one
option remains that it can mean; short options may be written together. Then they are taken in order
(`Gathered.take`). The files are the first run of values between options; what is left over is an
error at the very end, after everything else was taken.
-/

namespace ThreadedForth.CommandLine

/-- The options. -/
inductive Opt
  | help | interactive | eval | noRestart | trace | verbose | debug
  deriving DecidableEq

namespace Opt

/-- All options, in the order of the help text. -/
def all : List Opt := [help, interactive, eval, noRestart, trace, verbose, debug]

/-- The long name of an option. -/
def long : Opt → String
  | help => "--help" | interactive => "--interactive" | eval => "--eval"
  | noRestart => "--no-restart" | trace => "--trace" | verbose => "--verbose" | debug => "--debug"

/-- The letter of an option. -/
def letter? : Opt → Option Char
  | help => some 'h' | interactive => some 'i' | eval => some 'e' | verbose => some 'v'
  | noRestart | trace | debug => none

/-- The option with a letter. -/
def ofLetter? (c : Char) : Option Opt := all.find? fun o => o.letter? == some c

/-- The option with a long name. -/
def ofLong? (name : List Char) : Option Opt := all.find? fun o => o.long.toList == name

/-- An option with all its names. -/
def title (o : Opt) : String :=
  match o.letter? with
  | some c => String.ofList ['-', c, '/'] ++ o.long
  | none => o.long

end Opt

/-- What is wrong with the arguments. -/
inductive UsageError
  /-- a long option that is cut too short -/
  | ambiguous (argument : String) (options : List Opt)
  /-- an option without its value -/
  | missingValue (o : Opt)
  /-- a value for an option that takes none -/
  | ignoredValue (o : Opt) (value : String)
  /-- arguments that are left over -/
  | unrecognized (arguments : List String)
  deriving DecidableEq

/-- What the user is told. -/
def UsageError.message : UsageError → String
  | .ambiguous argument options =>
    let names := String.intercalate ", " (options.map Opt.long)
    s!"ambiguous option: {argument} could match {names}"
  | .missingValue o => s!"argument {o.title}: expected one argument"
  | .ignoredValue o value =>
    s!"argument {o.title}: ignored explicit argument {Text.quoted value}"
  | .unrecognized arguments => "unrecognized arguments: " ++ String.intercalate " " arguments

/-- An argument by what it is. -/
inductive Argument
  | value (text : String)
  | separator
  /-- an option by its letter, with the text that is written in one argument with it -/
  | letter (o : Opt) (attached : Option (List Char))
  /-- an option by its long name, with the text after the equals sign -/
  | long (o : Opt) (attached : Option (List Char))
  /-- what has the form of an option and is none -/
  | unknown (text : String)

/-- A text cut at its first equals sign. -/
def cutAtEquals (cs : List Char) : List Char × Option (List Char) :=
  match cs.span (· ≠ '=') with
  | (name, []) => (name, none)
  | (name, _ :: value) => (name, some value)

/-- Whether the characters after a minus sign make a negative number of it; a line feed may end it.
-/
def isNumber (cs : List Char) : Bool :=
  let cs := if cs.getLast? = some '\n' then cs.dropLast else cs
  let (whole, rest) := cs.span Text.isAnyDigit
  match rest with
  | [] => ! whole.isEmpty
  | c :: fraction => c = '.' && ! fraction.isEmpty && fraction.all Text.isAnyDigit

/-- What an argument is that begins with a minus sign and names no option. -/
def classifyOther (text : String) : Argument :=
  if isNumber (text.toList.drop 1) || text.toList.contains ' ' then .value text else .unknown text

/-- What an argument is that begins with two minus signs. -/
def classifyLong (text : String) : Except UsageError Argument :=
  let (name, attached) := cutAtEquals text.toList
  match Opt.ofLong? name with
  | some o => .ok (.long o attached)
  | none =>
    match Opt.all.filter fun o => name.isPrefixOf o.long.toList with
    | [] => .ok (classifyOther text)
    | [o] => .ok (.long o attached)
    | options => .error (.ambiguous text options)

/-- What an argument is that begins with a minus sign and this letter; an equals sign right after
the letter is not part of the attached text. -/
def classifyLetter (text : String) (c : Char) (rest : List Char) : Argument :=
  match Opt.ofLetter? c, rest with
  | none, _ => classifyOther text
  | some o, [] => .letter o none
  | some o, '=' :: value => .letter o (some value)
  | some o, rest => .letter o (some rest)

/-- What an argument is that stands before the separator. -/
def classify (text : String) : Except UsageError Argument :=
  match text.toList with
  | '-' :: '-' :: _ => classifyLong text
  | '-' :: c :: rest => .ok (classifyLetter text c rest)
  | _ => .ok (.value text)

/-- What each argument is. -/
def classifyAll : List String → Except UsageError (List Argument)
  | [] => return []
  | text :: texts =>
    if text = "--" then return .separator :: texts.map .value
    else do
      let argument ← classify text
      return argument :: (← classifyAll texts)

/-- What the arguments ask for. -/
structure Options where
  /-- the names of the files, in order -/
  files : List String := []
  /-- the codes, in order, with nothing where the separator is given for one -/
  codes : List (Option String) := []
  interactive : Bool := false
  noRestart : Bool := false
  trace : Bool := false
  verbose : Bool := false
  debug : Bool := false

/-- Why the arguments start no session. -/
inductive Refusal
  | help
  | misuse (e : UsageError)

/-- The options with one more that takes no value; help is given at once. -/
def Options.switch (os : Options) : Opt → Except Refusal Options
  | .help => .error .help
  | .interactive => .ok { os with interactive := true }
  | .noRestart => .ok { os with noRestart := true }
  | .trace => .ok { os with trace := true }
  | .verbose => .ok { os with verbose := true }
  | .debug => .ok { os with debug := true }
  | .eval => .ok os

/-- The options with several more, in order. -/
def Options.switchAll (os : Options) (switches : List Opt) : Except Refusal Options :=
  switches.foldlM Options.switch os

/-- The options with one more code. The separator is none, however it is written. -/
def Options.addCode (os : Options) (code : String) : Options :=
  { os with codes := os.codes ++ [if code = "--" then none else some code] }

/-- How the options that are written in one argument end. -/
inductive GroupEnd
  /-- with an option that takes no value -/
  | closed
  /-- with a value for the option that takes one -/
  | code (text : String)
  /-- with the option that takes a value, which is the next argument -/
  | wantsValue

/-- The options that take no value and are written in one argument, and how the argument ends. -/
structure Group where
  switches : List Opt
  ending : GroupEnd

/-- An option and those after it. -/
def Group.cons (o : Opt) (g : Group) : Group := { g with switches := o :: g.switches }

/-- An option with nothing attached. -/
def Group.single (o : Opt) : Group :=
  if o = .eval then ⟨[], .wantsValue⟩ else ⟨[o], .closed⟩

/-- The options that a letter and the text attached to it stand for. Behind an option that takes a
value the text is the value; behind any other each character has to be the letter of an option. -/
def Group.ofLetters (o : Opt) : List Char → Except UsageError Group
  | [] => if o = .eval then .ok ⟨[], .code ""⟩ else .error (.ignoredValue o "")
  | c :: rest =>
    if o = .eval then .ok ⟨[], .code (String.ofList (c :: rest))⟩
    else match Opt.ofLetter? c with
      | none => .error (.ignoredValue o (String.ofList (c :: rest)))
      | some next =>
        if rest.isEmpty then .ok ((Group.single next).cons o)
        else (Group.ofLetters next rest).map (·.cons o)

/-- The options that an argument stands for, if it names one. -/
def Argument.group? : Argument → Option (Except UsageError Group)
  | .letter o none | .long o none => some (.ok (Group.single o))
  | .letter o (some text) => some (Group.ofLetters o text)
  | .long o (some text) =>
    let text := String.ofList text
    some (if o = .eval then .ok ⟨[], .code text⟩ else .error (.ignoredValue o text))
  | .value _ | .separator | .unknown _ => none

/-- How far the files have been taken. -/
inductive Stage
  /-- none was met -/
  | before
  /-- the argument before was a file -/
  | within
  /-- an option ended them -/
  | after
  deriving DecidableEq

/-- What was taken of the arguments so far. -/
structure Gathered where
  options : Options := {}
  stage : Stage := .before
  /-- the arguments that are left over -/
  leftover : List String := []
  /-- the options written with the one whose value comes next, if one does -/
  awaiting : Option (List Opt) := none

namespace Gathered

/-- Takes a value as a file, or leaves it over. -/
def takeValue (g : Gathered) (text : String) : Gathered :=
  if g.stage = .after then { g with leftover := g.leftover ++ [text] }
  else { g with stage := .within, options := { g.options with files := g.options.files ++ [text] } }

/-- Takes the separator, which is no file itself, or leaves it over. -/
def takeSeparator (g : Gathered) : Gathered :=
  if g.stage = .after then { g with leftover := g.leftover ++ ["--"] }
  else { g with stage := .within }

/-- The files end where an option comes. -/
def meetOption (g : Gathered) : Gathered :=
  if g.stage = .within then { g with stage := .after } else g

/-- Leaves an argument over. -/
def leave (g : Gathered) (text : String) : Gathered := { g with leftover := g.leftover ++ [text] }

/-- Takes the options of a group, with a code if there is one. -/
def takeGroup (g : Gathered) (switches : List Opt) (code : Option String) :
    Except Refusal Gathered := do
  let options ← g.options.switchAll switches
  return { g with options := (code.map options.addCode).getD options }

/-- Takes an argument that names an option. -/
def takeOption (g : Gathered) (group : Group) : Except Refusal Gathered :=
  match group.ending with
  | .closed => g.takeGroup group.switches none
  | .code text => g.takeGroup group.switches (some text)
  | .wantsValue => return { g with awaiting := some group.switches }

/-- Takes an argument when no option waits for its value. -/
def takeFresh (g : Gathered) (argument : Argument) : Except Refusal Gathered :=
  match argument with
  | .value text => .ok (g.takeValue text)
  | .separator => .ok g.takeSeparator
  | .unknown text => .ok (g.meetOption.leave text)
  | argument =>
    match argument.group? with
    | none => .ok g
    | some (.error e) => .error (.misuse e)
    | some (.ok group) => g.meetOption.takeOption group

/-- Takes an argument. -/
def take (g : Gathered) (argument : Argument) : Except Refusal Gathered :=
  match g.awaiting, argument with
  | none, argument => g.takeFresh argument
  | some switches, .value text => { g with awaiting := none }.takeGroup switches (some text)
  | some _, _ => .error (.misuse (.missingValue .eval))

/-- What was asked for, once all arguments are taken. -/
def finish (g : Gathered) : Except Refusal Options :=
  if g.awaiting.isSome then .error (.misuse (.missingValue .eval))
  else if g.leftover.isEmpty then .ok g.options
  else .error (.misuse (.unrecognized g.leftover))

end Gathered

/-- What the arguments ask for, or why they start no session. -/
def parseArguments (texts : List String) : Except Refusal Options := do
  let arguments ← (classifyAll texts).mapError Refusal.misuse
  let g ← arguments.foldlM Gathered.take {}
  g.finish

/-! ## Texts -/

/-- How the program is called. -/
def usage : String :=
  "usage: cellforth [-h] [-i] [-e CODE] [--no-restart] [--trace] [-v] [--debug]\n"
    ++ "                 [FILE ...]\n"

/-- What the user is told who asks for help. -/
def helpText : String :=
  usage ++ "\nCellForth interpreter\n\npositional arguments:\n"
    ++ "  FILE                  Forth source files, interpreted in order\n\noptions:\n"
    ++ "  -h, --help            show this help message and exit\n"
    ++ "  -i, --interactive     enter the REPL after the files / -e code\n"
    ++ "  -e CODE, --eval CODE  interpret CODE (repeatable)\n"
    ++ "  --no-restart          stop at the first fault instead of restarting\n"
    ++ "  --trace               log every dispatched word (implies --debug)\n"
    ++ "  -v, --verbose         log at INFO\n"
    ++ "  --debug               log at DEBUG\n"

/-- What the user is told whose arguments are wrong. -/
def misuseText (e : UsageError) : String := usage ++ "cellforth: error: " ++ e.message ++ "\n"

end ThreadedForth.CommandLine
