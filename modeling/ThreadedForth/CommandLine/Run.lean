import ThreadedForth.CommandLine.Files
import ThreadedForth.CommandLine.Options
import ThreadedForth.Session

/-!
# The program

A call of the program: its arguments are read, the files and codes they name are fed to a booted
machine, and the input is run (`Call.answer`). Only if there are neither files nor codes, or if the
arguments ask for it, are lines read from standard input; and only there does the host answer lines.
-/

namespace ThreadedForth.CommandLine

/-- What standard input is. -/
inductive StandardInput
  | stream (text : String)
  | terminal (entries : List Entry)

/-- A call of the program. -/
structure Call where
  arguments : List String
  /-- the content of the file with a name -/
  read : String → Except FileError ByteArray
  input : StandardInput
  /-- the name of the host in the log -/
  hostName : String := "cellforth_host_repl"

/-- What a call of the program comes to. -/
structure Answer where
  /-- the exit code, or why there is none -/
  exit : Except Stop Nat
  /-- what appeared before the user -/
  transcript : Transcript
  /-- the log and the complaints about the arguments -/
  complaints : String

/-- The name of a channel in the log. -/
def Call.channelName (c : Call) : Channel → String
  | .machine => "cellforth_vm_core"
  | .session => "cellforth_runtime"
  | .host => c.hostName

/-- The level from which on records are kept. -/
def Options.level (os : Options) : Level :=
  if os.debug || os.trace then .debug else if os.verbose then .info else .warning

/-- A record as a line of the log. -/
def Call.logLine (c : Call) (r : LogRecord) : String :=
  r.level.name ++ " " ++ c.channelName r.channel ++ ": " ++ r.text ++ "\n"

/-- The records from a level on, as text. -/
def Call.logText (c : Call) (level : Level) (log : List LogRecord) : String :=
  String.join ((log.reverse.filter fun r => level.rank ≤ r.level.rank).map c.logLine)

/-- Whether lines are read from standard input. -/
def Options.readsInput (os : Options) : Bool :=
  os.interactive || (os.files.isEmpty && os.codes.isEmpty)

/-- The reader on standard input. -/
def StandardInput.reader : StandardInput → Reader
  | .stream text => ⟨(Text.streamLines (Text.uniformLineEnds text)).map Entry.line, true, false⟩
  | .terminal entries => ⟨entries, true, true⟩

/-- The greeting at a terminal. -/
def greeting : String := "CellForth REPL. .help for host commands, Ctrl-D to quit.\n"

/-- Feeds files in order. The first one that cannot be read ends the program. -/
def feedFiles (read : String → Except FileError ByteArray) : List String → Action (Option Nat)
  | [] => return none
  | name :: names => do
    match read name with
    | .error e =>
      match e.report? with
      | none => throw (.defect .badName)
      | some (number, reason) =>
        Action.record .error .host
          s!"cannot read {name}: [Errno {number}] {reason}: {Text.quoted name}"
        return some 2
    | .ok content =>
      match String.fromUTF8? content with
      | none => throw (.defect .badEncoding)
      | some text =>
        Action.modifySource (·.feed (Text.uniformLineEnds text))
        Action.record .info .host s!"queued {name}"
        feedFiles read names

/-- Feeds codes in order. The first one that is missing ends the program. -/
def feedCodes : List (Option String) → Action Unit
  | [] => return
  | none :: _ => throw (.defect .noCode)
  | some code :: codes => do
    Action.modifySource (·.feed code)
    feedCodes codes

/-- Attaches standard input and greets at a terminal. -/
def attachInput (input : StandardInput) : Action Unit := do
  Session.setReader (some input.reader)
  match input with
  | .stream _ => return
  | .terminal _ => Action.write .host greeting

/-- Runs the input and gives the exit code: one if a fault ended the session. -/
def runToExit (bound : Nat) (restart : Bool) : Action Nat := do
  match ← Action.observe (Session.run bound restart) with
  | .ok () => return 0
  | .error (.fault f) =>
    Action.record .debug .host s!"session stopped by {f.kind.name}"
    return 1
  | .error stop => throw stop

/-- All that a call does once its arguments are read. -/
def Call.act (c : Call) (bound : Nat) (os : Options) : Action Nat := do
  Session.boot bound
  match ← feedFiles c.read os.files with
  | some code => return code
  | none =>
    feedCodes os.codes
    if os.readsInput then attachInput c.input
    runToExit bound (! os.noRestart)

/-- What a call of the program comes to, with a bound on the number of steps. -/
def Call.answer (c : Call) (bound : Nat) : Answer :=
  match parseArguments c.arguments with
  | .error .help => ⟨.ok 0, ({} : Transcript).write .host helpText, ""⟩
  | .error (.misuse e) => ⟨.ok 2, {}, misuseText e⟩
  | .ok os =>
    match c.act bound os { Kernel.machine with tracing := os.trace } with
    | .ok code m => ⟨.ok code, m.console.transcript, c.logText os.level m.log⟩
    | .error stop m => ⟨.error stop, m.console.transcript, c.logText os.level m.log⟩

end ThreadedForth.CommandLine
