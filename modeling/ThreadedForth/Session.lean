import ThreadedForth.Kernel.Bootstrap
import ThreadedForth.Kernel.Image
import ThreadedForth.Machine.Dispatch

/-!
# Sessions

How texts reach a machine. `Session.interpretText` interprets a text and gives what it printed;
`Session.loadText` does so beside the input of the session; `Session.run` goes through the whole
input and reports each fault. All of them run the word `QUIT`, which interprets one token after the
other until the input ends.
-/

namespace ThreadedForth

/-- Where the texts go that a text prints when it is interpreted. -/
inductive Sink
  /-- to the user, and they are given back -/
  | shared
  /-- nowhere, but they are given back -/
  | separate
  /-- to the user only -/
  | writeOnly
  deriving DecidableEq

namespace Session

open ThreadedForth.Action

/-- Leaves the thread at the end of the input. -/
def leaveThread : Action Unit := modify fun m => { m with returns := [], ip := none }

/-- Puts a reader in place of that of the source. -/
def setReader (reader : Option Reader) : Action Unit :=
  modifySource fun s => { s with reader := reader }

/-- Puts a transcript in place of that of the console. -/
def setTranscript (t : Transcript) : Action Unit :=
  modify fun m => { m with console := { m.console with transcript := t } }

/-- Interprets the fed lines to their end, with the reader out of reach. A fault drops what is left
of them. -/
def interpretFed (bound : Nat) : Action Unit := do
  let reader := (← get).console.source.reader
  setReader none
  let outcome ← observe (execute bound Kernel.quitToken)
  setReader reader
  match outcome with
  | .error .endOfInput => leaveThread
  | .error (.fault f) =>
    modifySource Source.clear
    reset
    fail f
  | outcome => settle outcome

/-- Interprets a text, and gives what it printed if that can be had. -/
def interpretText (bound : Nat) (sink : Sink) (text : String) : Action String := do
  let before := (← get).console.transcript
  setTranscript {}
  modifySource (·.feed text)
  let outcome ← observe (interpretFed bound)
  let printed := (← get).console.transcript
  setTranscript (if sink = .separate then before else before.append printed)
  settle outcome
  return if sink = .writeOnly then "" else printed.printed

/-- Interprets a text with a source of its own, so that the input of the session stays as it is. -/
def loadText (bound : Nat) (text : String) : Action String := do
  let source := (← get).console.source
  modifySource fun _ => {}
  let outcome ← observe (interpretText bound .shared text)
  modifySource fun _ => source
  settle outcome

/-- Interprets the bootstrap. -/
def boot (bound : Nat) : Action Unit := do
  let _ ← loadText bound (String.join (Kernel.bootstrap.map (· ++ "\n")))
  let words ← ask Memory.words
  let here := (← get).memory.here
  record .info .session s!"bootstrap loaded: {words.length} words, HERE={here}"

/-- Reports a fault to the user and in the log. -/
def report (f : Fault) : Action Unit := do
  write .session ("error: " ++ f.message ++ "\n")
  let line := (← get).console.source.lineCount
  record .error .session s!"{f.kind.name}: {f.message} (line {line})"
  record .debug .session "fault traceback"

/-- Ends a session at the end of its input. -/
def closeSession : Action Unit := do
  leaveThread
  let line := (← get).console.source.lineCount
  record .info .session s!"end of input (line {line}), session closed"

/-- Runs the input, with a bound on the number of restarts. -/
def runWithin (bound : Nat) (restart : Bool) : Nat → Action Unit
  | 0 => throw .exhausted
  | rounds + 1 => do
    match ← observe (execute bound Kernel.quitToken) with
    | .ok () => runWithin bound restart rounds
    | .error .endOfInput => closeSession
    | .error (.fault f) =>
      report f
      reset
      if ! restart then fail f
      record .info .session "interpreter restarted"
      runWithin bound restart rounds
    | .error stop => throw stop

/-- Runs the input to its end. Each fault is reported and the machine reset; then the session goes
on with the next line, or ends there if it is not to restart. -/
def run (bound : Nat) (restart : Bool) : Action Unit := runWithin bound restart bound

end Session

end ThreadedForth
