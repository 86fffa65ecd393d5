import ThreadedForth.CommandLine.Run

/-!
# Main program

The outer layer of the program: it reads files and standard input, and prints. At a terminal the
session is run anew on all that was typed so far whenever it asks for a line, and what is new in its
transcript is shown; this needs no state beside what was typed.
-/

open ThreadedForth CommandLine

/-- A bound that no session reaches. -/
def stepBound : Nat := 1000000000000000000

/-- The content of a file on the disk. -/
def readFromDisk (name : String) : IO (Except FileError ByteArray) := do
  try
    return .ok (← IO.FS.readBinFile name)
  catch
    | .noFileOrDirectory .. => return .error .missing
    | .permissionDenied .. => return .error .denied
    | .inappropriateType .. => return .error .isDirectory
    | _ => return .error .notDirectory

/-- All files that the arguments may name, with their contents. -/
def readAll (names : List String) : IO (List (String × Except FileError ByteArray)) :=
  names.mapM fun name => return (name, ← readFromDisk name)

/-- Standard input up to its end. -/
partial def readToEnd (stream : IO.FS.Stream) (before : ByteArray) : IO ByteArray := do
  let piece ← stream.read 65536
  if piece.isEmpty then return before
  readToEnd stream (before ++ piece)

/-- Prints what is new since a number of pieces were printed. -/
def printNew (printed : Nat) (t : Transcript) : IO Nat := do
  for piece in t.pieces.reverse.drop printed do
    IO.print piece.2
  (← IO.getStdout).flush
  return t.pieces.length

/-- Prints what a call comes to, and gives its exit code. -/
def conclude (answer : Answer) : IO UInt32 := do
  IO.eprint answer.complaints
  match answer.exit with
  | .ok code => return code.toUInt32
  | .error _ => return 70

/-- Goes on with a session at a terminal, given what was typed so far. -/
partial def converse (call : Call) (typed : List Entry) (printed : Nat) : IO UInt32 := do
  let answer := { call with input := .terminal typed }.answer stepBound
  let printed ← printNew printed answer.transcript
  let waiting := answer.transcript.prompts.length > typed.length
  let line ← if waiting then (← IO.getStdin).getLine else pure ""
  if line.isEmpty then conclude answer
  else
    converse call (typed ++ [.line (line.dropEndWhile (· = '\n')).toString]) printed

/-- The files that the arguments name. -/
def namedFiles (arguments : List String) : List String :=
  match parseArguments arguments with
  | .ok os => os.files
  | .error _ => []

/-- Whether the arguments leave it to standard input what is run. -/
def readsStandardInput (arguments : List String) : Bool :=
  match parseArguments arguments with
  | .ok os => os.readsInput
  | .error _ => false

/-- Standard input as a text, nothing if it is not asked for. -/
def readInput (stdin : IO.FS.Stream) (wanted : Bool) : IO String := do
  let bytes ← if wanted then readToEnd stdin .empty else pure .empty
  return (String.fromUTF8? bytes).getD ""

/-- The program. -/
def main (arguments : List String) : IO UInt32 := do
  let files ← readAll (namedFiles arguments)
  let call : Call :=
    { arguments := arguments
      read := fun name => (files.lookup name).getD (.error .missing)
      input := .stream "" }
  let stdin ← IO.getStdin
  if readsStandardInput arguments && (← stdin.isTty) then converse call [] 0
  else
    let input ← readInput stdin (readsStandardInput arguments)
    let answer := { call with input := .stream input }.answer stepBound
    IO.print answer.transcript.printed
    conclude answer
