import ThreadedForth.Fault
import ThreadedForth.Text.Lines

/-!
# Input

A source delivers characters and tokens. It holds the line that is being read, with a line feed at
its end, and the lines that were fed and wait their turn. When these are used up it asks its reader,
to which lines are typed or streamed. When there is no reader left to ask, the input is at its end.

The host may attend to a reader. It shows a prompt before each line, and it answers some lines
itself, which then never reach the source (`Attendant`). What it shows goes to the transcript, the
record of all that appears before the user; source and transcript together are the `Console`.
-/

namespace ThreadedForth

/-! ## Transcript -/

/-- Who puts a text before the user. -/
inductive Voice
  /-- a word of the program that is run -/
  | program
  /-- the session, which reports a fault -/
  | session
  /-- the host, which answers a line or gives a notice -/
  | host
  /-- the host, which asks for a line -/
  | prompt
  deriving DecidableEq

/-- What has appeared before the user. -/
structure Transcript where
  /-- the pieces of text, last first -/
  pieces : List (Voice × String) := []

namespace Transcript

/-- The transcript with one more piece. -/
def write (t : Transcript) (voice : Voice) (text : String) : Transcript :=
  ⟨(voice, text) :: t.pieces⟩

/-- One transcript after another. -/
def append (t later : Transcript) : Transcript := ⟨later.pieces ++ t.pieces⟩

/-- All texts of the voices that pass a test, in order. -/
def textOf (t : Transcript) (p : Voice → Bool) : String :=
  String.join (t.pieces.reverse.filterMap fun piece => if p piece.1 then some piece.2 else none)

/-- What was printed, prompts left out. -/
def printed (t : Transcript) : String := t.textOf (· ≠ .prompt)

/-- The prompts that were shown, in order. -/
def prompts (t : Transcript) : List String :=
  t.pieces.reverse.filterMap fun piece => if piece.1 = .prompt then some piece.2 else none

end Transcript

/-! ## Readers -/

/-- What a user or a stream gives to a reader. -/
inductive Entry
  | line (text : String)
  /-- the line is given up -/
  | interrupt
  /-- the input is closed -/
  | close

/-- Where lines come from once the fed ones are used up. -/
structure Reader where
  /-- what is still to be given; after it the input is closed -/
  entries : List Entry
  /-- whether the host answers some of the lines -/
  attended : Bool := false
  /-- whether the host asks for each line -/
  prompting : Bool := false

/-- What the host does about reading. -/
structure Attendant where
  /-- the prompt -/
  prompt : String
  /-- the answer to a line, none if the line is not for the host -/
  answer : String → Option (Except Stop String)

/-- The host that lets every line pass. -/
def Attendant.silent : Attendant := ⟨"", fun _ => none⟩

/-- What the user is told after an interrupt. -/
def interruptNotice : String := "^C (use .bye or Ctrl-D to quit)\n"

/-- What comes of asking a reader for a line. -/
structure Delivery where
  /-- the line, or why there is none -/
  outcome : Except Stop String
  /-- what is still to be given -/
  entries : List Entry
  /-- what has appeared before the user -/
  transcript : Transcript

/-- Asks for a line until there is one for the program. -/
def Reader.deliver (r : Reader) (host : Attendant) : List Entry → Transcript → Delivery
  | [], t => ⟨.error .endOfInput, [], ask t⟩
  | .close :: es, t => ⟨.error .endOfInput, es, ask t⟩
  | .interrupt :: es, t => r.deliver host es ((ask t).write .host interruptNotice)
  | .line l :: es, t =>
    match if r.attended then host.answer l else none with
    | none => ⟨.ok l, es, ask t⟩
    | some (.ok report) => r.deliver host es ((ask t).write .host report)
    | some (.error stop) => ⟨.error stop, es, ask t⟩
where
  /-- The transcript with the prompt, if one is shown. -/
  ask (t : Transcript) : Transcript :=
    if r.prompting then t.write .prompt host.prompt else t

/-! ## Sources -/

/-- Where characters and tokens come from. -/
structure Source where
  /-- the characters of the current line that were taken, last first -/
  taken : List Char := []
  /-- the characters of the current line that are left, its line feed included -/
  rest : List Char := []
  /-- the lines that were fed and not yet begun -/
  pending : List String := []
  /-- how many lines were begun -/
  lineCount : Nat := 0
  /-- what gives lines once none is pending -/
  reader : Option Reader := none

namespace Source

/-- The current line, its line feed included. -/
def buffer (s : Source) : String := String.ofList (s.taken.reverse ++ s.rest)

/-- How many characters of the current line were taken. -/
def position (s : Source) : Nat := s.taken.length

/-- The source with more lines to come. -/
def feedLines (s : Source) (ls : List String) : Source := { s with pending := s.pending ++ ls }

/-- The source with the lines of a text to come. -/
def feed (s : Source) (text : String) : Source := s.feedLines (Text.lines text)

/-- Whether characters or fed lines are left. -/
def hasPending (s : Source) : Bool := ! s.pending.isEmpty || ! s.rest.isEmpty

/-- The source with the rest of its line dropped. -/
def skipLine (s : Source) : Source := { s with taken := s.rest.reverse ++ s.taken, rest := [] }

/-- The source with the rest of its line and all fed lines dropped. -/
def clear (s : Source) : Source := { s with pending := [] }.skipLine

/-- The source at the start of a line. -/
def beginLine (s : Source) (line : String) : Source :=
  { s with taken := [], rest := line.toList ++ ['\n'], lineCount := s.lineCount + 1 }

/-- The next character of the current line. -/
def takeChar? (s : Source) : Option (Char × Source) :=
  match s.rest with
  | [] => none
  | c :: cs => some (c, { s with taken := c :: s.taken, rest := cs })

/-- Whether a character separates tokens. -/
def isDelimiter (c : Char) : Bool := CharSet.delimiters.contains c

/-- The next token of the current line. The delimiter after it is left unread. -/
def takeToken? (s : Source) : Option (String × Source) :=
  let (gap, rest) := s.rest.span isDelimiter
  let (token, rest) := rest.span (! isDelimiter ·)
  if token.isEmpty then none
  else some (String.ofList token,
    { s with taken := token.reverse ++ (gap.reverse ++ s.taken), rest := rest })

/-- How many lines can still be begun, at most. -/
def linesLeft (s : Source) : Nat :=
  s.pending.length + match s.reader with
    | none => 0
    | some r => r.entries.length

/-- What is taken of a line and what is left of it make up the line. -/
@[simp] theorem buffer_skipLine (s : Source) : s.skipLine.buffer = s.buffer := by
  simp [buffer, skipLine]

/-- The position stays within the line. -/
theorem position_le_length (s : Source) : s.position ≤ s.buffer.length := by
  simp [position, buffer]

/-- Nothing that was fed is left of a source that was cleared. -/
@[simp] theorem hasPending_clear (s : Source) : s.clear.hasPending = false := rfl

end Source

/-! ## Reading -/

/-- Where characters come from and texts go. -/
structure Console where
  source : Source := {}
  transcript : Transcript := {}

/-- An action on the console. -/
abbrev Reading := EStateM Stop Console

namespace Reading

/-- Begins the next line: a fed one if there is one, and else one from the reader. -/
def refill (host : Attendant) : Reading Unit := do
  let s := (← get).source
  match s.pending, s.reader with
  | line :: lines, _ =>
    modify fun c => { c with source := { s with pending := lines }.beginLine line }
  | [], none => throw .endOfInput
  | [], some r =>
    let d := r.deliver host r.entries (← get).transcript
    let s := { s with reader := some { r with entries := d.entries } }
    set (Console.mk s d.transcript)
    match d.outcome with
    | .error stop => throw stop
    | .ok line => modify fun c => { c with source := s.beginLine line }

/-- Begins lines until one of them, or the current one, has what is sought. -/
def seek {α : Type} (host : Attendant) (take? : Source → Option (α × Source)) :
    Nat → Reading α
  | 0 => throw .endOfInput
  | bound + 1 => do
    match take? (← get).source with
    | some (x, s) =>
      modify fun c => { c with source := s }
      return x
    | none =>
      modify fun c => { c with source := c.source.skipLine }
      refill host
      seek host take? bound

/-- The next character. -/
def nextChar (host : Attendant) : Reading Char := do
  seek host Source.takeChar? ((← get).source.linesLeft + 1)

/-- The next token. -/
def nextToken (host : Attendant) : Reading String := do
  seek host Source.takeToken? ((← get).source.linesLeft + 1)

/-- Does an action with the reader out of reach, and puts it back whatever the outcome is. -/
def detached {α : Type} (act : Reading α) : Reading α := do
  let reader := (← get).source.reader
  let restore : Reading Unit :=
    modify fun c => { c with source := { c.source with reader := reader } }
  modify fun c => { c with source := { c.source with reader := none } }
  try
    let x ← act
    restore
    return x
  catch stop =>
    restore
    throw stop

end Reading

end ThreadedForth
