import ThreadedForth.Host.Command

/-!
# Completion

The names that can complete the word before the cursor: commands to the host where they can stand,
and then the words of the dictionary, newest first. What stands before the cursor is for the editor
to tell (`Editor`).
-/

namespace ThreadedForth

/-- A way to complete a word. -/
structure Completion where
  /-- the whole word -/
  text : String
  /-- where it starts, counted from the cursor -/
  start : Int
  deriving DecidableEq

/-- What an editor tells of a text and a cursor in it. -/
structure Editor where
  /-- the text before the cursor -/
  before : String → Nat → String
  /-- the word that ends at the cursor, empty if none does -/
  word : String → Nat → String

/-- The editor that cuts words at white space. -/
def Editor.blanks : Editor where
  before text cursor := String.ofList (text.toList.take cursor)
  word text cursor := Text.lastWord (String.ofList (text.toList.take cursor))

namespace Host

/-- The commands that a word before the cursor may become: it must be the first on its line. -/
def completeCommand (before word : String) : List String :=
  if word.toList.head? = some '.' && Text.trimStart before = word then
    commands.filter fun command => (Text.lower word).toList.isPrefixOf command.toList
  else []

/-- The names among these that begin with a text in upper case. -/
def completeName (upperWord : List Char) : List Cell → Except Stop (List String)
  | [] => return []
  | .text name :: names => do
    let rest ← completeName upperWord names
    return if upperWord.isPrefixOf (Text.upper name).toList then name :: rest else rest
  | _ :: _ => throw (.defect .notText)

end Host

/-- The ways to complete a text at a cursor of an editor. -/
def Machine.completeIn (editor : Editor) (m : Machine) (text : String) (cursor : Nat) :
    Except Stop (List Completion) := do
  let word := editor.word text cursor
  if word = "" then return []
  let names ← Host.completeName (Text.upper word).toList (← m.memory.words)
  return (Host.completeCommand (editor.before text cursor) word ++ names).map fun completion =>
    ⟨completion, -(word.length : Int)⟩

/-- The ways to complete a text at a cursor. -/
def Machine.complete (m : Machine) (text : String) (cursor : Nat) :
    Except Stop (List Completion) :=
  m.completeIn .blanks text cursor

end ThreadedForth
