import ThreadedForth.Text.CharSet

/-!
# White space

Cutting a text into its words, and trimming it, by the white space of Unicode.
-/

namespace ThreadedForth.Text

/-- Whether a character is white space. -/
def isBlank (c : Char) : Bool := CharSet.blanks.contains c

/-- The pieces of a text between its blanks; two blanks in a row have an empty piece between them.
-/
def fields : List Char → List (List Char)
  | [] => [[]]
  | c :: cs =>
    if isBlank c then [] :: fields cs
    else match fields cs with
      | [] => [[c]]
      | w :: ws => (c :: w) :: ws

/-- The words of a text: its maximal runs of characters that are not white space. -/
def words (s : String) : List String :=
  ((fields s.toList).filter (· ≠ [])).map String.ofList

/-- A text without its leading white space. -/
def trimStart (s : String) : String :=
  String.ofList (s.toList.dropWhile isBlank)

/-- A text without its trailing white space. -/
def trimEnd (s : String) : String :=
  String.ofList (s.toList.reverse.dropWhile isBlank).reverse

/-- The run of characters that ends a text and holds no white space, empty after white space. -/
def lastWord (s : String) : String :=
  String.ofList (s.toList.reverse.takeWhile (! isBlank ·)).reverse

end ThreadedForth.Text
