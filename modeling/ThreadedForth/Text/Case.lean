import ThreadedForth.Text.Case.Table

/-!
# Letter case

The full case mappings of Unicode: a character may become several, and the lower case of a capital
sigma depends on its neighbours. Names in the dictionary are kept in upper case (`upper`); filters
and completions compare in lower case (`lower`).
-/

namespace ThreadedForth.Text

/-- The other case of a character beyond ASCII by its tables; a character in neither has no case. -/
def changeCase (expansions : List (Nat × List Nat)) (runs : List CaseRun) (c : Char) : List Char :=
  match expansions.lookup c.toNat with
  | some cs => cs.map Char.ofNat
  | none =>
    match runs.find? (·.holds c.toNat) with
    | some r => [Char.ofNat ((c.toNat : Int) + r.shift).toNat]
    | none => [c]

/-- The upper case of a character. -/
def upperChar (c : Char) : List Char :=
  if c.toNat < 128 then [c.toUpper] else changeCase upperExpansions upperRuns c

/-- The lower case of a character that stands alone. -/
def lowerChar (c : Char) : List Char :=
  if c.toNat < 128 then [c.toLower] else changeCase lowerExpansions lowerRuns c

/-- Whether the nearest of these neighbours that is not passed over is a letter with case. -/
def meetsLetter (neighbours : List Char) : Bool :=
  match neighbours.dropWhile caseIgnorables.contains with
  | [] => false
  | c :: _ => casedLetters.contains c

/-- The lower case of a list of characters, where `before` holds the characters that stand in front
of it, nearest first. A capital sigma that ends a word becomes a final sigma. -/
def lowerAfter (before : List Char) : List Char → List Char
  | [] => []
  | c :: cs =>
    (if c = 'Σ' then [if meetsLetter before && ! meetsLetter cs then 'ς' else 'σ'] else lowerChar c)
      ++ lowerAfter (c :: before) cs

/-- A text in upper case. -/
def upper (s : String) : String := String.ofList (s.toList.flatMap upperChar)

/-- A text in lower case. -/
def lower (s : String) : String := String.ofList (lowerAfter [] s.toList)

end ThreadedForth.Text
