/-!
# Decimal numerals

A numeral is an optional sign followed by one or more of the ten ASCII digits. `Numeral.read?`
accepts exactly these; `Numeral.write` gives the shortest one, with a sign only below zero.
-/

namespace ThreadedForth.Numeral

/-- The value of a run of digits to base ten. -/
def value (digits : List Char) : Nat :=
  digits.foldl (fun n d => 10 * n + (d.toNat - '0'.toNat)) 0

/-- Whether a list of characters is a run of one or more digits. -/
def isDigits (cs : List Char) : Bool :=
  ! cs.isEmpty && cs.all Char.isDigit

/-- The value of a numeral, if the characters spell one. -/
def readChars? : List Char → Option Int
  | '-' :: ds => if isDigits ds then some (-(value ds : Int)) else none
  | '+' :: ds => if isDigits ds then some (value ds : Int) else none
  | ds => if isDigits ds then some (value ds : Int) else none

/-- The value of a numeral, if the text spells one. -/
def read? (s : String) : Option Int := readChars? s.toList

/-- A list of characters is a run of digits exactly when it has one and only digits. -/
theorem isDigits_eq_true_iff {cs : List Char} :
    isDigits cs = true ↔ cs ≠ [] ∧ ∀ c ∈ cs, c.isDigit = true := by
  simp [isDigits]

/-- The shortest numeral of an integer. -/
def write (n : Int) : String := toString n

end ThreadedForth.Numeral
