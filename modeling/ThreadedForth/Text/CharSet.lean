/-!
# Sets of characters

A character class is a list of ranges of code points. The classes that the machine needs are the
white space of Unicode (`blanks`), which separates the words of a typed command, the characters that
end a line (`lineEnds`), and the four delimiters of a program text (`delimiters`).
-/

namespace ThreadedForth

/-- A set of characters, given by ranges of code points with both ends included. -/
abbrev CharSet := List (Nat × Nat)

namespace CharSet

/-- Whether a character lies in one of the ranges. -/
def contains (s : CharSet) (c : Char) : Bool :=
  s.any fun r => r.1 ≤ c.toNat && c.toNat ≤ r.2

/-- A character is in a set exactly when one of the ranges holds its code point. -/
theorem contains_eq_true_iff {s : CharSet} {c : Char} :
    s.contains c = true ↔ ∃ r ∈ s, r.1 ≤ c.toNat ∧ c.toNat ≤ r.2 := by
  simp [contains]

/-- White space: the separators of Unicode together with the control characters that it counts among
them, 29 characters in all. -/
def blanks : CharSet :=
  [(0x09, 0x0d), (0x1c, 0x20), (0x85, 0x85), (0xa0, 0xa0), (0x1680, 0x1680), (0x2000, 0x200a),
   (0x2028, 0x2029), (0x202f, 0x202f), (0x205f, 0x205f), (0x3000, 0x3000)]

/-- Characters at which a text breaks into lines. A carriage return and the line feed after it are
one break. -/
def lineEnds : CharSet :=
  [(0x0a, 0x0d), (0x1c, 0x1e), (0x85, 0x85), (0x2028, 0x2029)]

/-- The characters between tokens: tab, line feed, carriage return and space. Other white space
belongs to a token. -/
def delimiters : CharSet :=
  [(0x09, 0x0a), (0x0d, 0x0d), (0x20, 0x20)]

end CharSet

end ThreadedForth
