import ThreadedForth.Text.CharSet

/-!
# Lines

Three ways in which a text comes apart into lines. A text that is fed breaks at every line end of
Unicode (`lines`). A stream breaks at line feeds alone (`streamLines`). Files and standard input are
read with their line ends made uniform first (`uniformLineEnds`).
-/

namespace ThreadedForth.Text

/-- The lines of a list of characters. A line end closes the line before it, so a text that ends in
one has no empty line after it. -/
def splitLines : List Char → List (List Char)
  | [] => []
  | '\r' :: '\n' :: cs => [] :: splitLines cs
  | c :: cs =>
    if CharSet.lineEnds.contains c then [] :: splitLines cs
    else match splitLines cs with
      | [] => [[c]]
      | l :: ls => (c :: l) :: ls

/-- The lines of a list of characters that breaks at line feeds only. -/
def splitStream : List Char → List (List Char)
  | [] => []
  | c :: cs =>
    if c = '\n' then [] :: splitStream cs
    else match splitStream cs with
      | [] => [[c]]
      | l :: ls => (c :: l) :: ls

/-- No line of a stream holds a line feed. -/
theorem not_mem_of_mem_splitStream {cs : List Char} : ∀ l ∈ splitStream cs, '\n' ∉ l := by
  induction cs with
  | nil => simp [splitStream]
  | cons c cs ih =>
    rw [splitStream]
    by_cases hc : c = '\n'
    · rw [if_pos hc]
      rintro l (_ | ⟨_, hl⟩)
      · simp
      · exact ih l hl
    · rw [if_neg hc]
      have hne : '\n' ≠ c := fun h => hc h.symm
      split
      · rintro l (_ | ⟨_, hl⟩)
        · simpa using hne
        · cases hl
      · next l' ls heq =>
        rw [heq] at ih
        rintro l (_ | ⟨_, hl⟩)
        · exact fun h => (List.mem_cons.mp h).elim hne (ih l' (List.mem_cons_self ..))
        · exact ih l (List.mem_cons_of_mem _ hl)

/-- The lines of a text that is fed whole. -/
def lines (s : String) : List String :=
  (splitLines s.toList).map String.ofList

/-- The lines that a stream with this text delivers. -/
def streamLines (s : String) : List String :=
  (splitStream s.toList).map String.ofList

/-- Each carriage return, with the line feed after it if there is one, becomes a line feed. -/
def unifyLineEnds : List Char → List Char
  | [] => []
  | '\r' :: '\n' :: cs => '\n' :: unifyLineEnds cs
  | c :: cs => (if c = '\r' then '\n' else c) :: unifyLineEnds cs

/-- A text with uniform line ends. -/
def uniformLineEnds (s : String) : String :=
  String.ofList (unifyLineEnds s.toList)

end ThreadedForth.Text
