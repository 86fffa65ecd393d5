import ThreadedForth.Text.Printable

/-!
# Quoted texts

The form in which a message shows a text: between quotes, with the quote, the backslash and every
character that is not printable written as an escape.
-/

namespace ThreadedForth.Text

/-- The last digits of a number to base sixteen, `width` of them. -/
def hexDigits (width n : Nat) : List Char :=
  (List.range width).reverse.map fun i => Nat.digitChar ((n >>> (4 * i)) % 16)

/-- How a character appears between two quotes. -/
def escape (quote c : Char) : List Char :=
  if c = quote || c = '\\' then ['\\', c]
  else if c = '\n' then ['\\', 'n']
  else if c = '\r' then ['\\', 'r']
  else if c = '\t' then ['\\', 't']
  else if isPrintable c then [c]
  else if c.toNat < 0x100 then '\\' :: 'x' :: hexDigits 2 c.toNat
  else if c.toNat < 0x10000 then '\\' :: 'u' :: hexDigits 4 c.toNat
  else '\\' :: 'U' :: hexDigits 8 c.toNat

/-- The quote around a text: a single one, unless the text holds single quotes and no double one. -/
def quoteFor (cs : List Char) : Char :=
  if cs.contains '\'' && ! cs.contains '"' then '"' else '\''

/-- A text between quotes. -/
def quoted (s : String) : String :=
  let quote := quoteFor s.toList
  String.ofList (quote :: s.toList.flatMap (escape quote) ++ [quote])

end ThreadedForth.Text
