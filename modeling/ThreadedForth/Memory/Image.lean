import ThreadedForth.Memory.Basic

/-!
# Memory images

A dictionary given word by word, and the memory in which its words lie one after the other.
-/

namespace ThreadedForth

/-- A word as it lies in memory, without its link. -/
structure WordImage where
  /-- the name, in upper case -/
  name : String
  /-- the flags -/
  flags : Nat
  /-- the code field and the body -/
  code : List Cell

/-- How many cells a word has, its header included. -/
def WordImage.size (w : WordImage) : Nat := 3 + w.code.length

namespace Memory

/-- The cells of words that lie one after the other from an address on, where `link` leads from the
first of them to the word before it. -/
def layOut (link : Cell) (addr : Nat) : List WordImage → List Cell
  | [] => []
  | w :: ws =>
    link :: .text w.name :: .flags w.flags :: w.code ++ layOut (.int addr) (addr + w.size) ws

/-- The header of the last of words that lie one after the other from an address on. -/
def lastHeader (addr : Nat) : List WordImage → Option Int
  | [] => none
  | [_] => some addr
  | w :: ws => lastHeader (addr + w.size) ws

/-- The memory that holds these words and nothing else, oldest first. -/
def ofWords (ws : List WordImage) : Memory :=
  ⟨(.int 0 :: layOut .absent 1 ws).toArray, lastHeader 1 ws⟩

end Memory

end ThreadedForth
