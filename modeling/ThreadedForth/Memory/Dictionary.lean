import ThreadedForth.Memory.Basic
import ThreadedForth.Text.Case

/-!
# The dictionary

A header is three cells: the link to the header before it, the name in upper case, and the flags.
The code field follows, and after it the body. The headers form a chain from the newest one back
(`Memory.chain`), and every search goes along it: by name (`find`), by code field (`headerOf`), by
address (`endOf`).

A program may write over links, so what a link leads to is a cell like any other. A chain then ends
in one of three ways (`ChainEnd`), and a search that finds its header earlier does not come to know.
-/

namespace ThreadedForth

/-- How many cells a header has. -/
def headerSize : Int := 3

/-- How following the links comes to its end. -/
inductive ChainEnd
  /-- at a header without a link -/
  | closed
  /-- at a link that leads to no cell -/
  | broken (f : Fault)
  /-- never -/
  | endless

/-- What a search meets at the end of the chain. -/
def ChainEnd.reach : ChainEnd → Except Stop Unit
  | .closed => .ok ()
  | .broken f => .error (.fault f)
  | .endless => .error .exhausted

/-- The headers that following the links meets, newest first, and how it ends. -/
structure Chain where
  /-- the headers, each as the cell that leads to it -/
  headers : List Cell
  /-- what comes after the last of them -/
  ending : ChainEnd

/-- The address that lies a distance behind a header. -/
def Cell.plus (h : Cell) (distance : Int) : Except Stop Int :=
  match h.number? with
  | some n => .ok (n + distance)
  | none => .error (.defect .meaningless)

namespace Chain

/-- The first header for which a test holds. -/
def find? (c : Chain) (test : Cell → Except Stop Bool) : Except Stop (Option Cell) :=
  go c.headers
where
  /-- The search in what is left of the chain. -/
  go : List Cell → Except Stop (Option Cell)
    | [] => do
      c.ending.reach
      return none
    | h :: hs => do
      if ← test h then return some h
      go hs

/-- All headers of a chain that ends. -/
def toList (c : Chain) : Except Stop (List Cell) := do
  c.ending.reach
  return c.headers

end Chain

namespace Memory

/-- The headers from a link on, as many as the bound allows. -/
def chainFrom (m : Memory) : Nat → Cell → Chain
  | 0, _ => ⟨[], .endless⟩
  | _ + 1, .absent => ⟨[], .closed⟩
  | bound + 1, h =>
    match m.get h with
    | .error f => ⟨[h], .broken f⟩
    | .ok link =>
      let rest := m.chainFrom bound link
      ⟨h :: rest.headers, rest.ending⟩

/-- All headers, hidden ones included. A chain with more headers than there are cells has come back
to a header that it met before. -/
def chain (m : Memory) : Chain :=
  match m.latest with
  | none => ⟨[], .closed⟩
  | some h => m.chainFrom (m.here + 2) (.int h)

/-- The memory with a new header at its end, which is now the newest. -/
def allocateHeader (m : Memory) (name : String) (flags : Nat) : Memory :=
  let link := match m.latest with
    | none => .absent
    | some h => .int h
  { m.appendAll [link, .text (Text.upper name), .flags flags] with latest := some m.here }

/-- The name cell of a header. -/
def nameOf (m : Memory) (header : Cell) : Except Stop Cell := do
  m.get (.int (← header.plus 1))

/-- The named flags of a header. -/
def flagsOf (m : Memory) (header : Cell) : Except Stop Nat := do
  let x ← m.get (.int (← header.plus 2))
  match x.int? with
  | some n => return (n % 4).toNat
  | none => throw (.fault (.noHeader header x))

/-- Whether a search passes over a header. -/
def isHidden (m : Memory) (header : Cell) : Except Stop Bool := do
  return (← m.flagsOf header) &&& Flags.hidden != 0

/-- Whether the word of a header runs even while compiling. -/
def isImmediate (m : Memory) (header : Cell) : Except Stop Bool := do
  return (← m.flagsOf header) &&& Flags.immediate != 0

/-- The memory with the flags of a header changed. -/
def changeFlags (m : Memory) (header : Cell) (f : Nat → Nat) : Except Stop Memory := do
  let flags ← m.flagsOf header
  m.put (.int (← header.plus 2)) (.flags (f flags))

/-- The memory with some flags of a header turned round. -/
def toggleFlags (m : Memory) (header : Cell) (mask : Nat) : Except Stop Memory :=
  m.changeFlags header fun flags => flags ^^^ mask

/-- The memory with some flags of a header taken off. -/
def clearFlags (m : Memory) (header : Cell) (mask : Nat) : Except Stop Memory :=
  m.changeFlags header fun flags => Bits.without flags mask

/-- The newest header with a name that is not hidden. -/
def find (m : Memory) (name : String) : Except Stop (Option Cell) :=
  let key := Cell.text (Text.upper name)
  m.chain.find? fun h => do
    if (← m.nameOf h) = key then return ! (← m.isHidden h) else return false

/-- The header whose code field has an address. -/
def headerOf (m : Memory) (code : Int) : Except Stop (Option Cell) :=
  m.chain.find? fun h => do return (← h.plus headerSize) == code

/-- The first address past the cells of a word: that of the next header, or the end of memory. -/
def endOf (m : Memory) (header : Cell) : Except Stop Int := do
  let h ← header.plus 0
  let addresses ← m.chain.headers.mapM (·.plus 0)
  m.chain.ending.reach
  match (addresses.filter (h < ·)).min? with
  | some next => return next
  | none => return m.here

/-- The name of the word whose code field has an address. -/
def label (m : Memory) (code : Int) : Except Stop Cell := do
  match ← m.headerOf code with
  | some h => m.nameOf h
  | none => return .text "<anon>"

/-- The names of the headers in a list that are not hidden. -/
def visibleNames (m : Memory) : List Cell → Except Stop (List Cell)
  | [] => return []
  | h :: hs => do
    let name ← m.nameOf h
    let hidden ← m.isHidden h
    let names ← m.visibleNames hs
    return if hidden then names else name :: names

/-- The names of the words that are not hidden, newest first, each once. -/
def words (m : Memory) : Except Stop (List Cell) := do
  let names ← m.visibleNames m.chain.headers
  m.chain.ending.reach
  return Cell.distinct names

end Memory

end ThreadedForth
