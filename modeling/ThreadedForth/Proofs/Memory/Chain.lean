import Mathlib.Data.List.Basic
import ThreadedForth.Memory.Dictionary
import ThreadedForth.Proofs.Outcome

/-!
# The chain of headers

What a dictionary looks like that no program has written over: from the newest header on, each link
leads to the header that was made before it, which lies wholly below (`Memory.Chained`). The walks
along the links then end, and meet these headers and no others.

* `WellFormed.chain_eq` — following the links gives the headers, newest first, and ends.
* `WellFormed.find_eq`, `WellFormed.headerOf_eq`, `WellFormed.endOf_eq` — what the three searches
  give, in terms of the list of headers.
* `WellFormed.label_eq_ok` — every code field has a label.
-/

namespace ThreadedForth

/-- A header, as a dictionary lists it. -/
structure Header where
  /-- its address -/
  addr : Nat
  /-- the name that stands in it -/
  name : String

/-- The header as the cell that leads to it. -/
def Header.cell (h : Header) : Cell := .int h.addr

/-- The link that leads to the first of these headers. -/
def linkTo : List Header → Cell
  | [] => .absent
  | h :: _ => h.cell

namespace Memory

variable {m m' : Memory} {h : Header} {hs : List Header} {link : Cell}

/-! ## Headers in memory -/

/-- The three cells of a header stand at its address. -/
structure HasHeader (m : Memory) (h : Header) (link : Cell) : Prop where
  positive : 1 ≤ h.addr
  link_cell : m.cells[h.addr]? = some link
  name_cell : m.cells[h.addr + 1]? = some (.text h.name)
  flags_cell : ∃ bits ≤ Flags.named, m.cells[h.addr + 2]? = some (.flags bits)

/-- These headers stand in memory, newest first. Each links to the next one, and lies above all that
come after it. -/
inductive Chained (m : Memory) : List Header → Prop
  | nil : Chained m []
  | cons {h : Header} {hs : List Header} (top : m.HasHeader h (linkTo hs))
      (above : ∀ g ∈ hs, g.addr + 3 ≤ h.addr) (tail : Chained m hs) : Chained m (h :: hs)

/-- The dictionary consists of these headers, newest first. -/
structure WellFormed (m : Memory) (hs : List Header) : Prop where
  /-- the reserved cell is there -/
  reserved : 1 ≤ m.here
  latest : m.latest = hs.head?.map fun h => (h.addr : Int)
  chained : m.Chained hs

/-- The cell at an address that is in range. -/
theorem get_int_of_cell {i : Nat} {x : Cell} (hx : m.cells[i]? = some x) :
    m.get (.int i) = .ok x :=
  get_eq_ok_iff.mpr ⟨i, rfl, hx⟩

/-- The cell a distance behind an address. -/
theorem get_int_add_of_cell {i k : Nat} {x : Cell} (hx : m.cells[i + k]? = some x) :
    m.get (.int ((i : Int) + k)) = .ok x := by
  exact_mod_cast get_int_of_cell hx

theorem HasHeader.end_le (hh : m.HasHeader h link) : h.addr + 3 ≤ m.here := by
  obtain ⟨bits, -, hbits⟩ := hh.flags_cell
  obtain ⟨hlt, -⟩ := Array.getElem?_eq_some_iff.mp hbits
  rw [here]
  omega

/-- A header stands wherever its three cells do. -/
theorem HasHeader.transfer (hh : m.HasHeader h link)
    (hsame : ∀ k < 3, m'.cells[h.addr + k]? = m.cells[h.addr + k]?) : m'.HasHeader h link where
  positive := hh.positive
  link_cell := (hsame 0 (by omega)).trans hh.link_cell
  name_cell := (hsame 1 (by omega)).trans hh.name_cell
  flags_cell := by
    obtain ⟨bits, hle, hbits⟩ := hh.flags_cell
    exact ⟨bits, hle, (hsame 2 (by omega)).trans hbits⟩

/-- A chain stands wherever each of its headers does. -/
theorem Chained.transfer (hc : m.Chained hs)
    (hkeep : ∀ h ∈ hs, ∀ link, m.HasHeader h link → m'.HasHeader h link) : m'.Chained hs := by
  induction hc with
  | nil => exact .nil
  | cons top above _ ih =>
    refine .cons (hkeep _ (List.mem_cons_self ..) _ top) above (ih fun g hg => ?_)
    exact hkeep g (List.mem_cons_of_mem _ hg)

/-- An integer counts as itself. -/
theorem number?_of_int? {x : Cell} {n : Int} (h : x.int? = some n) : x.number? = some n := by
  cases x with
  | bool b => cases h
  | _ => exact h

/-- What lies a distance behind a header. -/
theorem plus_of_number {header : Cell} {n : Int} (hn : header.number? = some n) (distance : Int) :
    header.plus distance = .ok (n + distance) := by
  rw [Cell.plus, hn]

@[simp] theorem plus_cell (h : Header) (distance : Int) :
    h.cell.plus distance = .ok (h.addr + distance) := rfl

/-- Each header of a chain stands in memory. -/
theorem Chained.hasHeader (hc : m.Chained hs) (hh : h ∈ hs) : ∃ link, m.HasHeader h link := by
  induction hc with
  | nil => cases hh
  | cons top _ _ ih =>
    rcases List.mem_cons.mp hh with rfl | hh
    · exact ⟨_, top⟩
    · exact ih hh

theorem Chained.end_le (hc : m.Chained hs) (hh : h ∈ hs) : h.addr + 3 ≤ m.here := by
  obtain ⟨_, hh⟩ := hc.hasHeader hh
  exact hh.end_le

/-- The addresses go down, by the length of a header at least. -/
theorem Chained.pairwise (hc : m.Chained hs) : hs.Pairwise fun h g => g.addr + 3 ≤ h.addr := by
  induction hc with
  | nil => exact List.Pairwise.nil
  | cons _ above _ ih => exact List.pairwise_cons.mpr ⟨above, ih⟩

/-- Two headers of a chain do not overlap. -/
theorem Chained.apart (hc : m.Chained hs) {g : Header} (hh : h ∈ hs) (hg : g ∈ hs) :
    h.addr = g.addr ∨ h.addr + 3 ≤ g.addr ∨ g.addr + 3 ≤ h.addr := by
  induction hc with
  | nil => cases hh
  | cons _ above _ ih =>
    rcases List.mem_cons.mp hh with hh | hh
    · rcases List.mem_cons.mp hg with hg | hg
      · exact .inl (by rw [hh, hg])
      · exact .inr (.inr (hh ▸ above g hg))
    · rcases List.mem_cons.mp hg with hg | hg
      · exact .inr (.inl (hg ▸ above h hh))
      · exact ih hh hg

/-! ## Following the links -/

/-- A chain has no more headers than there are cells. -/
theorem Chained.length_le (hc : m.Chained hs) : hs.length ≤ m.here := by
  have hbound : ∀ h ∈ hs.head?, hs.length ≤ h.addr := by
    induction hc with
    | nil => simp
    | @cons h hs top above _ ih =>
      intro g hg
      obtain rfl : h = g := by simpa using hg
      cases hs with
      | nil => simpa using top.positive
      | cons g gs =>
        have hlen := ih g rfl
        have hbelow := above g (List.mem_cons_self ..)
        simp only [List.length_cons] at hlen ⊢
        omega
  cases hc with
  | nil => exact Nat.zero_le _
  | cons top above tail =>
    have hlen := hbound _ rfl
    have hend := top.end_le
    omega

/-- With enough steps, following the links from a chain's first header gives the chain. -/
theorem Chained.chainFrom_eq (hc : m.Chained hs) {bound : Nat} (hb : hs.length < bound) :
    m.chainFrom bound (linkTo hs) = ⟨hs.map Header.cell, .closed⟩ := by
  induction hc generalizing bound with
  | nil =>
    obtain ⟨b, rfl⟩ : ∃ b, bound = b + 1 := ⟨bound - 1, by simp at hb; omega⟩
    rfl
  | @cons h hs top above tail ih =>
    obtain ⟨b, rfl⟩ : ∃ b, bound = b + 1 := ⟨bound - 1, by simp at hb; omega⟩
    have hlink : m.get h.cell = .ok (linkTo hs) := get_int_of_cell top.link_cell
    have hrest : m.chainFrom b (linkTo hs) = ⟨hs.map Header.cell, .closed⟩ :=
      ih (by simpa using hb)
    rw [Header.cell] at hlink
    simp only [linkTo.eq_2, Header.cell, chainFrom, hlink, hrest, List.map_cons]

/-- The walk along the links ends, after it has met each header once. -/
theorem WellFormed.chain_eq (hw : m.WellFormed hs) :
    m.chain = ⟨hs.map Header.cell, .closed⟩ := by
  have hlen := hw.chained.length_le
  cases hs with
  | nil => simp [chain, hw.latest]
  | cons h hs =>
    rw [chain, hw.latest]
    exact hw.chained.chainFrom_eq (by omega)

theorem WellFormed.headers_eq (hw : m.WellFormed hs) :
    m.chain.toList = .ok (hs.map Header.cell) := by
  rw [hw.chain_eq]
  rfl

/-! ## Searches -/

/-- The flags at an address, none if no flags are there. -/
def flagsAt (m : Memory) (addr : Nat) : Nat :=
  match m.cells[addr]? with
  | some (.flags bits) => bits
  | _ => 0

/-- A search by name stops at this header. -/
def answersTo (m : Memory) (name : String) (h : Header) : Bool :=
  h.name == Text.upper name && m.flagsAt (h.addr + 2) &&& Flags.hidden == 0

theorem HasHeader.nameOf_eq (hh : m.HasHeader h link) : m.nameOf h.cell = .ok (.text h.name) := by
  have hget : m.get (.int (h.addr + 1)) = .ok (.text h.name) := get_int_add_of_cell hh.name_cell
  simp [nameOf, hget]

theorem HasHeader.flagsOf_eq (hh : m.HasHeader h link) :
    m.flagsOf h.cell = .ok (m.flagsAt (h.addr + 2)) := by
  obtain ⟨bits, hle, hbits⟩ := hh.flags_cell
  have hget : m.get (.int (h.addr + 2)) = .ok (.flags bits) := get_int_add_of_cell hbits
  have hsmall : ((bits : Int) % 4).toNat = bits := by
    rw [Flags.named] at hle
    omega
  simp [flagsOf, flagsAt, Cell.int?, hget, hbits, hsmall]

theorem HasHeader.isHidden_eq (hh : m.HasHeader h link) :
    m.isHidden h.cell = .ok (m.flagsAt (h.addr + 2) &&& Flags.hidden != 0) := by
  simp [isHidden, hh.flagsOf_eq]

theorem HasHeader.isImmediate_eq (hh : m.HasHeader h link) :
    m.isImmediate h.cell = .ok (m.flagsAt (h.addr + 2) &&& Flags.immediate != 0) := by
  simp [isImmediate, hh.flagsOf_eq]

/-- A search through a closed chain, when its test decides each header. -/
theorem find?_go_eq {c : Chain} (hend : c.ending = .closed) {test : Cell → Except Stop Bool}
    {p : Header → Bool} (htest : ∀ h ∈ hs, test h.cell = .ok (p h)) :
    Chain.find?.go c test (hs.map Header.cell) = .ok ((hs.find? p).map Header.cell) := by
  induction hs with
  | nil => simp [Chain.find?.go, hend, ChainEnd.reach]
  | cons h hs ih =>
    have hrest := ih fun g hg => htest g (List.mem_cons_of_mem _ hg)
    rw [List.map_cons, Chain.find?.go, htest h (List.mem_cons_self ..), List.find?_cons]
    cases p h with
    | true => rfl
    | false => simpa using hrest

/-- A search by name gives the newest visible header with that name. -/
theorem WellFormed.find_eq (hw : m.WellFormed hs) (name : String) :
    m.find name = .ok ((hs.find? (m.answersTo name)).map Header.cell) := by
  rw [find, hw.chain_eq]
  refine find?_go_eq rfl fun h hh => ?_
  obtain ⟨link, hh⟩ := hw.chained.hasHeader hh
  simp only [hh.nameOf_eq, hh.isHidden_eq, answersTo, Outcome.ok_bind, Cell.text.injEq]
  by_cases hname : h.name = Text.upper name
  · simp [hname, bne]
  · simp [hname]

/-- The names that are not hidden can be listed. -/
theorem WellFormed.words_eq_ok (hw : m.WellFormed hs) : ∃ names, m.words = .ok names := by
  have hvisible : ∀ gs ⊆ hs, ∃ names, m.visibleNames (gs.map Header.cell) = .ok names := by
    intro gs hgs
    induction gs with
    | nil => exact ⟨[], rfl⟩
    | cons g gs ih =>
      obtain ⟨hg, hgs⟩ := List.cons_subset.mp hgs
      obtain ⟨names, hnames⟩ := ih hgs
      obtain ⟨link, hheader⟩ := hw.chained.hasHeader hg
      simp only [List.map_cons, visibleNames, hheader.nameOf_eq, hheader.isHidden_eq, hnames,
        Outcome.ok_bind]
      exact ⟨_, rfl⟩
  obtain ⟨names, hnames⟩ := hvisible hs (List.Subset.refl hs)
  rw [words, hw.chain_eq]
  simp only [hnames, ChainEnd.reach, Outcome.ok_bind]
  exact ⟨_, rfl⟩

/-- A search by code field gives the header that it belongs to. -/
theorem WellFormed.headerOf_eq (hw : m.WellFormed hs) (code : Int) :
    m.headerOf code = .ok ((hs.find? fun h => (h.addr : Int) + 3 == code).map Header.cell) := by
  rw [headerOf, hw.chain_eq]
  exact find?_go_eq rfl fun h _ => rfl

/-- The addresses of a list of headers can all be taken. -/
theorem mapM_plus_zero (hs : List Header) :
    (hs.map Header.cell).mapM (Cell.plus · 0) = .ok (hs.map fun h => (h.addr : Int)) := by
  induction hs with
  | nil => rfl
  | cons h hs ih =>
    simp [List.mapM_cons, ih]

/-- The end of a word is the next header above it, or the end of memory. -/
theorem WellFormed.endOf_eq (hw : m.WellFormed hs) {header : Cell} {n : Int}
    (hn : header.number? = some n) :
    m.endOf header =
      .ok ((((hs.map fun h => (h.addr : Int)).filter (n < ·)).min?).getD m.here) := by
  have hplus : header.plus 0 = .ok n := by rw [plus_of_number hn, Int.add_zero]
  rw [endOf, hw.chain_eq, hplus, Outcome.ok_bind, mapM_plus_zero, Outcome.ok_bind]
  simp only [ChainEnd.reach, Outcome.ok_bind]
  cases ((hs.map fun h => (h.addr : Int)).filter (n < ·)).min? with
  | none => rfl
  | some next => rfl

/-- Every code field has a label. -/
theorem WellFormed.label_eq_ok (hw : m.WellFormed hs) (code : Int) :
    ∃ name, m.label code = .ok name := by
  rw [label, hw.headerOf_eq, Outcome.ok_bind]
  cases hfind : hs.find? fun h => (h.addr : Int) + 3 == code with
  | none => exact ⟨_, rfl⟩
  | some h =>
    obtain ⟨link, hh⟩ := hw.chained.hasHeader (List.mem_of_find?_eq_some hfind)
    exact ⟨_, hh.nameOf_eq⟩

end Memory

end ThreadedForth
