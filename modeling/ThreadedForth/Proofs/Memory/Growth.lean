import Mathlib.Data.List.Find
import ThreadedForth.Proofs.Memory.Code
import ThreadedForth.Proofs.Memory.History

/-!
# A word at the end of memory

What memory looks like while a word is defined: the header of the word, its code field and the cells
that were compiled stand behind all that was there (`Memory.withWord`). What could be read before
reads the same, and every code field has a label (`Memory.Extends`). As long as the header is
hidden, a search by name finds what it found before (`WellFormed.find_withWord_hidden`).
-/

namespace ThreadedForth.Memory

variable {m m' m₀ : Memory} {hs : List Header} {name : String} {flags : Nat} {cells : List Cell}
  {addr : Int}

/-! ## Extending a memory -/

/-- What can be read in one memory reads the same in another, where every code field has a label. -/
structure Extends (m m₀ : Memory) : Prop where
  retains : ∀ addr x, m₀.get addr = .ok x → m.get addr = .ok x
  labelled : ∀ code, ∃ name, m.label code = .ok name

theorem WellFormed.extends_self (hw : m.WellFormed hs) : m.Extends m :=
  ⟨fun _ _ hx => hx, hw.label_eq_ok⟩

theorem Extends.trans {m₁ : Memory} (h : m.Extends m₁) (h' : m₁.Extends m₀) : m.Extends m₀ :=
  ⟨fun addr x hx => h.retains addr x (h'.retains addr x hx), h.labelled⟩

theorem Extends.hasCode (h : m.Extends m₀) {xs : List Cell} (hc : m₀.HasCode addr xs) :
    m.HasCode addr xs := hc.of_retains h.retains

theorem Extends.isImmediate (h : m.Extends m₀) {header : Cell} {immediate : Bool}
    (hi : m₀.isImmediate header = .ok immediate) : m.isImmediate header = .ok immediate := by
  cases hplus : header.plus 2 with
  | error stop => simp [Memory.isImmediate, flagsOf, hplus] at hi
  | ok addr =>
    cases hget : m₀.get (.int addr) with
    | error f => simp [Memory.isImmediate, flagsOf, hplus, hget] at hi
    | ok x =>
      have hget' := h.retains _ _ hget
      simp only [Memory.isImmediate, flagsOf, hplus, hget, Outcome.ok_bind, Outcome.liftM_ok] at hi
      simp only [Memory.isImmediate, flagsOf, hplus, hget', Outcome.ok_bind, Outcome.liftM_ok]
      exact hi

theorem get_appendAll_of_get (m : Memory) (xs : List Cell) {addr x : Cell}
    (hx : m.get addr = .ok x) : (m.appendAll xs).get addr = .ok x := by
  obtain ⟨i, hi, hcell⟩ := get_eq_ok_iff.mp hx
  have hlt : i < m.here := (Array.getElem?_eq_some_iff.mp hcell).1
  exact get_eq_ok_iff.mpr ⟨i, hi, (getElem?_appendAll_of_lt _ hlt).trans hcell⟩

/-- The cells that are put at the end of memory stand there. -/
theorem hasCode_appendAll (m : Memory) (xs : List Cell) : (m.appendAll xs).HasCode m.here xs := by
  induction xs generalizing m with
  | nil => trivial
  | cons x xs ih =>
    have hfirst : (m.append x).get (.int m.here) = .ok x :=
      get_eq_ok_iff.mpr ⟨m.here, by simp [Cell.int?], by simp [append, here]⟩
    have hsplit : m.appendAll (x :: xs) = (m.append x).appendAll xs := by
      rw [append_eq_appendAll, appendAll_appendAll, List.singleton_append]
    have hhere : ((m.append x).here : Int) = m.here + 1 := by simp [append, here]
    rw [hsplit]
    exact ⟨get_appendAll_of_get _ xs hfirst, hhere ▸ ih (m.append x)⟩

/-! ## The word and its cells -/

/-- The cell that links to the newest header. -/
def link (m : Memory) : Cell :=
  match m.latest with
  | none => .absent
  | some h => .int h

/-- The memory with a new word at its end: a header, the code field of a word that runs a body, and
these cells. -/
def withWord (m : Memory) (name : String) (flags : Nat) (cells : List Cell) : Memory :=
  { m.appendAll (m.link :: .text (Text.upper name) :: .flags flags :: .native .enter :: cells) with
    latest := some m.here }

@[simp] theorem here_withWord (m : Memory) (name : String) (flags : Nat) (cells : List Cell) :
    (m.withWord name flags cells).here = m.here + 4 + cells.length := by
  have hlength : (m.withWord name flags cells).here = m.here + (cells.length + 4) :=
    here_appendAll m _
  omega

/-- A word begins with its header and the code field. -/
theorem allocateHeader_appendAll (m : Memory) (name : String) (flags : Nat) (cells : List Cell) :
    (m.allocateHeader name flags).appendAll (.native .enter :: cells) =
      m.withWord name flags cells := by
  cases hlatest : m.latest <;> simp [allocateHeader, withWord, appendAll, link, hlatest]

/-- What is put at the end of memory belongs to the word. -/
theorem appendAll_withWord (m : Memory) (xs : List Cell) :
    (m.withWord name flags cells).appendAll xs = m.withWord name flags (cells ++ xs) := by
  simp [withWord, appendAll]

theorem append_withWord (m : Memory) (x : Cell) :
    (m.withWord name flags cells).append x = m.withWord name flags (cells ++ [x]) := by
  rw [append_eq_appendAll, appendAll_withWord]

/-- A cell of the word is overwritten. -/
theorem write_withWord (m : Memory) {j : Nat} (x : Cell) :
    (m.withWord name flags cells).write (m.here + 4 + j) x =
      m.withWord name flags (cells.set j x) := by
  have hindex : m.here + 4 + j - m.cells.size = j + 4 := by rw [here]; omega
  have hle : m.cells.size ≤ m.here + 4 + j := by rw [here]; omega
  simp [write, withWord, appendAll, Array.setIfInBounds_append_right hle, hindex]

/-- The flags of the word are overwritten. -/
theorem write_flags_withWord (m : Memory) (bits : Nat) :
    (m.withWord name flags cells).write (m.here + 2) (.flags bits) =
      m.withWord name bits cells := by
  have hindex : m.here + 2 - m.cells.size = 2 := by rw [here]; omega
  have hle : m.cells.size ≤ m.here + 2 := by rw [here]; omega
  simp [write, withWord, appendAll, Array.setIfInBounds_append_right hle, hindex]

/-! ## The dictionary -/

theorem WellFormed.link_eq (hw : m.WellFormed hs) : m.link = linkTo hs := by
  rw [link, hw.latest]
  cases hs <;> rfl

/-- The new word is the newest one. -/
theorem WellFormed.withWord (hw : m.WellFormed hs) (name : String) (hf : flags ≤ Flags.named)
    (cells : List Cell) :
    (m.withWord name flags cells).WellFormed (⟨m.here, Text.upper name⟩ :: hs) := by
  rw [Memory.withWord, hw.link_eq]
  exact hw.addHeader (Text.upper name) hf _

theorem WellFormed.extends_allocateHeader (hw : m.WellFormed hs) (name : String)
    (hf : flags ≤ Flags.named) : (m.allocateHeader name flags).Extends m where
  retains _ _ hx := get_appendAll_of_get m _ hx
  labelled := (hw.allocateHeader name hf).label_eq_ok

theorem WellFormed.extends_withWord (hw : m.WellFormed hs) (name : String)
    (hf : flags ≤ Flags.named) (cells : List Cell) : (m.withWord name flags cells).Extends m where
  retains _ _ hx := get_appendAll_of_get m _ hx
  labelled := (hw.withWord name hf cells).label_eq_ok

theorem flagsAt_withWord (m : Memory) (name : String) (flags : Nat) (cells : List Cell) :
    (m.withWord name flags cells).flagsAt (m.here + 2) = flags := by
  have hcell : (m.withWord name flags cells).cells[m.here + 2]? = some (.flags flags) :=
    getElem?_appendAll_here m _ 2
  rw [flagsAt, hcell]

/-- The flags of the new word can be changed. -/
theorem WellFormed.changeFlags_withWord (hw : m.WellFormed hs) (hf : flags ≤ Flags.named)
    (f : Nat → Nat) :
    (m.withWord name flags cells).changeFlags (.int m.here) f =
      .ok (m.withWord name (f flags) cells) := by
  obtain ⟨link, hheader⟩ :=
    (hw.withWord name hf cells).chained.hasHeader (List.mem_cons_self ..)
  rw [hheader.changeFlags_eq rfl, flagsAt_withWord, write_flags_withWord]

/-- A search by name passes over the new word if the word is hidden or has another name. -/
theorem WellFormed.find_withWord (hw : m.WellFormed hs) (hf : flags ≤ Flags.named) (name : String)
    (cells : List Cell) {sought : String}
    (hpass : Text.upper sought ≠ Text.upper name ∨ flags &&& Flags.hidden ≠ 0) :
    (m.withWord name flags cells).find sought = m.find sought := by
  have hnew : (m.withWord name flags cells).answersTo sought ⟨m.here, Text.upper name⟩ =
      false := by
    rw [answersTo, flagsAt_withWord]
    rcases hpass with hname | hhidden
    · simp [Ne.symm hname]
    · simp [hhidden]
  -- the others are as they were
  have hold : ∀ h ∈ hs, (m.withWord name flags cells).answersTo sought h =
      m.answersTo sought h := by
    intro h hh
    have hend := hw.chained.end_le hh
    have hcell : (m.withWord name flags cells).cells[h.addr + 2]? = m.cells[h.addr + 2]? :=
      getElem?_appendAll_of_lt _ (by omega)
    rw [answersTo, answersTo, flagsAt, flagsAt, hcell]
  rw [(hw.withWord name hf cells).find_eq, hw.find_eq, List.find?_cons_of_neg (by simp [hnew]),
    List.find?_congr hold]

/-- While the new word is hidden, a search by name finds what it found before. -/
theorem WellFormed.find_withWord_hidden (hw : m.WellFormed hs) (hf : flags ≤ Flags.named)
    (hhidden : flags &&& Flags.hidden ≠ 0) (name : String) (cells : List Cell) (sought : String) :
    (m.withWord name flags cells).find sought = m.find sought :=
  hw.find_withWord hf name cells (.inr hhidden)

/-- The new word is found by its name, unless it is hidden. -/
theorem WellFormed.find_withWord_self (hw : m.WellFormed hs) (hf : flags ≤ Flags.named)
    (hvisible : flags &&& Flags.hidden = 0) (name : String) (cells : List Cell) :
    (m.withWord name flags cells).find name = .ok (some (.int m.here)) := by
  have hnew : (m.withWord name flags cells).answersTo name ⟨m.here, Text.upper name⟩ = true := by
    rw [answersTo, flagsAt_withWord, hvisible]
    simp
  rw [(hw.withWord name hf cells).find_eq, List.find?_cons_of_pos hnew]
  rfl

/-- The new word lasts up to the end of memory. -/
theorem WellFormed.endOf_withWord (hw : m.WellFormed hs) (hf : flags ≤ Flags.named)
    (name : String) (cells : List Cell) :
    (m.withWord name flags cells).endOf (.int m.here) =
      .ok (m.withWord name flags cells).here := by
  have hnone : (((⟨m.here, Text.upper name⟩ :: hs).map fun h => (h.addr : Int)).filter
      ((m.here : Int) < ·)) = [] := by
    rw [List.filter_eq_nil_iff]
    intro a ha
    obtain ⟨h, hh, rfl⟩ := List.mem_map.mp ha
    have hle : h.addr ≤ m.here := by
      rcases List.mem_cons.mp hh with rfl | hh
      · exact Nat.le_refl _
      · exact Nat.le_of_add_right_le (hw.chained.end_le hh)
    simpa using hle
  rw [(hw.withWord name hf cells).endOf_eq rfl, hnone]
  rfl

/-- The cells of the new word are what stands behind its code field. -/
theorem range_withWord (m : Memory) (name : String) (flags : Nat) (cells : List Cell) :
    (m.withWord name flags cells).range (m.here + 4) (m.withWord name flags cells).here =
      cells := by
  simp [range, withWord, appendAll, here]

/-- The code field of the new word. -/
theorem get_code_withWord (m : Memory) (name : String) (flags : Nat) (cells : List Cell) :
    (m.withWord name flags cells).get (.int (m.here + headerSize)) = .ok (.native .enter) :=
  get_int_add_of_cell (getElem?_appendAll_here m _ 3)

/-! ## A whole word -/

/-- The memory with a new word at its end that can be seen: a header, and these cells, of which the
first is the code field. -/
def addWord (m : Memory) (name : String) (cells : List Cell) : Memory :=
  (m.allocateHeader name 0).appendAll cells

theorem here_allocateHeader (m : Memory) (name : String) (flags : Nat) :
    (m.allocateHeader name flags).here = m.here + 3 :=
  here_appendAll m _

@[simp] theorem here_addWord (m : Memory) (name : String) (cells : List Cell) :
    (m.addWord name cells).here = m.here + 3 + cells.length := by
  rw [addWord, here_appendAll, here_allocateHeader]

/-- The new word is the newest one. -/
theorem WellFormed.addWord (hw : m.WellFormed hs) (name : String) (cells : List Cell) :
    (m.addWord name cells).WellFormed (⟨m.here, Text.upper name⟩ :: hs) :=
  (hw.allocateHeader name (by decide)).appendAll _

theorem getElem?_addWord_of_lt (name : String) (cells : List Cell) {i : Nat} (hi : i < m.here) :
    (m.addWord name cells).cells[i]? = m.cells[i]? := by
  have hlt : i < (m.allocateHeader name 0).here := by
    rw [here_allocateHeader]
    omega
  exact (getElem?_appendAll_of_lt _ hlt).trans (getElem?_appendAll_of_lt _ hi)

theorem WellFormed.extends_addWord (hw : m.WellFormed hs) (name : String) (cells : List Cell) :
    (m.addWord name cells).Extends m where
  retains _ _ hx := get_appendAll_of_get _ _ (get_appendAll_of_get m _ hx)
  labelled := (hw.addWord name cells).label_eq_ok

/-- The code field and the body of the new word stand behind its header. -/
theorem hasCode_addWord (m : Memory) (name : String) (cells : List Cell) :
    (m.addWord name cells).HasCode (m.here + headerSize) cells := by
  have hcode := hasCode_appendAll (m.allocateHeader name 0) cells
  rw [here_allocateHeader] at hcode
  exact_mod_cast hcode

/-- The flags of the new word are clear. -/
theorem flagsAt_addWord (m : Memory) (name : String) (cells : List Cell) :
    (m.addWord name cells).flagsAt (m.here + 2) = 0 := by
  have hcell : (m.addWord name cells).cells[m.here + 2]? = some (.flags 0) := by
    have hlt : m.here + 2 < (m.allocateHeader name 0).here := by
      rw [here_allocateHeader]
      omega
    exact (getElem?_appendAll_of_lt _ hlt).trans (getElem?_appendAll_here m _ 2)
  rw [flagsAt, hcell]

section Search

variable {sought : String}

/-- The new word is found by its name. -/
theorem WellFormed.find_addWord (hw : m.WellFormed hs) (cells : List Cell)
    (hname : Text.upper sought = Text.upper name) :
    (m.addWord name cells).find sought = .ok (some (.int m.here)) := by
  have hnew : (m.addWord name cells).answersTo sought ⟨m.here, Text.upper name⟩ = true := by
    rw [answersTo, flagsAt_addWord, hname]
    simp
  rw [(hw.addWord name cells).find_eq, List.find?_cons_of_pos hnew]
  rfl

/-- By another name what was found before is found. -/
theorem WellFormed.find_addWord_of_ne (hw : m.WellFormed hs) (cells : List Cell)
    (hname : Text.upper sought ≠ Text.upper name) :
    (m.addWord name cells).find sought = m.find sought := by
  have hnew : (m.addWord name cells).answersTo sought ⟨m.here, Text.upper name⟩ = false := by
    simp [answersTo, Ne.symm hname]
  have hold : ∀ h ∈ hs, (m.addWord name cells).answersTo sought h = m.answersTo sought h := by
    intro h hh
    have hend := hw.chained.end_le hh
    have hcell : (m.addWord name cells).cells[h.addr + 2]? = m.cells[h.addr + 2]? :=
      getElem?_addWord_of_lt name cells (by omega)
    rw [answersTo, answersTo, flagsAt, flagsAt, hcell]
  rw [(hw.addWord name cells).find_eq, hw.find_eq, List.find?_cons_of_neg (by simp [hnew]),
    List.find?_congr hold]

end Search

/-- The new word is not immediate. -/
theorem WellFormed.isImmediate_addWord (hw : m.WellFormed hs) (name : String) (cells : List Cell) :
    (m.addWord name cells).isImmediate (.int m.here) = .ok false := by
  obtain ⟨link, hheader⟩ := (hw.addWord name cells).chained.hasHeader (List.mem_cons_self ..)
  have himm := hheader.isImmediate_eq
  rw [flagsAt_addWord] at himm
  exact himm

/-- A cell before the new word is overwritten. -/
theorem write_addWord_of_lt (name : String) (cells : List Cell) {i : Nat} (x : Cell)
    (hi : i < m.here) : (m.addWord name cells).write i x = (m.write i x).addWord name cells := by
  have hsize : i < m.cells.size := hi
  simp only [addWord, allocateHeader, appendAll, write, here, Array.size_setIfInBounds,
    Array.append_assoc, Array.setIfInBounds_append_left hsize]

/-- A cell of the new word is overwritten. -/
theorem write_addWord (m : Memory) (name : String) (cells : List Cell) (j : Nat) (x : Cell) :
    (m.addWord name cells).write (m.here + 3 + j) x = m.addWord name (cells.set j x) := by
  have hle : (m.allocateHeader name 0).cells.size ≤ m.here + 3 + j := by
    have hhere := here_allocateHeader m name 0
    rw [here] at hhere
    omega
  have hindex : m.here + 3 + j - (m.allocateHeader name 0).cells.size = j := by
    have hhere := here_allocateHeader m name 0
    rw [here] at hhere
    omega
  simp [addWord, appendAll, write, Array.setIfInBounds_append_right hle, hindex]

end ThreadedForth.Memory
