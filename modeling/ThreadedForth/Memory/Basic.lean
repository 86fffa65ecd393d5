import ThreadedForth.Fault

/-!
# Memory

One growable array of cells for headers, threaded code and data. The cell at address zero is
reserved, so that no header has that address. Every access goes through `Memory.index`, which takes
integers in range for addresses and nothing else.
-/

namespace ThreadedForth

/-- The cells, and the newest header. -/
structure Memory where
  /-- the cells, from address zero -/
  cells : Array Cell
  /-- the address of the newest header, if there is one -/
  latest : Option Int

namespace Memory

/-- The memory of a machine without words. -/
def fresh : Memory := ⟨#[.int 0], none⟩

instance : Inhabited Memory := ⟨fresh⟩

/-- The first address past the cells. -/
def here (m : Memory) : Nat := m.cells.size

/-- The place that an address names. -/
def index (m : Memory) (addr : Cell) : Except Fault Nat :=
  match addr.int? with
  | some n => if 0 ≤ n && n < m.here then .ok n.toNat else .error (.outOfRange addr m.here)
  | none => .error (.outOfRange addr m.here)

/-- The cell at an address. -/
def get (m : Memory) (addr : Cell) : Except Fault Cell := do
  let i ← m.index addr
  return m.cells.getD i .absent

/-- The memory with another cell at a place. -/
def write (m : Memory) (i : Nat) (x : Cell) : Memory :=
  { m with cells := m.cells.setIfInBounds i x }

/-- The memory with another cell at an address. -/
def put (m : Memory) (addr x : Cell) : Except Fault Memory := do
  let i ← m.index addr
  return m.write i x

/-- The value at an address: a missing link reads as zero and flags read as an integer; a code field
is no value. -/
def fetch (m : Memory) (addr : Cell) : Except Fault Cell := do
  match ← m.get addr with
  | .absent => return .int 0
  | .flags bits => return .int bits
  | .native n => throw (.notValue (.native n) addr)
  | x => return x

/-- The memory with one more cell, whose address is the old `here`. -/
def append (m : Memory) (x : Cell) : Memory :=
  { m with cells := m.cells.push x }

/-- The memory with the cells of a list after its own. -/
def appendAll (m : Memory) (xs : List Cell) : Memory :=
  { m with cells := m.cells ++ xs.toArray }

/-- The memory with `delta` more cells that hold zero, or with as many fewer. The reserved cell
stays. -/
def resize (m : Memory) (delta : Int) : Memory :=
  if 0 ≤ delta then
    { m with cells := m.cells ++ Array.replicate delta.toNat (.int 0) }
  else
    { m with cells := m.cells.extract 0 (max 1 (m.here + delta)).toNat }

/-- The cells from one address up to another. -/
def range (m : Memory) (start stop : Nat) : List Cell :=
  (m.cells.extract start stop).toList

/-! ## What the operations do to the cells -/

@[simp] theorem here_append (m : Memory) (x : Cell) : (m.append x).here = m.here + 1 := by
  simp [here, append]

@[simp] theorem here_appendAll (m : Memory) (xs : List Cell) :
    (m.appendAll xs).here = m.here + xs.length := by
  simp [here, appendAll]

@[simp] theorem here_write (m : Memory) (i : Nat) (x : Cell) : (m.write i x).here = m.here := by
  simp [here, write]

/-- The addresses in range are the integers from zero to `here`. -/
theorem index_eq_ok_iff {m : Memory} {addr : Cell} {i : Nat} :
    m.index addr = .ok i ↔ addr.int? = some (i : Int) ∧ i < m.here := by
  unfold index
  cases addr.int? with
  | none => simp
  | some n =>
    by_cases h : 0 ≤ n ∧ n < m.here
    · simp only [h, decide_true, Bool.and_self, if_true, Except.ok.injEq, Option.some.injEq]
      omega
    · simp only [Bool.and_eq_true, decide_eq_true_eq, h, if_false, reduceCtorEq, Option.some.injEq,
        false_iff]
      omega

/-- The cells of a memory can be read at the addresses below `here`, and nowhere else. -/
theorem get_eq_ok_iff {m : Memory} {addr x : Cell} :
    m.get addr = .ok x ↔ ∃ i : Nat, addr.int? = some (i : Int) ∧ m.cells[i]? = some x := by
  cases hi : m.index addr with
  | error f =>
    refine ⟨fun h => ?_, fun ⟨i, hn, hx⟩ => ?_⟩
    · rw [get, hi] at h
      cases h
    · have hlt : i < m.here := (Array.getElem?_eq_some_iff.mp hx).1
      rw [index_eq_ok_iff.mpr ⟨hn, hlt⟩] at hi
      cases hi
  | ok i =>
    obtain ⟨hn, hlt⟩ := index_eq_ok_iff.mp hi
    have hget : m.get addr = .ok (m.cells.getD i .absent) := by rw [get, hi]; rfl
    have hcell : m.cells[i]? = some (m.cells.getD i .absent) := by
      rw [Array.getD_eq_getD_getElem?, Array.getElem?_eq_getElem hlt]
      rfl
    rw [hget]
    refine ⟨fun h => ⟨i, hn, by rw [hcell, Except.ok.inj h]⟩, fun ⟨j, hj, hx⟩ => ?_⟩
    obtain rfl : i = j := by rw [hn, Option.some.injEq] at hj; exact Int.ofNat.inj hj
    rw [hcell] at hx
    rw [Option.some.inj hx]

/-- A cell that is put at the end of memory is read back there. -/
theorem get_append_here (m : Memory) (x : Cell) : (m.append x).get (.int m.here) = .ok x :=
  get_eq_ok_iff.mpr ⟨m.here, rfl, by simp [append, here]⟩

/-- To put a cell at the end of memory changes no other cell. -/
theorem get_append_of_get {m : Memory} {addr x : Cell} (y : Cell) (h : m.get addr = .ok x) :
    (m.append y).get addr = .ok x := by
  obtain ⟨i, hn, hx⟩ := get_eq_ok_iff.mp h
  refine get_eq_ok_iff.mpr ⟨i, hn, ?_⟩
  obtain ⟨hlt, hi⟩ := Array.getElem?_eq_some_iff.mp hx
  rw [append, Array.getElem?_push_lt hlt, hi]

end Memory

end ThreadedForth
