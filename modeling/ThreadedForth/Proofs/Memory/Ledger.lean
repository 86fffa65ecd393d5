import ThreadedForth.Proofs.Memory.Growth

/-!
# A ledger at the end of memory

Words that keep a value, variables and constants, as a list (`Ledger`), newest first, and the memory
that holds them behind all that was there (`Memory.withEntries`). A search by name finds the newest
entry with that name (`WellFormed.find_withEntries`); each entry has cells of its own
(`Memory.Lays.apart`), so that to write to a variable is to change one entry, and nothing else
(`Lays.write_withEntries`).
-/

namespace ThreadedForth

/-- What a word does with the value that it keeps: a variable gives its address, and a constant the
value. -/
inductive Keeper
  | cell | constant
  deriving DecidableEq

/-- A word that keeps a value. -/
structure LedgerEntry where
  name : String
  header : Nat
  keeper : Keeper
  value : Cell
  deriving DecidableEq

namespace LedgerEntry

/-- The code field of the word, and what follows it. -/
def cells (e : LedgerEntry) : List Cell :=
  match e.keeper with
  | .cell => [.native .variable, e.value]
  | .constant => [.native .enter, Kernel.litToken, e.value, Kernel.exitToken]

/-- The address of the cell that holds the value of a variable. -/
def address (e : LedgerEntry) : Nat := e.header + 4

/-- What the word pushes. -/
def pushed (e : LedgerEntry) : Cell :=
  match e.keeper with
  | .cell => .int e.address
  | .constant => e.value

/-- Whether a name is that of the word, whatever the case of its letters. -/
def answers (name : String) (e : LedgerEntry) : Bool := Text.upper e.name = Text.upper name

variable {name : String} {e : LedgerEntry}

theorem answers_iff : e.answers name = true ↔ Text.upper e.name = Text.upper name :=
  decide_eq_true_iff

@[simp] theorem answers_with_value (x : Cell) :
    { e with value := x }.answers name = e.answers name := rfl

/-- Another value takes as many cells. -/
@[simp] theorem length_cells_with_value (x : Cell) :
    ({ e with value := x } : LedgerEntry).cells.length = e.cells.length := by
  cases hkeeper : e.keeper <;> simp [cells, hkeeper]

/-- The value of a variable is the cell behind its code field. -/
theorem set_cells (h : e.keeper = .cell) (x : Cell) :
    e.cells.set 1 x = ({ e with value := x } : LedgerEntry).cells := by
  simp [cells, h]

theorem length_cells_of_cell (h : e.keeper = .cell) : e.cells.length = 2 := by
  simp [cells, h]

end LedgerEntry

/-- Words that keep values, newest first. -/
abbrev Ledger := List LedgerEntry

namespace Ledger

/-- The newest entry with a name. -/
def newest? (es : Ledger) (name : String) : Option LedgerEntry :=
  es.find? (LedgerEntry.answers name)

/-- The entries, with another value in the newest one that has this name. -/
def update (name : String) (x : Cell) : Ledger → Ledger
  | [] => []
  | e :: es => if e.answers name then { e with value := x } :: es else e :: update name x es

end Ledger

namespace Memory

/-- The memory with the words of these entries at its end. -/
def withEntries (m : Memory) : Ledger → Memory
  | [] => m
  | e :: es => (m.withEntries es).addWord e.name e.cells

/-- The headers of the entries are where their words lie. -/
def Lays (m : Memory) : Ledger → Prop
  | [] => True
  | e :: es => e.header = (m.withEntries es).here ∧ m.Lays es

end Memory

variable {m : Memory} {hs : List Header} {name other : String} {e : LedgerEntry} {es : Ledger}
  {x : Cell}

/-! ## Names -/

namespace Ledger

theorem mem_of_newest? (h : es.newest? name = some e) : e ∈ es := List.mem_of_find?_eq_some h

theorem upper_of_newest? (h : es.newest? name = some e) : Text.upper e.name = Text.upper name :=
  LedgerEntry.answers_iff.mp (List.find?_some h)

theorem newest?_cons_of_pos (es : Ledger) (h : e.answers name = true) :
    Ledger.newest? (e :: es) name = some e := List.find?_cons_of_pos h

theorem newest?_cons_of_neg (es : Ledger) (h : e.answers name = false) :
    Ledger.newest? (e :: es) name = es.newest? name := List.find?_cons_of_neg (by simp [h])

/-- What was put into the newest entry with a name is there. -/
theorem newest?_update_self (h : es.newest? name = some e) (x : Cell) :
    (es.update name x).newest? name = some { e with value := x } := by
  induction es with
  | nil => cases h
  | cons e' es ih =>
    cases hanswers : e'.answers name with
    | true =>
      obtain rfl := Option.some.inj ((newest?_cons_of_pos es hanswers).symm.trans h)
      rw [update, if_pos hanswers]
      exact newest?_cons_of_pos es hanswers
    | false =>
      rw [update, if_neg (by simp [hanswers]), newest?_cons_of_neg _ hanswers]
      exact ih ((newest?_cons_of_neg es hanswers).symm.trans h)

/-- The entries with other names stay. -/
theorem newest?_update_of_ne (es : Ledger) (x : Cell) (hname : Text.upper other ≠ Text.upper name) :
    (es.update name x).newest? other = es.newest? other := by
  induction es with
  | nil => rfl
  | cons e es ih =>
    rw [update]
    split
    · next hanswers =>
      have hpass : e.answers other = false := by
        simpa [LedgerEntry.answers, LedgerEntry.answers_iff.mp hanswers] using Ne.symm hname
      have hpass' : ({ e with value := x } : LedgerEntry).answers other = false := hpass
      rw [newest?_cons_of_neg _ hpass, newest?_cons_of_neg _ hpass']
    · cases hanswers : e.answers other with
      | true => rw [newest?_cons_of_pos _ hanswers, newest?_cons_of_pos _ hanswers]
      | false => rw [newest?_cons_of_neg _ hanswers, newest?_cons_of_neg _ hanswers, ih]

/-- An entry stays, with its value or another one. -/
theorem mem_update (name : String) (x : Cell) (he : e ∈ es) :
    ∃ y, { e with value := y } ∈ es.update name x := by
  induction es with
  | nil => cases he
  | cons e' es ih =>
    rw [update]
    rcases List.mem_cons.mp he with rfl | he
    · split
      · exact ⟨x, List.mem_cons_self ..⟩
      · exact ⟨e.value, List.mem_cons_self ..⟩
    · split
      · exact ⟨e.value, List.mem_cons_of_mem _ he⟩
      · obtain ⟨y, he'⟩ := ih he
        exact ⟨y, List.mem_cons_of_mem _ he'⟩

/-- The names of the entries stay. -/
theorem map_name_update (es : Ledger) (name : String) (x : Cell) :
    (es.update name x).map LedgerEntry.name = es.map LedgerEntry.name := by
  induction es with
  | nil => rfl
  | cons e es ih =>
    rw [update]
    split
    · rfl
    · rw [List.map_cons, List.map_cons, ih]

end Ledger

namespace Memory

/-! ## Where the words lie -/

theorem here_withEntries_update :
    (m.withEntries (es.update name x)).here = (m.withEntries es).here := by
  induction es with
  | nil => rfl
  | cons e es ih =>
    rw [Ledger.update]
    split
    · simp [withEntries]
    · simp [withEntries, ih]

theorem Lays.update (h : m.Lays es) : m.Lays (es.update name x) := by
  induction es with
  | nil => exact h
  | cons e es ih =>
    obtain ⟨hheader, hlater⟩ := h
    rw [Ledger.update]
    split
    · exact ⟨hheader, hlater⟩
    · exact ⟨hheader.trans here_withEntries_update.symm, ih hlater⟩

/-- The words lie behind all that was there. -/
theorem here_le_withEntries (es : Ledger) : m.here ≤ (m.withEntries es).here := by
  induction es with
  | nil => exact Nat.le_refl _
  | cons e es ih =>
    rw [withEntries, here_addWord]
    omega

theorem Lays.here_le_header (h : m.Lays es) (he : e ∈ es) : m.here ≤ e.header := by
  induction es with
  | nil => cases he
  | cons e' es ih =>
    rcases List.mem_cons.mp he with rfl | he
    · rw [h.1]
      exact here_le_withEntries es
    · exact ih h.2 he

theorem Lays.end_le (h : m.Lays es) (he : e ∈ es) :
    e.header + 3 + e.cells.length ≤ (m.withEntries es).here := by
  induction es with
  | nil => cases he
  | cons e' es ih =>
    rw [withEntries, here_addWord]
    rcases List.mem_cons.mp he with rfl | he
    · rw [h.1]
    · have hend := ih h.2 he
      omega

/-- Each word ends before the next one begins. -/
theorem Lays.apart (h : m.Lays es) :
    es.Pairwise fun newer older => older.header + 3 + older.cells.length ≤ newer.header := by
  induction es with
  | nil => exact .nil
  | cons e es ih => exact .cons (fun older ho => h.1 ▸ h.2.end_le ho) (ih h.2)

/-! ## The dictionary -/

theorem WellFormed.withEntries (hw : m.WellFormed hs) (es : Ledger) :
    ∃ hs', (m.withEntries es).WellFormed hs' := by
  induction es with
  | nil => exact ⟨hs, hw⟩
  | cons e es ih =>
    obtain ⟨hs', hw'⟩ := ih
    exact ⟨_, hw'.addWord e.name e.cells⟩

theorem WellFormed.extends_withEntries (hw : m.WellFormed hs) (es : Ledger) :
    (m.withEntries es).Extends m := by
  induction es with
  | nil => exact hw.extends_self
  | cons e es ih =>
    obtain ⟨hs', hw'⟩ := hw.withEntries es
    exact (hw'.extends_addWord e.name e.cells).trans ih

/-- The cells that were there stay. -/
theorem getElem?_withEntries_of_lt (es : Ledger) {i : Nat} (hi : i < m.here) :
    (m.withEntries es).cells[i]? = m.cells[i]? := by
  induction es with
  | nil => rfl
  | cons e es ih =>
    exact (getElem?_addWord_of_lt _ _ (hi.trans_le (here_le_withEntries es))).trans ih

/-- A search by name finds the newest entry, or what was found before. -/
theorem WellFormed.find_withEntries (hw : m.WellFormed hs) (hlays : m.Lays es) (name : String) :
    (m.withEntries es).find name = match es.newest? name with
      | some e => .ok (some (.int e.header))
      | none => m.find name := by
  induction es with
  | nil => rfl
  | cons e es ih =>
    obtain ⟨hs', hw'⟩ := hw.withEntries es
    obtain ⟨hheader, hlater⟩ := hlays
    cases hanswers : e.answers name with
    | true =>
      rw [Ledger.newest?_cons_of_pos es hanswers]
      show _ = Except.ok (some (Cell.int e.header))
      rw [hheader]
      exact hw'.find_addWord _ (LedgerEntry.answers_iff.mp hanswers).symm
    | false =>
      rw [Ledger.newest?_cons_of_neg es hanswers]
      have hne : Text.upper name ≠ Text.upper e.name := by
        simpa [LedgerEntry.answers, eq_comm] using hanswers
      exact (hw'.find_addWord_of_ne _ hne).trans (ih hlater)

/-- The code field and the value of each entry stand behind its header. -/
theorem WellFormed.hasCode_withEntries (hw : m.WellFormed hs) (hlays : m.Lays es) (he : e ∈ es) :
    (m.withEntries es).HasCode (e.header + headerSize) e.cells := by
  induction es with
  | nil => cases he
  | cons e' es ih =>
    obtain ⟨hs', hw'⟩ := hw.withEntries es
    rcases List.mem_cons.mp he with rfl | he
    · rw [hlays.1]
      exact hasCode_addWord _ _ _
    · exact (hw'.extends_addWord _ _).hasCode (ih hlays.2 he)

/-! ## Writing to a variable -/

/-- **To write to a variable is to change its value**, and no other cell. -/
theorem Lays.write_withEntries (hlays : m.Lays es) (hentry : es.newest? name = some e)
    (hcell : e.keeper = .cell) (x : Cell) :
    (m.withEntries es).write e.address x = m.withEntries (es.update name x) := by
  induction es with
  | nil => cases hentry
  | cons e' es ih =>
    obtain ⟨hheader, hlater⟩ := hlays
    cases hanswers : e'.answers name with
    | true =>
      obtain rfl := Option.some.inj ((Ledger.newest?_cons_of_pos es hanswers).symm.trans hentry)
      have haddress : e'.address = (m.withEntries es).here + 3 + 1 := by
        rw [LedgerEntry.address, hheader]
      rw [withEntries, haddress, write_addWord, LedgerEntry.set_cells hcell, Ledger.update,
        if_pos hanswers]
      rfl
    | false =>
      have hentry' := (Ledger.newest?_cons_of_neg es hanswers).symm.trans hentry
      have hend := hlater.end_le (Ledger.mem_of_newest? hentry')
      rw [LedgerEntry.length_cells_of_cell hcell] at hend
      have hlt : e.address < (m.withEntries es).here := by
        rw [LedgerEntry.address]
        omega
      rw [withEntries, write_addWord_of_lt _ _ _ hlt, ih hlater hentry', Ledger.update,
        if_neg (by simp [hanswers])]
      rfl

end Memory

end ThreadedForth
