import ThreadedForth.Proofs.Memory.History

/-!
# Flags of a header

The flags of a header are sought in the cell behind its name, and any integer that stands there is
taken for them (`Memory.HasFlags`). So the flags of a header can be read and changed exactly if
there is such an integer, whether a header stands there or not (`changeFlags_eq_ok_iff`); else there
is a fault (`changeFlags_fails`).
-/

namespace ThreadedForth.Memory

variable {m m' : Memory} {header : Cell} {i : Nat} {a k : Int} {bits : Nat} {f : Nat → Nat}

/-- The flags of a header are sought in the cell at `i`, where the integer `k` stands. -/
structure HasFlags (m : Memory) (header : Cell) (i : Nat) (k : Int) : Prop where
  place : ∃ n, header.number? = some n ∧ n + 2 = i
  holds : ∃ x, m.cells[i]? = some x ∧ x.int? = some k

theorem HasFlags.get_eq (h : m.HasFlags header i k) :
    ∃ x, header.plus 2 = .ok (i : Int) ∧ m.get (.int i) = .ok x ∧ x.int? = some k := by
  obtain ⟨n, hn, hi⟩ := h.place
  obtain ⟨x, hx, hk⟩ := h.holds
  exact ⟨x, by rw [plus_of_number hn, hi], get_int_of_cell hx, hk⟩

theorem HasFlags.lt_here (h : m.HasFlags header i k) : i < m.here := by
  obtain ⟨x, hx, -⟩ := h.holds
  exact (Array.getElem?_eq_some_iff.mp hx).1

theorem HasFlags.append (h : m.HasFlags header i k) (x : Cell) :
    (m.append x).HasFlags header i k where
  place := h.place
  holds := by
    obtain ⟨y, hy, hk⟩ := h.holds
    refine ⟨y, ?_, hk⟩
    rw [append_eq_appendAll, getElem?_appendAll_of_lt [x] h.lt_here]
    exact hy

/-- Flags are sought in one place. -/
theorem HasFlags.unique {j : Nat} {l : Int} (h : m.HasFlags header i k)
    (h' : m.HasFlags header j l) : i = j ∧ k = l := by
  obtain ⟨n, hn, hi⟩ := h.place
  obtain ⟨n', hn', hj⟩ := h'.place
  obtain rfl : n = n' := Option.some.inj (hn.symm.trans hn')
  obtain rfl : i = j := by omega
  obtain ⟨x, hx, hk⟩ := h.holds
  obtain ⟨y, hy, hl⟩ := h'.holds
  obtain rfl : x = y := Option.some.inj (hx.symm.trans hy)
  exact ⟨rfl, Option.some.inj (hk.symm.trans hl)⟩

theorem HasFlags.flagsOf_eq (h : m.HasFlags header i k) :
    m.flagsOf header = .ok (k % 4).toNat := by
  obtain ⟨x, hplus, hget, hk⟩ := h.get_eq
  simp [flagsOf, hplus, hget, hk]

/-- If no flags are found, then because of a fault, if the header is an integer. -/
theorem flagsOf_fails (hint : header.int? = some a) (hno : ∀ i k, ¬ m.HasFlags header i k) :
    ∃ fault, m.flagsOf header = .error (.fault fault) ∧
      (fault = .outOfRange (.int (a + 2)) m.here ∨ ∃ x, fault = .noHeader header x) := by
  have hn : header.number? = some a := by
    cases header <;> simp_all [Cell.int?, Cell.number?]
  have hplus : header.plus 2 = .ok (a + 2) := plus_of_number hn 2
  by_cases hin : 0 ≤ a + 2 ∧ a + 2 < m.here
  · obtain ⟨i, hi⟩ := Int.eq_ofNat_of_zero_le hin.1
    have hlt : i < m.cells.size := by
      rw [hi] at hin
      exact_mod_cast hin.2
    have hx : m.cells[i]? = some m.cells[i] := Array.getElem?_eq_getElem hlt
    have hget : m.get (.int (a + 2)) = .ok m.cells[i] := by
      rw [hi]
      exact get_int_of_cell hx
    have hnone : m.cells[i].int? = none := by
      cases hk : m.cells[i].int? with
      | none => rfl
      | some k => exact absurd ⟨⟨a, hn, hi⟩, _, hx, hk⟩ (hno i k)
    exact ⟨.noHeader header m.cells[i], by simp [flagsOf, hplus, hget, hnone], .inr ⟨_, rfl⟩⟩
  · have hget : m.get (.int (a + 2)) = .error (.outOfRange (.int (a + 2)) m.here) := by
      rw [get, index]
      simp only [Cell.int?, Bool.and_eq_true, decide_eq_true_eq, hin, if_false]
      rfl
    exact ⟨_, by simp [flagsOf, hplus, hget], .inl rfl⟩

theorem flagsOf_eq_ok_iff :
    m.flagsOf header = .ok bits ↔ ∃ i k, m.HasFlags header i k ∧ bits = (k % 4).toNat := by
  constructor
  · intro h
    cases hn : header.number? with
    | none => simp [flagsOf, Cell.plus, hn] at h
    | some n =>
      cases hget : m.get (.int (n + 2)) with
      | error fault => simp [flagsOf, plus_of_number hn, hget] at h
      | ok x =>
        cases hk : x.int? with
        | none => simp [flagsOf, plus_of_number hn, hget, hk] at h
        | some k =>
          obtain ⟨i, hi, hx⟩ := get_eq_ok_iff.mp hget
          have hflags : m.HasFlags header i k := ⟨⟨n, hn, Option.some.inj hi⟩, x, hx, hk⟩
          rw [hflags.flagsOf_eq] at h
          exact ⟨i, k, hflags, (Except.ok.inj h).symm⟩
  · rintro ⟨i, k, hflags, rfl⟩
    exact hflags.flagsOf_eq

/-! ## Changing flags -/

theorem HasFlags.changeFlags_eq (h : m.HasFlags header i k) (f : Nat → Nat) :
    m.changeFlags header f = .ok (m.write i (.flags (f (k % 4).toNat))) := by
  obtain ⟨x, hplus, -⟩ := h.get_eq
  have hindex : m.index (.int i) = .ok i := index_eq_ok_iff.mpr ⟨rfl, h.lt_here⟩
  simp [changeFlags, h.flagsOf_eq, hplus, put, hindex]

/-- To change the flags of a header is to write over the integer that is taken for them. -/
theorem changeFlags_eq_ok_iff :
    m.changeFlags header f = .ok m' ↔
      ∃ i k, m.HasFlags header i k ∧ m' = m.write i (.flags (f (k % 4).toNat)) := by
  constructor
  · intro h
    cases hflags : m.flagsOf header with
    | error stop => simp [changeFlags, hflags] at h
    | ok bits =>
      obtain ⟨i, k, hhas, -⟩ := flagsOf_eq_ok_iff.mp hflags
      rw [hhas.changeFlags_eq] at h
      exact ⟨i, k, hhas, (Except.ok.inj h).symm⟩
  · rintro ⟨i, k, hhas, rfl⟩
    exact hhas.changeFlags_eq f

/-- If the flags of a header cannot be changed, then because of a fault, if the header is an
integer.
-/
theorem changeFlags_fails (hint : header.int? = some a) (hno : ∀ i k, ¬ m.HasFlags header i k)
    (f : Nat → Nat) :
    ∃ fault, m.changeFlags header f = .error (.fault fault) ∧
      (fault.kind = .cellType ∨ fault.kind = .address) := by
  obtain ⟨fault, hfails, hkind⟩ := flagsOf_fails hint hno
  refine ⟨fault, by simp [changeFlags, hfails], ?_⟩
  rcases hkind with rfl | ⟨x, rfl⟩
  · exact .inr rfl
  · exact .inl rfl

/-! ## Hidden headers -/

theorem isHidden_eq_ok_iff {hidden : Bool} :
    m.isHidden header = .ok hidden ↔
      ∃ i k, m.HasFlags header i k ∧ hidden = ((k % 4).toNat &&& Flags.hidden != 0) := by
  constructor
  · intro h
    cases hflags : m.flagsOf header with
    | error stop => simp [isHidden, hflags] at h
    | ok bits =>
      obtain ⟨i, k, hhas, rfl⟩ := flagsOf_eq_ok_iff.mp hflags
      simp only [isHidden, hflags, Outcome.ok_bind] at h
      exact ⟨i, k, hhas, (Except.ok.inj h).symm⟩
  · rintro ⟨i, k, hhas, rfl⟩
    simp [isHidden, hhas.flagsOf_eq]

/-- A header is hidden as long as the cell with its flags stays as it is. -/
theorem isHidden_of_cell {hidden : Bool} (h : m.isHidden header = .ok hidden)
    (hsame : ∀ i k, m.HasFlags header i k → m'.cells[i]? = m.cells[i]?) :
    m'.isHidden header = .ok hidden := by
  obtain ⟨i, k, hhas, hbit⟩ := isHidden_eq_ok_iff.mp h
  obtain ⟨x, hx, hk⟩ := hhas.holds
  exact isHidden_eq_ok_iff.mpr ⟨i, k, ⟨hhas.place, x, (hsame i k hhas).trans hx, hk⟩, hbit⟩

theorem isHidden_appendAll {hidden : Bool} (h : m.isHidden header = .ok hidden) (xs : List Cell) :
    (m.appendAll xs).isHidden header = .ok hidden :=
  isHidden_of_cell h fun _ _ hhas => getElem?_appendAll_of_lt xs hhas.lt_here

theorem isHidden_append {hidden : Bool} (h : m.isHidden header = .ok hidden) (x : Cell) :
    (m.append x).isHidden header = .ok hidden := by
  rw [append_eq_appendAll]
  exact isHidden_appendAll h [x]

/-- To turn the flag of immediate words round hides nothing and shows nothing. -/
theorem isHidden_of_immediate {other : Cell} {hidden : Bool} (h : m.isHidden header = .ok hidden)
    (hchange : m.changeFlags other (· ^^^ Flags.immediate) = .ok m') :
    m'.isHidden header = .ok hidden := by
  obtain ⟨j, l, hother, rfl⟩ := changeFlags_eq_ok_iff.mp hchange
  obtain ⟨i, k, hhas, hbit⟩ := isHidden_eq_ok_iff.mp h
  by_cases hij : j = i
  · subst hij
    obtain ⟨x, hx, hk⟩ := hhas.holds
    obtain ⟨y, hy, hl⟩ := hother.holds
    obtain rfl : x = y := Option.some.inj (hx.symm.trans hy)
    obtain rfl : k = l := Option.some.inj (hk.symm.trans hl)
    have hcell : (m.write j (.flags ((k % 4).toNat ^^^ Flags.immediate))).cells[j]? =
        some (.flags ((k % 4).toNat ^^^ Flags.immediate)) := getElem?_write_self _ hhas.lt_here
    refine isHidden_eq_ok_iff.mpr ⟨j, _, ⟨hhas.place, _, hcell, rfl⟩, ?_⟩
    have hall : ∀ b < 4, (b &&& Flags.hidden != 0) =
        ((((b ^^^ Flags.immediate : Nat) : Int) % 4).toNat &&& Flags.hidden != 0) := by decide
    rw [hbit]
    exact hall _ (by omega)
  · refine isHidden_of_cell h fun i' k' hhas' => ?_
    obtain ⟨rfl, -⟩ := hhas'.unique hhas
    exact getElem?_write_of_ne _ hij

/-- A header can be hidden that is not hidden yet. -/
theorem isHidden_of_hide (h : m.isHidden header = .ok false)
    (hchange : m.changeFlags header (· ^^^ Flags.hidden) = .ok m') :
    m'.isHidden header = .ok true := by
  obtain ⟨i, k, hhas, rfl⟩ := changeFlags_eq_ok_iff.mp hchange
  obtain ⟨j, l, hhas', hbit⟩ := isHidden_eq_ok_iff.mp h
  obtain ⟨rfl, rfl⟩ := hhas'.unique hhas
  have hcell : (m.write j (.flags ((l % 4).toNat ^^^ Flags.hidden))).cells[j]? =
      some (.flags ((l % 4).toNat ^^^ Flags.hidden)) := getElem?_write_self _ hhas.lt_here
  refine isHidden_eq_ok_iff.mpr ⟨j, _, ⟨hhas.place, _, hcell, rfl⟩, ?_⟩
  have hall : ∀ b < 4, false = (b &&& Flags.hidden != 0) →
      true = ((((b ^^^ Flags.hidden : Nat) : Int) % 4).toNat &&& Flags.hidden != 0) := by decide
  exact hall _ (by omega) hbit

/-- A header can be revealed, whether it is hidden or not. -/
theorem isHidden_of_reveal (h : m.HasFlags header i k) :
    (m.write i (.flags (Bits.without (k % 4).toNat Flags.hidden))).isHidden header = .ok false := by
  have hcell : (m.write i (.flags (Bits.without (k % 4).toNat Flags.hidden))).cells[i]? =
      some (.flags (Bits.without (k % 4).toNat Flags.hidden)) := getElem?_write_self _ h.lt_here
  refine isHidden_eq_ok_iff.mpr ⟨i, _, ⟨h.place, _, hcell, rfl⟩, ?_⟩
  have hall : ∀ b < 4, false =
      ((((Bits.without b Flags.hidden : Nat) : Int) % 4).toNat &&& Flags.hidden != 0) := by decide
  exact hall _ (by omega)

end ThreadedForth.Memory
