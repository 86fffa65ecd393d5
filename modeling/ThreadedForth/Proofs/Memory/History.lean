import Mathlib.Data.List.Find
import ThreadedForth.Proofs.Memory.Chain

/-!
# Histories of a memory

Every memory that came about by edits which leave the headers alone has a well-formed dictionary.
An edit (`Memory.Edit`) allocates a header, appends a cell, grows or shrinks the memory, changes the
flags of a header or overwrites a cell; it is `Permitted` unless it would overwrite or cut off a
header. `Memory.History` relates a memory to the headers that were ever allocated in it.

* `WellFormed.apply` — one permitted edit keeps the dictionary well-formed.
* `History.dictionary` — what holds after any number of them.
-/

namespace ThreadedForth.Memory

variable {m : Memory} {h : Header} {hs : List Header} {link : Cell}

/-! ## What the operations do to the cells -/

theorem getElem?_appendAll_of_lt {i : Nat} (xs : List Cell) (hi : i < m.here) :
    (m.appendAll xs).cells[i]? = m.cells[i]? :=
  Array.getElem?_append_left hi

theorem getElem?_appendAll_here (m : Memory) (xs : List Cell) (k : Nat) :
    (m.appendAll xs).cells[m.here + k]? = xs[k]? := by
  simp [appendAll, here, Array.getElem?_append_right]

theorem getElem?_write_of_ne {i j : Nat} (x : Cell) (hij : i ≠ j) :
    (m.write i x).cells[j]? = m.cells[j]? := by
  simp [write, hij]

theorem getElem?_write_self {i : Nat} (x : Cell) (hi : i < m.here) :
    (m.write i x).cells[i]? = some x := by
  have hsize : i < m.cells.size := hi
  simp [write, hsize]

/-- To append one cell is to append a list of one. -/
theorem append_eq_appendAll (m : Memory) (x : Cell) : m.append x = m.appendAll [x] := by
  simp [append, appendAll]

@[simp] theorem appendAll_nil (m : Memory) : m.appendAll [] = m := by
  simp [appendAll]

theorem appendAll_appendAll (m : Memory) (xs ys : List Cell) :
    (m.appendAll xs).appendAll ys = m.appendAll (xs ++ ys) := by
  simp [appendAll]

/-- To grow a memory is to append zeros. -/
theorem resize_of_nonneg {delta : Int} (hd : 0 ≤ delta) :
    m.resize delta = m.appendAll (List.replicate delta.toNat (.int 0)) := by
  simp [resize, hd, appendAll]

theorem here_resize_of_neg {delta : Int} (hd : delta < 0) :
    ((m.resize delta).here : Int) = min (m.here : Int) (max 1 (m.here + delta)) := by
  have hnot : ¬ 0 ≤ delta := by omega
  simp only [resize, hnot, if_false, here, Array.size_extract]
  omega

theorem getElem?_resize_of_neg {delta : Int} {i : Nat} (hd : delta < 0)
    (hi : i < (m.resize delta).here) : (m.resize delta).cells[i]? = m.cells[i]? := by
  have hnot : ¬ 0 ≤ delta := by omega
  simp only [resize, hnot, if_false] at hi ⊢
  rw [here, Array.size_extract] at hi
  rw [Array.getElem?_extract, if_pos hi, Nat.zero_add]

/-! ## What the operations do to the dictionary -/

/-- To append cells changes nothing in the dictionary. -/
theorem WellFormed.appendAll (hw : m.WellFormed hs) (xs : List Cell) :
    (m.appendAll xs).WellFormed hs where
  reserved := by
    have := hw.reserved
    rw [here_appendAll]
    omega
  latest := hw.latest
  chained := hw.chained.transfer fun h hh link hl => hl.transfer fun k hk =>
    getElem?_appendAll_of_lt xs (by have := hl.end_le; omega)

theorem WellFormed.allocateHeader_eq (hw : m.WellFormed hs) (name : String) (flags : Nat) :
    m.allocateHeader name flags
      = { m.appendAll [linkTo hs, .text (Text.upper name), .flags flags] with
          latest := some m.here } := by
  rw [Memory.allocateHeader, hw.latest]
  cases hs <;> rfl

/-- A header and cells after it that are put at the end of memory. The header becomes the newest
one. -/
theorem WellFormed.addHeader (hw : m.WellFormed hs) (name : String) {flags : Nat}
    (hf : flags ≤ Flags.named) (xs : List Cell) :
    ({ m.appendAll (linkTo hs :: .text name :: .flags flags :: xs) with
        latest := some m.here } : Memory).WellFormed (⟨m.here, name⟩ :: hs) := by
  have happ := hw.appendAll (linkTo hs :: .text name :: .flags flags :: xs)
  have hnew := getElem?_appendAll_here m (linkTo hs :: .text name :: .flags flags :: xs)
  refine ⟨happ.reserved, rfl, .cons ?_ (fun g hg => hw.chained.end_le hg) ?_⟩
  · exact ⟨hw.reserved, hnew 0, hnew 1, flags, hf, hnew 2⟩
  · exact happ.chained.transfer fun h _ link hl => hl.transfer fun _ _ => rfl

/-- A new header becomes the newest one. -/
theorem WellFormed.allocateHeader (hw : m.WellFormed hs) (name : String) {flags : Nat}
    (hf : flags ≤ Flags.named) :
    (m.allocateHeader name flags).WellFormed (⟨m.here, Text.upper name⟩ :: hs) := by
  rw [hw.allocateHeader_eq]
  exact hw.addHeader (Text.upper name) hf []

/-- To overwrite a cell outside of all headers changes nothing in the dictionary. -/
theorem WellFormed.write (hw : m.WellFormed hs) {i : Nat} (x : Cell)
    (hout : ∀ h ∈ hs, i < h.addr ∨ h.addr + 3 ≤ i) : (m.write i x).WellFormed hs where
  reserved := by
    rw [here_write]
    exact hw.reserved
  latest := hw.latest
  chained := hw.chained.transfer fun h hh link hl => hl.transfer fun k hk =>
    getElem?_write_of_ne x (by have := hout h hh; omega)

/-- A search by name finds the same when a cell outside of the headers is overwritten. -/
theorem WellFormed.find_write (hw : m.WellFormed hs) {i : Nat} (x : Cell)
    (hout : ∀ h ∈ hs, i < h.addr ∨ h.addr + 3 ≤ i) (name : String) :
    (m.write i x).find name = m.find name := by
  have hkept : ∀ h ∈ hs, (m.write i x).answersTo name h = m.answersTo name h := by
    intro h hh
    have hapart := hout h hh
    rw [answersTo, answersTo, flagsAt, flagsAt, getElem?_write_of_ne _ (by omega)]
  rw [(hw.write x hout).find_eq, hw.find_eq, List.find?_congr hkept]

/-- To overwrite the flags of a header keeps the dictionary. -/
theorem WellFormed.write_flags (hw : m.WellFormed hs) (hh : h ∈ hs) {bits : Nat}
    (hb : bits ≤ Flags.named) : (m.write (h.addr + 2) (.flags bits)).WellFormed hs := by
  have hin : h.addr + 2 < m.here := by
    have := hw.chained.end_le hh
    omega
  refine ⟨by rw [here_write]; exact hw.reserved, hw.latest, hw.chained.transfer ?_⟩
  intro g hg link hl
  have hapart := hw.chained.apart hh hg
  refine ⟨hl.positive, ?_, ?_, ?_⟩
  · rw [getElem?_write_of_ne _ (by omega)]
    exact hl.link_cell
  · rw [getElem?_write_of_ne _ (by omega)]
    exact hl.name_cell
  · by_cases heq : h.addr = g.addr
    · rw [← heq]
      exact ⟨bits, hb, getElem?_write_self _ hin⟩
    · obtain ⟨bits', hle, hbits⟩ := hl.flags_cell
      refine ⟨bits', hle, ?_⟩
      rw [getElem?_write_of_ne _ (by omega)]
      exact hbits

/-- To shrink a memory down to the end of the newest header, or less far, keeps the dictionary. -/
theorem WellFormed.shrink (hw : m.WellFormed hs) {delta : Int} (hd : delta < 0)
    (hkeep : ∀ h ∈ hs, h.addr + 3 ≤ (m.resize delta).here) : (m.resize delta).WellFormed hs where
  reserved := by
    have hhere := here_resize_of_neg (m := m) hd
    have := hw.reserved
    omega
  latest := by
    rw [← hw.latest, resize]
    split <;> rfl
  chained := hw.chained.transfer fun h hh link hl => hl.transfer fun k hk =>
    getElem?_resize_of_neg hd (by have := hkeep h hh; omega)

/-- The flags of a header can be changed, whatever the change is. -/
theorem HasHeader.changeFlags_eq (hh : m.HasHeader h link) {header : Cell}
    (hn : header.number? = some (h.addr : Int)) (f : Nat → Nat) :
    m.changeFlags header f
      = .ok (m.write (h.addr + 2) (.flags (f (m.flagsAt (h.addr + 2))))) := by
  have hplus : ∀ d, header.plus d = h.cell.plus d := plus_of_number hn
  have hflags : m.flagsOf header = .ok (m.flagsAt (h.addr + 2)) := by
    rw [← hh.flagsOf_eq]
    obtain ⟨bits, -, hbits⟩ := hh.flags_cell
    have hget : m.get (.int (h.addr + 2)) = .ok (.flags bits) := get_int_add_of_cell hbits
    simp [flagsOf, hplus, hget, Cell.int?]
  have hindex : m.index (.int (h.addr + 2)) = .ok (h.addr + 2) := by
    have := hh.end_le
    exact index_eq_ok_iff.mpr ⟨by simp [Cell.int?], by omega⟩
  simp [changeFlags, hflags, hplus, put, hindex]

/-! ## Edits -/

/-- One operation on a memory. -/
inductive Edit
  | allocate (name : String) (flags : Nat)
  | append (x : Cell)
  | resize (delta : Int)
  | toggle (header : Cell) (mask : Nat)
  | clear (header : Cell) (mask : Nat)
  | put (addr x : Cell)

/-- What an edit makes of a memory. One that fails leaves it as it is. -/
def Edit.apply (m : Memory) : Edit → Memory
  | .allocate name flags => m.allocateHeader name flags
  | .append x => m.append x
  | .resize delta => m.resize delta
  | .toggle header mask => (m.toggleFlags header mask).toOption.getD m
  | .clear header mask => (m.clearFlags header mask).toOption.getD m
  | .put addr x => (m.put addr x).toOption.getD m

/-- The headers that are allocated after an edit, if these were allocated before. -/
def Edit.record (m : Memory) (hs : List Header) : Edit → List Header
  | .allocate name _ => ⟨m.here, Text.upper name⟩ :: hs
  | _ => hs

/-- The links lead from the newest header to this address. -/
inductive Reaches (m : Memory) : Int → Prop
  | latest {a : Int} : m.latest = some a → Reaches m a
  | link {a b : Int} {x : Cell} :
      Reaches m a → m.get (.int a) = .ok x → x.int? = some b → Reaches m b

/-- An edit that leaves the cells of all headers alone, their flags apart. -/
def Edit.Permitted (m : Memory) : Edit → Prop
  | .allocate _ flags => flags ≤ Flags.named
  | .append _ => True
  | .resize delta => 0 ≤ delta ∨ ∀ a, m.latest = some a → a + 3 ≤ (m.resize delta).here
  | .toggle header mask | .clear header mask =>
    mask ≤ Flags.named ∧ ∃ a, header.number? = some a ∧ m.Reaches a
  | .put addr _ => ∀ a i, m.Reaches a → addr.int? = some i → i < a ∨ a + 3 ≤ i

/-- A memory that permitted edits made of a fresh one, with all headers that they allocated, newest
first. -/
inductive History : Memory → List Header → Prop
  | fresh : History .fresh []
  | edit {m : Memory} {hs : List Header} (e : Edit) (past : History m hs)
      (permitted : e.Permitted m) : History (e.apply m) (e.record m hs)

/-! ## The invariant -/

theorem wellFormed_fresh : fresh.WellFormed [] := ⟨Nat.le_refl 1, rfl, .nil⟩

/-- The link of a header leads to a header. -/
theorem Chained.next_mem (hc : m.Chained hs) (hh : h ∈ hs) {x : Cell} {b : Int}
    (hget : m.get (.int h.addr) = .ok x) (hb : x.int? = some b) :
    ∃ g ∈ hs, (g.addr : Int) = b := by
  induction hc with
  | nil => cases hh
  | @cons top rest here above tail ih =>
    rcases List.mem_cons.mp hh with rfl | hh
    · rw [get_int_of_cell here.link_cell] at hget
      obtain rfl := Except.ok.inj hget
      cases rest with
      | nil => cases hb
      | cons g gs => exact ⟨g, by simp, by simpa [linkTo, Header.cell, Cell.int?] using hb⟩
    · obtain ⟨g, hg, hgb⟩ := ih hh
      exact ⟨g, List.mem_cons_of_mem _ hg, hgb⟩

/-- The links lead from the first header of a chain to all of them. -/
theorem Chained.reaches {m : Memory} {hs : List Header} (hc : m.Chained hs)
    (hfirst : ∀ g ∈ hs.head?, m.Reaches g.addr) : ∀ h ∈ hs, m.Reaches h.addr := by
  induction hc with
  | nil => simp
  | @cons top rest here above tail ih =>
    have htop := hfirst top rfl
    intro h hh
    rcases List.mem_cons.mp hh with rfl | hh
    · exact htop
    · refine ih (fun g hg => ?_) h hh
      have hlink : linkTo rest = .int g.addr := by
        cases rest with
        | nil => cases hg
        | cons r rs => rw [linkTo, Option.some.inj hg, Header.cell]
      exact .link htop (get_int_of_cell (hlink ▸ here.link_cell)) rfl

/-- The links lead to the headers of the dictionary, and nowhere else. -/
theorem WellFormed.reaches_iff (hw : m.WellFormed hs) {a : Int} :
    m.Reaches a ↔ ∃ h ∈ hs, (h.addr : Int) = a := by
  constructor
  · intro hr
    induction hr with
    | latest hl =>
      rw [hw.latest] at hl
      cases hs with
      | nil => cases hl
      | cons h hs => exact ⟨h, List.mem_cons_self .., by simpa using hl⟩
    | link _ hget hb ih =>
      obtain ⟨h, hh, rfl⟩ := ih
      exact hw.chained.next_mem hh hget hb
  · rintro ⟨h, hh, rfl⟩
    refine hw.chained.reaches (fun g hg => .latest ?_) h hh
    rw [hw.latest, Option.mem_def.mp hg]
    rfl

/-- Flags that are turned round or taken off stay among the named ones. -/
theorem le_named_of_change {bits mask : Nat} (hb : bits ≤ Flags.named)
    (hm : mask ≤ Flags.named) :
    bits ^^^ mask ≤ Flags.named ∧ Bits.without bits mask ≤ Flags.named := by
  have hall : ∀ b ≤ 3, ∀ k ≤ 3, b ^^^ k ≤ 3 ∧ Bits.without b k ≤ 3 := by decide
  exact hall bits hb mask hm

theorem HasHeader.flagsAt_le (hh : m.HasHeader h link) : m.flagsAt (h.addr + 2) ≤ Flags.named := by
  obtain ⟨bits, hle, hbits⟩ := hh.flags_cell
  rwa [flagsAt, hbits]

/-- To change the flags of a header that the links lead to keeps the dictionary. -/
theorem WellFormed.changeFlags (hw : m.WellFormed hs) {header : Cell} {a : Int}
    (hn : header.number? = some a) (ha : m.Reaches a) {f : Nat → Nat}
    (hf : ∀ bits ≤ Flags.named, f bits ≤ Flags.named) :
    ((m.changeFlags header f).toOption.getD m).WellFormed hs := by
  obtain ⟨h, hh, rfl⟩ := hw.reaches_iff.mp ha
  obtain ⟨link, hl⟩ := hw.chained.hasHeader hh
  rw [hl.changeFlags_eq hn]
  exact hw.write_flags hh (hf _ hl.flagsAt_le)

/-- A permitted edit keeps the dictionary well-formed. -/
theorem WellFormed.apply (hw : m.WellFormed hs) {e : Edit} (he : e.Permitted m) :
    (e.apply m).WellFormed (e.record m hs) := by
  cases e with
  | allocate name flags => exact hw.allocateHeader name he
  | append x =>
    rw [Edit.apply, append_eq_appendAll]
    exact hw.appendAll [x]
  | resize delta =>
    by_cases hd : 0 ≤ delta
    · rw [Edit.apply, resize_of_nonneg hd]
      exact hw.appendAll _
    · refine hw.shrink (by omega) fun h hh => ?_
      -- the newest header is the highest one, and it is not cut off
      cases hs with
      | nil => cases hh
      | cons top rest =>
        have hkeep := he.resolve_left hd top.addr hw.latest
        have hle := List.pairwise_cons.mp hw.chained.pairwise
        rcases List.mem_cons.mp hh with rfl | hh
        · exact_mod_cast hkeep
        · have := hle.1 h hh
          omega
  | toggle header mask =>
    obtain ⟨hm, a, hn, ha⟩ := he
    exact hw.changeFlags hn ha fun bits hb => (le_named_of_change hb hm).1
  | clear header mask =>
    obtain ⟨hm, a, hn, ha⟩ := he
    exact hw.changeFlags hn ha fun bits hb => (le_named_of_change hb hm).2
  | put addr x =>
    rw [Edit.apply, Memory.put]
    cases hi : m.index addr with
    | error f => exact hw
    | ok i =>
      refine hw.write x fun h hh => ?_
      obtain ⟨hint, -⟩ := index_eq_ok_iff.mp hi
      have := he h.addr i (hw.reaches_iff.mpr ⟨h, hh, rfl⟩) hint
      omega

theorem History.wellFormed (hp : History m hs) : m.WellFormed hs := by
  induction hp with
  | fresh => exact wellFormed_fresh
  | edit e _ he ih => exact ih.apply he

/-! ## What holds of every history -/

/-- What can be relied upon in a memory with these headers, newest first. -/
structure Dictionary (m : Memory) (hs : List Header) : Prop where
  /-- the newest header is the first one, if there is one -/
  latest : m.latest = hs.head?.map fun h => (h.addr : Int)
  /-- the links lead to these headers and to nothing else -/
  reaches : ∀ a, m.Reaches a ↔ ∃ h ∈ hs, (h.addr : Int) = a
  /-- each header stands in memory whole, with a link to the one before it, which ends below it -/
  stands : ∀ newer h older, hs = newer ++ h :: older →
    1 ≤ h.addr ∧ h.addr + 2 < m.here ∧
    m.cells[h.addr]? = some (linkTo older) ∧ (∀ g ∈ older.head?, g.addr + 3 ≤ h.addr) ∧
    m.cells[h.addr + 1]? = some (.text h.name) ∧
    ∃ bits ≤ Flags.named, m.cells[h.addr + 2]? = some (.flags bits)
  /-- the walk over all headers ends, and gives these -/
  headers : m.chain.toList = .ok (hs.map Header.cell)
  /-- their addresses go down strictly -/
  decreasing : hs.Pairwise fun h g => g.addr < h.addr
  /-- every search by name ends well -/
  find : ∀ name, ∃ found, m.find name = .ok found
  /-- so does every search by code field -/
  headerOf : ∀ code, ∃ found, m.headerOf code = .ok found
  /-- and every search for the end of a word -/
  endOf : ∀ header n, header.number? = some n → ∃ stop, m.endOf header = .ok stop

theorem Chained.suffix {newer older : List Header} (hc : m.Chained (newer ++ older)) :
    m.Chained older := by
  induction newer with
  | nil => exact hc
  | cons g gs ih =>
    cases hc with
    | cons _ _ tail => exact ih tail

/-- Whatever permitted edits were made, the dictionary holds all headers that were allocated, and
every walk along its links ends. -/
theorem History.dictionary (hp : History m hs) : m.Dictionary hs := by
  have hw := hp.wellFormed
  refine
    { latest := hw.latest
      reaches := fun a => hw.reaches_iff
      stands := ?_
      headers := hw.headers_eq
      decreasing := hw.chained.pairwise.imp fun hle => by omega
      find := fun name => ⟨_, hw.find_eq name⟩
      headerOf := fun code => ⟨_, hw.headerOf_eq code⟩
      endOf := fun header n hn => ⟨_, hw.endOf_eq hn⟩ }
  rintro newer h older rfl
  cases hw.chained.suffix with
  | cons top above _ =>
    have hend := top.end_le
    refine ⟨top.positive, by omega, top.link_cell, fun g hg => ?_, top.name_cell, top.flags_cell⟩
    exact above g (List.mem_of_mem_head? hg)

/-- A word is made, and then another, which is hidden and of whose body a cell is overwritten. -/
theorem dictionary_of_two_words :
    let m : Memory := ⟨#[.int 0, .absent, .text (Text.upper "dup"), .flags 0, .native .enter,
      .int 1, .text (Text.upper "swap"), .flags 3, .native .variable, .absent, .int 0], some 5⟩
    History m [⟨5, Text.upper "swap"⟩, ⟨1, Text.upper "dup"⟩] ∧
      m.Dictionary [⟨5, Text.upper "swap"⟩, ⟨1, Text.upper "dup"⟩] := by
  intro m
  have hdup := (History.fresh.edit (.allocate "dup" 0) (Nat.zero_le _)).edit
    (.append (.native .enter)) trivial
  have hswap := ((hdup.edit (.allocate "swap" 1) (show 1 ≤ Flags.named by decide)).edit
    (.append (.native .variable)) trivial).edit (.resize 2) (.inl (by decide))
  have hhidden := hswap.edit (.toggle (.int 5) 2) ⟨by decide, 5, rfl, .latest rfl⟩
  have hp : History m [⟨5, Text.upper "swap"⟩, ⟨1, Text.upper "dup"⟩] := by
    refine hhidden.edit (.put (.int 9) .absent) fun a i ha hi => ?_
    obtain ⟨h, hh, rfl⟩ := hhidden.wellFormed.reaches_iff.mp ha
    obtain rfl : (9 : Int) = i := Option.some.inj hi
    have hlow : h.addr ≤ 5 := by
      rcases List.mem_cons.mp hh with rfl | hh
      · exact Nat.le_refl 5
      · rw [List.mem_singleton.mp hh]
        decide
    omega
  exact ⟨hp, hp.dictionary⟩

end ThreadedForth.Memory
