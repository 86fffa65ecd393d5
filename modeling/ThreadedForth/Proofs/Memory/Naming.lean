import Mathlib.Order.Bounds.Basic
import ThreadedForth.Machine.Inspect
import ThreadedForth.Proofs.Memory.History

/-!
# The names of a dictionary

Three walks along the chain have to do with names: `find` goes from a name to a header, `words`
lists the names, and `label` goes from a code field back to a name. They treat hidden headers
differently, and give one picture all the same (`Memory.Shows`, `Machine.Concordant`).

* `Memory.WellFormed.isGreatest_iff` — the newest visible header of a name has the greatest address.
* `Memory.WellFormed.words_eq` — the listing consists of the newest visible headers.
* `Memory.WellFormed.lookups_concordant` — the three walks agree, however names are shadowed and
  hidden.
-/

namespace ThreadedForth

/-! ## Lists without repetition -/

namespace Cell

theorem alike_trans {x y z : Cell} (hxy : x.alike y = true) (hyz : y.alike z = true) :
    x.alike z = true := by
  unfold alike at *
  cases hx : x.number? <;> cases hy : y.number? <;> cases hz : z.number? <;>
    simp_all

@[simp] theorem alike_text (s t : String) : (text s).alike (.text t) = (s == t) := by
  rw [Bool.eq_iff_iff, beq_iff_eq]
  simp [alike, number?, int?]

/-- What is added to a list is what a list without repetition has beyond it. -/
theorem foldl_distinct (seen xs : List Cell) :
    xs.foldl (fun seen x => if seen.any (·.alike x) then seen else seen ++ [x]) seen =
      seen ++ (distinct xs).filter fun x => ! seen.any (·.alike x) := by
  induction xs generalizing seen with
  | nil => simp [distinct]
  | cons x xs ih =>
    rw [distinct, List.foldl_cons, List.foldl_cons, ih, ih]
    by_cases hx : seen.any (·.alike x) = true
    · -- what is alike `x` is alike something in the list
      have hcovers : ∀ y, x.alike y = true → seen.any (·.alike y) = true := by
        intro y hy
        obtain ⟨z, hz, hzx⟩ := List.any_eq_true.mp hx
        exact List.any_eq_true.mpr ⟨z, hz, alike_trans hzx hy⟩
      have hfilter : ∀ y, (! seen.any (·.alike y)) =
          ((! seen.any (·.alike y)) && ! x.alike y) := by
        intro y
        cases hy : x.alike y with
        | false => simp
        | true => simp [hcovers y hy]
      simp [hx, List.filter_filter, ← hfilter]
    · simp [hx, List.filter_filter, Bool.and_comm]

/-- The first cell stays, and whatever is alike to it goes. -/
theorem distinct_cons (x : Cell) (xs : List Cell) :
    distinct (x :: xs) = x :: (distinct xs).filter fun y => ! x.alike y := by
  rw [distinct, List.foldl_cons, foldl_distinct]
  simp

end Cell

namespace Memory

variable {m : Memory} {h : Header} {hs : List Header} {name : String} {a : Int}

/-! ## Visible headers -/

/-- The links lead to a header at this address, it has this name, and it is not hidden. -/
structure Shows (m : Memory) (name : String) (a : Int) : Prop where
  reached : m.Reaches a
  named : m.nameOf (.int a) = .ok (.text name)
  visible : m.isHidden (.int a) = .ok false

/-- Whether a header is visible. -/
def shown (m : Memory) (h : Header) : Bool := m.flagsAt (h.addr + 2) &&& Flags.hidden == 0

/-- Whether a header is visible and has this name. -/
def bears (m : Memory) (name : String) (h : Header) : Bool := h.name == name && m.shown h

theorem bears_iff : m.bears name h = true ↔ h.name = name ∧ m.shown h = true := by
  simp [bears]

/-- A visible header is one of the dictionary that bears the name. -/
theorem WellFormed.shows_iff (hw : m.WellFormed hs) :
    m.Shows name a ↔ ∃ h ∈ hs, m.bears name h = true ∧ (h.addr : Int) = a := by
  have hread : ∀ h ∈ hs, m.nameOf (.int h.addr) = .ok (.text h.name) ∧
      m.isHidden (.int h.addr) = .ok (! m.shown h) := by
    intro h hh
    obtain ⟨link, hheader⟩ := hw.chained.hasHeader hh
    exact ⟨hheader.nameOf_eq, hheader.isHidden_eq⟩
  constructor
  · rintro ⟨hreached, hnamed, hvisible⟩
    obtain ⟨h, hh, rfl⟩ := hw.reaches_iff.mp hreached
    obtain ⟨hname, hhidden⟩ := hread h hh
    rw [hname] at hnamed
    rw [hhidden] at hvisible
    have hshown : m.shown h = true := by simpa using hvisible
    exact ⟨h, hh, bears_iff.mpr ⟨Cell.text.inj (Except.ok.inj hnamed), hshown⟩, rfl⟩
  · rintro ⟨h, hh, hbears, rfl⟩
    obtain ⟨hname, hhidden⟩ := hread h hh
    obtain ⟨rfl, hshown⟩ := bears_iff.mp hbears
    exact ⟨hw.reaches_iff.mpr ⟨h, hh, rfl⟩, hname, by rw [hhidden, hshown]; rfl⟩

/-- A search along addresses that go down gives the greatest one. -/
theorem greatest_of_find? {p : Header → Bool} (hdown : hs.Pairwise fun h g => g.addr < h.addr)
    (hfind : hs.find? p = some h) : ∀ g ∈ hs, p g = true → g.addr ≤ h.addr := by
  obtain ⟨-, newer, older, rfl, hnewer⟩ := List.find?_eq_some_iff_append.mp hfind
  intro g hg hp
  obtain ⟨-, hbelow, -⟩ := List.pairwise_append.mp hdown
  rcases List.mem_append.mp hg with hg | hg
  · exact absurd hp (by simpa using hnewer g hg)
  · rcases List.mem_cons.mp hg with rfl | hg
    · exact Nat.le_refl _
    · exact Nat.le_of_lt (List.rel_of_pairwise_cons hbelow hg)

theorem WellFormed.decreasing (hw : m.WellFormed hs) :
    hs.Pairwise fun h g => g.addr < h.addr :=
  hw.chained.pairwise.imp fun hlt => by omega

/-- The first header that bears a name is the visible one with the greatest address. -/
theorem WellFormed.isGreatest_of_find? (hw : m.WellFormed hs)
    (hfind : hs.find? (m.bears name) = some h) :
    IsGreatest {a | m.Shows name a} (h.addr : Int) := by
  have hmem := List.mem_of_find?_eq_some hfind
  refine ⟨hw.shows_iff.mpr ⟨h, hmem, List.find?_some hfind, rfl⟩, fun a ha => ?_⟩
  obtain ⟨g, hg, hbears, rfl⟩ := hw.shows_iff.mp ha
  exact_mod_cast greatest_of_find? hw.decreasing hfind g hg hbears

theorem WellFormed.not_shows_of_find? (hw : m.WellFormed hs)
    (hfind : hs.find? (m.bears name) = none) (a : Int) : ¬ m.Shows name a := by
  intro ha
  obtain ⟨g, hg, hbears, -⟩ := hw.shows_iff.mp ha
  exact List.find?_eq_none.mp hfind g hg hbears

/-- The newest visible header of a name is the one with the greatest address. -/
theorem WellFormed.isGreatest_iff (hw : m.WellFormed hs) :
    IsGreatest {a | m.Shows name a} a ↔
      ∃ h, hs.find? (m.bears name) = some h ∧ (h.addr : Int) = a := by
  constructor
  · intro ha
    cases hfind : hs.find? (m.bears name) with
    | none => exact absurd ha.1 (hw.not_shows_of_find? hfind a)
    | some h => exact ⟨h, rfl, (hw.isGreatest_of_find? hfind).unique ha⟩
  · rintro ⟨h, hfind, rfl⟩
    exact hw.isGreatest_of_find? hfind

/-- A name is shown somewhere if a search for it stops. -/
theorem WellFormed.exists_shows_iff (hw : m.WellFormed hs) :
    (∃ a, m.Shows name a) ↔ ∃ h, hs.find? (m.bears name) = some h := by
  cases hfind : hs.find? (m.bears name) with
  | none => simpa using hw.not_shows_of_find? hfind
  | some h => simpa using ⟨_, (hw.isGreatest_of_find? hfind).1⟩

theorem WellFormed.find_eq_bears (hw : m.WellFormed hs) (name : String) :
    m.find name = .ok ((hs.find? (m.bears (Text.upper name))).map Header.cell) :=
  hw.find_eq name

/-! ## The listing -/

/-- The visible headers that no newer visible one of the same name shadows. -/
def newest (m : Memory) : List Header → List Header
  | [] => []
  | h :: hs =>
    if m.shown h then h :: (m.newest hs).filter (fun g => ! h.name == g.name) else m.newest hs

theorem newest_sublist (m : Memory) (hs : List Header) : (m.newest hs).Sublist hs := by
  induction hs with
  | nil => exact .slnil
  | cons h hs ih =>
    rw [newest]
    split
    · exact (List.filter_sublist.trans ih).cons_cons h
    · exact ih.cons h

/-- These are the headers at which a search for their name stops. -/
theorem mem_newest_iff : h ∈ m.newest hs ↔ hs.find? (m.bears h.name) = some h := by
  induction hs with
  | nil => simp [newest]
  | cons g gs ih =>
    rw [newest, List.find?_cons, bears]
    cases m.shown g with
    | false => simpa using ih
    | true =>
      by_cases hname : g.name = h.name
      · simp [hname, eq_comm]
      · have hne : h ≠ g := fun heq => hname (congrArg Header.name heq.symm)
        have hfalse : (g.name == h.name) = false := beq_false_of_ne hname
        simp [hfalse, hne, ih]

theorem newest_names_nodup (m : Memory) (hs : List Header) :
    ((m.newest hs).map Header.name).Nodup := by
  induction hs with
  | nil => exact List.nodup_nil
  | cons h hs ih =>
    rw [newest]
    split
    · rw [List.map_cons, List.nodup_cons]
      refine ⟨fun hmem => ?_, ih.sublist (List.filter_sublist.map _)⟩
      obtain ⟨g, hg, hname⟩ := List.mem_map.mp hmem
      simp [hname] at hg
    · exact ih

/-- The names of visible headers, without repetition, are those of the newest ones. -/
theorem distinct_names (m : Memory) (hs : List Header) :
    Cell.distinct ((hs.filter m.shown).map fun h => .text h.name) =
      (m.newest hs).map fun h => .text h.name := by
  induction hs with
  | nil => rfl
  | cons h hs ih =>
    rw [newest, List.filter_cons]
    split
    · rw [List.map_cons, Cell.distinct_cons, ih, List.filter_map, List.map_cons]
      simp only [Function.comp_def, Cell.alike_text]
    · exact ih

theorem WellFormed.visibleNames_eq (hw : m.WellFormed hs) {gs : List Header} (hgs : gs ⊆ hs) :
    m.visibleNames (gs.map Header.cell) =
      .ok ((gs.filter m.shown).map fun h => .text h.name) := by
  induction gs with
  | nil => rfl
  | cons g gs ih =>
    obtain ⟨hg, hgs⟩ := List.cons_subset.mp hgs
    obtain ⟨link, hheader⟩ := hw.chained.hasHeader hg
    have hhidden : m.isHidden g.cell = .ok (! m.shown g) := hheader.isHidden_eq
    simp only [List.map_cons, visibleNames, hheader.nameOf_eq, hhidden, ih hgs, Outcome.ok_bind,
      List.filter_cons]
    cases m.shown g <;> rfl

/-- The listing consists of the newest visible headers. -/
theorem WellFormed.words_eq (hw : m.WellFormed hs) :
    m.words = .ok ((m.newest hs).map fun h => .text h.name) := by
  rw [words, hw.chain_eq, hw.visibleNames_eq (List.Subset.refl hs)]
  simp only [ChainEnd.reach, Outcome.ok_bind, distinct_names]
  rfl

/-- A name is listed if a search for it stops at some header. -/
theorem name_mem_newest_iff :
    name ∈ (m.newest hs).map Header.name ↔ ∃ h, hs.find? (m.bears name) = some h := by
  constructor
  · intro hmem
    obtain ⟨h, hh, rfl⟩ := List.mem_map.mp hmem
    exact ⟨h, mem_newest_iff.mp hh⟩
  · rintro ⟨h, hfind⟩
    obtain ⟨rfl, -⟩ := bears_iff.mp (List.find?_some hfind)
    exact List.mem_map_of_mem (mem_newest_iff.mpr hfind)

/-- The header of an entry is the newest visible one of its name. -/
theorem WellFormed.mem_newest_iff_isGreatest (hw : m.WellFormed hs) :
    h ∈ m.newest hs ↔ IsGreatest {a | m.Shows h.name a} (h.addr : Int) := by
  rw [mem_newest_iff, hw.isGreatest_iff]
  constructor
  · exact fun hfind => ⟨h, hfind, rfl⟩
  · rintro ⟨g, hfind, haddr⟩
    obtain ⟨hname, -⟩ := bears_iff.mp (List.find?_some hfind)
    obtain ⟨addr, name⟩ := h
    obtain rfl : g.addr = addr := Int.ofNat.inj haddr
    obtain rfl : g.name = name := hname
    exact hfind

/-! ## From a name and back -/

/-- The code field of a header leads back to it. -/
theorem WellFormed.headerOf_code (hw : m.WellFormed hs) (hh : h ∈ hs) :
    m.headerOf (h.addr + headerSize) = .ok (some h.cell) := by
  rw [hw.headerOf_eq]
  cases hfind : hs.find? fun g => (g.addr : Int) + 3 == h.addr + headerSize with
  | none => exact absurd (List.find?_eq_none.mp hfind h hh) (by simp [headerSize])
  | some g =>
    have haddr : (g.addr : Int) = h.addr := by
      simpa [headerSize] using List.find?_some hfind
    rw [Option.map_some, Header.cell, Header.cell, haddr]

/-- The code field of a header has its name for a label. -/
theorem WellFormed.label_code (hw : m.WellFormed hs) (hh : h ∈ hs) :
    m.label (h.addr + headerSize) = .ok (.text h.name) := by
  obtain ⟨link, hheader⟩ := hw.chained.hasHeader hh
  rw [label, hw.headerOf_code hh]
  exact hheader.nameOf_eq

/-- What a search by name finds bears the name in upper case. -/
theorem WellFormed.find_eq_some (hw : m.WellFormed hs) {header : Cell}
    (hfind : m.find name = .ok (some header)) :
    ∃ h ∈ hs, header = h.cell ∧ h.name = Text.upper name := by
  rw [hw.find_eq_bears, Except.ok.injEq, Option.map_eq_some_iff] at hfind
  obtain ⟨h, hfind, rfl⟩ := hfind
  exact ⟨h, List.mem_of_find?_eq_some hfind, rfl, (bears_iff.mp (List.find?_some hfind)).1⟩

end Memory

/-! ## One picture -/

/-- The searches by name and by code field and the listing of names go together. -/
structure Machine.Concordant (m : Machine) : Prop where
  /-- a search by name gives the greatest address at which a visible header has the name, or finds
  that there is none -/
  search : ∀ name,
    (∃ a, m.memory.find name = .ok (some (.int a)) ∧
      IsGreatest {a | m.memory.Shows (Text.upper name) a} a) ∨
    (m.memory.find name = .ok none ∧ ∀ a, ¬ m.memory.Shows (Text.upper name) a)
  /-- the listing has one entry for each visible name, in the order of their newest visible headers,
  newest first -/
  listing : ∃ entries : List Header,
    m.memory.words = .ok (entries.map fun h => .text h.name) ∧
    (entries.map Header.name).Nodup ∧
    (entries.Pairwise fun h older => older.addr < h.addr) ∧
    (∀ h, h ∈ entries ↔ IsGreatest {a | m.memory.Shows h.name a} (h.addr : Int)) ∧
    ∀ name, name ∈ entries.map Header.name ↔ ∃ a, m.memory.Shows name a
  /-- what a search finds is listed, and nothing else -/
  listed : ∀ name, (∃ header, m.memory.find name = .ok (some header)) ↔
    ∃ names, m.memory.words = .ok names ∧ .text (Text.upper name) ∈ names
  /-- a code field that a name leads to leads back to the header and to the name -/
  back : ∀ name x, m.tokenOf name = .ok x →
    ∃ code header, x = .token code ∧ m.memory.find name = .ok (some header) ∧
      m.memory.headerOf code = .ok (some header) ∧
      m.memory.label code = .ok (.text (Text.upper name))

/-- **A search by name, the listing of names and the way back from a code field agree** in every
dictionary that is well-formed, whichever names are shadowed in it and whichever headers hidden. -/
theorem Memory.WellFormed.lookups_concordant {m : Machine} {hs : List Header}
    (hw : m.memory.WellFormed hs) : m.Concordant where
  search name := by
    rw [hw.find_eq_bears]
    cases hfind : hs.find? (m.memory.bears (Text.upper name)) with
    | none => exact .inr ⟨rfl, hw.not_shows_of_find? hfind⟩
    | some h => exact .inl ⟨h.addr, rfl, hw.isGreatest_of_find? hfind⟩
  listing := by
    refine ⟨m.memory.newest hs, hw.words_eq, newest_names_nodup m.memory hs,
      hw.decreasing.sublist (newest_sublist m.memory hs), fun _ => hw.mem_newest_iff_isGreatest,
      fun name => ?_⟩
    rw [name_mem_newest_iff, hw.exists_shows_iff]
  listed name := by
    have hlisted : (∃ header, m.memory.find name = .ok (some header)) ↔
        Text.upper name ∈ (m.memory.newest hs).map Header.name := by
      simp [hw.find_eq_bears, name_mem_newest_iff]
    simp [hlisted, hw.words_eq]
  back name x hx := by
    cases hfind : m.memory.find name with
    | error stop => simp [Machine.tokenOf, hfind] at hx
    | ok found =>
      cases found with
      | none => simp [Machine.tokenOf, hfind] at hx
      | some header =>
        obtain ⟨h, hh, rfl, hname⟩ := hw.find_eq_some hfind
        simp [Machine.tokenOf, hfind] at hx
        exact ⟨_, _, hx.symm, rfl, hw.headerOf_code hh, hname ▸ hw.label_code hh⟩

/-- Three words of one name, the newest of them hidden, and another word between them. -/
theorem lookups_of_shadowed_words :
    let m : Memory := ⟨#[.int 0, .absent, .text (Text.upper "dup"), .flags 0, .native .enter,
      .int 1, .text (Text.upper "Dup"), .flags 1, .native .enter,
      .int 5, .text (Text.upper "swap"), .flags 0, .native .enter,
      .int 9, .text (Text.upper "DUP"), .flags 2, .native .variable], some 13⟩
    Memory.History m [⟨13, Text.upper "DUP"⟩, ⟨9, Text.upper "swap"⟩, ⟨5, Text.upper "Dup"⟩,
        ⟨1, Text.upper "dup"⟩] ∧
      ({ memory := m } : Machine).Concordant ∧ m.find "dup" = .ok (some (.int 5)) ∧
      m.words = .ok [.text "SWAP", .text "DUP"] := by
  intro m
  have hfirst := (Memory.History.fresh.edit (.allocate "dup" 0) (Nat.zero_le _)).edit
    (.append (.native .enter)) trivial
  have hsecond := (hfirst.edit (.allocate "Dup" 1) (show 1 ≤ Flags.named by decide)).edit
    (.append (.native .enter)) trivial
  have hother := (hsecond.edit (.allocate "swap" 0) (Nat.zero_le _)).edit
    (.append (.native .enter)) trivial
  have hthird := (hother.edit (.allocate "DUP" 0) (Nat.zero_le _)).edit
    (.append (.native .variable)) trivial
  have hp : Memory.History m [⟨13, Text.upper "DUP"⟩, ⟨9, Text.upper "swap"⟩,
      ⟨5, Text.upper "Dup"⟩, ⟨1, Text.upper "dup"⟩] :=
    hthird.edit (.toggle (.int 13) 2) ⟨by decide, 13, rfl, .latest rfl⟩
  exact ⟨hp, Memory.WellFormed.lookups_concordant hp.wellFormed, by decide +kernel,
    by decide +kernel⟩

end ThreadedForth
