import Mathlib.Data.List.Perm.Subperm
import ThreadedForth.Proofs.Memory.Flags

/-!
# Searches in any dictionary

What can be said of a search where nothing is known of the dictionary, whose links a program may
have written over.

* `unseen_of_hidden` — a search by name does not stop at a hidden header, and finds what it would
  find without it.
* `label_eq_ok_of_find`, `label_eq_ok_of_find_none` — once a search by name has come to a part of
  the dictionary that is whole, or to its end, every code field has a label.
* `find_stops`, `label_stops` — where every link is a number, a search and a label fail with a fault
  at most, or do not end.
-/

namespace ThreadedForth.Memory

variable {m : Memory} {h : Nat} {hs : List Header} {name : String} {k : Cell} {ks : List Cell}

/-! ## Passing over a header -/

/-- A search for a name stops at a header. -/
def answers (m : Memory) (name : Cell) (k : Cell) : Except Stop Bool := do
  if (← m.nameOf k) = name then return ! (← m.isHidden k) else return false

theorem find_eq (m : Memory) (name : String) :
    m.find name = m.chain.find? (m.answers (.text (Text.upper name))) := rfl

/-- The chain without the header at an address. -/
def chainWithout (m : Memory) (h : Int) : Chain :=
  { m.chain with headers := m.chain.headers.filter fun k => k.number? ≠ some h }

/-- What a search by name would give if there were no header at an address. -/
def findWithout (m : Memory) (h : Int) (name : String) : Except Stop (Option Cell) :=
  (m.chainWithout h).find? (m.answers (.text (Text.upper name)))

/-- No search by name gives the header at an address, and each gives what it would give if there
were no such header. -/
structure Unseen (m : Memory) (h : Int) : Prop where
  never : ∀ name k, m.find name = .ok (some k) → k.number? ≠ some h
  without : ∀ name, m.find name = m.findWithout h name

/-- What a search gives has passed its test. -/
theorem find?_go_ok {c : Chain} {test : Cell → Except Stop Bool}
    (hgo : Chain.find?.go c test ks = .ok (some k)) :
    ∃ before later, ks = before ++ k :: later ∧ test k = .ok true ∧
      ∀ l ∈ before, test l = .ok false := by
  induction ks with
  | nil =>
    rw [Chain.find?.go] at hgo
    cases hend : c.ending.reach <;> rw [hend] at hgo <;> cases hgo
  | cons l ks ih =>
    rw [Chain.find?.go] at hgo
    cases htest : test l with
    | error stop => rw [htest] at hgo; cases hgo
    | ok found =>
      rw [htest] at hgo
      cases found with
      | true =>
        cases hgo
        exact ⟨[], ks, rfl, htest, List.forall_mem_nil _⟩
      | false =>
        obtain ⟨before, later, rfl, hk, hbefore⟩ := ih hgo
        exact ⟨l :: before, later, rfl, hk, List.forall_mem_cons.mpr ⟨htest, hbefore⟩⟩

/-- What gives nothing has come to the end of the chain. -/
theorem find?_go_none {c : Chain} {test : Cell → Except Stop Bool}
    (hgo : Chain.find?.go c test ks = .ok none) :
    c.ending.reach = .ok () ∧ ∀ l ∈ ks, test l = .ok false := by
  induction ks with
  | nil =>
    rw [Chain.find?.go] at hgo
    cases hend : c.ending.reach with
    | ok _ => exact ⟨rfl, List.forall_mem_nil _⟩
    | error stop => rw [hend] at hgo; cases hgo
  | cons l ks ih =>
    rw [Chain.find?.go] at hgo
    cases htest : test l with
    | error stop => rw [htest] at hgo; cases hgo
    | ok found =>
      rw [htest] at hgo
      cases found with
      | true => cases hgo
      | false =>
        obtain ⟨hend, hks⟩ := ih hgo
        exact ⟨hend, List.forall_mem_cons.mpr ⟨htest, hks⟩⟩

/-- A search is not changed by leaving out headers that do not pass its test. -/
theorem find?_go_filter (c c' : Chain) (hend : c'.ending = c.ending)
    {test : Cell → Except Stop Bool} {p : Cell → Bool}
    (hp : ∀ l ∈ ks, p l = false → test l = .ok false) :
    Chain.find?.go c test ks = Chain.find?.go c' test (ks.filter p) := by
  induction ks with
  | nil => rw [List.filter_nil, Chain.find?.go, Chain.find?.go, hend]
  | cons l ks ih =>
    obtain ⟨hl, hks⟩ := List.forall_mem_cons.mp hp
    cases hpl : p l with
    | true => rw [List.filter_cons_of_pos hpl, Chain.find?.go, Chain.find?.go, ih hks]
    | false =>
      rw [List.filter_cons_of_neg (by simp [hpl]), Chain.find?.go, hl hpl, ← ih hks]
      rfl

/-- A search for a name passes over a hidden header, whatever its name is. -/
theorem answers_of_hidden (hh : m.isHidden (.int h) = .ok true) (hk : k.number? = some (h : Int))
    (name : Cell) : m.answers name k = .ok false := by
  obtain ⟨i, n, hhas, hbit⟩ := isHidden_eq_ok_iff.mp hh
  have hhere : h + 1 < m.cells.size := by
    obtain ⟨a, ha, hi⟩ := hhas.place
    obtain rfl : (h : Int) = a := Option.some.inj ha
    have hlt := hhas.lt_here
    rw [here] at hlt
    omega
  have hname : m.nameOf k = .ok m.cells[h + 1] := by
    have hget : m.get (.int ((h : Int) + 1)) = .ok m.cells[h + 1] :=
      get_int_add_of_cell (Array.getElem?_eq_getElem hhere)
    simp [nameOf, plus_of_number hk, hget]
  have hhidden : m.isHidden k = .ok true := by
    have hhas' : m.HasFlags k i n := ⟨by rw [hk]; exact hhas.place, hhas.holds⟩
    exact isHidden_eq_ok_iff.mpr ⟨i, n, hhas', hbit⟩
  by_cases hsame : m.cells[h + 1] = name
  · simp [answers, hname, hhidden, hsame]
  · simp [answers, hname, hsame]

/-- **A hidden header is not seen by any search by name.** -/
theorem unseen_of_hidden (hh : m.isHidden (.int h) = .ok true) : m.Unseen h where
  never name k hfind hk := by
    rw [find_eq, Chain.find?] at hfind
    obtain ⟨-, -, -, htrue, -⟩ := find?_go_ok hfind
    rw [answers_of_hidden hh hk] at htrue
    cases htrue
  without name := by
    rw [find_eq, findWithout, Chain.find?, Chain.find?]
    have hskip : ∀ k ∈ m.chain.headers, decide (k.number? ≠ some (h : Int)) = false →
        m.answers (.text (Text.upper name)) k = .ok false :=
      fun k _ hk => answers_of_hidden hh (by simpa using hk) _
    exact find?_go_filter m.chain (m.chainWithout h) rfl hskip

/-! ## Walks that come to an end -/

/-- From a link on, these headers are met, and then there is no further link. -/
inductive Walk (m : Memory) : Cell → List Cell → Prop
  | closed : Walk m .absent []
  | link {k next : Cell} {ks : List Cell} (hget : m.get k = .ok next) (rest : Walk m next ks) :
      Walk m k (k :: ks)

theorem Walk.unique {ks' : List Cell} (hw : m.Walk k ks) (hw' : m.Walk k ks') : ks = ks' := by
  induction hw generalizing ks' with
  | closed =>
    cases hw' with
    | closed => rfl
    | link hget _ => cases hget
  | link hget _ ih =>
    cases hw' with
    | closed => cases hget
    | link hget' rest' =>
      rw [hget] at hget'
      cases hget'
      rw [ih rest']

/-- A header on a walk starts a walk that is no longer. -/
theorem Walk.suffix (hw : m.Walk k ks) {l : Cell} (hl : l ∈ ks) :
    ∃ ls, m.Walk l (l :: ls) ∧ ls.length < ks.length := by
  induction hw with
  | closed => cases hl
  | @link k next ks hget rest ih =>
    rcases List.mem_cons.mp hl with rfl | hl
    · exact ⟨ks, .link hget rest, Nat.lt_succ_self _⟩
    · obtain ⟨ls, hls, hlt⟩ := ih hl
      exact ⟨ls, hls, Nat.lt_succ_of_lt hlt⟩

/-- Each header on a walk is the address of a cell. -/
theorem Walk.address (hw : m.Walk k ks) {l : Cell} (hl : l ∈ ks) :
    ∃ i < m.here, l.int? = some (i : Int) := by
  obtain ⟨ls, hls, -⟩ := hw.suffix hl
  cases hls with
  | link hget _ =>
    obtain ⟨i, hi, hx⟩ := get_eq_ok_iff.mp hget
    exact ⟨i, (Array.getElem?_eq_some_iff.mp hx).1, hi⟩

/-- A walk that comes to an end does not meet one header twice. -/
theorem Walk.nodup (hw : m.Walk k ks) : (ks.map Cell.int?).Nodup := by
  induction hw with
  | closed => exact List.nodup_nil
  | @link k next ks hget rest ih =>
    rw [List.map_cons, List.nodup_cons]
    refine ⟨fun hmem => ?_, ih⟩
    -- a second header at the same address would lead to the same walk, which is longer
    obtain ⟨l, hl, hint⟩ := List.mem_map.mp hmem
    obtain ⟨ls, hls, hlt⟩ := rest.suffix hl
    cases hls with
    | link hget' rest' =>
      obtain ⟨i, hi, hx⟩ := get_eq_ok_iff.mp hget
      obtain ⟨j, hj, hy⟩ := get_eq_ok_iff.mp hget'
      obtain rfl : i = j := by
        rw [hint, hi] at hj
        exact_mod_cast Option.some.inj hj
      obtain rfl := Option.some.inj (hx.symm.trans hy)
      rw [rest.unique rest'] at hlt
      exact absurd hlt (Nat.lt_irrefl _)

/-- A walk that comes to an end has no more headers than there are cells. -/
theorem Walk.length_le (hw : m.Walk k ks) : ks.length ≤ m.here := by
  have hsub : ks.map Cell.int? ⊆ (List.range m.here).map fun i : Nat => some (i : Int) := by
    intro n hn
    obtain ⟨l, hl, rfl⟩ := List.mem_map.mp hn
    obtain ⟨i, hi, hint⟩ := hw.address hl
    exact List.mem_map.mpr ⟨i, List.mem_range.mpr hi, hint.symm⟩
  simpa using (hw.nodup.subperm hsub).length_le

/-- One step along the links. -/
theorem chainFrom_of_get {next : Cell} (hget : m.get k = .ok next) (bound : Nat) :
    m.chainFrom (bound + 1) k =
      ⟨k :: (m.chainFrom bound next).headers, (m.chainFrom bound next).ending⟩ := by
  rw [chainFrom, hget]
  rintro rfl
  cases hget

/-- With enough steps, following the links gives the walk. -/
theorem Walk.chainFrom_eq (hw : m.Walk k ks) {bound : Nat} (hb : ks.length < bound) :
    m.chainFrom bound k = ⟨ks, .closed⟩ := by
  induction hw generalizing bound with
  | closed =>
    obtain ⟨b, rfl⟩ : ∃ b, bound = b + 1 := ⟨bound - 1, by simp at hb; omega⟩
    rfl
  | link hget _ ih =>
    obtain ⟨b, rfl⟩ : ∃ b, bound = b + 1 := ⟨bound - 1, by simp at hb; omega⟩
    rw [chainFrom_of_get hget, ih (by simpa using hb)]

/-- The headers of a chain are walked through. -/
theorem Chained.walk (hc : m.Chained hs) : m.Walk (linkTo hs) (hs.map Header.cell) := by
  induction hc with
  | nil => exact .closed
  | cons top _ _ ih => exact .link (get_int_of_cell top.link_cell) ih

/-- What is met before a header is followed by the walk from there on. -/
theorem walk_of_chainFrom {bound : Nat} {link : Cell} {before later : List Cell}
    (hchain : (m.chainFrom bound link).headers = before ++ k :: later) (hw : m.Walk k (k :: ks)) :
    m.Walk link (before ++ k :: ks) := by
  induction bound generalizing link before with
  | zero => simp [chainFrom] at hchain
  | succ b ih =>
    cases hget : m.get link with
    | error f =>
      -- the chain breaks off at its first header, so the walk does not start from it
      have hlast : (m.chainFrom (b + 1) link).headers ⊆ [link] := by
        by_cases habsent : link = .absent
        · simp [habsent, chainFrom]
        · rw [chainFrom, hget]
          · simp
          · exact habsent
      obtain rfl : k = link := by simpa [hchain] using hlast (a := k)
      cases hw with
      | link hget' _ => rw [hget] at hget'; cases hget'
    | ok next =>
      rw [chainFrom_of_get hget] at hchain
      cases before with
      | nil =>
        obtain ⟨rfl, -⟩ := List.cons.inj hchain
        exact hw
      | cons l before =>
        obtain ⟨rfl, hrest⟩ := List.cons.inj hchain
        exact .link hget (ih hrest)

/-! ## Labels -/

/-- A search by code field, where every header is an integer or counts as one, can be done. -/
theorem find?_go_code {c : Chain} (hend : c.ending = .closed) (code : Int)
    (hplus : ∀ l ∈ ks, ∃ n, l.number? = some n) :
    ∃ found, Chain.find?.go c (fun l => do return (← l.plus headerSize) == code) ks = .ok found ∧
      ∀ l, found = some l → l ∈ ks := by
  induction ks with
  | nil => exact ⟨none, by rw [Chain.find?.go, hend]; rfl, by simp⟩
  | cons l ks ih =>
    obtain ⟨⟨n, hn⟩, hks⟩ := List.forall_mem_cons.mp hplus
    obtain ⟨found, hgo, hmem⟩ := ih hks
    have htest : (do return (← l.plus headerSize) == code : Except Stop Bool) =
        .ok (n + headerSize == code) := by
      simp [plus_of_number hn]
    rw [Chain.find?.go, htest]
    cases hcode : n + headerSize == code with
    | true => exact ⟨some l, rfl, fun l' hl' => Option.some.inj hl' ▸ List.mem_cons_self ..⟩
    | false => exact ⟨found, hgo, fun l' hl' => List.mem_cons_of_mem _ (hmem l' hl')⟩

/-- Where every name of the dictionary can be read, every code field has a label. -/
theorem label_eq_ok_of_names (hend : m.chain.ending = .closed)
    (hnames : ∀ l ∈ m.chain.headers, ∃ name, m.nameOf l = .ok name) (code : Int) :
    ∃ label, m.label code = .ok label := by
  have hnumber : ∀ l ∈ m.chain.headers, ∃ n, l.number? = some n := by
    intro l hl
    obtain ⟨name, hl⟩ := hnames l hl
    cases hn : l.number? with
    | some n => exact ⟨n, rfl⟩
    | none => simp [nameOf, Cell.plus, hn] at hl
  obtain ⟨found, hfound, hmem⟩ := find?_go_code hend code hnumber
  have hheaderOf : m.headerOf code = .ok found := hfound
  rw [label, hheaderOf]
  cases found with
  | none => exact ⟨_, rfl⟩
  | some l => exact hnames l (hmem l rfl)

/-- A search by name reads the name of a header. -/
theorem exists_name_of_answers {key : Cell} {found : Bool} (h : m.answers key k = .ok found) :
    ∃ name, m.nameOf k = .ok name := by
  rw [answers] at h
  cases hname : m.nameOf k with
  | ok name => exact ⟨name, rfl⟩
  | error stop => rw [hname] at h; cases h

/-- **Once a search by name has come to a header from which on the dictionary is whole, every code
field has a label.** -/
theorem label_eq_ok_of_find {s : Header} (hc : m.Chained (s :: hs))
    (hfind : m.find name = .ok (some s.cell)) (code : Int) : ∃ label, m.label code = .ok label := by
  rw [find_eq, Chain.find?] at hfind
  obtain ⟨before, later, hheaders, -, hbefore⟩ := find?_go_ok hfind
  -- the chain consists of the headers that the search has passed and of the part that is whole, and
  -- has no more headers than cells
  have hchain : m.chain = ⟨before ++ (s :: hs).map Header.cell, .closed⟩ := by
    cases hlatest : m.latest with
    | none => simp [chain, hlatest] at hheaders
    | some l =>
      rw [chain, hlatest] at hheaders ⊢
      have hwalk := walk_of_chainFrom hheaders hc.walk
      exact hwalk.chainFrom_eq (by have := hwalk.length_le; omega)
  refine label_eq_ok_of_names (by rw [hchain]) (fun l hl => ?_) code
  rw [hchain] at hl
  rcases List.mem_append.mp hl with hl | hl
  · exact exists_name_of_answers (hbefore l hl)
  · obtain ⟨g, hg, rfl⟩ := List.mem_map.mp hl
    obtain ⟨link, hheader⟩ := hc.hasHeader hg
    exact ⟨_, hheader.nameOf_eq⟩

/-- **Where a search by name comes to the end of the dictionary, every code field has a label.** -/
theorem label_eq_ok_of_find_none (hfind : m.find name = .ok none) (code : Int) :
    ∃ label, m.label code = .ok label := by
  rw [find_eq, Chain.find?] at hfind
  obtain ⟨hreach, hpassed⟩ := find?_go_none hfind
  have hend : m.chain.ending = .closed := by
    cases hend : m.chain.ending with
    | closed => rfl
    | broken f => rw [hend] at hreach; cases hreach
    | endless => rw [hend] at hreach; cases hreach
  exact label_eq_ok_of_names hend (fun l hl => exists_name_of_answers (hpassed l hl)) code

/-! ## Why a search stops -/

section Stopping

variable {c : Chain} {test : Cell → Except Stop Bool} {stop : Stop} {n : Int}

/-- A search stops at the end of the chain, or where its test stops. -/
theorem find?_go_error (hgo : Chain.find?.go c test ks = .error stop) :
    c.ending.reach = .error stop ∨ ∃ k ∈ ks, test k = .error stop := by
  induction ks with
  | nil =>
    rw [Chain.find?.go] at hgo
    cases hend : c.ending.reach with
    | ok _ => rw [hend] at hgo; cases hgo
    | error stop' => rw [hend] at hgo; cases hgo; exact .inl rfl
  | cons l ks ih =>
    rw [Chain.find?.go] at hgo
    cases htest : test l with
    | error stop' =>
      rw [htest] at hgo
      cases hgo
      exact .inr ⟨l, List.mem_cons_self .., htest⟩
    | ok found =>
      rw [htest] at hgo
      cases found with
      | true => cases hgo
      | false =>
        rcases ih hgo with hend | ⟨k, hk, hstop⟩
        · exact .inl hend
        · exact .inr ⟨k, List.mem_cons_of_mem _ hk, hstop⟩

theorem reach_stops (e : ChainEnd) (h : e.reach = .error stop) : stop.Regular := by
  cases e with
  | closed => cases h
  | broken f => cases h; exact Stop.regular_fault f
  | endless => cases h; exact Stop.regular_exhausted

theorem nameOf_stops (hn : k.number? = some n) (h : m.nameOf k = .error stop) : stop.Regular := by
  rw [nameOf, plus_of_number hn, Outcome.ok_bind] at h
  exact Outcome.regular_of_liftM h

theorem flagsOf_stops (hn : k.number? = some n) (h : m.flagsOf k = .error stop) :
    stop.Regular := by
  rw [flagsOf, plus_of_number hn, Outcome.ok_bind] at h
  cases hget : m.get (.int (n + 2)) with
  | error f =>
    rw [hget] at h
    cases h
    exact Stop.regular_fault f
  | ok x =>
    rw [hget, Outcome.liftM_ok, Outcome.ok_bind] at h
    cases hx : x.int? with
    | some k => rw [hx] at h; cases h
    | none => rw [hx] at h; cases h; exact Stop.regular_fault _

theorem isHidden_stops (hn : k.number? = some n) (h : m.isHidden k = .error stop) :
    stop.Regular := by
  cases hflags : m.flagsOf k with
  | ok bits => simp [isHidden, hflags] at h
  | error stop' =>
    simp only [isHidden, hflags, Outcome.error_bind, Except.error.injEq] at h
    exact h ▸ flagsOf_stops hn hflags

theorem isImmediate_stops (hn : k.number? = some n) (h : m.isImmediate k = .error stop) :
    stop.Regular := by
  cases hflags : m.flagsOf k with
  | ok bits => simp [isImmediate, hflags] at h
  | error stop' =>
    simp only [isImmediate, hflags, Outcome.error_bind, Except.error.injEq] at h
    exact h ▸ flagsOf_stops hn hflags

theorem changeFlags_stops {f : Nat → Nat} (hn : k.number? = some n)
    (h : m.changeFlags k f = .error stop) : stop.Regular := by
  cases hflags : m.flagsOf k with
  | ok bits =>
    obtain ⟨i, l, hhas, -⟩ := flagsOf_eq_ok_iff.mp hflags
    rw [hhas.changeFlags_eq] at h
    cases h
  | error stop' =>
    simp only [changeFlags, hflags, Outcome.error_bind, Except.error.injEq] at h
    exact h ▸ flagsOf_stops hn hflags

theorem answers_stops {key : Cell} (hn : k.number? = some n) (h : m.answers key k = .error stop) :
    stop.Regular := by
  cases hname : m.nameOf k with
  | error stop' =>
    simp only [answers, hname, Outcome.error_bind, Except.error.injEq] at h
    exact h ▸ nameOf_stops hn hname
  | ok cell =>
    rw [answers, hname, Outcome.ok_bind] at h
    by_cases hkey : cell = key
    · rw [if_pos hkey] at h
      cases hhidden : m.isHidden k with
      | ok hidden => rw [hhidden] at h; cases h
      | error stop' =>
        rw [hhidden] at h
        cases h
        exact isHidden_stops hn hhidden
    · rw [if_neg hkey] at h
      cases h

/-- A header that a search gives is a number. -/
theorem number_of_find (h : m.find name = .ok (some k)) : ∃ n, k.number? = some n := by
  rw [find_eq, Chain.find?] at h
  obtain ⟨-, -, -, htrue, -⟩ := find?_go_ok h
  cases hn : k.number? with
  | some n => exact ⟨n, rfl⟩
  | none => simp [answers, nameOf, Cell.plus, hn] at htrue

/-- **A search by name stops for a regular reason, unless there is a link that is no number.** -/
theorem find_stops (h : m.find name = .error stop) :
    stop.Regular ∨ ∃ k ∈ m.chain.headers, k.number? = none := by
  rw [find_eq, Chain.find?] at h
  rcases find?_go_error h with hend | ⟨k, hk, htest⟩
  · exact .inl (reach_stops _ hend)
  · cases hn : k.number? with
    | none => exact .inr ⟨k, hk, hn⟩
    | some n => exact .inl (answers_stops hn htest)

/-- **A label stops for a regular reason, unless there is a link that is no number.** -/
theorem label_stops {code : Int} (h : m.label code = .error stop) :
    stop.Regular ∨ ∃ k ∈ m.chain.headers, k.number? = none := by
  by_cases hlinks : ∃ k ∈ m.chain.headers, k.number? = none
  · exact .inr hlinks
  refine .inl ?_
  have hnumber : ∀ k ∈ m.chain.headers, ∃ n, k.number? = some n := fun k hk =>
    Option.ne_none_iff_exists'.mp fun hn => hlinks ⟨k, hk, hn⟩
  cases hheader : m.headerOf code with
  | error stop' =>
    rw [label, hheader] at h
    cases h
    rw [headerOf, Chain.find?] at hheader
    rcases find?_go_error hheader with hend | ⟨k, hk, htest⟩
    · exact reach_stops _ hend
    · obtain ⟨n, hn⟩ := hnumber k hk
      rw [plus_of_number hn] at htest
      cases htest
  | ok found =>
    rw [label, hheader, Outcome.ok_bind] at h
    cases found with
    | none => cases h
    | some k =>
      rw [headerOf, Chain.find?] at hheader
      obtain ⟨before, later, hks, -, -⟩ := find?_go_ok hheader
      obtain ⟨n, hn⟩ := hnumber k (by rw [hks]; simp)
      exact nameOf_stops hn h

end Stopping

/-! ## No search ends the input -/

section Ending

open ThreadedForth.Outcome

theorem inside_plus (k : Cell) (distance : Int) : Inside (k.plus distance) := by
  rw [Cell.plus]
  cases k.number? with
  | none => exact inside_error (by simp)
  | some n => exact inside_ok _

theorem inside_nameOf (k : Cell) : Inside (m.nameOf k) :=
  (inside_plus k 1).bind fun _ => inside_liftM _

theorem inside_flagsOf (k : Cell) : Inside (m.flagsOf k) := by
  refine (inside_plus k 2).bind fun addr => (inside_liftM (m.get (.int addr))).bind fun x => ?_
  cases x.int? with
  | none => exact inside_error (by simp)
  | some n => exact inside_ok _

theorem inside_isHidden (k : Cell) : Inside (m.isHidden k) :=
  (inside_flagsOf k).bind fun _ => inside_ok _

theorem inside_isImmediate (k : Cell) : Inside (m.isImmediate k) :=
  (inside_flagsOf k).bind fun _ => inside_ok _

theorem inside_changeFlags (k : Cell) (f : Nat → Nat) : Inside (m.changeFlags k f) :=
  (inside_flagsOf k).bind fun _ => (inside_plus k 2).bind fun _ => inside_liftM _

theorem inside_reach (ending : ChainEnd) : Inside ending.reach := by
  cases ending with
  | closed => exact inside_ok _
  | _ => exact inside_error (by simp)

theorem inside_find? (c : Chain) {test : Cell → Except Stop Bool} (htest : ∀ k, Inside (test k)) :
    Inside (c.find? test) := by
  rw [Chain.find?]
  induction c.headers with
  | nil => exact (inside_reach c.ending).bind fun _ => inside_ok _
  | cons k ks ih =>
    refine (htest k).bind fun found => ?_
    cases found with
    | true => exact inside_ok _
    | false => exact ih

theorem inside_find (name : String) : Inside (m.find name) := by
  refine inside_find? _ fun k => (inside_nameOf k).bind fun cell => ?_
  by_cases hcell : cell = .text (Text.upper name)
  · rw [if_pos hcell]
    exact (inside_isHidden k).bind fun _ => inside_ok _
  · rw [if_neg hcell]
    exact inside_ok _

theorem inside_label (code : Int) : Inside (m.label code) := by
  have hheader : Inside (m.headerOf code) :=
    inside_find? _ fun k => (inside_plus k headerSize).bind fun _ => inside_ok _
  refine hheader.bind fun found => ?_
  cases found with
  | none => exact inside_ok _
  | some k => exact inside_nameOf k

end Ending

end ThreadedForth.Memory
