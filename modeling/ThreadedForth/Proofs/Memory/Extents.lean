import ThreadedForth.Proofs.Memory.Image
import ThreadedForth.Proofs.Memory.Naming

/-!
# The extents of words

A word takes up the cells from its header on, up to where a search for its end stops
(`Memory.Covers`). In a well-formed dictionary this is the next header, hidden or not, and for the
newest word the end of memory. So the words lie one after the other from the oldest header on, and
leave no gap (`Memory.Partitioned`). What is put at the end of memory belongs to the newest word
(`Memory.ExtendsNewest`), until another header is allocated there (`Memory.ClosesNewest`).

* `Memory.WellFormed.endOf_least` — a word ends at the first of the addresses where it could end.
* `Memory.WellFormed.words_partition` — the partition, and what becomes of it as memory grows.
-/

namespace ThreadedForth.Memory

variable {m : Memory} {h g : Header} {hs newer older : List Header} {a stop : Int}

/-- The address is that of one of the cells of a word. -/
def Covers (m : Memory) (h : Header) (a : Int) : Prop :=
  ∃ stop, m.endOf h.cell = .ok stop ∧ (h.addr : Int) ≤ a ∧ a < stop

/-! ## Where words end -/

/-- A word ends before no address that is in memory and below all headers above the word, and after
all others. -/
theorem WellFormed.endOf_least (hw : m.WellFormed hs) (h : Header) :
    ∃ stop, m.endOf h.cell = .ok stop ∧
      ∀ a, a < stop ↔ a < m.here ∧ ∀ g ∈ hs, h.addr < g.addr → a < g.addr := by
  have hmem (b : Int) : b ∈ (hs.map fun g => (g.addr : Int)).filter ((h.addr : Int) < ·) ↔
      ∃ g ∈ hs, h.addr < g.addr ∧ (g.addr : Int) = b := by
    simp only [List.mem_filter, List.mem_map, decide_eq_true_eq]
    constructor
    · rintro ⟨⟨g, hg, rfl⟩, hlt⟩
      exact ⟨g, hg, by exact_mod_cast hlt, rfl⟩
    · rintro ⟨g, hg, hlt, rfl⟩
      exact ⟨⟨g, hg, rfl⟩, by exact_mod_cast hlt⟩
  refine ⟨_, hw.endOf_eq rfl, fun a => ?_⟩
  cases hmin : ((hs.map fun g => (g.addr : Int)).filter ((h.addr : Int) < ·)).min? with
  | none =>
    have hnone : ∀ g ∈ hs, ¬ h.addr < g.addr := by
      intro g hg hlt
      have hnil := List.min?_eq_none_iff.mp hmin
      exact List.not_mem_nil (hnil ▸ (hmem g.addr).mpr ⟨g, hg, hlt, rfl⟩)
    exact ⟨fun ha => ⟨ha, fun g hg hlt => absurd hlt (hnone g hg)⟩, fun ha => ha.1⟩
  | some stop =>
    obtain ⟨hfirst, hleast⟩ := List.min?_eq_some_iff.mp hmin
    obtain ⟨next, hnext, hlt, rfl⟩ := (hmem stop).mp hfirst
    have hend := hw.chained.end_le hnext
    constructor
    · intro ha
      have ha : a < next.addr := ha
      refine ⟨by omega, fun g hg habove => ?_⟩
      exact Int.lt_of_lt_of_le ha (hleast _ ((hmem _).mpr ⟨g, hg, habove, rfl⟩))
    · exact fun ha => ha.2 next hnext hlt

/-- The headers above a word are those that were made after it. -/
theorem WellFormed.above_iff (newer : List Header) (hw : m.WellFormed (newer ++ h :: older))
    (hg : g ∈ newer ++ h :: older) : h.addr < g.addr ↔ g ∈ newer := by
  obtain ⟨-, hdown, hnewer⟩ := List.pairwise_append.mp hw.decreasing
  refine ⟨fun hlt => (List.mem_append.mp hg).resolve_right fun hg => ?_,
    fun hg => hnewer g hg h (List.mem_cons_self ..)⟩
  rcases List.mem_cons.mp hg with rfl | hg
  · exact Nat.lt_irrefl _ hlt
  · exact Nat.lt_asymm hlt (List.rel_of_pairwise_cons hdown hg)

/-- A word ends where it should if it covers what it should. -/
theorem WellFormed.endOf_eq_of_iff (hw : m.WellFormed hs)
    (hstop : ∀ a, a < stop ↔ a < m.here ∧ ∀ g ∈ hs, h.addr < g.addr → a < g.addr) :
    m.endOf h.cell = .ok stop := by
  obtain ⟨stop', hend, hstop'⟩ := hw.endOf_least h
  obtain rfl : stop' = stop := by
    have hsame (a : Int) : a < stop' ↔ a < stop := (hstop' a).trans (hstop a).symm
    have hle := hsame (stop' - 1)
    have hge := hsame (stop - 1)
    omega
  exact hend

/-- The newest word ends with memory. -/
theorem WellFormed.endOf_newest (hw : m.WellFormed (h :: older)) :
    m.endOf h.cell = .ok (m.here : Int) := by
  refine hw.endOf_eq_of_iff fun a => ⟨fun ha => ⟨ha, fun g hg habove => ?_⟩, fun ha => ha.1⟩
  exact absurd ((hw.above_iff [] hg).mp habove) List.not_mem_nil

/-- Any other word ends at the header that was made next. -/
theorem WellFormed.endOf_next (newer : List Header) (hw : m.WellFormed (newer ++ g :: h :: older)) :
    m.endOf h.cell = .ok (g.addr : Int) := by
  have hsplit : newer ++ g :: h :: older = (newer ++ [g]) ++ h :: older := by simp
  have hnext : g ∈ newer ++ g :: h :: older := by simp
  have hend := hw.chained.end_le hnext
  refine hw.endOf_eq_of_iff fun a => ⟨fun ha => ⟨by omega, fun k hk habove => ?_⟩, fun ha => ?_⟩
  · rw [hsplit] at hw hk
    rcases List.mem_append.mp ((hw.above_iff _ hk).mp habove) with hk | hk
    · rw [← hsplit] at hw
      have hlt := (hw.above_iff _ (List.mem_append_left _ hk)).mpr hk
      omega
    · rwa [List.mem_singleton.mp hk]
  · have habove : h.addr < g.addr := by
      rw [hsplit] at hw hnext
      exact (hw.above_iff _ hnext).mpr (by simp)
    exact ha.2 g hnext habove

/-- A header is the newest one, or one was made after it. -/
theorem newest_or_next (hh : h ∈ hs) :
    (∃ older, hs = h :: older) ∨ ∃ newer g older, hs = newer ++ g :: h :: older := by
  obtain ⟨newer, older, rfl⟩ := List.append_of_mem hh
  rcases List.eq_nil_or_concat newer with rfl | ⟨newer, g, rfl⟩
  · exact .inl ⟨older, rfl⟩
  · exact .inr ⟨newer, g, older, by simp⟩

/-! ## What words cover -/

theorem WellFormed.covers_iff (hw : m.WellFormed hs) (h : Header) (a : Int) :
    m.Covers h a ↔
      (h.addr : Int) ≤ a ∧ a < m.here ∧ ∀ g ∈ hs, h.addr < g.addr → a < g.addr := by
  obtain ⟨stop, hend, hstop⟩ := hw.endOf_least h
  rw [Covers, hend, ← hstop]
  simp

/-- A word covers its own header. -/
theorem WellFormed.covers_self (hw : m.WellFormed hs) (hh : h ∈ hs) : m.Covers h h.addr := by
  have hend := hw.chained.end_le hh
  exact (hw.covers_iff h h.addr).mpr ⟨Int.le_refl _, by omega, fun g _ habove => by omega⟩

/-- Of two headers one lies above the other. -/
theorem WellFormed.eq_or_apart (hw : m.WellFormed hs) (hh : h ∈ hs) (hg : g ∈ hs) :
    h = g ∨ h.addr < g.addr ∨ g.addr < h.addr := by
  obtain ⟨newer, older, rfl⟩ := List.append_of_mem hh
  obtain ⟨-, hdown, -⟩ := List.pairwise_append.mp hw.decreasing
  rcases List.mem_append.mp hg with hnewer | holder
  · exact .inr (.inl ((hw.above_iff _ hg).mpr hnewer))
  · rcases List.mem_cons.mp holder with rfl | holder
    · exact .inl rfl
    · exact .inr (.inr (List.rel_of_pairwise_cons hdown holder))

/-- No address is covered by two words. -/
theorem WellFormed.eq_of_covers (hw : m.WellFormed hs) (hh : h ∈ hs) (hg : g ∈ hs)
    (hha : m.Covers h a) (hga : m.Covers g a) : h = g := by
  obtain ⟨hle, -, hbelow⟩ := (hw.covers_iff h a).mp hha
  obtain ⟨hle', -, hbelow'⟩ := (hw.covers_iff g a).mp hga
  rcases hw.eq_or_apart hh hg with heq | hlt | hlt
  · exact heq
  · have := hbelow g hg hlt
    omega
  · have := hbelow' h hh hlt
    omega

/-- No header lies below the oldest one. -/
theorem WellFormed.oldest_le (hw : m.WellFormed hs) (hg : g ∈ hs.getLast?) (hh : h ∈ hs) :
    g.addr ≤ h.addr := by
  obtain ⟨newer, rfl⟩ := List.getLast?_eq_some_iff.mp hg
  rcases List.mem_append.mp hh with hh | hh
  · exact Nat.le_of_lt ((List.pairwise_append.mp hw.decreasing).2.2 h hh g (List.mem_singleton_self g))
  · rw [List.mem_singleton.mp hh]

/-- The words cover the addresses from the oldest header on, and no others. -/
theorem WellFormed.exists_covers_iff (hw : m.WellFormed hs) (a : Int) :
    (∃ h ∈ hs, m.Covers h a) ↔ ∃ oldest ∈ hs.getLast?, (oldest.addr : Int) ≤ a ∧ a < m.here := by
  constructor
  · rintro ⟨h, hh, hcovers⟩
    obtain ⟨hle, hlt, -⟩ := (hw.covers_iff h a).mp hcovers
    have hlast := List.getLast?_eq_some_getLast (List.ne_nil_of_mem hh)
    have holdest := hw.oldest_le hlast hh
    exact ⟨_, hlast, by omega, hlt⟩
  · rintro ⟨oldest, holdest, hle, hlt⟩
    -- the word is that of the newest header which is not above the address
    have hsome : (hs.find? fun g => (g.addr : Int) ≤ a).isSome :=
      List.find?_isSome.mpr ⟨oldest, List.mem_of_getLast? holdest, by simpa using hle⟩
    obtain ⟨h, hfind⟩ := Option.isSome_iff_exists.mp hsome
    obtain ⟨hfound, newer, older, rfl, hnewer⟩ := List.find?_eq_some_iff_append.mp hfind
    refine ⟨h, by simp, (hw.covers_iff h a).mpr ⟨by simpa using hfound, hlt, fun g hg habove => ?_⟩⟩
    simpa using hnewer g ((hw.above_iff _ hg).mp habove)

/-! ## The partition -/

/-- The words with these headers, newest first, lie one after the other in memory. -/
structure Partitioned (m : Memory) (hs : List Header) : Prop where
  /-- the links lead to these headers and to nothing else -/
  reached : ∀ a, m.Reaches a ↔ ∃ h ∈ hs, (h.addr : Int) = a
  /-- their addresses go down strictly -/
  decreasing : hs.Pairwise fun h g => g.addr < h.addr
  /-- a word ends at the header that was made next -/
  next : ∀ newer g h older, hs = newer ++ g :: h :: older → m.endOf h.cell = .ok (g.addr : Int)
  /-- the newest word ends with memory -/
  newest : ∀ h older, hs = h :: older → m.endOf h.cell = .ok (m.here : Int)
  /-- no word is empty -/
  nonempty : ∀ h ∈ hs, m.Covers h h.addr
  /-- no two words have an address in common -/
  disjoint : ∀ h ∈ hs, ∀ g ∈ hs, h ≠ g → ∀ a, ¬ (m.Covers h a ∧ m.Covers g a)
  /-- together they cover what lies between the oldest header and the end of memory -/
  covered : ∀ a, (∃ h ∈ hs, m.Covers h a) ↔
    ∃ oldest ∈ hs.getLast?, (oldest.addr : Int) ≤ a ∧ a < m.here
  /-- so that each of these addresses belongs to one word -/
  one : ∀ oldest ∈ hs.getLast?, ∀ a, (oldest.addr : Int) ≤ a → a < m.here →
    ∃! h, h ∈ hs ∧ m.Covers h a

theorem WellFormed.partitioned (hw : m.WellFormed hs) : m.Partitioned hs where
  reached _ := hw.reaches_iff
  decreasing := hw.decreasing
  next := by
    rintro newer g h older rfl
    exact hw.endOf_next _
  newest := by
    rintro h older rfl
    exact hw.endOf_newest
  nonempty _ hh := hw.covers_self hh
  disjoint h hh g hg hne a := fun ⟨hha, hga⟩ => hne (hw.eq_of_covers hh hg hha hga)
  covered := hw.exists_covers_iff
  one oldest holdest a hle hlt := by
    obtain ⟨h, hh, hcovers⟩ := (hw.exists_covers_iff a).mpr ⟨oldest, holdest, hle, hlt⟩
    exact ⟨h, ⟨hh, hcovers⟩, fun g ⟨hg, hga⟩ => hw.eq_of_covers hg hh hga hcovers⟩

/-! ## Growth -/

/-- Memory has grown by some cells, and they belong to the newest word. -/
structure ExtendsNewest (m : Memory) (hs : List Header) (count : Nat) (m' : Memory) : Prop where
  partitioned : m'.Partitioned hs
  here : m'.here = m.here + count
  /-- the end of the newest word has moved by as much -/
  newest : ∀ h older, hs = h :: older →
    m.endOf h.cell = .ok (m.here : Int) ∧ m'.endOf h.cell = .ok (m.here + count : Int)
  /-- the other words end where they did -/
  others : ∀ h older, hs = h :: older → ∀ g ∈ older, m'.endOf g.cell = m.endOf g.cell

/-- A header has been allocated at the end of memory, and there the newest word ends from now on. -/
structure ClosesNewest (m : Memory) (hs : List Header) (new : Header) (m' : Memory) : Prop where
  partitioned : m'.Partitioned (new :: hs)
  addr : new.addr = m.here
  newest : ∀ h older, hs = h :: older → m'.endOf h.cell = .ok (new.addr : Int)
  /-- the words that were there end where they did -/
  ends : ∀ h ∈ hs, m'.endOf h.cell = m.endOf h.cell

/-- Where a word ends that is not the newest one does not depend on the end of memory. -/
theorem WellFormed.endOf_eq_of_mem {m' : Memory} {h : Header} (hw : m.WellFormed (h :: older))
    (hw' : m'.WellFormed (h :: older)) (hg : g ∈ older) : m'.endOf g.cell = m.endOf g.cell := by
  obtain ⟨newer, older, rfl⟩ := List.append_of_mem hg
  rcases newest_or_next (List.mem_cons_of_mem h hg) with ⟨rest, heq⟩ | ⟨newer', k, rest, heq⟩
  · obtain ⟨rfl, -⟩ := List.cons.inj heq
    exact absurd (List.rel_of_pairwise_cons hw.decreasing hg) (Nat.lt_irrefl _)
  · rw [heq] at hw hw'
    rw [hw.endOf_next, hw'.endOf_next]

/-- What is put at the end of memory belongs to the newest word. -/
theorem WellFormed.extendsNewest_appendAll (hw : m.WellFormed hs) (xs : List Cell) :
    m.ExtendsNewest hs xs.length (m.appendAll xs) where
  partitioned := (hw.appendAll xs).partitioned
  here := here_appendAll m xs
  newest := by
    rintro h older rfl
    refine ⟨hw.endOf_newest, ?_⟩
    rw [(hw.appendAll xs).endOf_newest, here_appendAll]
    rfl
  others := by
    rintro h older rfl g hg
    exact hw.endOf_eq_of_mem (hw.appendAll xs) hg

/-- To allocate a header closes the newest word. -/
theorem WellFormed.closesNewest_allocateHeader (hw : m.WellFormed hs) (name : String) {flags : Nat}
    (hf : flags ≤ Flags.named) :
    m.ClosesNewest hs ⟨m.here, Text.upper name⟩ (m.allocateHeader name flags) where
  partitioned := (hw.allocateHeader name hf).partitioned
  addr := rfl
  newest := by
    rintro h older rfl
    exact (hw.allocateHeader name hf).endOf_next []
  ends h hh := by
    have hw' := hw.allocateHeader name hf
    rcases newest_or_next hh with ⟨older, rfl⟩ | ⟨newer, g, older, rfl⟩
    · rw [hw.endOf_newest]
      exact hw'.endOf_next []
    · rw [hw.endOf_next]
      exact hw'.endOf_next (_ :: newer)

/-- **The words partition the cells from the oldest header on**, whichever of them are hidden. A
cell that is appended, and those by which memory grows, extend the newest word and no other; a
header that is allocated closes it. -/
theorem WellFormed.words_partition (hw : m.WellFormed hs) :
    m.Partitioned hs ∧
    (∀ x, m.ExtendsNewest hs 1 (m.append x)) ∧
    (∀ delta, 0 ≤ delta → m.ExtendsNewest hs delta.toNat (m.resize delta)) ∧
    ∀ name flags, flags ≤ Flags.named →
      m.ClosesNewest hs ⟨m.here, Text.upper name⟩ (m.allocateHeader name flags) := by
  refine ⟨hw.partitioned, fun x => ?_, fun delta hd => ?_,
    fun name flags hf => hw.closesNewest_allocateHeader name hf⟩
  · rw [append_eq_appendAll]
    exact hw.extendsNewest_appendAll [x]
  · have hgrows := hw.extendsNewest_appendAll (List.replicate delta.toNat (.int 0))
    rwa [← resize_of_nonneg hd, List.length_replicate] at hgrows

/-- Three words, of which the second is hidden and the third has nothing but its header. -/
theorem words_partition_hidden :
    let m : Memory := .ofWords [⟨"DUP", 0, [.native .enter]⟩,
      ⟨"SWAP", 2, [.native .enter, .token 4, .int 9]⟩, ⟨"DUP", 1, []⟩]
    let hs : List Header := [⟨11, "DUP"⟩, ⟨5, "SWAP"⟩, ⟨1, "DUP"⟩]
    m.WellFormed hs ∧ m.isHidden (.int 5) = .ok true ∧ m.Partitioned hs ∧
      m.endOf (.int 1) = .ok 5 ∧ m.endOf (.int 5) = .ok 11 ∧ m.endOf (.int 11) = .ok 14 ∧
      m.ExtendsNewest hs 1 (m.append (.native .variable)) ∧ m.ExtendsNewest hs 2 (m.resize 2) ∧
      m.ClosesNewest hs ⟨14, "OVER"⟩ (m.allocateHeader "over" 3) := by
  intro m hs
  have hw : m.WellFormed hs := wellFormed_ofWords _ (by simp) (by decide)
  obtain ⟨hpartitioned, hone, hmore, hcloses⟩ := hw.words_partition
  exact ⟨hw, by decide, hpartitioned, hpartitioned.next [⟨11, "DUP"⟩] ⟨5, "SWAP"⟩ ⟨1, "DUP"⟩ [] rfl,
    hpartitioned.next [] ⟨11, "DUP"⟩ ⟨5, "SWAP"⟩ [⟨1, "DUP"⟩] rfl,
    hpartitioned.newest ⟨11, "DUP"⟩ [⟨5, "SWAP"⟩, ⟨1, "DUP"⟩] rfl,
    hone _, hmore 2 (by decide), hcloses "over" 3 (by decide)⟩

end ThreadedForth.Memory
