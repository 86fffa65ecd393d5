import Mathlib.Tactic.IntervalCases
import ThreadedForth.Proofs.Compiler.Pass
import ThreadedForth.Proofs.Compiler.Stray
import ThreadedForth.Proofs.Session.Record

/-!
# Open definitions are not visible

In an orderly session, the header of a definition that is not closed is hidden (`serve_hides_open`).
The invariant of the run is `Veiled`: every open header is hidden, and one that was abandoned stays
open, since it is not the newest header by the time that something is compiled again. What `:` and
`;` have done so far in a pass that is under way is kept beside it (`Underway`), so that `HIDDEN` is
known to hide the new header, and `REVEAL` to reveal the newest one.
-/

namespace ThreadedForth

open ThreadedForth.Action ThreadedForth.Course ThreadedForth.Recorded

/-! ## The invariant -/

/-- Open headers are hidden, and abandoned ones are open. -/
structure Veiled (past : List Event) (m : Machine) : Prop where
  hidden : ∀ h : Nat, Open h past → m.memory.isHidden (.int h) = .ok true
  latest : ∀ h, Open h past → ∃ l, m.memory.latest = some l
  abandoned : ∀ h : Nat, Abandoned h past →
    Open h past ∧ (m.mode = .immediate ∨ m.memory.latest ≠ some (h : Int))

/-- The newest header is that of no open definition. -/
structure NewHeader (past : List Event) (m : Memory) (hidden : Bool) (l : Nat) : Prop where
  latest : m.latest = some (l : Int)
  isHidden : m.isHidden (.int l) = .ok hidden
  notOpen : ¬ Open l past

/-- What `:` or `;` has done by now, if the last events are a part of it. -/
structure Underway (past : List Event) (m : Machine) : Prop where
  made : ∀ k, 2 ≤ k → k ≤ 6 → colon.Passes k past →
    ∃ l, NewHeader past m.memory (decide (5 ≤ k)) l ∧ (k = 4 → ∃ data, m.data = .int l :: data)
  compiling : ∀ k, 1 ≤ k → k ≤ 4 → semicolon.Passes k past →
    m.mode = .compile ∧ (k = 4 → ∃ data, m.data = .int (m.memory.latest.getD 0) :: data)

/-- The last event is no part of `:` or `;`. -/
def Idle (past : List Event) : Prop :=
  ∀ k, ¬ colon.Passes (k + 1) past ∧ ¬ semicolon.Passes (k + 1) past

theorem Idle.underway {past : List Event} (h : Idle past) (m : Machine) : Underway past m where
  made k hlow _ hp := by
    obtain ⟨j, rfl⟩ : ∃ j, k = j + 1 := ⟨k - 1, by omega⟩
    exact absurd hp (h j).1
  compiling k hlow _ hp := by
    obtain ⟨j, rfl⟩ : ∃ j, k = j + 1 := ⟨k - 1, by omega⟩
    exact absurd hp (h j).2

/-- Words that run other words, and events without a behaviour, are no part of a pass. -/
theorem idle_of_runsWords {e : Event} {past : List Event}
    (h : ∀ n, e.behaviour = some n → n.runsWords = true) : Idle (e :: past) := by
  have halone : ∀ s ∈ colon.steps ++ semicolon.steps, s.2.runsWords = false := by decide
  intro k
  constructor
  · intro hp
    obtain ⟨s, hs, hb⟩ := hp.behaviour
    exact absurd (h s.2 hb) (by simp [halone s (List.mem_append_left _ hs)])
  · intro hp
    obtain ⟨s, hs, hb⟩ := hp.behaviour
    exact absurd (h s.2 hb) (by simp [halone s (List.mem_append_right _ hs)])

/-! ## Open headers and alterations of the memory -/

section Alterations

variable {x : Cell} {m : Machine} {n : Native} {memory : Memory} {past : List Event} {h : Nat}

/-- Only a new header changes which one is the newest. -/
theorem Native.Alters.latest_eq (ha : n.Alters m memory) :
    memory.latest = m.memory.latest ∨
      n = .primitive (.compiler .create) ∧ memory.latest = some (m.memory.here : Int) := by
  have hchange {header : Cell} {f : Nat → Nat} {memory : Memory}
      (h : m.memory.changeFlags header f = .ok memory) : memory.latest = m.memory.latest := by
    obtain ⟨i, k, -, rfl⟩ := Memory.changeFlags_eq_ok_iff.mp h
    rfl
  cases ha with
  | keeps => exact .inl rfl
  | appends => exact .inl rfl
  | creates name => exact .inr ⟨rfl, rfl⟩
  | stores => exact .inl rfl
  | allots =>
    rw [Memory.resize]
    split
    · exact .inl rfl
    · exact .inl rfl
  | hides _ h => exact .inl (hchange h)
  | reveals _ h => exact .inl (hchange h)
  | immediates _ h => exact .inl (hchange h)

/-- A cell that is spared stays as it is, unless flags are changed that lie in it. -/
theorem Native.Alters.cell_eq (ha : n.Alters m memory) (hb : m.behaviour x = some n) {i : Nat}
    (hin : i < m.memory.here) {start stop : Int} (hspares : (Event.entry x m).Spares start stop)
    (hstart : start ≤ i) (hstop : i < stop)
    (hflags : n = .primitive (.compiler .hidden) ∨ n = .primitive (.compiler .reveal) →
      ∀ header data, m.data = header :: data → ∀ a, header.number? = some a → a + 2 ≠ i)
    (himmediate : n = .primitive (.compiler .immediate) →
      ∀ l, m.memory.latest = some l → l + 2 ≠ i) : memory.cells[i]? = m.memory.cells[i]? := by
  have hoperand {y : Cell} {data : List Cell} (hdata : m.data = y :: data) :
      (Event.entry x m).operand = y.int? := by
    simp [Event.operand, Event.machine, hdata]
  have hchange {header : Cell} {f : Nat → Nat} {memory : Memory}
      (h : m.memory.changeFlags header f = .ok memory)
      (hne : ∀ a, header.number? = some a → a + 2 ≠ i) :
      memory.cells[i]? = m.memory.cells[i]? := by
    obtain ⟨j, k, ⟨⟨a, ha, hj⟩, -⟩, rfl⟩ := Memory.changeFlags_eq_ok_iff.mp h
    refine Memory.getElem?_write_of_ne _ ?_
    rintro rfl
    exact hne a ha hj
  cases ha with
  | keeps => rfl
  | appends n xs => exact Memory.getElem?_appendAll_of_lt xs hin
  | creates name => exact Memory.getElem?_appendAll_of_lt _ hin
  | @stores w addr data j y hw hdata hj =>
    obtain ⟨hint, -⟩ := Memory.index_eq_ok_iff.mp hj
    have hout := (hspares j (by rw [hoperand hdata, hint]; rfl)).1 <| by
      rcases hw with rfl | rfl
      · exact .inl hb
      · exact .inr hb
    exact Memory.getElem?_write_of_ne y (by omega)
  | @allots y data delta hdata hy =>
    by_cases hd : 0 ≤ delta
    · rw [Memory.resize_of_nonneg hd]
      exact Memory.getElem?_appendAll_of_lt _ hin
    · have hkept : stop ≤ (m.memory.resize delta).here :=
        (hspares delta (by rw [hoperand hdata, hy]; rfl)).2 hb
      exact Memory.getElem?_resize_of_neg (by omega) (by omega)
  | hides hdata h => exact hchange h (hflags (.inl rfl) _ _ hdata)
  | reveals hdata h => exact hchange h (hflags (.inr rfl) _ _ hdata)
  | immediates hlatest h =>
    refine hchange h fun a ha => ?_
    obtain rfl := Option.some.inj ha
    exact himmediate rfl _ hlatest

/-- A hidden header that is spared stays hidden, unless its flags are changed by a word for that. -/
theorem Native.Alters.isHidden (ha : n.Alters m memory) (hb : m.behaviour x = some n)
    {hidden : Bool} (hh : m.memory.isHidden (.int h) = .ok hidden)
    (hspares : (Event.entry x m).Spares h (h + 3))
    (hflags : n = .primitive (.compiler .hidden) ∨ n = .primitive (.compiler .reveal) →
      ∀ header data, m.data = header :: data → header.number? ≠ some (h : Int)) :
    memory.isHidden (.int h) = .ok hidden := by
  by_cases hn : n = .primitive (.compiler .immediate)
  · subst hn
    cases ha with
    | keeps => exact hh
    | appends n xs => exact Memory.isHidden_appendAll hh xs
    | immediates _ hchange => exact Memory.isHidden_of_immediate hh hchange
  · refine Memory.isHidden_of_cell hh fun i k hhas => ?_
    obtain ⟨a, ha', hi⟩ := hhas.place
    obtain rfl : (h : Int) = a := Option.some.inj ha'
    refine ha.cell_eq hb hhas.lt_here hspares (by omega) (by omega) (fun hn header data hdata a ha => ?_)
      fun hn' => absurd hn' hn
    intro heq
    exact hflags hn header data hdata (by rw [ha]; congr 1; omega)

end Alterations

/-! ## Steps -/

section Steps

variable {x : Cell} {m m' : Machine} {n : Native} {past : List Event} {h k : Nat}

/-- Only the `EXIT` of `:` opens a definition. -/
theorem Open.of_cons {e : Event} (ho : Open h (e :: past))
    (hne : e.behaviour ≠ some (.primitive (.thread .exit))) : Open h past := by
  cases ho with
  | opened hpass _ =>
    obtain ⟨-, s, hs, hb, -⟩ := hpass
    obtain rfl := Option.some.inj hs
    exact absurd hb hne
  | stays hopen _ _ => exact hopen

/-- The header of an open definition lies in memory. -/
theorem Veiled.lt_here (hv : Veiled past m) (ho : Open h past) : h + 2 < m.memory.here := by
  obtain ⟨i, k, hhas, -⟩ := Memory.isHidden_eq_ok_iff.mp (hv.hidden h ho)
  obtain ⟨a, ha, hi⟩ := hhas.place
  obtain rfl : (h : Int) = a := Option.some.inj ha
  have := hhas.lt_here
  omega

/-- What `HIDDEN` and `REVEAL` are given in an orderly run is not the header of an open definition,
unless `;` closes it. -/
theorem Underway.operand_ne (hu : Underway past m) (hproper : (Event.entry x m).Proper past)
    (hb : m.behaviour x = some n) (ho : Open h past) (hclose : ¬ (Event.entry x m).Closes h)
    (hlatest : ∃ l, m.memory.latest = some l)
    (hn : n = .primitive (.compiler .hidden) ∨ n = .primitive (.compiler .reveal)) :
    ∀ header data, m.data = header :: data → header.number? ≠ some (h : Int) := by
  intro header data hdata hheader
  rcases hn with rfl | rfl
  · obtain ⟨hpass, -⟩ := hproper.hides hb
    obtain ⟨l, hnew, htop⟩ := hu.made 4 (by omega) (by omega) hpass
    obtain ⟨data', htop⟩ := htop rfl
    rw [hdata, List.cons.injEq] at htop
    obtain ⟨rfl, -⟩ := htop
    obtain rfl : l = h := by
      have : (l : Int) = h := Option.some.inj hheader
      omega
    exact hnew.notOpen ho
  · obtain ⟨hpass, -⟩ := hproper.reveals hb
    obtain ⟨hmode, htop⟩ := hu.compiling 4 (by omega) (by omega) hpass
    obtain ⟨data', htop⟩ := htop rfl
    obtain ⟨l, hlatest⟩ := hlatest
    rw [hdata, hlatest, List.cons.injEq] at htop
    obtain ⟨rfl, -⟩ := htop
    have hl : l = (h : Int) := Option.some.inj hheader
    exact hclose ⟨hb, hmode, hlatest.trans (congrArg some hl)⟩

/-- **A dispatch keeps open headers hidden.** -/
theorem Veiled.entry (hv : Veiled past m) (hu : Underway past m)
    (hproper : (Event.entry x m).Proper past) (hb : m.behaviour x = some n)
    (ha : n.Alters m m'.memory)
    (hmode : n ≠ .primitive (.compiler .rightBracket) → m'.mode = m.mode ∨ m'.mode = .immediate) :
    Veiled (.entry x m :: past) m' := by
  have hstays (h : Nat) (ho : Open h past) (hspares : (Event.entry x m).Spares h (h + 3))
      (hclose : ¬ (Event.entry x m).Closes h) : m'.memory.isHidden (.int h) = .ok true :=
    ha.isHidden hb (hv.hidden h ho) hspares
      (hu.operand_ne hproper hb ho hclose (hv.latest h ho))
  have hlatest (l : Int) (hl : m.memory.latest = some l) : ∃ l, m'.memory.latest = some l := by
    rcases ha.latest_eq with hsame | ⟨-, hnew⟩
    · exact ⟨l, hsame.trans hl⟩
    · exact ⟨_, hnew⟩
  refine ⟨fun h ho => ?_, fun h ho => ?_, fun h habandoned => ?_⟩
  · cases ho with
    | opened hpass hnewest =>
      -- the definition is opened now: `:` has hidden the newest header
      obtain ⟨hbefore, s, hs, hexit, -⟩ := hpass
      obtain rfl := Option.some.inj hs
      obtain rfl : n = .primitive (.thread .exit) := Option.some.inj (hb.symm.trans hexit)
      obtain ⟨l, hnew, -⟩ := hu.made 6 (by omega) (by omega) hbefore
      obtain rfl : l = h := by
        have hl : some (l : Int) = some (h : Int) := hnew.latest.symm.trans hnewest
        exact_mod_cast Option.some.inj hl
      have hspares : (Event.entry x m).Spares l (l + 3) := by
        intro i _
        simp [hexit]
      exact ha.isHidden hb hnew.isHidden hspares (by simp)
    | stays hopen hspares hclose => exact hstays h hopen hspares hclose
  · cases ho with
    | opened _ hnewest => exact hlatest _ hnewest
    | stays hopen _ _ =>
      obtain ⟨l, hl⟩ := hv.latest h hopen
      exact hlatest l hl
  · cases habandoned with
    | stays habandoned hspares =>
      obtain ⟨hopen, hor⟩ := hv.abandoned h habandoned
      have hclose : ¬ (Event.entry x m).Closes h := by
        rintro ⟨-, hcompile, hnewest⟩
        rcases hor with himmediate | hne
        · exact absurd (himmediate.symm.trans hcompile) (by decide)
        · exact hne hnewest
      refine ⟨.stays hopen hspares hclose, ?_⟩
      by_cases hn : n = .primitive (.compiler .rightBracket)
      · -- `]` is a part of `:`, which has made a newer header
        subst hn
        obtain ⟨hpass, -⟩ := hproper.compiles hb
        obtain ⟨l, hnew, -⟩ := hu.made 5 (by omega) (by omega) hpass
        have hsame : m'.memory.latest = m.memory.latest := ha.latest_eq.resolve_right (by simp)
        refine .inr fun hnewest => ?_
        rw [hsame, hnew.latest, Option.some.injEq] at hnewest
        obtain rfl : l = h := by exact_mod_cast hnewest
        exact hnew.notOpen hopen
      · rcases hor with himmediate | hne
        · exact .inl ((hmode hn).elim (·.trans himmediate) id)
        · refine .inr fun hnewest => ?_
          rcases ha.latest_eq with hsame | ⟨-, hhere⟩
          · exact hne (hsame.symm.trans hnewest)
          · have hlt := hv.lt_here hopen
            rw [hhere, Option.some.injEq] at hnewest
            omega

/-- **A dispatch that spares the kernel keeps it**: flags are changed above it only. -/
theorem Memory.OnKernel.entry (hk : m.memory.OnKernel) (hu : Underway past m)
    (hproper : (Event.entry x m).Proper past) (hb : m.behaviour x = some n)
    (ha : n.Alters m m'.memory) (hspares : (Event.entry x m).Spares 0 Kernel.memory.here) :
    m'.memory.OnKernel := by
  obtain ⟨l, hlatest, hl⟩ := hk.latest
  have hhere := hk.here_le
  refine ⟨fun i hi => ?_, ?_⟩
  · refine Eq.trans (ha.cell_eq hb (by omega) hspares (by omega) (by omega) ?_ ?_) (hk.cells i hi)
    · -- what `HIDDEN` and `REVEAL` are given is the newest header
      intro hn header data hdata a ha
      have hheader : header = .int l := by
        rcases hn with rfl | rfl
        · obtain ⟨l', hnew, htop⟩ := hu.made 4 (by omega) (by omega) (hproper.hides hb).1
          obtain ⟨data', htop⟩ := htop rfl
          rw [(List.cons.inj (hdata.symm.trans htop)).1]
          exact congrArg Cell.int (Option.some.inj (hnew.latest.symm.trans hlatest))
        · obtain ⟨-, htop⟩ := hu.compiling 4 (by omega) (by omega) (hproper.reveals hb).1
          obtain ⟨data', htop⟩ := htop rfl
          rw [(List.cons.inj (hdata.symm.trans htop)).1, hlatest]
          rfl
      rw [hheader] at ha
      obtain rfl : l = a := Option.some.inj ha
      omega
    · intro _ l' hl'
      obtain rfl : l = l' := Option.some.inj (hlatest.symm.trans hl')
      omega
  · rcases ha.latest_eq with hsame | ⟨-, hnew⟩
    · exact ⟨l, hsame.trans hlatest, hl⟩
    · exact ⟨_, hnew, by omega⟩

/-- Nothing that happens in between makes a difference to open headers, as long as the memory stays
as it is and nothing begins to be compiled. -/
theorem Veiled.other {e : Event} (hv : Veiled past m) (he : e.behaviour = none)
    (hmemory : m'.memory = m.memory) (hmode : m'.mode = m.mode ∨ m'.mode = .immediate)
    (hfault : (∃ f m, e = .fault f m) → m'.mode = .immediate) : Veiled (e :: past) m' := by
  have hexit : e.behaviour ≠ some (.primitive (.thread .exit)) := by simp [he]
  refine ⟨fun h ho => ?_, fun h ho => ?_, fun h habandoned => ?_⟩
  · rw [hmemory]
    exact hv.hidden h (ho.of_cons hexit)
  · rw [hmemory]
    exact hv.latest h (ho.of_cons hexit)
  · cases habandoned with
    | fault hopen => exact ⟨hopen.of_behaviour_none he, .inl (hfault ⟨_, _, rfl⟩)⟩
    | stays habandoned _ =>
      obtain ⟨hopen, hor⟩ := hv.abandoned h habandoned
      refine ⟨hopen.of_behaviour_none he, ?_⟩
      rw [hmemory]
      rcases hor with himmediate | hne
      · exact .inl (hmode.elim (·.trans himmediate) id)
      · exact .inr hne

/-- Neither does what is appended to the memory, or the way back to immediate mode. -/
theorem Veiled.append (hv : Veiled past m) {xs : List Cell}
    (hmemory : m'.memory = m.memory.appendAll xs)
    (hmode : m'.mode = m.mode ∨ m'.mode = .immediate) : Veiled past m' where
  hidden h ho := by
    rw [hmemory]
    exact Memory.isHidden_appendAll (hv.hidden h ho) xs
  latest h ho := by
    rw [hmemory]
    exact hv.latest h ho
  abandoned h ha := by
    obtain ⟨hopen, hor⟩ := hv.abandoned h ha
    refine ⟨hopen, ?_⟩
    rw [hmemory]
    rcases hor with himmediate | hne
    · exact .inl (hmode.elim (·.trans himmediate) id)
    · exact .inr hne

/-! ## What `:` and `;` do -/

theorem NewHeader.entry {memory memory' : Memory} {hidden hidden' : Bool} {l : Nat}
    (hnew : NewHeader past memory hidden l) (hb : m.behaviour x = some n)
    (hexit : n ≠ .primitive (.thread .exit)) (hlatest : memory'.latest = memory.latest)
    (hhidden : memory'.isHidden (.int l) = .ok hidden') :
    NewHeader (.entry x m :: past) memory' hidden' l where
  latest := hlatest.trans hnew.latest
  isHidden := hhidden
  notOpen ho := hnew.notOpen (ho.of_cons (by
    intro h
    exact hexit (Option.some.inj (hb.symm.trans h))))

/-- **A dispatch carries a pass of `:` or `;` on**, if it is a part of one. -/
theorem Underway.entry (hv : Veiled past m) (hu : Underway past m) (hb : m.behaviour x = some n)
    {addr code : Int} {log : List LogRecord}
    (hrun : n.alone addr { m with current := some code, log := log } = .ok () m')
    (hn : n.runsWords = false) : Underway (.entry x m :: past) m' := by
  have hstep {c : Course} {k : Nat} (hp : c.Passes (k + 1) (.entry x m :: past)) :
      c.Passes k past ∧ ∃ s, c.steps[k]? = some s ∧ n = s.2 := by
    obtain ⟨hpass, s, hs, hs', -⟩ := hp
    exact ⟨hpass, s, hs, Option.some.inj (hb.symm.trans hs')⟩
  refine ⟨fun k hlow hhigh hp => ?_, fun k hlow hhigh hp => ?_⟩
  · obtain ⟨j, rfl⟩ : ∃ j, k = j + 1 := ⟨k - 1, by omega⟩
    obtain ⟨hpass, s, hs, rfl⟩ := hstep hp
    have hj : 1 ≤ j := by omega
    have hj' : j ≤ 5 := by omega
    interval_cases j
    · -- `CREATE` makes the header
      obtain rfl := Option.some.inj hs
      obtain ⟨name, data, rfl⟩ := CompilerWord.create_ok hrun
      refine ⟨m.memory.here, ⟨rfl, ?_, fun ho => ?_⟩, by simp⟩
      · have hcell : (m.memory.allocateHeader name 0).cells[m.memory.here + 2]? = some (.flags 0) :=
          Memory.getElem?_appendAll_here m.memory _ 2
        exact Memory.isHidden_eq_ok_iff.mpr ⟨m.memory.here + 2, 0, ⟨⟨_, rfl, rfl⟩, _, hcell, rfl⟩, rfl⟩
      · have hlt := hv.lt_here (ho.of_cons (by simp [Event.behaviour, hb]))
        omega
    · -- `DOCOL,` appends a code field
      obtain rfl := Option.some.inj hs
      obtain ⟨l, hnew, -⟩ := hu.made 2 (by omega) (by omega) hpass
      cases hrun
      refine ⟨l, ?_, by simp⟩
      exact hnew.entry hb (by simp) rfl (Memory.isHidden_append hnew.isHidden _)
    · -- `LATEST` pushes its address
      obtain rfl := Option.some.inj hs
      obtain ⟨l, hnew, -⟩ := hu.made 3 (by omega) (by omega) hpass
      cases hrun
      refine ⟨l, ?_, fun _ => ⟨m.data, ?_⟩⟩
      · exact hnew.entry hb (by simp) rfl hnew.isHidden
      · simp [hnew.latest]
    · -- `HIDDEN` hides it
      obtain rfl := Option.some.inj hs
      obtain ⟨l, hnew, htop⟩ := hu.made 4 (by omega) (by omega) hpass
      obtain ⟨header, data, memory, hdata, hchange, rfl⟩ := CompilerWord.hidden_ok hrun
      obtain ⟨data', htop⟩ := htop rfl
      obtain rfl : header = .int l := (List.cons.inj (hdata.symm.trans htop)).1
      refine ⟨l, hnew.entry hb (by simp) ?_ (Memory.isHidden_of_hide hnew.isHidden hchange), by simp⟩
      obtain ⟨i, k, -, rfl⟩ := Memory.changeFlags_eq_ok_iff.mp hchange
      rfl
    · -- `]` leaves it as it is
      obtain rfl := Option.some.inj hs
      obtain ⟨l, hnew, -⟩ := hu.made 5 (by omega) (by omega) hpass
      cases hrun
      refine ⟨l, ?_, by simp⟩
      exact hnew.entry hb (by simp) rfl hnew.isHidden
  · obtain ⟨j, rfl⟩ : ∃ j, k = j + 1 := ⟨k - 1, by omega⟩
    obtain ⟨hpass, s, hs, rfl⟩ := hstep hp
    have hj : j ≤ 3 := by omega
    interval_cases j
    · -- `?COMP` checks that a word is being compiled
      obtain rfl := Option.some.inj hs
      obtain ⟨hmode, rfl⟩ := CompilerWord.whenCompiling_ok hrun
      exact ⟨hmode, by simp⟩
    · obtain rfl := Option.some.inj hs
      have hmode := (Native.alone_mode hn (by simp) (by simp) addr).of_ok hrun
      exact ⟨hmode.trans (hu.compiling 1 (by omega) (by omega) hpass).1, by simp⟩
    · obtain rfl := Option.some.inj hs
      have hmode := (Native.alone_mode hn (by simp) (by simp) addr).of_ok hrun
      exact ⟨hmode.trans (hu.compiling 2 (by omega) (by omega) hpass).1, by simp⟩
    · -- `LATEST` pushes the address of the newest header
      obtain rfl := Option.some.inj hs
      cases hrun
      exact ⟨(hu.compiling 3 (by omega) (by omega) hpass).1, fun _ => ⟨m.data, rfl⟩⟩

end Steps

end ThreadedForth
