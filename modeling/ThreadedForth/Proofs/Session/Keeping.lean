import ThreadedForth.Proofs.Compiler.Keeping
import ThreadedForth.Proofs.Session.Redefinition

/-!
# An independent store

Variables and constants that lines of clauses make and use, one line after the other. At every point
the next line does what its clauses say (`Clause.run`): a variable gives back what was stored in it
last, and a constant what it was made with. The words lie in memory one behind the other, so that a
store changes the cell of its own variable, and nothing else (`Session.keeps_values`).
-/

namespace ThreadedForth

open ThreadedForth.Action

variable {base : Memory} {hs : List Header} {b b' : Bench} {p : Clause} {ps : List Clause}
  {m : Machine}

/-! ## What a line changes -/

/-- The cell at a place holds the value of a variable with this name. -/
def Bench.HoldsAt (b : Bench) (name : String) (i : Nat) : Prop :=
  ∃ e ∈ b.ledger, e.answers name = true ∧ e.keeper = .cell ∧ e.address = i

/-- Variables stay where they are. -/
theorem Bench.HoldsAt.run {name : String} {i : Nat} (h : b.HoldsAt name i)
    (hrun : p.run b = some b') : b'.HoldsAt name i := by
  obtain ⟨e, he, hanswers, hkeeper, haddress⟩ := h
  rcases p.run_cases hrun with heq | ⟨data, _, _, _, -, rfl⟩ | ⟨data, other, _, x, -, -, rfl⟩
  · rw [heq]
    exact ⟨e, he, hanswers, hkeeper, haddress⟩
  · exact ⟨e, List.mem_cons_of_mem _ he, hanswers, hkeeper, haddress⟩
  · obtain ⟨y, he'⟩ := Ledger.mem_update other x he
    exact ⟨_, he', hanswers, hkeeper, haddress⟩

/-- A clause changes no cell that was there, but that of the variable that it stores to. -/
theorem Clause.changes (hb : b.Stands base) (hrun : p.run b = some b') {i : Nat} (hi : i < b.here) :
    (base.withEntries b'.ledger).cells[i]? = (base.withEntries b.ledger).cells[i]? ∨
      ∃ name, p.target? = some name ∧ b'.HoldsAt name i := by
  rcases p.run_cases hrun with
    heq | ⟨data, name, _, _, -, rfl⟩ | ⟨data, name, e, x, htarget, hcell, rfl⟩
  · rw [heq]
    exact .inl rfl
  · exact .inl (Memory.getElem?_addWord_of_lt _ _ (hb.here ▸ hi))
  · obtain ⟨hentry, hkeeper⟩ := Bench.cell?_eq_some_iff.mp hcell
    by_cases heq : e.address = i
    · have hholds : b.HoldsAt name i :=
        ⟨e, Ledger.mem_of_newest? hentry, List.find?_some hentry, hkeeper, heq⟩
      exact .inr ⟨name, htarget, hholds.run hrun⟩
    · rw [← hb.lays.write_withEntries hentry hkeeper x]
      exact .inl (Memory.getElem?_write_of_ne _ heq)

/-- Memory grows with the ledger. -/
theorem Clause.here_le (hrun : p.run b = some b') : b.here ≤ b'.here := by
  rcases p.run_cases hrun with heq | ⟨data, _, _, _, -, rfl⟩ | ⟨data, _, _, _, -, -, rfl⟩
  · rw [heq]
  · simp only [Bench.keep]
    omega
  · exact Nat.le_refl _

theorem Bench.HoldsAt.runAll {name : String} {i : Nat} (h : b.HoldsAt name i)
    (hrun : Line.runAll ps b = some b') : b'.HoldsAt name i := by
  induction ps generalizing b with
  | nil =>
    obtain rfl := Option.some.inj hrun
    exact h
  | cons p ps ih =>
    obtain ⟨b₁, hp, hps⟩ := Line.runAll_cons.mp hrun
    exact ih (h.run hp) hps

/-- Clauses change no cell that was there, but those of the variables that they store to. -/
theorem Line.changes (hb : b.Stands base) (hfits : ∀ p ∈ ps, p.Fits base)
    (hrun : Line.runAll ps b = some b') {i : Nat} (hi : i < b.here) :
    (base.withEntries b'.ledger).cells[i]? = (base.withEntries b.ledger).cells[i]? ∨
      ∃ p ∈ ps, ∃ name, p.target? = some name ∧ b'.HoldsAt name i := by
  induction ps generalizing b with
  | nil =>
    obtain rfl := Option.some.inj hrun
    exact .inl rfl
  | cons p ps ih =>
    obtain ⟨hfirst, hlater⟩ := List.forall_mem_cons.mp hfits
    obtain ⟨b₁, hp, hps⟩ := Line.runAll_cons.mp hrun
    rcases ih (p.stands hb hfirst hp) hlater hps (hi.trans_le (p.here_le hp)) with
      hsame | ⟨q, hq, name, htarget, hholds⟩
    · rcases p.changes hb hp hi with hsame' | ⟨name, htarget, hholds⟩
      · exact .inl (hsame.trans hsame')
      · exact .inr ⟨p, List.mem_cons_self .., name, htarget, hholds.runAll hps⟩
    · exact .inr ⟨q, List.mem_cons_of_mem _ hq, name, htarget, hholds⟩

/-! ## Lines in a row -/

/-- The bench at which a machine stands, before a word was added. -/
def Machine.bench (m : Machine) : Bench := ⟨m.data, m.memory.here, []⟩

theorem Machine.bench_stands (m : Machine) : m.bench.Stands m.memory :=
  ⟨trivial, rfl, by simp [Machine.bench]⟩

/-- The words of a ledger lie behind what was there, each in cells of its own, and by each name the
newest one is found. -/
structure Bench.LiesIn (b : Bench) (base m : Memory) : Prop where
  below : ∀ i < base.here, m.cells[i]? = base.cells[i]?
  behind : ∀ e ∈ b.ledger, base.here ≤ e.header
  apart : b.ledger.Pairwise fun newer older =>
    older.header + 3 + older.cells.length ≤ newer.header
  held : ∀ e ∈ b.ledger, m.HasCode (e.header + headerSize) e.cells
  found : ∀ name e, b.ledger.newest? name = some e → m.find name = .ok (some (.int e.header))

theorem Bench.Stands.liesIn (hw : base.WellFormed hs) (hb : b.Stands base) :
    b.LiesIn base (base.withEntries b.ledger) where
  below _ hi := Memory.getElem?_withEntries_of_lt b.ledger hi
  behind _ he := hb.lays.here_le_header he
  apart := hb.lays.apart
  held _ he := hw.hasCode_withEntries hb.lays he
  found _ _ hentry := hb.find_entry hw hentry

namespace Session

/-- Lines of clauses that are interpreted one after the other leave what comes of them. -/
theorem serve_lines (hw : base.WellFormed hs) (hc : base.CanKeep) (hb : b.Stands base)
    {lines : List Line} (hfits : ∀ l ∈ lines, ∀ p ∈ l.clauses, p.Fits base)
    (hrun : Line.runAll (lines.flatMap Line.clauses) b = some b')
    (hm : m.SettlesIn (b.scene base ['\n']) m) (sink : Sink) :
    ∃ m', m.SettlesIn (b'.scene base ['\n']) m' ∧
      ∃ k, ∀ c ≥ k, serve c (lines.map fun l => .interpret sink l.source) m =
        .ok (lines.map fun _ => .ok "") m' := by
  induction lines generalizing m b with
  | nil =>
    obtain rfl := Option.some.inj hrun
    exact ⟨m, hm, 0, fun _ _ => rfl⟩
  | cons l lines ih =>
    obtain ⟨hfirst, hlater⟩ := List.forall_mem_cons.mp hfits
    rw [List.flatMap_cons] at hrun
    obtain ⟨b₁, hl, hlines⟩ := Line.runAll_append.mp hrun
    obtain ⟨k, htext⟩ :=
      Line.interpretText hw hc hb hfirst hl hm.data hm.memory hm.mode hm.idle sink
    obtain ⟨m₁, hrun₁, hm₁⟩ := htext k (Nat.le_refl k)
    have hsettled : m₁.SettlesIn (b₁.scene base ['\n']) m₁ :=
      ⟨hm₁.data, hm₁.memory, hm₁.mode, rfl, hm₁.idle⟩
    obtain ⟨m', hm', k', hserve⟩ := ih (Line.stands hb hfirst hl) hlater hlines hsettled
    refine ⟨m', { hm' with transcript := hm'.transcript.trans hm₁.transcript }, max k k',
      fun c hcount => ?_⟩
    have hline := (interpretText_approximates (Nat.le_trans (Nat.le_max_left k k') hcount) sink
      l.source).of_ok hrun₁
    exact serve_interpret hline (hserve c (Nat.le_trans (Nat.le_max_right k k') hcount))

/-- **Variables and constants are an independent store.** Whatever lines of clauses were interpreted
before, the next one leaves what comes of it on the data stack and in the ledger, and prints
nothing; it changes no word of the ledger and no cell that was there, but those of the variables
that it stores to. The words of the ledger lie behind what was there at first, each in cells of its
own. -/
theorem keeps_values (hw : m.memory.WellFormed hs) (hc : m.memory.CanKeep)
    (hmode : m.mode = .immediate) (hidle : m.console.source.hasPending = false)
    {before : List Line} {l : Line} (hbefore : ∀ l ∈ before, ∀ p ∈ l.clauses, p.Fits m.memory)
    (hl : ∀ p ∈ l.clauses, p.Fits m.memory)
    (hrun : Line.runAll (before.flatMap Line.clauses) m.bench = some b)
    (hrun' : Line.runAll l.clauses b = some b') (sink : Sink) :
    ∃ m₁ m₂, (∃ k, ∀ c ≥ k, serve c (before.map fun l => .interpret sink l.source) m =
          .ok (before.map fun _ => .ok "") m₁ ∧ interpretText c sink l.source m₁ = .ok "" m₂) ∧
      m₁.data = b.data ∧ b.LiesIn m.memory m₁.memory ∧
      m₂.data = b'.data ∧ b'.LiesIn m.memory m₂.memory ∧
      m₂.console.transcript = m.console.transcript ∧
      (∀ name, (∀ p ∈ l.clauses, ∀ other, p.added? = some other ∨ p.target? = some other →
          Text.upper name ≠ Text.upper other) →
        b'.ledger.newest? name = b.ledger.newest? name) ∧
      ∀ i < m₁.memory.here, m₂.memory.cells[i]? = m₁.memory.cells[i]? ∨
        ∃ p ∈ l.clauses, ∃ name, p.target? = some name ∧ b'.HoldsAt name i := by
  have hsettled : m.SettlesIn (m.bench.scene m.memory ['\n']) m := ⟨rfl, rfl, hmode, rfl, hidle⟩
  obtain ⟨m₁, hm₁, k, hserve⟩ := serve_lines hw hc m.bench_stands hbefore hrun hsettled sink
  have hb : b.Stands m.memory := by
    refine Line.stands m.bench_stands (fun p hp => ?_) hrun
    obtain ⟨l, hmem, hp⟩ := List.mem_flatMap.mp hp
    exact hbefore l hmem p hp
  have hb' : b'.Stands m.memory := Line.stands hb hl hrun'
  obtain ⟨k', htext⟩ :=
    Line.interpretText hw hc hb hl hrun' hm₁.data hm₁.memory hm₁.mode hm₁.idle sink
  obtain ⟨m₂, hline, hm₂⟩ := htext k' (Nat.le_refl k')
  have hmemory₁ : m₁.memory = m.memory.withEntries b.ledger := hm₁.memory
  have hmemory₂ : m₂.memory = m.memory.withEntries b'.ledger := hm₂.memory
  refine ⟨m₁, m₂, ⟨max k k', fun c hcount => ⟨hserve c (by omega), ?_⟩⟩, hm₁.data, ?_, hm₂.data, ?_,
    hm₂.transcript.trans hm₁.transcript, fun name => Line.newest?_runAll hrun', ?_⟩
  · exact (interpretText_approximates (by omega) sink l.source).of_ok hline
  · rw [hmemory₁]
    exact hb.liesIn hw
  · rw [hmemory₂]
    exact hb'.liesIn hw
  · intro i hi
    rw [hmemory₁, ← hb.here] at hi
    rw [hmemory₁, hmemory₂]
    exact Line.changes hb hl hrun' hi

/-- Lines that count in one variable, and keep a text in another one. -/
def tallyLines : List Line :=
  [⟨.cell "Tally", [.cell "Note"]⟩, ⟨.numeral "7", [.constant "SEVEN"]⟩,
    ⟨.numeral "5", [.store "TALLY"]⟩, ⟨.text "hi", [.store "NOTE"]⟩,
    ⟨.numeral "-3", [.add "tally"]⟩]

/-- A line that gets the values back. -/
def tallyLine : Line := ⟨.fetch "TALLY", [.fetch "NOTE", .mention "SEVEN"]⟩

theorem booted_canKeep : Kernel.bootedMemory.CanKeep where
  toHasInterpreter := Kernel.booted_hasCompiler.interpreter
  compileVariable := booted_intact _ (by decide)
  variableWord := ⟨487, by rw [Kernel.booted_wellFormed.find_eq]; decide +kernel, by decide +kernel⟩
  constantWord := ⟨498, by rw [Kernel.booted_wellFormed.find_eq]; decide +kernel, by decide +kernel⟩
  words := by
    have hwords : ∀ p ∈ keepingWords,
        Kernel.bootedMemory.find p.name = .ok (some (.int (Kernel.header p))) := by
      simp only [Kernel.booted_wellFormed.find_eq]
      decide +kernel
    have hcodes : ∀ p ∈ keepingWords, Kernel.bootedMemory.Intact p := by decide +kernel
    exact fun p hp => ⟨Kernel.header p, hwords p hp, hcodes p hp, trivial⟩

/-- The count, the text and the constant come back. -/
theorem tally_is_kept : ∃ b b',
    Kernel.bootedMemory.WellFormed Kernel.bootedHeaders ∧ Kernel.bootedMemory.CanKeep ∧
      (∀ l ∈ tallyLines, ∀ p ∈ l.clauses, p.Fits Kernel.bootedMemory) ∧
      (∀ p ∈ tallyLine.clauses, p.Fits Kernel.bootedMemory) ∧
      Line.runAll (tallyLines.flatMap Line.clauses) ⟨[], 550, []⟩ = some b ∧
      Line.runAll tallyLine.clauses b = some b' ∧
      ∃ m₁ m₂, (∃ k, ∀ c ≥ k, serve c [.interpret .shared "VARIABLE Tally VARIABLE Note",
            .interpret .shared "7 CONSTANT SEVEN", .interpret .shared "5 TALLY !",
            .interpret .shared "S\" hi\" NOTE !", .interpret .shared "-3 tally +!"]
          { memory := Kernel.bootedMemory } = .ok [.ok "", .ok "", .ok "", .ok "", .ok ""] m₁ ∧
        interpretText c .shared "TALLY @ NOTE @ SEVEN" m₁ = .ok "" m₂) ∧
      m₂.data = [.int 7, .text "hi", .int 2] ∧ m₂.memory.get (.int 554) = .ok (.int 2) ∧
      ∀ i < m₁.memory.here, m₂.memory.cells[i]? = m₁.memory.cells[i]? := by
  let start : Machine := { memory := Kernel.bootedMemory }
  let ledger : Ledger := [⟨"SEVEN", 560, .constant, .int 7⟩, ⟨"Note", 555, .cell, .text "hi"⟩,
    ⟨"Tally", 550, .cell, .int 2⟩]
  let b : Bench := ⟨[], 567, ledger⟩
  let b' : Bench := ⟨[.int 7, .text "hi", .int 2], 567, ledger⟩
  have hstart : start.bench = ⟨[], 550, []⟩ := by
    rw [Machine.bench, booted_here]
  have hfits : ∀ l ∈ tallyLines, ∀ p ∈ l.clauses, p.Fits Kernel.bootedMemory := by decide +kernel
  have hfits' : ∀ p ∈ tallyLine.clauses, p.Fits Kernel.bootedMemory := by decide +kernel
  have hrun : Line.runAll (tallyLines.flatMap Line.clauses) ⟨[], 550, []⟩ = some b := by
    decide +kernel
  have hrun' : Line.runAll tallyLine.clauses b = some b' := by decide +kernel
  obtain ⟨m₁, m₂, hserve, -, -, hdata, hlies, -, -, hsame⟩ := keeps_values (m := start)
    Kernel.booted_wellFormed booted_canKeep rfl rfl hfits hfits' (hstart ▸ hrun) hrun' .shared
  refine ⟨b, b', Kernel.booted_wellFormed, booted_canKeep, hfits, hfits', hrun, hrun', m₁, m₂,
    hserve, hdata, ?_, fun i hi => ?_⟩
  · exact (hlies.held ⟨"Tally", 550, .cell, .int 2⟩ (by decide)).2.1
  · refine (hsame i hi).resolve_right ?_
    rintro ⟨p, hp, name, htarget, -⟩
    have hnone : ∀ p ∈ tallyLine.clauses, p.target? = none := by decide
    rw [hnone p hp] at htarget
    cases htarget

/-- Texts that are interpreted one after the other, and end well, lead to a machine. -/
def Leads (m : Machine) : List String → Machine → Prop
  | [], m' => m' = m
  | text :: texts, m' => ∃ bound out m₁, interpretText bound .shared text m = .ok out m₁ ∧
      Leads m₁ texts m'

/-- With this bound the texts come to an end, but not with this data stack. -/
def misses (bound : Nat) (data : List Cell) : List String → Machine → Bool
  | [], m => m.data ≠ data
  | text :: texts, m =>
    match interpretText bound .shared text m with
    | .ok _ m₁ => misses bound data texts m₁
    | .error stop _ => stop ≠ .exhausted

theorem not_leads_of_misses {bound : Nat} {data : List Cell} {texts : List String}
    (h : misses bound data texts m = true) : ¬ ∃ m', Leads m texts m' ∧ m'.data = data := by
  induction texts generalizing m with
  | nil =>
    rintro ⟨m', rfl, hdata⟩
    exact of_decide_eq_true h hdata
  | cons text texts ih =>
    rintro ⟨m', ⟨b, out, m₁, hrun, hleads⟩, hdata⟩
    have hends : ∀ m₂, interpretText bound .shared text m ≠ .error .exhausted m₂ := by
      intro m₂ hstop
      rw [misses, hstop] at h
      exact Bool.false_ne_true h
    have hsame := (interpretText_unique hends fun m₂ => by rw [hrun]; simp).trans hrun
    rw [misses, hsame] at h
    exact ih h ⟨m', hleads, hdata⟩


open Kernel in
/-- The memory that the bootstrap leaves, with all but five words taken out of the chain of
headers. -/
def prunedMemory : Memory :=
  (((bootedMemory.write 543 (.int 487)).write 487 (.int (header (.memory .store)))).write
    (header (.memory .store)).toNat (.int (header (.memory .fetch)))).write
    (header (.memory .fetch)).toNat (.int 1)

/-- The headers in it. -/
def prunedHeaders : List Header :=
  [⟨543, "?"⟩, ⟨487, "VARIABLE"⟩, ⟨189, "!"⟩, ⟨185, "@"⟩, ⟨1, "EXIT"⟩]

/-- Machines with a well-formed dictionary that do not give back what is stored in a variable: the
words are compiled; a line waits that fails; `@` is another word, or the numeral is one; the code
field of `QUIT` is written over. -/
def forgetfulMachines : List Machine :=
  [{ memory := prunedMemory, mode := .compile },
    { memory := prunedMemory, console := { source := { pending := ["@"] } } },
    { memory := prunedMemory.define (.colon "@" "" .empty) },
    { memory := prunedMemory.define (.colon "5" "" .empty) },
    { memory := prunedMemory.write 363 (.int 0) }]

theorem pruned_wellFormed : prunedMemory.WellFormed prunedHeaders := by
  have hcells : ∀ h ∈ prunedHeaders, prunedMemory.cells[h.addr + 1]? = some (.text h.name) ∧
      prunedMemory.cells[h.addr + 2]? = some (.flags 0) := by decide +kernel
  have hheader (h : Header) (link : Cell) (hh : h ∈ prunedHeaders)
      (hlink : 1 ≤ h.addr ∧ prunedMemory.cells[h.addr]? = some link) :
      prunedMemory.HasHeader h link :=
    ⟨hlink.1, hlink.2, (hcells h hh).1, 0, by decide, (hcells h hh).2⟩
  refine ⟨by decide +kernel, by decide +kernel, ?_⟩
  refine .cons (hheader _ _ (by simp [prunedHeaders]) (by decide +kernel)) (by decide) ?_
  refine .cons (hheader _ _ (by simp [prunedHeaders]) (by decide +kernel)) (by decide) ?_
  refine .cons (hheader _ _ (by simp [prunedHeaders]) (by decide +kernel)) (by decide) ?_
  refine .cons (hheader _ _ (by simp [prunedHeaders]) (by decide +kernel)) (by decide) ?_
  exact .cons (hheader _ _ (by simp [prunedHeaders]) (by decide +kernel)) (by decide) .nil

theorem forgetfulMachines_miss : forgetfulMachines.Forall fun m =>
    misses 30 [.int 5] ["VARIABLE X", "5 X !", "X @"] m = true :=
  ⟨by decide +kernel, by decide +kernel, by decide +kernel, by decide +kernel, by decide +kernel⟩

theorem values_are_lost : forgetfulMachines.Forall fun m => (∃ hs, m.memory.WellFormed hs) ∧
    ¬ ∃ m', Leads m ["VARIABLE X", "5 X !", "X @"] m' ∧ m'.data = [.int 5] := by
  rw [List.forall_iff_forall_mem]
  refine fun m hm => ⟨?_, not_leads_of_misses
    (List.forall_iff_forall_mem.mp forgetfulMachines_miss m hm)⟩
  have hquit : ∀ h ∈ prunedHeaders, 363 < h.addr ∨ h.addr + 3 ≤ 363 := by decide
  simp only [forgetfulMachines, List.mem_cons, List.not_mem_nil, or_false] at hm
  rcases hm with rfl | rfl | rfl | rfl | rfl
  · exact ⟨_, pruned_wellFormed⟩
  · exact ⟨_, pruned_wellFormed⟩
  · exact ⟨_, pruned_wellFormed.define _⟩
  · exact ⟨_, pruned_wellFormed.define _⟩
  · exact ⟨_, pruned_wellFormed.write _ hquit⟩

end Session

end ThreadedForth
