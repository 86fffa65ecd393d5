import ThreadedForth.Proofs.Compiler.Booted
import ThreadedForth.Proofs.Compiler.Defining
import ThreadedForth.Proofs.Session.Record
import ThreadedForth.Proofs.Session.Texts
import ThreadedForth.Proofs.Structured.Execution
import ThreadedForth.Proofs.Structured.Extension

/-!
# Definitions that reuse names

Code refers to words by address, and definitions put their words behind all that was there. So a
word that was compiled goes on to do what it did, whatever its name and the names of the words in it
come to stand for (`Session.redefinition_keeps_words`). A search by name gives the word that was
defined last.
-/

namespace ThreadedForth

open ThreadedForth.Action

/-! ## Definitions in a row -/

/-- The memory with the words of definitions at its end, in order. -/
def Memory.defineAll (m : Memory) : List Definition → Memory
  | [] => m
  | d :: ds => (m.define d).defineAll ds

/-- Definitions can be made one after the other: each of them fits where it stands. -/
def Memory.Admits (m : Memory) : List Definition → Prop
  | [] => True
  | d :: ds => d.Fits m ∧ (m.define d).Admits ds

namespace Memory

variable {m : Memory} {hs : List Header} {d : Definition} {ds before later : List Definition}
  {name : String}

theorem defineAll_append (m : Memory) (before later : List Definition) :
    m.defineAll (before ++ later) = (m.defineAll before).defineAll later := by
  induction before generalizing m with
  | nil => rfl
  | cons d ds ih => exact ih (m.define d)

theorem WellFormed.defineAll (hw : m.WellFormed hs) (ds : List Definition) :
    ∃ hs', (m.defineAll ds).WellFormed hs' := by
  induction ds generalizing m hs with
  | nil => exact ⟨hs, hw⟩
  | cons d ds ih => exact ih (hw.define d)

theorem here_le_defineAll (m : Memory) (ds : List Definition) :
    m.here ≤ (m.defineAll ds).here := by
  induction ds generalizing m with
  | nil => exact Nat.le_refl _
  | cons d ds ih =>
    have hle : m.here ≤ (m.define d).here := by
      rw [here_define]
      omega
    exact hle.trans (ih (m.define d))

/-- The cells that were there stay. -/
theorem getElem?_defineAll_of_lt (ds : List Definition) {i : Nat} (hi : i < m.here) :
    (m.defineAll ds).cells[i]? = m.cells[i]? := by
  induction ds generalizing m with
  | nil => rfl
  | cons d ds ih =>
    have hlt : i < (m.define d).here := by
      rw [here_define]
      omega
    exact (ih hlt).trans (getElem?_define_of_lt d hi)

theorem WellFormed.extends_defineAll (hw : m.WellFormed hs) (ds : List Definition) :
    (m.defineAll ds).Extends m where
  retains addr x hx := by
    obtain ⟨i, hi, hcell⟩ := get_eq_ok_iff.mp hx
    have hlt : i < m.here := (Array.getElem?_eq_some_iff.mp hcell).1
    exact get_eq_ok_iff.mpr ⟨i, hi, (getElem?_defineAll_of_lt ds hlt).trans hcell⟩
  labelled := by
    obtain ⟨hs', hw'⟩ := hw.defineAll ds
    exact hw'.label_eq_ok

/-- By a name that no definition reuses, what was found before is found. -/
theorem WellFormed.find_defineAll_of_ne (hw : m.WellFormed hs)
    (hnames : ∀ d ∈ ds, Text.upper name ≠ Text.upper d.name) :
    (m.defineAll ds).find name = m.find name := by
  induction ds generalizing m hs with
  | nil => rfl
  | cons d ds ih =>
    obtain ⟨hname, hlater⟩ := List.forall_mem_cons.mp hnames
    exact (ih (hw.define d) hlater).trans (hw.find_define_of_ne hname)

/-- By a name that definitions reuse, the word is found that the last of them makes. -/
theorem WellFormed.find_defineAll (hw : m.WellFormed hs) {header : Int}
    (hheader : header = (m.defineAll before).here)
    (hlater : ∀ e ∈ later, Text.upper d.name ≠ Text.upper e.name) :
    (m.defineAll (before ++ d :: later)).Names d.name header (d.cells header) := by
  obtain ⟨hs', hw'⟩ := hw.defineAll before
  rw [hheader, defineAll_append, Memory.defineAll]
  refine ⟨((hw'.define d).find_defineAll_of_ne hlater).trans (hw'.find_define rfl), ?_⟩
  exact ((hw'.define d).extends_defineAll later).hasCode (hasCode_define _ d)

end Memory

/-! ## What a word does -/

/-- With these cells on the data stack, to execute a word comes to this end, leaves this data stack
and prints these texts. -/
def Machine.Gives (m : Machine) (x : Cell) (data : List Cell) (outcome : Except Fault Unit)
    (final : List Cell) (texts : List String) : Prop :=
  ∃ bound m', m'.data = final ∧ m'.console = m.console.printing texts ∧
    execute bound x { m with data := data } = endsIn outcome m'

section Words

variable {p : Program} {m : Machine} {code : Int} {data final : List Cell}
  {outcome : Except Fault Unit} {texts : List String}

/-- How a body goes on, told by the end of its run. -/
def Status.ofOutcome : Except Fault Unit → Status
  | .ok () => .running
  | .error f => .failed f

/-- A word does what it means. -/
theorem gives_iff_means (hp : p.HeldBy m.memory) (ht : Traceable m) (hcode : p code ≠ none) :
    m.Gives (.token code) data outcome final texts ↔
      Means p code (.call code) (.start data) ⟨.ofOutcome outcome, final, texts⟩ := by
  have hmeans := execute_means (m := { m with data := data }) hp ht hcode
  cases outcome with
  | ok u =>
    rw [Status.ofOutcome, ← hmeans.1 final texts]
    constructor
    · rintro ⟨bound, m', hdata, hconsole, hrun⟩
      exact ⟨bound, m', hrun, hdata, hconsole⟩
    · rintro ⟨bound, m', hrun, hdata, hconsole⟩
      exact ⟨bound, m', hdata, hconsole, hrun⟩
  | error f =>
    rw [Status.ofOutcome, ← hmeans.2.1 f final texts]
    constructor
    · rintro ⟨bound, m', hdata, hconsole, hrun⟩
      exact ⟨bound, m', hrun, hdata, hconsole⟩
    · rintro ⟨bound, m', hrun, hdata, hconsole⟩
      exact ⟨bound, m', hdata, hconsole, hrun⟩

end Words

namespace Session

variable {m : Machine} {hs : List Header} {ds : List Definition} {p : Program} {code : Int}

/-- Definitions that are interpreted one after the other put their words into memory. -/
theorem serve_defines (hw : m.memory.WellFormed hs) (hmode : m.mode = .immediate)
    (hidle : m.console.source.hasPending = false) (hadmits : m.memory.Admits ds) (sink : Sink) :
    ∃ m', m.SettlesIn ⟨m.data, m.memory.defineAll ds, .immediate, ['\n'], []⟩ m' ∧
      ∃ k, ∀ b ≥ k, serve b (ds.map fun d => .interpret sink d.source) m =
        .ok (ds.map fun _ => .ok "") m' := by
  induction ds generalizing m hs with
  | nil => exact ⟨m, ⟨rfl, rfl, hmode, rfl, hidle⟩, 0, fun _ _ => rfl⟩
  | cons d ds ih =>
    obtain ⟨hfits, hlater⟩ := hadmits
    obtain ⟨k, htext⟩ := hfits.interpretText hw hmode hidle sink
    obtain ⟨m₁, hrun, hm₁⟩ := htext k (Nat.le_refl k)
    have hmemory : m₁.memory = m.memory.define d := hm₁.memory
    obtain ⟨m', hm', k', hserve⟩ :=
      ih (hmemory ▸ hw.define d) hm₁.mode hm₁.idle (hmemory ▸ hlater)
    refine ⟨m', ⟨hm'.data.trans hm₁.data, ?_, hm'.mode, hm'.transcript.trans hm₁.transcript,
      hm'.idle⟩, max k k', ?_⟩
    · rw [hm'.memory, hmemory]
      rfl
    · intro b hb
      have hfirst := (interpretText_approximates (Nat.le_trans (Nat.le_max_left k k') hb) sink
        d.source).of_ok hrun
      exact serve_interpret hfirst (hserve b (Nat.le_trans (Nat.le_max_right k k') hb))

/-- **Redefinition never changes compiled code.** Definitions that are interpreted one after the
other leave all cells that were there, and what a word does that was compiled before: for each data
stack it comes to the same end, with the same data stack and the same texts. By each name that they
reuse, the word is found that was defined last. -/
theorem redefinition_keeps_words (hw : m.memory.WellFormed hs) (hmode : m.mode = .immediate)
    (hidle : m.console.source.hasPending = false) (hadmits : m.memory.Admits ds)
    (hp : p.HeldBy m.memory) (hcode : p code ≠ none) (sink : Sink) :
    ∃ m', (∃ k, ∀ b ≥ k, serve b (ds.map fun d => .interpret sink d.source) m =
        .ok (ds.map fun _ => .ok "") m') ∧
      (∀ i < m.memory.here, m'.memory.cells[i]? = m.memory.cells[i]?) ∧
      (∀ before d later, ds = before ++ d :: later →
        (∀ e ∈ later, Text.upper d.name ≠ Text.upper e.name) →
        ∃ header : Nat, m.memory.here ≤ header ∧ header = (m.memory.defineAll before).here ∧
          m'.memory.Names d.name header (d.cells header)) ∧
      ∀ data outcome final texts, m.Gives (.token code) data outcome final texts ↔
        m'.Gives (.token code) data outcome final texts := by
  obtain ⟨m', hm', hserve⟩ := serve_defines hw hmode hidle hadmits sink
  have hmemory : m'.memory = m.memory.defineAll ds := hm'.memory
  refine ⟨m', hserve, ?_, ?_, ?_⟩
  · intro i hi
    rw [hmemory]
    exact Memory.getElem?_defineAll_of_lt ds hi
  · rintro before d later rfl hlater
    rw [hmemory]
    exact ⟨_, Memory.here_le_defineAll m.memory before, rfl, hw.find_defineAll rfl hlater⟩
  · intro data outcome final texts
    have hextends := hw.extends_defineAll ds
    have hp' : p.HeldBy m'.memory := hmemory ▸ hp.of_extends hextends
    have hlabelled' : Traceable m' := fun _ => hmemory ▸ hextends.labelled
    have hlabelled : Traceable m := fun _ => hw.label_eq_ok
    rw [gives_iff_means hp hlabelled hcode, gives_iff_means hp' hlabelled' hcode]

end Session

/-! ## A word whose names are all reused, and machines that define nothing -/

open Kernel

/-- The body of a word that squares. -/
def squareBody : Body := .seq (.call 28) (.call 84)

/-- The definition of that word, `SQ`. -/
def square : Definition := .colon "SQ" (" DUP" ++ " *") squareBody

/-- A variable with the name of a word in it. -/
def dupCell : Definition := .cell "DUP"

/-- A constant with the name of the other word in it. -/
def timesSeven : Definition := .constant "*" "7" 7

/-- A word with the same name, with the old `SQ` and the new `DUP` in it. -/
def squareAgain : Definition := .colon "SQ" (" SQ" ++ " DUP") (.seq (.call 553) (.call 560))

/-- A booted machine with `SQ`. -/
def squareMachine : Machine := { memory := bootedMemory.define square }

theorem square_heldBy : (program.add 553 squareBody).HeldBy squareMachine.memory := by
  have hclosed : squareBody.ClosedIn program := by
    intro addr haddr
    simp only [squareBody, Body.calls, List.cons_append, List.nil_append, List.mem_cons,
      List.not_mem_nil, or_false] at haddr
    rcases haddr with rfl | rfl <;> decide
  have hheld :=
    (program_heldBy booted_intact).define booted_wellFormed hclosed "SQ" (" DUP" ++ " *")
  rwa [booted_here] at hheld

theorem square_wellFormed :
    squareMachine.memory.WellFormed (⟨550, "SQ"⟩ :: bootedHeaders) := by
  have hupper : Text.upper square.name = "SQ" := by decide +kernel
  have hw := booted_wellFormed.define square
  rwa [booted_here, hupper] at hw

/-- The definitions can be made one after the other, although they reuse each other's names too. -/
theorem reuses_admitted : squareMachine.memory.Admits [dupCell, timesSeven, squareAgain] := by
  have hw : (bootedMemory.define square).WellFormed _ := square_wellFormed
  have hw' := hw.define dupCell
  have hc := booted_hasCompiler.define (d := square) booted_wellFormed (by decide +kernel)
  have hc' := hc.define (d := dupCell) hw (by decide +kernel)
  have hc'' := hc'.define (d := timesSeven) hw' (by decide +kernel)
  have hcell : dupCell.Fits (bootedMemory.define square) := by
    have hword : bootedMemory.Names "VARIABLE" 487 (Instruction.wordCells variableThread) :=
      ⟨by rw [booted_wellFormed.find_eq]; decide +kernel, by decide +kernel⟩
    have hcode : bootedMemory.Intact (.compiler .compileVariable) := booted_intact _ (by decide)
    exact .cell ⟨by decide, by decide⟩ hc.interpreter
      ((booted_wellFormed.extends_define square).retains _ _ hcode)
      ⟨487, hword.define booted_wellFormed (by decide +kernel)⟩
  have hconstant : timesSeven.Fits ((bootedMemory.define square).define dupCell) := by
    have hword : bootedMemory.Names "CONSTANT" 498 (Instruction.wordCells constantThread) :=
      ⟨by rw [booted_wellFormed.find_eq]; decide +kernel, by decide +kernel⟩
    have hfind : bootedMemory.find "7" = .ok none := by
      rw [booted_wellFormed.find_eq]
      decide +kernel
    refine .constant ⟨by decide, by decide⟩ ⟨by decide, by decide⟩ ?_ (by decide +kernel)
      hc'.interpreter ⟨498, ?_⟩
    · rw [hw.find_define_of_ne (by decide +kernel),
        booted_wellFormed.find_define_of_ne (by decide +kernel), hfind]
    · exact (hword.define booted_wellFormed (by decide +kernel)).define hw (by decide +kernel)
  let memory := ((bootedMemory.define square).define dupCell).define timesSeven
  have hextends : memory.Extends ((bootedMemory.define square).define dupCell) :=
    hw'.extends_define timesSeven
  have hsquare : Spelled memory (.call 553) (" " ++ "SQ") := by
    have himm := booted_wellFormed.isImmediate_define square
    rw [booted_here] at himm
    have hnew : (bootedMemory.define square).find "SQ" = .ok (some (.int bootedMemory.here)) :=
      booted_wellFormed.find_define rfl
    have hfind : memory.find "SQ" = .ok (some (.int 550)) := by
      rw [hw'.find_define_of_ne (by decide +kernel), hw.find_define_of_ne (by decide +kernel), hnew,
        booted_here]
      rfl
    exact .word ⟨by decide, by decide⟩ hfind
      (hextends.isImmediate ((hw.extends_define dupCell).isImmediate himm))
  have hdup : Spelled memory (.call 560) (" " ++ "DUP") := by
    have hhere : (bootedMemory.define square).here = 557 := by decide +kernel
    have himm := hw.isImmediate_define dupCell
    rw [hhere] at himm
    have hnew : ((bootedMemory.define square).define dupCell).find "DUP" =
        .ok (some (.int (bootedMemory.define square).here)) := hw.find_define rfl
    have hfind : memory.find "DUP" = .ok (some (.int 557)) := by
      rw [hw'.find_define_of_ne (by decide +kernel), hnew, hhere]
      rfl
    exact .word ⟨by decide, by decide⟩ hfind (hextends.isImmediate himm)
  exact ⟨hcell, hconstant, .colon ⟨by decide, by decide⟩ (hsquare.seq hdup) (hc''.canCompile _),
    trivial⟩

/-- `SQ` goes on to square, with all names in its definition reused. -/
theorem Session.square_outlives_its_names :
    squareMachine.memory.WellFormed (⟨550, "SQ"⟩ :: bootedHeaders) ∧
      squareMachine.memory.Admits [dupCell, timesSeven, squareAgain] ∧
      (program.add 553 squareBody).HeldBy squareMachine.memory ∧
      ∃ m', (∃ k, ∀ b ≥ k, Session.serve b [.interpret .shared "VARIABLE DUP",
          .interpret .shared "7 CONSTANT *", .interpret .shared ": SQ SQ DUP ;"] squareMachine =
            .ok [.ok "", .ok "", .ok ""] m') ∧
        m'.memory.Names "SQ" 569 (squareAgain.cells 569) ∧
        m'.Gives (.token 553) [.int 3] (.ok ()) [.int 9] [] := by
  have hcode : program.add 553 squareBody 553 ≠ none := by simp [Program.add_self]
  obtain ⟨m', hserve, -, hfind, hgives⟩ := Session.redefinition_keeps_words square_wellFormed rfl
    rfl reuses_admitted square_heldBy hcode .shared
  refine ⟨square_wellFormed, reuses_admitted, square_heldBy, m', hserve, ?_, ?_⟩
  · obtain ⟨header, -, hheader, hnames⟩ := hfind [dupCell, timesSeven] squareAgain [] rfl (by simp)
    have h569 : (squareMachine.memory.defineAll [dupCell, timesSeven]).here = 569 := by
      decide +kernel
    rw [h569] at hheader
    subst hheader
    exact hnames
  · have hmeans : Means (program.add 553 squareBody) 553 (.call 553) (.start [.int 3])
        ⟨.running, [.int 9], []⟩ :=
      .thread rfl rfl (.seq (.calculation (c := .stack .dup) rfl rfl)
        (.calculation (c := .arithmetic .mul) rfl rfl))
    have hbefore : squareMachine.Gives (.token 553) [.int 3] (.ok ()) [.int 9] [] :=
      (gives_iff_means square_heldBy (fun h => by cases h) hcode).mpr hmeans
    exact (hgives _ _ _ _).mp hbefore

/-- A run has come to an end, and this address is not that of the newest `CR`. -/
def definesNoCr (header : Nat) : EStateM.Result Stop Machine String → Bool
  | .ok _ m => m.memory.find "CR" ≠ .ok (some (.int header))
  | .error stop _ => stop ≠ .exhausted

/-- Booted machines in which `VARIABLE CR` makes no `CR`: the words are compiled, or a line waits
after which they are; `VARIABLE` is another word; a link of the dictionary or the code field of
`QUIT` is written over. -/
def unfitMachines : List Machine :=
  [{ memory := bootedMemory, mode := .compile },
    { memory := bootedMemory, console := { source := { pending := ["]"] } } },
    { memory := bootedMemory.define (.colon "VARIABLE" "" .empty) },
    { memory := bootedMemory.write 543 (.int 9999) },
    { memory := bootedMemory.write 363 (.int 0) }]

theorem Session.definition_is_lost :
    unfitMachines.Forall fun m => ¬ ∃ bound m',
      Session.interpretText bound .shared "VARIABLE CR" m = .ok "" m' ∧
        m'.memory.find "CR" = .ok (some (.int m.memory.here)) := by
  have hruns : ∀ m ∈ unfitMachines,
      definesNoCr m.memory.here (Session.interpretText 20 .shared "VARIABLE CR" m) = true := by
    decide +kernel
  rw [List.forall_iff_forall_mem]
  rintro m hm ⟨bound, m', hdefines, hfind⟩
  have hlost := hruns m hm
  have hends : ∀ m₁, Session.interpretText 20 .shared "VARIABLE CR" m ≠ .error .exhausted m₁ := by
    intro m₁ hstop
    rw [hstop] at hlost
    exact Bool.false_ne_true hlost
  have hsame := Session.interpretText_unique hends fun m₁ => by rw [hdefines]; simp
  rw [hsame.trans hdefines] at hlost
  exact of_decide_eq_true hlost hfind

end ThreadedForth
