import ThreadedForth.Proofs.Compiler.Defining
import ThreadedForth.Proofs.Memory.Ledger
import ThreadedForth.Proofs.Text.Numerals

/-!
# Keeping values

What a program writes to keep values and to get them back (`Clause`), and what comes of it: a data
stack and a ledger (`Bench`) that `Clause.run` takes from one to the next. `QUIT` reads a clause and
does just this (`Clause.reads`), while the memory is the one with the ledger at its end
(`Bench.Stands`).
-/

namespace ThreadedForth

open ThreadedForth.Action

/-! ## Clauses -/

/-- What a program writes to keep values and to get them back. -/
inductive Clause
  /-- a numeral -/
  | numeral (digits : String)
  /-- `S" t"` -/
  | text (t : String)
  /-- `TRUE` or `FALSE` -/
  | truth (b : Bool)
  /-- `>CFA`, which makes an execution token of an integer -/
  | toCode
  /-- `VARIABLE name` -/
  | cell (name : String)
  /-- `CONSTANT name` -/
  | constant (name : String)
  /-- `name !` -/
  | store (name : String)
  /-- `name +!` -/
  | add (name : String)
  /-- `name @` -/
  | fetch (name : String)
  /-- `name` -/
  | mention (name : String)

namespace Clause

/-- The first token. -/
def token : Clause → String
  | .numeral digits => digits
  | .text _ => "S\""
  | .truth b => if b then "TRUE" else "FALSE"
  | .toCode => ">CFA"
  | .cell _ => "VARIABLE"
  | .constant _ => "CONSTANT"
  | .store name | .add name | .fetch name | .mention name => name

/-- What follows the first token. -/
def tail : Clause → String
  | .numeral _ | .truth _ | .toCode | .mention _ => ""
  | .text t => " " ++ t ++ "\""
  | .cell name | .constant name => " " ++ name
  | .store _ => " !"
  | .add _ => " +!"
  | .fetch _ => " @"

/-- The text of the clause. -/
def source (p : Clause) : String := p.token ++ p.tail

end Clause

/-- A data stack, the end of memory, and the words that were added to keep values. -/
structure Bench where
  data : List Cell
  here : Nat
  ledger : Ledger
  deriving DecidableEq

/-- Whether a cell is an integer, a text, a Boolean or an execution token. -/
def Cell.isDatum : Cell → Bool
  | .int _ | .text _ | .bool _ | .token _ => true
  | .native _ | .flags _ | .absent => false

namespace Bench

/-- One more cell on the data stack. -/
def push (b : Bench) (x : Cell) : Bench := { b with data := x :: b.data }

/-- One more word that keeps a value. -/
def keep (b : Bench) (name : String) (keeper : Keeper) (x : Cell) : Bench :=
  let e : LedgerEntry := ⟨name, b.here, keeper, x⟩
  { b with here := b.here + 3 + e.cells.length, ledger := e :: b.ledger }

/-- The newest word with a name, if that is a variable. -/
def cell? (b : Bench) (name : String) : Option LedgerEntry :=
  (b.ledger.newest? name).filter (·.keeper = .cell)

theorem cell?_eq_some_iff {b : Bench} {name : String} {e : LedgerEntry} :
    b.cell? name = some e ↔ b.ledger.newest? name = some e ∧ e.keeper = .cell := by
  simp [cell?]

end Bench

/-- What comes of a clause. -/
def Clause.run (p : Clause) (b : Bench) : Option Bench :=
  match p with
  | .numeral digits => (Numeral.read? digits).map fun n => b.push (.int n)
  | .text t => some (b.push (.text t))
  | .truth x => some (b.push (.bool x))
  | .toCode =>
    match b.data with
    | .int n :: data => some { b with data := .token (n + headerSize) :: data }
    | _ => none
  | .cell name => some (b.keep name .cell (.int 0))
  | .constant name =>
    match b.data with
    | x :: data => some (Bench.keep { b with data := data } name .constant x)
    | [] => none
  | .store name =>
    match b.cell? name, b.data with
    | some _, x :: data => some { b with data := data, ledger := b.ledger.update name x }
    | _, _ => none
  | .add name =>
    match (b.cell? name).map LedgerEntry.value, b.data with
    | some (.int z), .int n :: data =>
      some { b with data := data, ledger := b.ledger.update name (.int (z + n)) }
    | _, _ => none
  | .fetch name =>
    match b.cell? name with
    | some e => if e.value.isDatum then some (b.push e.value) else none
    | none => none
  | .mention name => (b.ledger.newest? name).map fun e => b.push e.pushed

/-! ## What has to stand in memory -/

/-- The primitives that clauses name. -/
def keepingWords : List Primitive :=
  [.memory .fetch, .memory .store, .memory .addStore, .compiler .toCode, .text .text,
    .calculation (.logic .true), .calculation (.logic .false)]

/-- The names in clauses. -/
def keepingNames : List String := "VARIABLE" :: "CONSTANT" :: keepingWords.map Primitive.name

/-- The words of clauses stand in memory as the kernel and the bootstrap put them there, and their
names still find them. -/
structure Memory.CanKeep (m : Memory) : Prop extends m.HasInterpreter where
  compileVariable : m.Intact (.compiler .compileVariable)
  variableWord : ∃ header, m.Names "VARIABLE" header (Instruction.wordCells variableThread)
  constantWord : ∃ header, m.Names "CONSTANT" header (Instruction.wordCells constantThread)
  words : ∀ p ∈ keepingWords, ∃ header, m.Names p.name header [.native (.primitive p)]

/-- A name that a word may have beside the names in clauses: it is none of them, and no numeral. -/
structure Unused (name : String) : Prop extends Lexeme name where
  notNumeral : Numeral.read? (Text.upper name) = none
  notName : ∀ used ∈ keepingNames, Text.upper used ≠ Text.upper name

/-- The names of a clause are tokens, new names are unused, a numeral stands for its value, and a
text can be written on a line. -/
def Clause.Fits (m : Memory) : Clause → Prop
  | .numeral digits => Lexeme digits ∧ m.find digits = .ok none
  | .text t => '"' ∉ t.toList ∧ Text.OneLine t
  | .truth _ | .toCode => True
  | .cell name | .constant name => Unused name
  | .store name | .add name | .fetch name | .mention name => Lexeme name

instance (token : String) : Decidable (Lexeme token) :=
  decidable_of_iff (Source.IsToken token.toList ∧ Text.OneLine token)
    ⟨fun h => ⟨h.1, h.2⟩, fun h => ⟨h.isToken, h.oneLine⟩⟩

instance (name : String) : Decidable (Unused name) :=
  decidable_of_iff (Lexeme name ∧ Numeral.read? (Text.upper name) = none ∧
      ∀ used ∈ keepingNames, Text.upper used ≠ Text.upper name)
    ⟨fun h => ⟨h.1, h.2.1, h.2.2⟩, fun h => ⟨h.toLexeme, h.notNumeral, h.notName⟩⟩

instance (m : Memory) (p : Clause) : Decidable (p.Fits m) :=
  match p with
  | .numeral digits => inferInstanceAs (Decidable (Lexeme digits ∧ m.find digits = .ok none))
  | .text t => inferInstanceAs (Decidable ('"' ∉ t.toList ∧ Text.OneLine t))
  | .truth _ | .toCode => inferInstanceAs (Decidable True)
  | .cell name | .constant name => inferInstanceAs (Decidable (Unused name))
  | .store name | .add name | .fetch name | .mention name =>
    inferInstanceAs (Decidable (Lexeme name))

/-- The ledger tells the words at the end of memory. -/
structure Bench.Stands (b : Bench) (base : Memory) : Prop where
  lays : base.Lays b.ledger
  here : b.here = (base.withEntries b.ledger).here
  unused : ∀ e ∈ b.ledger, Unused e.name

/-- The scene in which a bench stands. -/
def Bench.scene (b : Bench) (base : Memory) (input : List Char) : Scene :=
  ⟨b.data, base.withEntries b.ledger, .immediate, input, []⟩

variable {old base : Memory} {hs : List Header} {b b' : Bench} {p : Clause} {s s' : Scene}
  {name token : String} {e : LedgerEntry} {data : List Cell} {x : Cell} {rest : List Char}
  {n z : Int} {w : Primitive}

/-! ## Names -/

namespace Bench.Stands

variable (hw : base.WellFormed hs) (hb : b.Stands base)

include hw hb

/-- By a name that no word of the ledger has, what was found before is found. -/
theorem find_of_ne (hne : ∀ e ∈ b.ledger, Text.upper token ≠ Text.upper e.name) :
    (base.withEntries b.ledger).find token = base.find token := by
  have hnone : b.ledger.newest? token = none := by
    cases hentry : b.ledger.newest? token with
    | none => rfl
    | some e =>
      exact absurd (Ledger.upper_of_newest? hentry).symm (hne e (Ledger.mem_of_newest? hentry))
  rw [hw.find_withEntries hb.lays, hnone]

theorem find_used (hused : token ∈ keepingNames) :
    (base.withEntries b.ledger).find token = base.find token :=
  hb.find_of_ne hw fun e he => (hb.unused e he).notName token hused

theorem find_numeral (hread : Numeral.read? token = some n) :
    (base.withEntries b.ledger).find token = base.find token := by
  refine hb.find_of_ne hw fun e he hsame => ?_
  have hnone := (hb.unused e he).notNumeral
  rw [← hsame, upper_of_read? hread, hread] at hnone
  cases hnone

theorem find_entry (hentry : b.ledger.newest? name = some e) :
    (base.withEntries b.ledger).find name = .ok (some (.int e.header)) := by
  rw [hw.find_withEntries hb.lays, hentry]

/-- The cell of a variable can be read and written. -/
theorem get_cell (hcell : b.cell? name = some e) :
    (base.withEntries b.ledger).get (.int e.address) = .ok e.value := by
  obtain ⟨hentry, hkeeper⟩ := Bench.cell?_eq_some_iff.mp hcell
  have hcode := hw.hasCode_withEntries hb.lays (Ledger.mem_of_newest? hentry)
  rw [LedgerEntry.cells, hkeeper] at hcode
  have haddress : ((e.address : Nat) : Int) = e.header + headerSize + 1 := by
    simp only [LedgerEntry.address, headerSize]
    omega
  rw [haddress]
  exact hcode.2.1

theorem index_cell (hcell : b.cell? name = some e) :
    (base.withEntries b.ledger).index (.int e.address) = .ok e.address := by
  obtain ⟨i, hi, hx⟩ := Memory.get_eq_ok_iff.mp (hb.get_cell hw hcell)
  obtain rfl : i = e.address := by exact_mod_cast (Option.some.inj hi).symm
  exact Memory.index_eq_ok_iff.mpr ⟨hi, (Array.getElem?_eq_some_iff.mp hx).1⟩

end Bench.Stands

/-! ## What the words do -/

/-- A cell that is a datum is fetched as it is. -/
theorem Memory.fetch_of_get {m : Memory} {addr : Cell} (h : m.get addr = .ok x)
    (hx : x.isDatum = true) : m.fetch addr = .ok x := by
  rw [Memory.fetch, h]
  cases x <;> first | rfl | cases hx

theorem does_fetch {addr : Int} (hs : s.data = .int addr :: data)
    (h : s.memory.fetch (.int addr) = .ok x) :
    Does old (.memory .fetch) s { s with data := x :: data } := by
  intro _ _ _
  have hask : (liftM (s.memory.fetch (.int addr)) : Except Stop Cell) = .ok x := by rw [h]; rfl
  exact (turns_popIntCell _ hs).bind ((turns_ask hask).bind (turns_push _))

theorem does_addStore {addr : Int} {i : Nat} {memory : Memory}
    (hs : s.data = .int addr :: .int n :: data) (hx : s.memory.fetch (.int addr) = .ok (.int z))
    (hi : s.memory.index (.int addr) = .ok i) (h : s.memory.write i (.int (z + n)) = memory)
    (hsound : memory.Extends old) :
    Does old (.memory .addStore) s { s with data := data, memory := memory } := by
  intro _ _ _
  have hfetch : (liftM (s.memory.fetch (.int addr)) : Except Stop Cell) = .ok (.int z) := by
    rw [hx]; rfl
  have hindex : (liftM (s.memory.index (.int addr)) : Except Stop Nat) = .ok i := by rw [hi]; rfl
  refine (turns_popIntCell _ hs).bind ((turns_popInt _ rfl).bind ((turns_ask hfetch).bind ?_))
  refine Turns.bind (x := z) (fun _ m hm => ⟨m, rfl, hm⟩) ?_
  exact (turns_ask hindex).bind (turns_modifyMemory h hsound)

namespace Bench.Stands

variable (hw : base.WellFormed hs) (hc : base.CanKeep) (hb : b.Stands base)

include hw hb hc

/-- A word of the ledger pushes its address or its value. -/
theorem performs_mention (he : e ∈ b.ledger) (input : List Char) :
    Performs base (.token (e.header + headerSize)) (b.scene base input)
      ((b.push e.pushed).scene base input) := by
  have hcode := hw.hasCode_withEntries hb.lays he
  cases hkeeper : e.keeper with
  | cell =>
    rw [LedgerEntry.cells, hkeeper] at hcode
    have hpushed : e.pushed = .int (e.header + headerSize + 1) := by
      rw [LedgerEntry.pushed, hkeeper, LedgerEntry.address]
      simp only [headerSize, Cell.int.injEq]
      omega
    rw [hpushed]
    refine ⟨1, fun k hk => ?_⟩
    obtain ⟨c, rfl⟩ : ∃ c, k = c + 1 := ⟨k - 1, by omega⟩
    exact turns_dispatch hcode.1 (turns_push _)
  | constant =>
    rw [LedgerEntry.cells, hkeeper] at hcode
    have hextends := hw.extends_withEntries b.ledger
    have hself : (base.withEntries b.ledger).Extends (base.withEntries b.ledger) :=
      ⟨fun _ _ hx => hx, hextends.labelled⟩
    have hpushed : e.pushed = e.value := by
      rw [LedgerEntry.pushed, hkeeper]
    have hlit : (base.withEntries b.ledger).Intact (.thread .lit) :=
      hextends.retains _ _ (hc.primitives _ (by decide))
    have hexit : (base.withEntries b.ledger).Intact (.thread .exit) :=
      hextends.retains _ _ (hc.primitives _ (by decide))
    have hruns : Runs (base.withEntries b.ledger) [.lit e.value] (b.scene base input)
        ((b.push e.value).scene base input) := .lit .nil
    obtain ⟨k, hperforms⟩ := hruns.performs (List.forall_mem_singleton.mpr hlit) hexit hcode
    rw [hpushed]
    exact ⟨k, fun c hc => (hperforms c hc).since hself hextends⟩

theorem reads_mention (hentry : b.ledger.newest? name = some e)
    (htake : Turns base nextToken s name (b.scene base rest)) :
    Reads base s ((b.push e.pushed).scene base rest) :=
  (interprets_run (hb.find_entry hw hentry) (.inl rfl)
    (hb.performs_mention hw hc (Ledger.mem_of_newest? hentry) rest)).reads_next
      hc.toHasInterpreter htake

/-- A word that clauses name is read. -/
theorem reads_word {s₁ : Scene} (hp : w ∈ keepingWords)
    (hmemory : s₁.memory = base.withEntries b.ledger) (hmode : s₁.mode = .immediate)
    (hperforms : ∀ code, base.get (.int code) = .ok (.native (.primitive w)) →
      Performs base (.token code) s₁ s')
    (htake : Turns base nextToken s w.name s₁) : Reads base s s' := by
  obtain ⟨header, hfind, hcode, -⟩ := hc.words w hp
  have hused : w.name ∈ keepingNames :=
    List.mem_cons_of_mem _ (List.mem_cons_of_mem _ (List.mem_map_of_mem hp))
  have hfind' : s₁.memory.find w.name = .ok (some (.int header)) := by
    rw [hmemory, hb.find_used hw hused]
    exact hfind
  exact (interprets_run hfind' (.inl hmode) (hperforms _ hcode)).reads_next hc.toHasInterpreter
    htake

/-- The address of a variable is pushed, and the next word takes it. -/
theorem reads_cell (hcell : b.cell? name = some e) (hp : w ∈ keepingWords)
    (htoken : Source.IsToken w.name.toList) (hrest : Source.Delimited rest)
    (hdoes : Does base w ((b.push (.int e.address)).scene base rest) s')
    (htake : Turns base nextToken s name (b.scene base (' ' :: (w.name.toList ++ rest)))) :
    Reads base s s' := by
  obtain ⟨hentry, hkeeper⟩ := Bench.cell?_eq_some_iff.mp hcell
  have hpushed : e.pushed = .int e.address := by
    rw [LedgerEntry.pushed, hkeeper]
  have hfirst := hb.reads_mention hw hc hentry htake
  rw [hpushed] at hfirst
  have hstands : (b.push (.int e.address)).Stands base := ⟨hb.lays, hb.here, hb.unused⟩
  exact hfirst.trans (hstands.reads_word hw hc hp rfl rfl (fun _ hcode => hdoes.performs hcode)
    (turns_nextToken htoken hrest rfl))

theorem reads_store (hcell : b.cell? name = some e) (hdata : b.data = x :: data)
    (hrest : Source.Delimited rest)
    (htake : Turns base nextToken s name (b.scene base (" !".toList ++ rest))) :
    Reads base s
      (Bench.scene { b with data := data, ledger := b.ledger.update name x } base rest) := by
  obtain ⟨hentry, hkeeper⟩ := Bench.cell?_eq_some_iff.mp hcell
  have hindex := hb.index_cell hw hcell
  have hdoes : Does base (.memory .store)
      ((b.push (.int e.address)).scene base rest) (Bench.scene
        { b with data := data, ledger := b.ledger.update name x } base rest) :=
    does_store (by rw [← hdata]; rfl) hindex (hb.lays.write_withEntries hentry hkeeper x)
      (hw.extends_withEntries _)
  exact hb.reads_cell hw hc hcell (by decide) (by decide) hrest hdoes htake

theorem reads_add (hcell : b.cell? name = some e) (hvalue : e.value = .int z)
    (hdata : b.data = .int n :: data) (hrest : Source.Delimited rest)
    (htake : Turns base nextToken s name (b.scene base (" +!".toList ++ rest))) :
    Reads base s
      (Bench.scene { b with data := data, ledger := b.ledger.update name (.int (z + n)) } base
        rest) := by
  obtain ⟨hentry, hkeeper⟩ := Bench.cell?_eq_some_iff.mp hcell
  have hfetch := Memory.fetch_of_get (hvalue ▸ hb.get_cell hw hcell) rfl
  have hindex := hb.index_cell hw hcell
  have hdoes : Does base (.memory .addStore)
      ((b.push (.int e.address)).scene base rest) (Bench.scene
        { b with data := data, ledger := b.ledger.update name (.int (z + n)) } base rest) :=
    does_addStore (by rw [← hdata]; rfl) hfetch hindex
      (hb.lays.write_withEntries hentry hkeeper _) (hw.extends_withEntries _)
  exact hb.reads_cell hw hc hcell (by decide) (by decide) hrest hdoes htake

theorem reads_fetch (hcell : b.cell? name = some e) (hvalue : e.value.isDatum = true)
    (hrest : Source.Delimited rest)
    (htake : Turns base nextToken s name (b.scene base (" @".toList ++ rest))) :
    Reads base s ((b.push e.value).scene base rest) := by
  have hget := hb.get_cell hw hcell
  have hdoes : Does base (.memory .fetch) ((b.push (.int e.address)).scene base rest)
      ((b.push e.value).scene base rest) := does_fetch rfl (Memory.fetch_of_get hget hvalue)
  exact hb.reads_cell hw hc hcell (by decide) (by decide) hrest hdoes htake

/-- A word that adds to the ledger is read. -/
theorem reads_keep {used : String} {thread : List Instruction} {s₁ : Scene}
    (hused : used ∈ keepingNames)
    (hword : ∃ header, base.Names used header (Instruction.wordCells thread))
    (hmemory : s₁.memory = base.withEntries b.ledger) (hmode : s₁.mode = .immediate)
    (hperforms : ∀ header : Int,
      (base.withEntries b.ledger).HasCode (header + headerSize) (Instruction.wordCells thread) →
        Performs (base.withEntries b.ledger) (.token (header + headerSize)) s₁ s')
    (htake : Turns base nextToken s used s₁) : Reads base s s' := by
  obtain ⟨header, hfind, hcode⟩ := hword
  have hextends := hw.extends_withEntries b.ledger
  obtain ⟨k, hperforms⟩ := hperforms header (hextends.hasCode hcode)
  have hfind' : s₁.memory.find used = .ok (some (.int header)) := by
    rw [hmemory, hb.find_used hw hused]
    exact hfind
  have hself : s₁.memory.Extends (base.withEntries b.ledger) :=
    ⟨fun _ _ hx => hmemory ▸ hx, hmemory ▸ hextends.labelled⟩
  exact (interprets_run hfind' (.inl hmode)
    ⟨k, fun c hcount => (hperforms c hcount).since hself hextends⟩).reads_next
      hc.toHasInterpreter htake

theorem reads_variable (hname : Unused name) (hrest : Source.Delimited rest)
    (htake : Turns base nextToken s "VARIABLE" (b.scene base (' ' :: (name.toList ++ rest)))) :
    Reads base s ((b.keep name .cell (.int 0)).scene base rest) := by
  obtain ⟨hs', hw'⟩ := hw.withEntries b.ledger
  have hextends := hw.extends_withEntries b.ledger
  refine hb.reads_keep hw hc (by decide) hc.variableWord rfl rfl (fun header hbody => ?_) htake
  exact performs_variable hw' (hc.toHasInterpreter.of_extends hextends)
    (hextends.retains _ _ hc.compileVariable) hbody b.data hname.isToken hrest

theorem reads_constant (hname : Unused name) (hdata : b.data = x :: data)
    (hrest : Source.Delimited rest)
    (htake : Turns base nextToken s "CONSTANT" (b.scene base (' ' :: (name.toList ++ rest)))) :
    Reads base s ((Bench.keep { b with data := data } name .constant x).scene base rest) := by
  obtain ⟨hs', hw'⟩ := hw.withEntries b.ledger
  have hextends := hw.extends_withEntries b.ledger
  refine hb.reads_keep hw hc (by decide) hc.constantWord rfl rfl (fun header hbody => ?_) htake
  have hperforms := performs_constant hw' (hc.toHasInterpreter.of_extends hextends) hbody x data
    hname.isToken hrest
  rwa [← hdata] at hperforms

end Bench.Stands

/-! ## Clauses are read -/

/-- The variable that a clause stores to. -/
def Clause.target? : Clause → Option String
  | .store name | .add name => some name
  | _ => none

/-- The name of the word that a clause adds. -/
def Clause.added? : Clause → Option String
  | .cell name | .constant name => some name
  | _ => none

/-- What comes of a clause is one of these: another data stack, a new word, or another value of the
variable that it stores to. -/
theorem Clause.run_cases (hrun : p.run b = some b') :
    b' = { b with data := b'.data } ∨
      (∃ data name keeper x, p.added? = some name ∧
        b' = Bench.keep { b with data := data } name keeper x) ∨
      ∃ data name e x, p.target? = some name ∧ b.cell? name = some e ∧
        b' = { b with data := data, ledger := b.ledger.update name x } := by
  cases p with
  | numeral digits =>
    obtain ⟨n, -, rfl⟩ := Option.map_eq_some_iff.mp hrun
    exact .inl rfl
  | text t | truth x =>
    obtain rfl := Option.some.inj hrun
    exact .inl rfl
  | toCode =>
    simp only [Clause.run] at hrun
    split at hrun
    · obtain rfl := Option.some.inj hrun
      exact .inl rfl
    · cases hrun
  | cell name =>
    obtain rfl := Option.some.inj hrun
    exact .inr (.inl ⟨b.data, name, .cell, _, rfl, rfl⟩)
  | constant name =>
    simp only [Clause.run] at hrun
    split at hrun
    · obtain rfl := Option.some.inj hrun
      exact .inr (.inl ⟨_, name, .constant, _, rfl, rfl⟩)
    · cases hrun
  | store name =>
    simp only [Clause.run] at hrun
    split at hrun
    · next e x data hcell _ =>
      obtain rfl := Option.some.inj hrun
      exact .inr (.inr ⟨data, name, e, x, rfl, hcell, rfl⟩)
    · cases hrun
  | add name =>
    simp only [Clause.run] at hrun
    split at hrun
    · next z n data hvalue _ =>
      obtain rfl := Option.some.inj hrun
      obtain ⟨e, hcell, -⟩ := Option.map_eq_some_iff.mp hvalue
      exact .inr (.inr ⟨data, name, e, _, rfl, hcell, rfl⟩)
    · cases hrun
  | fetch name =>
    simp only [Clause.run] at hrun
    split at hrun
    · obtain ⟨-, hpushed⟩ := Option.ite_none_right_eq_some.mp hrun
      obtain rfl := Option.some.inj hpushed
      exact .inl rfl
    · cases hrun
  | mention name =>
    obtain ⟨e, -, rfl⟩ := Option.map_eq_some_iff.mp hrun
    exact .inl rfl

/-- A word that is added has an unused name. -/
theorem Clause.Fits.unused (h : p.Fits base) (hname : p.added? = some name) : Unused name := by
  cases p with
  | cell other | constant other =>
    obtain rfl := Option.some.inj hname
    exact h
  | numeral _ | text _ | truth _ | toCode | store _ | add _ | fetch _ | mention _ => cases hname

/-- The ledger goes on to tell the words at the end of memory. -/
theorem Clause.stands (hb : b.Stands base) (hfits : p.Fits base) (hrun : p.run b = some b') :
    b'.Stands base := by
  rcases p.run_cases hrun with
    heq | ⟨data, name, keeper, x, hname, rfl⟩ | ⟨data, name, _, x, -, -, rfl⟩
  · rw [heq]
    exact ⟨hb.lays, hb.here, hb.unused⟩
  · refine ⟨⟨hb.here, hb.lays⟩, ?_, List.forall_mem_cons.mpr ⟨hfits.unused hname, hb.unused⟩⟩
    rw [Bench.keep, Memory.withEntries, Memory.here_addWord, ← hb.here]
  · refine ⟨hb.lays.update, hb.here.trans Memory.here_withEntries_update.symm, fun e he => ?_⟩
    have hmem : e.name ∈ (b.ledger.update name x).map LedgerEntry.name := List.mem_map_of_mem he
    rw [Ledger.map_name_update] at hmem
    obtain ⟨e', he', hsame⟩ := List.mem_map.mp hmem
    exact hsame ▸ hb.unused e' he'

/-- **`QUIT` reads a clause**, and leaves what comes of it. -/
theorem Clause.reads (hw : base.WellFormed hs) (hc : base.CanKeep) (hb : b.Stands base)
    (hfits : p.Fits base) (hrun : p.run b = some b') (hrest : Source.Delimited rest)
    (htake : Turns base nextToken s p.token (b.scene base (p.tail.toList ++ rest))) :
    Reads base s (b'.scene base rest) := by
  cases p with
  | numeral digits =>
    obtain ⟨-, hfind⟩ := hfits
    obtain ⟨n, hread, rfl⟩ := Option.map_eq_some_iff.mp hrun
    exact (interprets_number ((hb.find_numeral hw hread).trans hfind) hread rfl).reads_next
      hc.toHasInterpreter htake
  | text t =>
    obtain rfl := Option.some.inj hrun
    have hinput : (Clause.text t).tail.toList ++ rest = ' ' :: (t.toList ++ '"' :: rest) := by
      simp [Clause.tail]
    have hliteral : Turns base (literal (.text (String.ofList t.toList))) (b.scene base rest) ()
        ((b.push (.text t)).scene base rest) := by
      rw [String.ofList_toList]
      exact turns_literal_immediate rfl _
    rw [hinput] at htake
    exact hb.reads_word hw hc (w := .text .text) (by decide) rfl rfl
      (fun _ hcode => performs_text (hc.primitives _ (by decide)) hcode hfits.1 rfl hliteral) htake
  | truth x =>
    obtain rfl := Option.some.inj hrun
    have hdoes (w : LogicWord)
        (h : Calculation.run (.logic w) b.data = .ok "" (.bool x :: b.data)) :
        Does base (.calculation (.logic w)) (b.scene base rest)
          ((b.push (.bool x)).scene base rest) := does_calculation h
    cases x with
    | true =>
      exact hb.reads_word hw hc (w := .calculation (.logic .true)) (by decide) rfl rfl
        (fun _ hcode => (hdoes .true rfl).performs hcode) htake
    | false =>
      exact hb.reads_word hw hc (w := .calculation (.logic .false)) (by decide) rfl rfl
        (fun _ hcode => (hdoes .false rfl).performs hcode) htake
  | toCode =>
    simp only [Clause.run] at hrun
    split at hrun
    · next n data hdata =>
      obtain rfl := Option.some.inj hrun
      exact hb.reads_word hw hc (w := .compiler .toCode) (by decide) rfl rfl
        (fun _ hcode => (does_toCode hdata).performs hcode) htake
    · cases hrun
  | cell name =>
    obtain rfl := Option.some.inj hrun
    have hinput : (Clause.cell name).tail.toList ++ rest = ' ' :: (name.toList ++ rest) := by
      simp [Clause.tail]
    exact hb.reads_variable hw hc hfits hrest (hinput ▸ htake)
  | constant name =>
    simp only [Clause.run] at hrun
    split at hrun
    · next x data hdata =>
      obtain rfl := Option.some.inj hrun
      have hinput : (Clause.constant name).tail.toList ++ rest = ' ' :: (name.toList ++ rest) := by
        simp [Clause.tail]
      exact hb.reads_constant hw hc hfits hdata hrest (hinput ▸ htake)
    · cases hrun
  | store name =>
    simp only [Clause.run] at hrun
    split at hrun
    · next e x data hcell hdata =>
      obtain rfl := Option.some.inj hrun
      exact hb.reads_store hw hc hcell hdata hrest htake
    · cases hrun
  | add name =>
    simp only [Clause.run] at hrun
    split at hrun
    · next z n data hvalue hdata =>
      obtain rfl := Option.some.inj hrun
      obtain ⟨e, hcell, hvalue⟩ := Option.map_eq_some_iff.mp hvalue
      exact hb.reads_add hw hc hcell hvalue hdata hrest htake
    · cases hrun
  | fetch name =>
    simp only [Clause.run] at hrun
    split at hrun
    · next e hcell =>
      obtain ⟨hvalue, hpushed⟩ := Option.ite_none_right_eq_some.mp hrun
      obtain rfl := Option.some.inj hpushed
      exact hb.reads_fetch hw hc hcell hvalue hrest htake
    · cases hrun
  | mention name =>
    obtain ⟨e, hentry, rfl⟩ := Option.map_eq_some_iff.mp hrun
    exact hb.reads_mention hw hc hentry htake

/-! ## Lines -/

/-- Clauses that stand on one line. -/
structure Line where
  first : Clause
  later : List Clause

namespace Line

/-- The clauses in order. -/
def clauses (l : Line) : List Clause := l.first :: l.later

/-- The text of clauses behind others. -/
def behind (ps : List Clause) : String := String.join (ps.map fun p => " " ++ p.source)

/-- The text of the line. -/
def source (l : Line) : String := l.first.source ++ behind l.later

/-- What comes of clauses, one after the other. -/
def runAll (ps : List Clause) (b : Bench) : Option Bench := ps.foldlM (fun b p => p.run b) b

theorem runAll_cons {ps : List Clause} :
    runAll (p :: ps) b = some b' ↔ ∃ b₁, p.run b = some b₁ ∧ runAll ps b₁ = some b' := by
  rw [runAll, List.foldlM_cons]
  exact Option.bind_eq_some_iff

theorem runAll_append {ps qs : List Clause} :
    runAll (ps ++ qs) b = some b' ↔ ∃ b₁, runAll ps b = some b₁ ∧ runAll qs b₁ = some b' := by
  rw [runAll, List.foldlM_append]
  exact Option.bind_eq_some_iff

end Line

namespace Clause

theorem Fits.isToken (h : p.Fits base) : Source.IsToken p.token.toList := by
  cases p with
  | numeral digits => exact h.1.isToken
  | truth x => cases x <;> decide
  | text t | toCode | cell name | constant name =>
    rw [token]
    decide
  | store name | add name | fetch name | mention name => exact Lexeme.isToken h

theorem delimited_tail (p : Clause) (hrest : Source.Delimited rest) :
    Source.Delimited (p.tail.toList ++ rest) := by
  cases p with
  | numeral digits | truth x | toCode | mention name => exact hrest
  | text t | cell name | constant name =>
    simp only [tail, String.toList_append, List.append_assoc]
    exact delimited_space _
  | store name | add name | fetch name =>
    rw [tail]
    exact delimited_space _

theorem Fits.oneLine (h : p.Fits base) : Text.OneLine p.source := by
  rw [source, Text.oneLine_append]
  cases p with
  | numeral digits =>
    rw [token, tail]
    exact ⟨h.1.oneLine, by decide⟩
  | text t =>
    rw [token, tail, Text.oneLine_append, Text.oneLine_append]
    exact ⟨by decide, ⟨by decide, h.2⟩, by decide⟩
  | truth x => cases x <;> decide
  | toCode => decide
  | cell name | constant name =>
    rw [token, tail, Text.oneLine_append]
    exact ⟨by decide, by decide, Lexeme.oneLine (Unused.toLexeme h)⟩
  | store name | add name | fetch name | mention name =>
    rw [token, tail]
    exact ⟨Lexeme.oneLine h, by decide⟩

end Clause

namespace Line

theorem delimited_behind (ps : List Clause) (hrest : Source.Delimited rest) :
    Source.Delimited ((behind ps).toList ++ rest) := by
  cases ps with
  | nil => exact hrest
  | cons p ps =>
    simp only [behind, List.map_cons, String.join_cons, String.toList_append, List.append_assoc]
    exact delimited_space _

theorem stands (hb : b.Stands base) {ps : List Clause} (hfits : ∀ p ∈ ps, p.Fits base)
    (hrun : runAll ps b = some b') : b'.Stands base := by
  induction ps generalizing b with
  | nil =>
    obtain rfl := Option.some.inj hrun
    exact hb
  | cons p ps ih =>
    obtain ⟨hfirst, hlater⟩ := List.forall_mem_cons.mp hfits
    obtain ⟨b₁, hp, hps⟩ := runAll_cons.mp hrun
    exact ih (Clause.stands hb hfirst hp) hlater hps

/-- A word stays that no clause stores to, unless its name is given to another one. -/
theorem newest?_runAll {ps : List Clause} (hrun : runAll ps b = some b')
    (hother : ∀ p ∈ ps, ∀ other, p.added? = some other ∨ p.target? = some other →
      Text.upper name ≠ Text.upper other) : b'.ledger.newest? name = b.ledger.newest? name := by
  induction ps generalizing b with
  | nil =>
    obtain rfl := Option.some.inj hrun
    rfl
  | cons p ps ih =>
    obtain ⟨hfirst, hlater⟩ := List.forall_mem_cons.mp hother
    obtain ⟨b₁, hp, hps⟩ := runAll_cons.mp hrun
    refine (ih hps hlater).trans ?_
    rcases p.run_cases hp with heq | ⟨_, other, keeper, x, hadded, rfl⟩ |
      ⟨_, other, _, x, htarget, -, rfl⟩
    · rw [heq]
    · have hpass : (⟨other, b.here, keeper, x⟩ : LedgerEntry).answers name = false := by
        simpa [LedgerEntry.answers] using Ne.symm (hfirst other (.inl hadded))
      exact Ledger.newest?_cons_of_neg _ hpass
    · exact Ledger.newest?_update_of_ne _ x (hfirst other (.inr htarget))

/-- What was stored last is fetched. -/
theorem fetch_of_store {ps : List Clause} {b₁ : Bench} (hdata : b.data = x :: data)
    (hx : x.isDatum = true) (hstore : (Clause.store name).run b = some b₁)
    (hrun : runAll ps b₁ = some b')
    (hother : ∀ p ∈ ps, ∀ other, p.added? = some other ∨ p.target? = some other →
      Text.upper name ≠ Text.upper other) :
    (Clause.fetch name).run b' = some (b'.push x) := by
  simp only [Clause.run, hdata] at hstore
  split at hstore
  · next e y data' hcell hsame =>
    obtain ⟨rfl, rfl⟩ := List.cons.inj hsame
    obtain rfl := Option.some.inj hstore
    obtain ⟨hentry, hkeeper⟩ := Bench.cell?_eq_some_iff.mp hcell
    have hlast : b'.cell? name = some { e with value := x } := Bench.cell?_eq_some_iff.mpr
      ⟨(newest?_runAll hrun hother).trans (Ledger.newest?_update_self hentry x), hkeeper⟩
    simp only [Clause.run, hlast, hx, if_true]
  · cases hstore

/-- `QUIT` reads clauses that stand behind others. -/
theorem reads_behind (hw : base.WellFormed hs) (hc : base.CanKeep) (hb : b.Stands base)
    {ps : List Clause} (hfits : ∀ p ∈ ps, p.Fits base) (hrun : runAll ps b = some b')
    (hrest : Source.Delimited rest) :
    Reads base (b.scene base ((behind ps).toList ++ rest)) (b'.scene base rest) := by
  induction ps generalizing b with
  | nil =>
    obtain rfl := Option.some.inj hrun
    exact .refl _
  | cons p ps ih =>
    obtain ⟨hfirst, hlater⟩ := List.forall_mem_cons.mp hfits
    obtain ⟨b₁, hp, hps⟩ := runAll_cons.mp hrun
    have hinput : (behind (p :: ps)).toList ++ rest =
        ' ' :: (p.token.toList ++ (p.tail.toList ++ ((behind ps).toList ++ rest))) := by
      simp [behind, Clause.source, String.join_cons]
    have hdelimited := delimited_behind ps hrest
    have htake : Turns base nextToken (b.scene base ((behind (p :: ps)).toList ++ rest)) p.token
        (b.scene base (p.tail.toList ++ ((behind ps).toList ++ rest))) :=
      turns_nextToken hfirst.isToken (p.delimited_tail hdelimited) hinput
    exact (p.reads hw hc hb hfirst hp hdelimited htake).trans
      (ih (Clause.stands hb hfirst hp) hlater hps)

/-- `QUIT` reads a line of clauses. -/
theorem reads (hw : base.WellFormed hs) (hc : base.CanKeep) (hb : b.Stands base) {l : Line}
    (hfits : ∀ p ∈ l.clauses, p.Fits base) (hrun : runAll l.clauses b = some b') :
    Reads base { b.scene base [] with waiting := [l.source] } (b'.scene base ['\n']) := by
  obtain ⟨hfirst, hlater⟩ := List.forall_mem_cons.mp hfits
  obtain ⟨b₁, hp, hps⟩ := runAll_cons.mp hrun
  have hend : Source.Delimited ['\n'] := by
    rintro c ⟨⟩
    decide
  have hdelimited := delimited_behind l.later hend
  have hline : l.source.toList ++ ['\n'] =
      l.first.token.toList ++ (l.first.tail.toList ++ ((behind l.later).toList ++ ['\n'])) := by
    simp [source, Clause.source]
  have htake : Turns base nextToken { b.scene base [] with waiting := [l.source] } l.first.token
      (b.scene base (l.first.tail.toList ++ ((behind l.later).toList ++ ['\n']))) :=
    turns_nextToken_waiting hfirst.isToken (l.first.delimited_tail hdelimited) rfl rfl hline
  exact (l.first.reads hw hc hb hfirst hp hdelimited htake).trans
    (reads_behind hw hc (Clause.stands hb hfirst hp) hlater hps hend)

theorem oneLine {l : Line} (hfits : ∀ p ∈ l.clauses, p.Fits base) : Text.OneLine l.source := by
  obtain ⟨hfirst, hlater⟩ := List.forall_mem_cons.mp hfits
  refine Text.oneLine_append.mpr ⟨hfirst.oneLine, ?_⟩
  generalize l.later = ps at hlater
  clear hfits
  induction ps with
  | nil => decide
  | cons p ps ih =>
    obtain ⟨hp, hps⟩ := List.forall_mem_cons.mp hlater
    rw [behind, List.map_cons, String.join_cons]
    exact Text.oneLine_append.mpr ⟨Text.oneLine_append.mpr ⟨by decide, hp.oneLine⟩, ih hps⟩

theorem source_ne_nil {l : Line} (hfits : ∀ p ∈ l.clauses, p.Fits base) : l.source.toList ≠ [] := by
  obtain ⟨hfirst, -⟩ := List.forall_mem_cons.mp hfits
  intro hnil
  simp only [source, Clause.source, String.toList_append, List.append_eq_nil_iff] at hnil
  exact hfirst.isToken.1 hnil.1.1

/-- **A line of clauses leaves what comes of it**, and does nothing else. -/
theorem interpretText (hw : base.WellFormed hs) (hc : base.CanKeep) (hb : b.Stands base) {l : Line}
    (hfits : ∀ p ∈ l.clauses, p.Fits base) (hrun : runAll l.clauses b = some b') {m : Machine}
    (hdata : m.data = b.data) (hmemory : m.memory = base.withEntries b.ledger)
    (hmode : m.mode = .immediate) (hidle : m.console.source.hasPending = false) (sink : Sink) :
    ∃ k, ∀ c ≥ k, ∃ m', Session.interpretText c sink l.source m = .ok "" m' ∧
      m.SettlesIn (b'.scene base ['\n']) m' := by
  have hreads := reads hw hc hb hfits hrun
  have hscene : (⟨m.data, m.memory, m.mode, [], [l.source]⟩ : Scene) =
      { b.scene base [] with waiting := [l.source] } := by
    rw [hdata, hmemory, hmode]
    rfl
  have hextends : m.memory.Extends base := hmemory ▸ hw.extends_withEntries b.ledger
  have hend : ∀ c ∈ (b'.scene base ['\n']).input, Source.isDelimiter c = true :=
    List.forall_mem_singleton.mpr rfl
  exact Session.interpretText_of_reads hextends hc.toHasInterpreter hidle (oneLine hfits)
    (source_ne_nil hfits) (hscene ▸ hreads) hend rfl sink

end Line

end ThreadedForth
