import ThreadedForth.Machine.Assembly
import ThreadedForth.Proofs.Compiler.Straight
import ThreadedForth.Proofs.Session.Agreement

/-!
# The assembler and the compiler

A host makes a word cell by cell (`Action.assemble`), and a program by a definition that is
interpreted. The kernel is made in the one way and all later words in the other, and both make the
same of the same body (`Session.assembler_agrees`): what the assembler looks up while the new word
can be seen already, the compiler looks up while it is hidden.
-/

namespace ThreadedForth

open ThreadedForth.Action

/-- A part of a body that goes straight into a definition. -/
inductive Item
  /-- the name of a word -/
  | word (name : String)
  | literal (n : Int)

namespace Item

/-- An item as a token of a definition. -/
def token : Item → String
  | word name => name
  | literal n => Numeral.write n

/-- An item as the assembler takes it: a literal is `LIT` and the cell. -/
def spelled : Item → List Cell
  | word name => [.text name]
  | literal n => [.text "LIT", .int n]

/-- An item can stand in the definition of a word with this name: it is the name of another word
that is visible and not immediate, or an integer whose numeral names no word. -/
inductive Fits (m : Memory) (self : String) : Item → Prop
  | word {name : String} {header : Int} (hother : Text.upper name ≠ Text.upper self)
      (hfind : m.find name = .ok (some (.int header)))
      (himm : m.isImmediate (.int header) = .ok false) : Fits m self (word name)
  | literal {n : Int} (hfind : m.find (Numeral.write n) = .ok none) : Fits m self (literal n)

end Item

variable {m : Machine} {hs : List Header} {name token self : String} {items : List Item}
  {header : Int} {before : List Cell}

/-! ## Assembling -/

/-- A name gives the token of the word that it finds. -/
theorem tokenOf_of_find (hfind : m.memory.find token = .ok (some (.int header))) :
    tokenOf token m = .ok (.token (header + headerSize)) m := by
  have htoken : m.tokenOf token = .ok (.token (header + headerSize)) := by
    rw [Machine.tokenOf, hfind]
    rfl
  rw [tokenOf, bind_of_ok (get_apply m), htoken]
  rfl

/-- The machine with a word at the end of its memory that has these cells so far. -/
def Machine.assembling (m : Machine) (name : String) (cells : List Cell) : Machine :=
  { m with memory := m.memory.withWord name 0 cells }

theorem append_assembling (x : Cell) :
    append x (m.assembling name before) = .ok () (m.assembling name (before ++ [x])) := by
  rw [Machine.assembling, Machine.assembling, ← Memory.append_withWord]
  rfl

/-- Other words are found as before. -/
theorem tokenOf_assembling (hw : m.memory.WellFormed hs)
    (hother : Text.upper token ≠ Text.upper name)
    (hfind : m.memory.find token = .ok (some (.int header))) :
    tokenOf token (m.assembling name before) =
      .ok (.token (header + headerSize)) (m.assembling name before) :=
  tokenOf_of_find ((hw.find_withWord (Nat.zero_le _) name before (.inl hother)).trans hfind)

section Items

variable (hw : m.memory.WellFormed hs)
  (hlit : m.memory.find "LIT" = .ok (some (.int (Kernel.header (.thread .lit)))))
  (hself : Text.upper "LIT" ≠ Text.upper name)
include hw hlit hself

/-- The assembler appends what the compiler compiles. -/
theorem appendBody_straight (hlexemes : ∀ i ∈ items, Lexeme i.token)
    (hitems : ∀ i ∈ items, i.Fits m.memory name) :
    ∃ cells, Straight m.memory (items.map Item.token) cells ∧
      ∀ before, appendBody (items.flatMap Item.spelled) (m.assembling name before) =
        .ok () (m.assembling name (before ++ cells)) := by
  induction items with
  | nil => exact ⟨[], .nil, fun before => by rw [List.append_nil]; rfl⟩
  | cons i items ih =>
    obtain ⟨hi, hitems⟩ := List.forall_mem_cons.mp hitems
    obtain ⟨hlexeme, hlexemes⟩ := List.forall_mem_cons.mp hlexemes
    obtain ⟨cells, hstraight, happend⟩ := ih hlexemes hitems
    cases hi with
    | @word token header hother hfind himm =>
      refine ⟨_, .word hlexeme hfind himm hstraight, fun before => ?_⟩
      have htoken : tokenOf token (m.assembling name before) =
          .ok (.token (header + headerSize)) (m.assembling name before) :=
        tokenOf_assembling hw hother hfind
      rw [List.flatMap_cons, Item.spelled, List.singleton_append, appendBody,
        bind_of_ok htoken, bind_of_ok (append_assembling _), happend]
      simp
    | @literal n hfind =>
      refine ⟨_, .numeral (Numeral.read?_write n) hfind hstraight, fun before => ?_⟩
      have htoken : tokenOf "LIT" (m.assembling name before) =
          .ok (.token (Kernel.header (.thread .lit) + headerSize)) (m.assembling name before) :=
        tokenOf_assembling hw hself hlit
      rw [List.flatMap_cons, Item.spelled, List.cons_append, List.singleton_append, appendBody,
        bind_of_ok htoken, bind_of_ok (append_assembling _), appendBody,
        bind_of_ok (append_assembling _), happend]
      · simp [Kernel.litToken, Kernel.token, headerSize]
      · simp

/-- A word that is assembled. -/
theorem assemble_straight (hlexemes : ∀ i ∈ items, Lexeme i.token)
    (hitems : ∀ i ∈ items, i.Fits m.memory name) (remark : String) :
    ∃ cells m', Straight m.memory (items.map Item.token) cells ∧
      assemble name (items.flatMap Item.spelled) 0 remark m = .ok (m.memory.here : Int) m' ∧
      m'.memory = m.memory.withWord name 0 (cells ++ [Kernel.exitToken]) ∧
      m'.data = m.data ∧ m'.returns = m.returns ∧ m'.mode = m.mode := by
  obtain ⟨cells, hstraight, happend⟩ := appendBody_straight hw hlit hself hlexemes hitems
  have henter : append (.native .enter) { m with memory := m.memory.allocateHeader name 0 } =
      .ok () (m.assembling name []) := by
    rw [Machine.assembling, ← Memory.allocateHeader_appendAll, ← Memory.append_eq_appendAll]
    rfl
  have hheader : modifyMemory (·.allocateHeader name 0) m =
      .ok () { m with memory := m.memory.allocateHeader name 0 } := rfl
  have hbody := happend []
  rw [List.nil_append] at hbody
  rw [assemble, bind_of_ok (get_apply m), bind_of_ok hheader, bind_of_ok henter, bind_of_ok hbody,
    bind_of_ok (append_assembling _)]
  let m' := m.assembling name (cells ++ [Kernel.exitToken])
  by_cases hremark : remark = ""
  · refine ⟨cells, m', hstraight, ?_, rfl, rfl, rfl, rfl⟩
    rw [if_neg (by simpa using hremark)]
    rfl
  · refine ⟨cells, { m' with remarks := (m.memory.here, remark) :: m'.remarks }, hstraight, ?_, rfl,
      rfl, rfl, rfl⟩
    rw [if_pos hremark]
    rfl

end Items

/-- **The assembler and the compiler agree**: a word that is assembled from these items and one that
is defined by their text have the same header, code field, body and `EXIT`, and lie in the same
place. Neither changes the data stack or the mode. The assembler leaves the return stack as it is,
and it is empty when the text comes to its end. -/
theorem Session.assembler_agrees (hw : m.memory.WellFormed hs) (hc : m.memory.CanCompile .empty)
    (hlit : m.memory.find "LIT" = .ok (some (.int (Kernel.header (.thread .lit)))))
    (hmode : m.mode = .immediate) (hidle : m.console.source.hasPending = false)
    (hname : Lexeme name) (hself : Text.upper name ≠ Text.upper "LIT")
    (hlexemes : ∀ i ∈ items, Lexeme i.token) (hitems : ∀ i ∈ items, i.Fits m.memory name)
    (remark : String) (sink : Sink) :
    ∃ body m₁,
      assemble name (items.flatMap Item.spelled) 0 remark m = .ok (m.memory.here : Int) m₁ ∧
      m₁.memory.cells = m.memory.cells ++ ([m.memory.link, .text (Text.upper name), .flags 0,
        .native .enter] ++ body ++ [Kernel.exitToken]).toArray ∧
      m₁.memory.latest = some (m.memory.here : Int) ∧
      m₁.data = m.data ∧ m₁.returns = m.returns ∧ m₁.mode = m.mode ∧
      ∃ k, ∀ b ≥ k, ∃ m₂,
        Session.interpretText b sink (": " ++ name ++ phraseText (items.map Item.token) ++ " ;") m =
          .ok "" m₂ ∧
        m₂.memory = m₁.memory ∧ m₂.data = m.data ∧ m₂.returns = [] ∧ m₂.mode = m.mode := by
  obtain ⟨cells, m₁, hstraight, hassemble, hmemory, hdata, hreturns, hmode₁⟩ :=
    assemble_straight hw hlit hself.symm hlexemes hitems remark
  obtain ⟨k, hrun⟩ := hstraight.interpretText hw hc hmode hidle hname sink
  refine ⟨cells, m₁, hassemble, by rw [hmemory]; simp [Memory.withWord, Memory.appendAll],
    by rw [hmemory]; rfl, hdata, hreturns, hmode₁, k, fun b hb => ?_⟩
  obtain ⟨m₂, hrun, hsettles, hreturns₂⟩ := hrun b hb
  exact ⟨m₂, hrun, hsettles.memory.trans hmemory.symm, hsettles.data, hreturns₂,
    hsettles.mode.trans hmode.symm⟩

section Booted

open Kernel

/-- Twice a cell and seven less, as the body of a word. -/
def lessSeven : List Item := [.word "dup", .word "+", .literal (-7), .word "+"]

-- the memory is read cell by cell
set_option maxRecDepth 10000 in
theorem lessSeven_fits : ∀ i ∈ lessSeven, i.Fits bootedMemory "less" := by
  have hfind (token : String) := booted_wellFormed.find_eq token
  have hdup : bootedMemory.find "dup" = .ok (some (.int 25)) := (hfind "dup").trans rfl
  have hplus : bootedMemory.find "+" = .ok (some (.int 73)) := (hfind "+").trans rfl
  have hseven : bootedMemory.find "-7" = .ok none := (hfind "-7").trans rfl
  have hadd : Item.Fits bootedMemory "less" (.word "+") := .word (by decide) hplus rfl
  exact List.forall_mem_cons.mpr ⟨.word (by decide) hdup rfl, List.forall_mem_cons.mpr ⟨hadd,
    List.forall_mem_cons.mpr ⟨.literal hseven, List.forall_mem_singleton.mpr hadd⟩⟩⟩

-- the memory is read cell by cell
set_option maxRecDepth 10000 in
/-- Assembled or defined, it is the same word behind those of a booted machine. -/
theorem Session.assembler_agrees_on_lessSeven :
    bootedMemory.WellFormed bootedHeaders ∧ bootedMemory.CanCompile .empty ∧ Lexeme "less" ∧
      (∀ i ∈ lessSeven, Lexeme i.token ∧ i.Fits bootedMemory "less") ∧
      ∃ m₁, assemble "less" [.text "dup", .text "+", .text "LIT", .int (-7), .text "+"] 0 ""
          bootedMachine = .ok bootedMemory.here m₁ ∧
        m₁.memory.latest = some (bootedMemory.here : Int) ∧
        ∃ k, ∀ b ≥ k, ∃ m₂, Session.interpretText b .shared
            (": " ++ "less" ++ phraseText ["dup", "+", "-7", "+"] ++ " ;") bootedMachine = .ok "" m₂ ∧
          m₂.memory = m₁.memory := by
  have hlexemes : ∀ i ∈ lessSeven, Lexeme i.token := by
    intro i hi
    have hall : ∀ token ∈ lessSeven.map Item.token, Source.IsToken token.toList ∧
        Text.OneLine token := by decide
    obtain ⟨htoken, hline⟩ := hall _ (List.mem_map_of_mem hi)
    exact ⟨htoken, hline⟩
  have hc : bootedMemory.CanCompile .empty := booted_hasCompiler.canCompile .empty
  have hname : Lexeme "less" := ⟨by decide, by decide⟩
  have hlit : bootedMemory.find "LIT" = .ok (some (.int (header (.thread .lit)))) :=
    (booted_wellFormed.find_eq "LIT").trans rfl
  obtain ⟨body, m₁, hassemble, -, hlatest, -, -, -, k, hrun⟩ :=
    Session.assembler_agrees (m := bootedMachine) booted_wellFormed hc hlit rfl rfl hname
      (by decide) hlexemes lessSeven_fits "" .shared
  refine ⟨booted_wellFormed, hc, hname, fun i hi => ⟨hlexemes i hi, lessSeven_fits i hi⟩, m₁,
    hassemble, hlatest, k, fun b hb => ?_⟩
  obtain ⟨m₂, hrun, hmemory, -⟩ := hrun b hb
  exact ⟨m₂, hrun, hmemory⟩

/-! ### Where they come apart -/

/-- A word with this name and these items could be made on a machine, by all that the dictionary
tells. -/
structure Machine.Suits (m : Machine) (name : String) (items : List Item) : Prop where
  mode : m.mode = .immediate
  wellFormed : ∃ hs, m.memory.WellFormed hs
  kernel : ∀ word ∈ [":", ";", "LIT"], m.memory.find word = bootedMemory.find word
  isToken : Source.IsToken name.toList
  notLit : name ≠ "LIT"
  items : ∀ i ∈ items, i.Fits m.memory name

/-- A word is assembled, and its definition comes to an end with another memory or with another
return stack than there was. -/
def Machine.Drifts (m : Machine) (name : String) (items : List Item) : Prop :=
  ∃ header m₁ bound outcome m₂,
    assemble name (items.flatMap Item.spelled) 0 "" m = .ok header m₁ ∧
    Session.interpretText bound .shared (": " ++ name ++ phraseText (items.map Item.token) ++ " ;")
      m = endsIn outcome m₂ ∧ (m₂.memory ≠ m₁.memory ∨ m₂.returns ≠ m.returns)

/-- The two memories differ when as many steps have been made as are enough here. -/
def drifts (m : Machine) (name : String) (items : List Item) : Bool :=
  match assemble name (items.flatMap Item.spelled) 0 "" m,
    verdict (Session.interpretText 30 .shared
      (": " ++ name ++ phraseText (items.map Item.token) ++ " ;") m) with
  | .ok _ m₁, some (_, m₂) => m₂.memory.cells ≠ m₁.memory.cells
  | _, _ => false

theorem Machine.Drifts.of_run (h : drifts m name items = true) : m.Drifts name items := by
  unfold drifts at h
  split at h
  · next header m₁ outcome m₂ hassemble hrun =>
    exact ⟨header, m₁, 30, outcome, m₂, hassemble, eq_endsIn_of_verdict hrun,
      .inl fun hsame => of_decide_eq_true h (congrArg Memory.cells hsame)⟩
  · cases h

/-- What a definition does is known when its text is that of a straight one. -/
theorem Machine.Drifts.of_straight {tokens : List String} {cells : List Cell}
    (hw : m.memory.WellFormed hs) (hc : m.memory.CanCompile .empty) (hmode : m.mode = .immediate)
    (hidle : m.console.source.hasPending = false) (hname : Lexeme name)
    (h : Straight m.memory tokens cells)
    (htext : phraseText tokens = phraseText (items.map Item.token))
    (hassemble : endsWell (fun _ m₁ => m.returns ≠ [] ∨ m₁.memory.cells ≠
        (m.memory.withWord name 0 (cells ++ [Kernel.exitToken])).cells)
      (assemble name (items.flatMap Item.spelled) 0 "" m) = true) : m.Drifts name items := by
  obtain ⟨here, m₁, hassemble, hdiffer⟩ := exists_of_endsWell hassemble
  obtain ⟨k, hrun⟩ := h.interpretText hw hc hmode hidle hname .shared
  obtain ⟨m₂, hrun, hsettles, hreturns⟩ := hrun k (Nat.le_refl k)
  rw [htext] at hrun
  refine ⟨here, m₁, k, .ok "", m₂, hassemble, hrun, ?_⟩
  rw [hsettles.memory, hreturns]
  rcases of_decide_eq_true hdiffer with hreturns | hcells
  · exact .inr hreturns.symm
  · exact .inl fun hsame => hcells (congrArg Memory.cells hsame.symm)

/-- A word with a blank in its name. -/
def blankName : Definition := .cell "DUP DROP"

/-- Booted machines, and a word that does not come out the same there: a line waits to be read that
begins a comment; the code field of `CREATE` is written over; there is something on the return
stack; the name of an item is two names to a text; the word takes the name of `LIT`. -/
def driftingWords : List (Machine × String × List Item) :=
  [({ memory := bootedMemory, console := { source := { pending := ["("] } } }, "?", []),
    ({ memory := bootedMemory.write 216 (.int 0) }, "?", []),
    ({ memory := bootedMemory, returns := [none] }, "?", []),
    ({ memory := bootedMemory.define blankName }, "?", [.word "DUP DROP"]),
    ({ memory := bootedMemory }, "lit", [.literal 5])]

-- the memory is read cell by cell
set_option maxRecDepth 10000 in
theorem driftingWords_suit : driftingWords.Forall fun a => a.1.Suits a.2.1 a.2.2 := by
  have hfind (token : String) := booted_wellFormed.find_eq token
  have hout : ∀ h ∈ bootedHeaders, 216 < h.addr ∨ h.addr + 3 ≤ 216 := by decide +kernel
  have hwritten : (bootedMemory.write 216 (.int 0)).WellFormed bootedHeaders :=
    booted_wellFormed.write _ hout
  have hsame (word : String) : (bootedMemory.write 216 (.int 0)).find word =
      bootedMemory.find word := booted_wellFormed.find_write _ hout word
  have hother : ∀ word ∈ [":", ";", "LIT"], (bootedMemory.define blankName).find word =
      bootedMemory.find word := fun word hword =>
    booted_wellFormed.find_define_of_ne (by revert word; decide)
  have htwo : Item.Fits (bootedMemory.define blankName) "?" (.word "DUP DROP") :=
    .word (by decide) (booted_wellFormed.find_define rfl) (booted_wellFormed.isImmediate_define _)
  have hfive : bootedMemory.find "5" = .ok none := (hfind "5").trans rfl
  refine ⟨?_, ?_, ?_, ?_, ?_⟩
  · exact ⟨rfl, ⟨_, booted_wellFormed⟩, fun _ _ => rfl, by decide, by decide, nofun⟩
  · exact ⟨rfl, ⟨_, hwritten⟩, fun word _ => hsame word, by decide, by decide, nofun⟩
  · exact ⟨rfl, ⟨_, booted_wellFormed⟩, fun _ _ => rfl, by decide, by decide, nofun⟩
  · exact ⟨rfl, ⟨_, booted_wellFormed.define _⟩, hother, by decide, by decide,
      List.forall_mem_singleton.mpr htwo⟩
  · exact ⟨rfl, ⟨_, booted_wellFormed⟩, fun _ _ => rfl, by decide, by decide,
      List.forall_mem_singleton.mpr (.literal hfive)⟩

-- the memory is read cell by cell
set_option maxRecDepth 10000 in
theorem dupDrop_straight :
    Straight bootedMemory ["DUP", "DROP"] [.token (25 + headerSize), .token (21 + headerSize)] := by
  have hfind (token : String) := booted_wellFormed.find_eq token
  exact .word ⟨by decide, by decide⟩ ((hfind "DUP").trans rfl) rfl
    (.word ⟨by decide, by decide⟩ ((hfind "DROP").trans rfl) rfl .nil)

theorem blankName_canCompile : (bootedMemory.define blankName).CanCompile .empty := by
  have hnames : ∀ name ∈ Memory.compilerNames, Text.upper name ≠ Text.upper blankName.name := by
    decide
  exact (booted_hasCompiler.define booted_wellFormed hnames).canCompile .empty

theorem blankName_straight : Straight (bootedMemory.define blankName) ["DUP", "DROP"]
    [.token (25 + headerSize), .token (21 + headerSize)] := by
  have htokens : ∀ token ∈ ["DUP", "DROP"], Text.upper token ≠ Text.upper blankName.name := by
    decide
  exact dupDrop_straight.of_find (booted_wellFormed.extends_define blankName) fun token htoken =>
    booted_wellFormed.find_define_of_ne (htokens token htoken)

theorem driftingWords_drift : driftingWords.Forall fun a => a.1.Drifts a.2.1 a.2.2 := by
  have hc : bootedMemory.CanCompile .empty := booted_hasCompiler.canCompile .empty
  have hname : Lexeme "?" := ⟨by decide, by decide⟩
  have hlit : Lexeme "lit" := ⟨by decide, by decide⟩
  have hfive : bootedMemory.find "5" = .ok none := by decide +kernel
  refine ⟨.of_run (by decide +kernel), .of_run (by decide +kernel), ?_, ?_, ?_⟩
  · exact .of_straight booted_wellFormed hc rfl rfl hname .nil rfl (by decide +kernel)
  · exact .of_straight (booted_wellFormed.define blankName) blankName_canCompile rfl rfl hname
      blankName_straight rfl (by decide +kernel)
  · exact .of_straight booted_wellFormed hc rfl rfl hlit (.numeral rfl hfive .nil) rfl
      (by decide +kernel)

/-- The assembler and the compiler do not agree in these. -/
theorem Session.assembler_drifts :
    driftingWords.Forall fun a => a.1.Suits a.2.1 a.2.2 ∧ a.1.Drifts a.2.1 a.2.2 :=
  List.forall_iff_forall_mem.mpr fun a ha =>
    ⟨List.forall_iff_forall_mem.mp driftingWords_suit a ha,
      List.forall_iff_forall_mem.mp driftingWords_drift a ha⟩

end Booted

end ThreadedForth
