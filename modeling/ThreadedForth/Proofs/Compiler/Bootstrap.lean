import ThreadedForth.Kernel.Bootstrap
import ThreadedForth.Proofs.Compiler.Booted
import ThreadedForth.Proofs.Compiler.Outline

/-!
# The bootstrap

What `QUIT` makes of the texts of the bootstrap: from the memory of the kernel they lead to the one
that is given word by word (`Kernel.reads_bootstrap`). All but one of the definitions run straight
through, and are put together from a few pieces (`Kernel.Piece`); they take names that none of the
definitions uses for itself, so that they always find the words of the kernel (`Kernel.Booting`).
-/

namespace ThreadedForth.Kernel

open ThreadedForth.Action

/-! ## The kernel -/

theorem kernel_wellFormed : memory.WellFormed (Memory.headersFrom 1 [] words) :=
  Memory.wellFormed_ofWords _ (by simp [words]) (by decide)

/-- The words of the kernel that the bootstrap compiles. -/
def bootPrimitives : List Primitive :=
  [.thread .exit, .thread .lit, .thread .branch, .thread .branchFalse, .calculation (.stack .drop),
    .calculation (.stack .dup), .calculation (.stack .swap), .calculation (.arithmetic .add),
    .calculation (.arithmetic .sub), .calculation (.arithmetic .decrement),
    .calculation (.comparison .isPositive), .memory .fetch, .memory .store, .memory .comma,
    .memory .here, .memory .latest, .compiler .create, .compiler .compileEnter,
    .compiler .compileVariable, .compiler .toCode, .input .word, .calculation (.output .dot),
    .calculation (.output .emit)]

/-- The numerals of the bootstrap and what they stand for. -/
def bootNumerals : List (String × Int) := [("0", 0), ("2", 2), ("10", 10), ("32", 32)]

/-- The names of the words of the bootstrap. -/
def bootNames : List String := bootWords.map WordImage.name

-- the memory is read cell by cell
set_option maxRecDepth 10000 in
theorem kernel_word : ∀ p ∈ bootPrimitives, Source.IsToken p.name.toList ∧
    Text.upper p.name ∉ bootNames ∧ memory.find p.name = .ok (some (.int (header p))) ∧
    memory.isImmediate (.int (header p)) = .ok false := by
  simp only [kernel_wellFormed.find_eq]
  decide +kernel

set_option maxRecDepth 10000 in
theorem kernel_numeral : ∀ numeral ∈ bootNumerals, Source.IsToken numeral.1.toList ∧
    Text.upper numeral.1 ∉ bootNames ∧ memory.find numeral.1 = .ok none ∧
    Numeral.read? numeral.1 = some numeral.2 := by
  simp only [kernel_wellFormed.find_eq]
  decide +kernel

-- as above
set_option maxRecDepth 10000 in
theorem kernel_tools :
    memory.NamesImmediate "(" [.native (.primitive (.text .comment))] ∧
      memory.NamesImmediate "[']" [.native (.primitive (.compiler .compileTick))] ∧
      memory.NamesImmediate "IMMEDIATE" [.native (.primitive (.compiler .immediate))] ∧
      memory.Names "\\" (header (.text .lineComment)) [.native (.primitive (.text .lineComment))] ∧
      memory.Names ":" colonHeader (.native .enter :: colonBody ++ [exitToken]) ∧
      memory.NamesImmediate ";" (.native .enter :: semicolonBody ++ [exitToken]) := by
  have himmediate {name : String} {cells : List Cell} (header : Int)
      (h : memory.Names name header cells ∧ memory.isImmediate (.int header) = .ok true) :
      memory.NamesImmediate name cells := ⟨header, h⟩
  refine ⟨himmediate (header (.text .comment)) ?_,
    himmediate (header (.compiler .compileTick)) ?_,
    himmediate (header (.compiler .immediate)) ?_, ?_, ?_,
    himmediate semicolonHeader ?_⟩
  all_goals
    simp only [Memory.Names, kernel_wellFormed.find_eq]
    decide +kernel

theorem kernel_primitives : (∀ p ∈ compilerPrimitives, memory.Intact p) ∧
    memory.HasCode (quitHeader + headerSize) (.native .enter :: quitBody) := by
  decide +kernel

/-! ## On the way -/

/-- The words of the kernel and some of the bootstrap: by any other name the words of the kernel are
found. -/
structure Booting (ws : List WordImage) : Prop where
  nonempty : ws ≠ []
  named : ∀ w ∈ ws, w.flags ≤ Flags.named
  grown : (Memory.ofWords ws).Extends memory
  finds : ∀ name, Text.upper name ∉ bootNames → (Memory.ofWords ws).find name = memory.find name

namespace Booting

variable {ws : List WordImage} {name text : String} {flags : Nat} {cells : List Cell}
  {header : Int}

theorem kernel : Booting words where
  nonempty := by simp [words]
  named := by decide
  grown := kernel_wellFormed.extends_self
  finds _ _ := rfl

theorem wellFormed (h : Booting ws) :
    (Memory.ofWords ws).WellFormed (Memory.headersFrom 1 [] ws) :=
  Memory.wellFormed_ofWords ws h.nonempty h.named

/-- One more word of the bootstrap. -/
theorem add (h : Booting ws) (hname : name ∈ bootNames) (hupper : Text.upper name = name)
    (hflags : flags ≤ Flags.named) (cells : List Cell) :
    Booting (ws ++ [⟨name, flags, .native .enter :: cells⟩]) where
  nonempty := by simp
  named w hw := by
    rcases List.mem_append.mp hw with hw | hw
    · exact h.named w hw
    · rw [List.mem_singleton.mp hw]
      exact hflags
  grown := by
    rw [h.wellFormed.ofWords_concat flags cells hupper]
    exact (h.wellFormed.extends_withWord name hflags cells).trans h.grown
  finds sought hsought := by
    have hne : Text.upper sought ≠ Text.upper name := fun heq =>
      hsought (heq ▸ hupper.symm ▸ hname)
    rw [h.wellFormed.ofWords_concat flags cells hupper,
      h.wellFormed.find_withWord hflags name cells (.inl hne), h.finds sought hsought]

theorem names (h : Booting ws) (hname : memory.Names name header cells)
    (hnew : Text.upper name ∉ bootNames) : (Memory.ofWords ws).Names name header cells :=
  hname.of_find h.grown (h.finds name hnew)

theorem namesImmediate (h : Booting ws) (hname : memory.NamesImmediate name cells)
    (hnew : Text.upper name ∉ bootNames) : (Memory.ofWords ws).NamesImmediate name cells :=
  hname.of_find h.grown (h.finds name hnew)

theorem canCompile (h : Booting ws) : (Memory.ofWords ws).CanCompile .empty where
  primitives p hp := h.grown.retains _ _ (kernel_primitives.1 p hp)
  quit := h.grown.hasCode kernel_primitives.2
  colon := ⟨colonHeader, h.names kernel_tools.2.2.2.2.1 (by decide)⟩
  semicolon := h.namesImmediate kernel_tools.2.2.2.2.2 (by decide)
  tools := by simp [Body.tools]

end Booting

/-! ## Definitions that run straight through -/

/-- A piece of the text of a definition. -/
inductive Piece
  /-- a word that is compiled -/
  | word (p : Primitive)
  /-- a number -/
  | number (numeral : String) (n : Int)
  /-- a word whose token is compiled as a literal -/
  | tick (p : Primitive)
  /-- a remark -/
  | remark (text : String)

namespace Piece

/-- How a piece is written. -/
def text : Piece → String
  | word p => " " ++ p.name
  | number numeral _ => " " ++ numeral
  | tick p => " ['] " ++ p.name
  | remark text => " ( " ++ text ++ ")"

/-- What is compiled. -/
def cells : Piece → List Cell
  | word p => [token p]
  | number _ n => [litToken, .int n]
  | tick p => [litToken, token p]
  | remark _ => []

/-- A piece is one that the bootstrap takes. -/
def Fits : Piece → Prop
  | word p | tick p => p ∈ bootPrimitives
  | number numeral n => (numeral, n) ∈ bootNumerals
  | remark text => ')' ∉ text.toList

instance : DecidablePred Fits
  | word p | tick p => inferInstanceAs (Decidable (p ∈ bootPrimitives))
  | number numeral n => inferInstanceAs (Decidable ((numeral, n) ∈ bootNumerals))
  | remark text => inferInstanceAs (Decidable (')' ∉ text.toList))

variable {ws : List WordImage} {draft : Draft}

theorem compiles (h : Booting ws) {piece : Piece} (hfits : piece.Fits) :
    Compiles (Memory.ofWords ws) draft piece.text piece.cells := by
  have hc := h.canCompile.toHasInterpreter
  cases piece with
  | word p =>
    obtain ⟨htoken, hnew, hfind, himm⟩ := kernel_word p hfits
    exact compiles_word h.wellFormed hc htoken ((h.finds _ hnew).trans hfind)
      (h.grown.isImmediate himm)
  | number numeral n =>
    obtain ⟨htoken, hnew, hfind, hread⟩ := kernel_numeral (numeral, n) hfits
    exact compiles_numeral h.wellFormed hc htoken ((h.finds _ hnew).trans hfind) hread
  | tick p =>
    obtain ⟨htoken, hnew, hfind, -⟩ := kernel_word p hfits
    exact compiles_tick h.wellFormed hc (h.namesImmediate kernel_tools.2.1 (by decide)) htoken
      ((h.finds _ hnew).trans hfind)
  | remark text =>
    exact compiles_remark h.wellFormed hc (h.namesImmediate kernel_tools.1 (by decide)) hfits

theorem compiles_all (h : Booting ws) {pieces : List Piece} (hfits : ∀ piece ∈ pieces, piece.Fits) :
    Compiles (Memory.ofWords ws) draft (String.join (pieces.map text)) (pieces.flatMap cells) := by
  induction pieces with
  | nil => exact compiles_empty
  | cons piece pieces ih =>
    obtain ⟨hpiece, hpieces⟩ := List.forall_mem_cons.mp hfits
    rw [List.map_cons, String.join_cons, List.flatMap_cons]
    exact (compiles h hpiece).seq (ih hpieces)

end Piece

/-- A definition that runs straight through, after blank lines. -/
structure Block where
  blanks : Nat := 0
  name : String
  immediate : Bool := false
  pieces : List Piece

namespace Block

/-- What stands between the name and the end of the definition. -/
def text (b : Block) : String :=
  (if b.immediate then " IMMEDIATE" else "") ++ String.join (b.pieces.map Piece.text)

/-- The lines. -/
def lines (b : Block) : List String :=
  List.replicate b.blanks "" ++ [": " ++ b.name ++ b.text ++ " ;"]

/-- The flags of the word. -/
def flags (b : Block) : Nat := if b.immediate then Flags.immediate else 0

/-- The word. -/
def word (b : Block) : WordImage := threadedWord b.name b.flags (b.pieces.flatMap Piece.cells)

/-- A definition is one of the bootstrap. -/
def Fits (b : Block) : Prop :=
  Source.IsToken b.name.toList ∧ b.name ∈ bootNames ∧ Text.upper b.name = b.name ∧
    ∀ piece ∈ b.pieces, piece.Fits

instance : DecidablePred Fits := fun b =>
  have := List.decidableBAll Piece.Fits b.pieces
  instDecidableAnd

end Block

/-! ## Lines -/

/-- `QUIT` reads these lines after some words, and then these are the words in memory. -/
def Boots (ws : List WordImage) (lines : List String) (ws' : List WordImage) : Prop :=
  ∀ later input, (∀ c ∈ input, Source.isDelimiter c = true) →
    ∃ input', (∀ c ∈ input', Source.isDelimiter c = true) ∧
      Reads memory (.awaiting (.ofWords ws) [] input (lines ++ later))
        (.awaiting (.ofWords ws') [] input' later)

section Lines

variable {ws ws₁ ws' : List WordImage} {lines lines' : List String} {name text : String}
  {flags : Nat} {cells : List Cell}

theorem Boots.refl (ws : List WordImage) : Boots ws [] ws := fun _ input hinput =>
  ⟨input, hinput, .refl _⟩

theorem Boots.trans (h : Boots ws lines ws₁) (h' : Boots ws₁ lines' ws') :
    Boots ws (lines ++ lines') ws' := by
  intro later input hinput
  obtain ⟨input₁, hinput₁, hreads⟩ := h (lines' ++ later) input hinput
  obtain ⟨input', hinput', hreads'⟩ := h' later input₁ hinput₁
  rw [List.append_assoc]
  exact ⟨input', hinput', hreads.trans hreads'⟩

theorem isBlank_of_mem_replicate {n : Nat} : ∀ l ∈ List.replicate n "", Reading.IsBlank l := by
  intro l hl
  rw [(List.mem_replicate.mp hl).2]
  intro c hc
  cases hc

/-- A definition is read. -/
theorem Booting.boots (h : Booting ws) (n : Nat) (htoken : Source.IsToken name.toList)
    (hname : name ∈ bootNames) (hupper : Text.upper name = name) (hflags : flags ≤ Flags.named)
    (houtlines : Outlines (.ofWords ws) name text flags cells) :
    Boots ws (List.replicate n "" ++ [": " ++ name ++ text ++ " ;"])
        (ws ++ [threadedWord name flags cells]) ∧
      Booting (ws ++ [threadedWord name flags cells]) := by
  refine ⟨fun later input hinput => ⟨['\n'], List.forall_mem_singleton.mpr rfl, ?_⟩,
    h.add hname hupper hflags _⟩
  have hreads : Reads (.ofWords ws)
      (.awaiting (.ofWords ws) [] input
        (List.replicate n "" ++ (": " ++ name ++ text ++ " ;") :: later)) _ :=
    houtlines.reads h.wellFormed h.canCompile htoken hinput isBlank_of_mem_replicate
  have hword : Memory.ofWords (ws ++ [threadedWord name flags cells]) =
      (Memory.ofWords ws).withWord name flags (cells ++ [exitToken]) :=
    h.wellFormed.ofWords_concat flags (cells ++ [exitToken]) hupper
  rw [List.append_assoc, List.singleton_append, hword]
  exact hreads.since h.wellFormed.extends_self h.grown

/-- A line of remarks is read. -/
theorem Booting.boots_note (h : Booting ws) (n : Nat) (text : String) :
    Boots ws (List.replicate n "" ++ ["\\ " ++ text]) ws := by
  intro later input hinput
  have hreads : Reads (.ofWords ws)
      (.awaiting (.ofWords ws) [] input (List.replicate n "" ++ ("\\ " ++ text) :: later)) _ :=
    reads_note h.canCompile.toHasInterpreter (h.names kernel_tools.2.2.2.1 (by decide)) hinput
      isBlank_of_mem_replicate
  rw [List.append_assoc, List.singleton_append]
  exact ⟨[], by simp, hreads.since h.wellFormed.extends_self h.grown⟩

/-- Definitions that run straight through are read. -/
theorem Booting.boots_blocks (h : Booting ws) (blocks : List Block)
    (hfits : ∀ b ∈ blocks, b.Fits) :
    Boots ws (blocks.flatMap Block.lines) (ws ++ blocks.map Block.word) ∧
      Booting (ws ++ blocks.map Block.word) := by
  induction blocks generalizing ws with
  | nil =>
    rw [List.map_nil, List.append_nil]
    exact ⟨.refl ws, h⟩
  | cons b blocks ih =>
    obtain ⟨⟨htoken, hname, hupper, hpieces⟩, hblocks⟩ := List.forall_mem_cons.mp hfits
    have hflags : b.flags ≤ Flags.named := by
      rw [Block.flags]
      split <;> decide
    have houtlines :
        Outlines (.ofWords ws) b.name b.text b.flags (b.pieces.flatMap Piece.cells) := by
      have hcompiles (draft : Draft) :
          Compiles (.ofWords ws) draft (String.join (b.pieces.map Piece.text))
            (b.pieces.flatMap Piece.cells) :=
        Piece.compiles_all h hpieces
      rw [Block.text, Block.flags]
      cases b.immediate with
      | true =>
        exact Compiles.outlines_immediate h.wellFormed h.canCompile.toHasInterpreter
          (h.namesImmediate kernel_tools.2.2.1 (by decide)) fun _ => hcompiles _
      | false =>
        rw [if_neg Bool.false_ne_true, if_neg Bool.false_ne_true, String.empty_append]
        exact Compiles.outlines fun _ => hcompiles _
    obtain ⟨hboots, hbooting⟩ := h.boots b.blanks htoken hname hupper hflags houtlines
    obtain ⟨hlater, hend⟩ := ih hbooting hblocks
    rw [List.flatMap_cons, List.map_cons, List.append_cons]
    exact ⟨hboots.trans hlater, hend⟩

end Lines

/-! ## The definitions -/

open Piece in
/-- The first definitions, up to the first remarks that fill a line. -/
def firstBlocks : List Block :=
  [⟨1, "LITERAL", true, [tick (.thread .lit), word (.memory .comma), word (.memory .comma)]⟩,
    ⟨0, "RECURSE", true,
      [word (.memory .latest), word (.compiler .toCode), word (.memory .comma)]⟩]

open Piece in
/-- The definitions after these remarks, up to the one that takes words of control flow. -/
def laterBlocks : List Block :=
  let branch (p : Primitive) : List Piece := [tick p, word (.memory .comma)]
  let leaveOpen : List Piece := [word (.memory .here), number "0" 0, word (.memory .comma)]
  let measure : List Piece := [word (.calculation (.stack .dup)), word (.memory .here),
    word (.calculation (.stack .swap)), word (.calculation (.arithmetic .sub))]
  let fillIn : List Piece := [word (.calculation (.stack .swap)), word (.memory .store)]
  let back : List Piece :=
    [word (.memory .here), word (.calculation (.arithmetic .sub)), word (.memory .comma)]
  let emit (numeral : String) (n : Int) : List Piece :=
    [number numeral n, word (.calculation (.output .emit))]
  [⟨0, "IF", true, branch (.thread .branchFalse) ++ leaveOpen⟩,
    ⟨0, "THEN", true, measure ++ fillIn⟩,
    ⟨0, "ELSE", true, measure ++ [number "2" 2, word (.calculation (.arithmetic .add))] ++ fillIn
      ++ branch (.thread .branch) ++ leaveOpen⟩,
    ⟨1, "BEGIN", true, [word (.memory .here)]⟩,
    ⟨0, "UNTIL", true, branch (.thread .branchFalse) ++ back⟩,
    ⟨0, "AGAIN", true, branch (.thread .branch) ++ back⟩,
    ⟨0, "WHILE", true, branch (.thread .branchFalse) ++ leaveOpen⟩,
    ⟨0, "REPEAT", true, branch (.thread .branch) ++ word (.calculation (.stack .swap)) :: back
      ++ measure ++ fillIn⟩,
    ⟨1, "VARIABLE", false, [remark "<name> -- ", word (.input .word), word (.compiler .create),
      word (.compiler .compileVariable), number "0" 0, word (.memory .comma)]⟩,
    ⟨0, "CONSTANT", false, [remark "n <name> -- ", word (.input .word), word (.compiler .create),
      word (.compiler .compileEnter)] ++ branch (.thread .lit) ++ word (.memory .comma)
      :: branch (.thread .exit)⟩,
    ⟨1, "SPACE", false, emit "32" 32⟩,
    ⟨0, "CR", false, emit "10" 10⟩]

open Piece in
/-- The last definition. -/
def lastBlock : Block :=
  ⟨0, "?", false,
    [remark "addr -- ", word (.memory .fetch), word (.calculation (.output .dot))]⟩

/-- The words up to the definition that takes words of control flow. -/
def wordsBefore : List WordImage :=
  words ++ firstBlocks.map Block.word ++ laterBlocks.map Block.word

/-- The primitives in the body of `SPACES`, which calls one other word. -/
def spacesPrimitives : List Primitive :=
  [.calculation (.stack .dup), .calculation (.comparison .isPositive),
    .calculation (.arithmetic .decrement), .calculation (.stack .drop)]

/-- The body of `SPACES`. -/
def spacesBody : Body :=
  .seq (.whileLoop
      (.seq (.call (header (.calculation (.stack .dup)) + headerSize))
        (.call (header (.calculation (.comparison .isPositive)) + headerSize)))
      (.seq (.call (513 + headerSize))
        (.call (header (.calculation (.arithmetic .decrement)) + headerSize))))
    (.call (header (.calculation (.stack .drop)) + headerSize))

/-- How it is written. -/
def spacesText : String := " BEGIN DUP 0> WHILE SPACE 1- REPEAT DROP"

-- the memory is read cell by cell
set_option maxRecDepth 10000 in
theorem Booting.tools (h : Booting wordsBefore) :
    (Memory.ofWords wordsBefore).Names "SPACE" 513 [.native .enter] ∧
    (Memory.ofWords wordsBefore).isImmediate (.int 513) = .ok false ∧
    ∀ w ∈ [ControlWord.beginWord, .whileWord, .repeatWord],
      (Memory.ofWords wordsBefore).Names w.name (controlHeader w) (Instruction.wordCells w.thread) ∧
        (Memory.ofWords wordsBefore).isImmediate (.int (controlHeader w)) = .ok true := by
  simp only [Memory.Names, h.wellFormed.find_eq, List.forall_mem_cons, List.not_mem_nil, false_implies,
    implies_true]
  decide +kernel

theorem spaces_spelled (h : Booting wordsBefore) :
    Spelled (.ofWords wordsBefore) spacesBody spacesText := by
  have hword {p : Primitive} (hp : p ∈ spacesPrimitives) :
      Spelled (.ofWords wordsBefore) (.call (header p + headerSize)) (" " ++ p.name) := by
    have hboot : p ∈ bootPrimitives :=
      (by decide : ∀ p ∈ spacesPrimitives, p ∈ bootPrimitives) p hp
    have hline : Text.OneLine p.name :=
      (by decide : ∀ p ∈ spacesPrimitives, Text.OneLine p.name) p hp
    obtain ⟨htoken, hnew, hfind, himm⟩ := kernel_word p hboot
    exact .word ⟨htoken, hline⟩ ((h.finds _ hnew).trans hfind) (h.grown.isImmediate himm)
  have hspace : Spelled (.ofWords wordsBefore) (.call (513 + headerSize)) (" " ++ "SPACE") :=
    .word ⟨by decide, by decide⟩ h.tools.1.1 h.tools.2.1
  have hloop := ((hword (p := .calculation (.stack .dup)) (by decide)).seq
      (hword (p := .calculation (.comparison .isPositive)) (by decide))).whileLoop
    (hspace.seq (hword (p := .calculation (.arithmetic .decrement)) (by decide)))
  exact hloop.seq (hword (p := .calculation (.stack .drop)) (by decide))

theorem spaces_outlines (h : Booting wordsBefore) :
    Outlines (.ofWords wordsBefore) "SPACES" (" ( n -- )" ++ spacesText) 0
      (spacesBody.code ((Memory.ofWords wordsBefore).here + 3)) := by
  have hc := h.canCompile.toHasInterpreter
  refine Compiles.outlines fun lines => ?_
  have hremark : Compiles (.ofWords wordsBefore) { name := "SPACES", lines := lines }
      (" ( " ++ "n -- " ++ ")") [] :=
    compiles_remark h.wellFormed hc (h.namesImmediate kernel_tools.1 (by decide)) (by decide)
  refine hremark.seq
      ((spaces_spelled h).compiles h.wellFormed hc fun tool htool => ?_)
  have htools : ∀ w ∈ [ControlWord.beginWord, .whileWord, .repeatWord],
      (Memory.ofWords wordsBefore).NamesImmediate w.name (Instruction.wordCells w.thread) :=
    fun w hw => ⟨controlHeader w, h.tools.2.2 w hw⟩
  simp only [Body.tools, spacesBody, List.append_nil, List.mem_cons, List.not_mem_nil,
    or_false] at htool
  rcases htool with rfl | rfl | rfl
  · exact htools .beginWord (by simp)
  · exact htools .whileWord (by simp)
  · exact htools .repeatWord (by simp)

/-! ## All of it -/

/-- The word `SPACES`. -/
def spacesWord : WordImage :=
  threadedWord "SPACES" 0 (spacesBody.code ((Memory.ofWords wordsBefore).here + 3))

set_option maxRecDepth 10000 in
theorem bootWords_eq : bootWords = firstBlocks.map Block.word ++
    (laterBlocks.map Block.word ++ ([spacesWord] ++ [lastBlock].map Block.word)) := by
  rfl

/-- The remarks that fill a line. -/
def noteText : String := "( -- addr ) leaves the offset cell to patch"

/-- The lines of the bootstrap. -/
theorem bootstrap_eq : bootstrap = firstBlocks.flatMap Block.lines ++
    ((List.replicate 1 "" ++ ["\\ " ++ noteText]) ++
      (laterBlocks.flatMap Block.lines ++
        ((List.replicate 0 "" ++ [": " ++ "SPACES" ++ (" ( n -- )" ++ spacesText) ++ " ;"]) ++
          lastBlock.lines))) := by
  decide +kernel

/-- **The bootstrap leaves its words behind.** -/
theorem reads_bootstrap : ∃ input, (∀ c ∈ input, Source.isDelimiter c = true) ∧
    Reads memory (.awaiting memory [] [] bootstrap) (.awaiting bootedMemory [] input []) := by
  obtain ⟨hfirst, hbefore⟩ := Booting.kernel.boots_blocks firstBlocks (by decide +kernel)
  obtain ⟨hlater, hend⟩ := hbefore.boots_blocks laterBlocks (by decide +kernel)
  have hbefore' : Booting wordsBefore := hend
  obtain ⟨hspaces, hend'⟩ := hbefore'.boots 0 (by decide) (by decide)
    (by decide) (by decide) (spaces_outlines hbefore')
  obtain ⟨hlast, -⟩ := hend'.boots_blocks [lastBlock] (by decide +kernel)
  have hall := hfirst.trans
    ((hbefore.boots_note 1 noteText).trans (hlater.trans (hspaces.trans hlast)))
  rw [List.flatMap_singleton, ← bootstrap_eq] at hall
  obtain ⟨input, hinput, hreads⟩ := hall [] [] (by simp)
  have hwords : wordsBefore ++ [spacesWord] ++ [lastBlock].map Block.word = words ++ bootWords := by
    rw [bootWords_eq, wordsBefore]
    simp only [List.append_assoc]
  rw [List.append_nil] at hreads
  rw [bootedMemory, ← hwords]
  exact ⟨input, hinput, hreads⟩

end ThreadedForth.Kernel
