import ThreadedForth.Proofs.Compiler.Interpreter

/-!
# The compilation of structures

Texts that are compiled to threaded code: `Compiles` says that a text adds these cells to what was
compiled before, whatever that is, and leaves the data stack alone. The words of control flow make
such texts out of others (`Compiles.ifThen` and so on). All this needs that the code which reads the
input is whole (`Memory.HasInterpreter`) and that the names of the words which a structure takes
still find them (`Memory.Provides`); where the names of the whole compiler do, this holds of every
structure (`Memory.HasCompiler`).
-/

namespace ThreadedForth

open ThreadedForth.Action

variable {old : Memory} {hs : List Header} {draft : Draft} {text token : String} {s s' : Scene}
  {data cells : List Cell} {rest : List Char}

/-! ## The compiler in memory -/

/-- A name finds a word with this code field and body. -/
def Memory.Names (m : Memory) (name : String) (header : Int) (cells : List Cell) : Prop :=
  m.find name = .ok (some (.int header)) ∧ m.HasCode (header + headerSize) cells

/-- A name finds an immediate word with this code field and body. -/
def Memory.NamesImmediate (m : Memory) (name : String) (cells : List Cell) : Prop :=
  ∃ header, m.Names name header cells ∧ m.isImmediate (.int header) = .ok true

section Tools

variable {m : Memory} {name : String} {header : Int}

/-- In an extension a name still finds its word if it finds the same as before. -/
theorem Memory.Names.of_find (h : old.Names name header cells) (he : m.Extends old)
    (hfind : m.find name = old.find name) : m.Names name header cells :=
  ⟨hfind.trans h.1, he.hasCode h.2⟩

theorem Memory.NamesImmediate.of_find (h : old.NamesImmediate name cells) (he : m.Extends old)
    (hfind : m.find name = old.find name) : m.NamesImmediate name cells := by
  obtain ⟨header, hnames, himm⟩ := h
  exact ⟨header, hnames.of_find he hfind, he.isImmediate himm⟩

end Tools

/-- The primitives that the compiler takes. -/
def compilerPrimitives : List Primitive :=
  [.thread .exit, .thread .lit, .thread .branch, .calculation (.stack .dup),
    .calculation (.stack .swap), .calculation (.arithmetic .add), .calculation (.arithmetic .sub),
    .memory .store, .memory .comma, .memory .here, .memory .latest, .compiler .create,
    .compiler .compileEnter, .compiler .toCode, .compiler .hidden, .compiler .reveal,
    .compiler .whenCompiling, .compiler .leftBracket, .compiler .rightBracket, .input .word,
    .input .key, .input .interpret]

/-- The words of the compiler stand in memory as the kernel and the bootstrap put them there, and
their names still find them. -/
structure Memory.HasCompiler (m : Memory) : Prop where
  primitives : ∀ p ∈ compilerPrimitives, m.Intact p
  quit : m.HasCode (Kernel.quitHeader + headerSize) (.native .enter :: Kernel.quitBody)
  colon : ∃ header, m.Names ":" header (.native .enter :: Kernel.colonBody ++ [Kernel.exitToken])
  semicolon : m.NamesImmediate ";" (.native .enter :: Kernel.semicolonBody ++ [Kernel.exitToken])
  text : m.NamesImmediate "S\"" [.native (.primitive (.text .text))]
  control : ∀ w : ControlWord, m.NamesImmediate w.name (Instruction.wordCells w.thread)

/-- A word that a structure takes. -/
inductive Tool
  | control (w : ControlWord)
  /-- `S"` -/
  | text

/-- The name of a word that a structure takes still finds the word. -/
def Memory.Provides (m : Memory) : Tool → Prop
  | .control w => m.NamesImmediate w.name (Instruction.wordCells w.thread)
  | .text => m.NamesImmediate "S\"" [.native (.primitive (.text .text))]

/-- The code that reads the input and compiles stands in memory as the kernel put it there. -/
structure Memory.HasInterpreter (m : Memory) : Prop where
  primitives : ∀ p ∈ compilerPrimitives, m.Intact p
  quit : m.HasCode (Kernel.quitHeader + headerSize) (.native .enter :: Kernel.quitBody)

theorem Memory.HasCompiler.interpreter {m : Memory} (h : m.HasCompiler) : m.HasInterpreter :=
  ⟨h.primitives, h.quit⟩

theorem Memory.HasCompiler.provides {m : Memory} (h : m.HasCompiler) (tool : Tool) :
    m.Provides tool := by
  cases tool with
  | control w => exact h.control w
  | text => exact h.text

/-! ## Reading single tokens -/

section Compiling

variable (hw : old.WellFormed hs) (hc : old.HasInterpreter)

/-- All primitives that the words of control flow take are among those of the compiler. -/
theorem ControlWord.primitive_mem (w : ControlWord) :
    ∀ instruction ∈ w.thread, instruction.primitive ∈ compilerPrimitives := by
  cases w <;> decide

include hc in
/-- `QUIT` takes a token and interprets it. -/
theorem Interprets.reads_next (h : Interprets old token s s') {before : Scene}
    (htake : Turns old nextToken before token s) : Reads old before s' :=
  h.reads htake hc.quit.2 (hc.primitives _ (by decide)) (hc.primitives _ (by decide))

include hc in
theorem reads_lexeme (htoken : Source.IsToken token.toList) (hrest : Source.Delimited rest)
    (h : Interprets old token (.drafting old draft rest data cells) s') :
    Reads old (.drafting old draft (' ' :: (token.toList ++ rest)) data cells) s' := by
  have htake : Turns old nextToken (.drafting old draft (' ' :: (token.toList ++ rest)) data cells)
      token (.drafting old draft rest data cells) := turns_nextToken htoken hrest rfl
  exact h.reads_next hc htake

include hw hc in
/-- A word of control flow is read, and does what it does. -/
theorem reads_control (w : ControlWord) (hword : old.Provides (.control w))
    (hrest : Source.Delimited rest)
    (hruns : Runs old w.thread (.drafting old draft rest data cells) s') :
    Reads old (.drafting old draft (' ' :: (w.name.toList ++ rest)) data cells) s' := by
  obtain ⟨header, ⟨hfind, hcode⟩, himm⟩ := hword
  have htoken : Source.IsToken w.name.toList := by cases w <;> decide
  have hsound : (old.withWord draft.name draft.flags cells).Extends old :=
    hw.extends_withWord draft.name draft.named cells
  have hperforms := hruns.performs (fun i h => hc.primitives _ (w.primitive_mem i h))
    (hc.primitives _ (by decide)) hcode
  exact reads_lexeme hc htoken hrest (interprets_run
    ((hw.find_withWord_hidden draft.named draft.hidden draft.name cells w.name).trans hfind)
    (.inr (hsound.isImmediate himm))
    hperforms)

/-! ## Texts that are compiled -/

/-- A text adds these cells to what was compiled before, and leaves the data stack as it is. -/
structure Compiles (old : Memory) (draft : Draft) (text : String) (code : List Cell) : Prop where
  delimited : ∀ rest, Source.Delimited rest → Source.Delimited (text.toList ++ rest)
  reads : ∀ rest data cells, Source.Delimited rest →
    Reads old (.drafting old draft (text.toList ++ rest) data cells)
      (.drafting old draft rest data (cells ++ code))

theorem delimited_space (cs : List Char) : Source.Delimited (' ' :: cs) := by
  rintro c ⟨⟩
  decide

theorem delimited_gap {gap : List Char} (hne : gap ≠ [])
    (hgap : ∀ c ∈ gap, Source.isDelimiter c = true) (cs : List Char) :
    Source.Delimited (gap ++ cs) := by
  cases gap with
  | nil => exact absurd rfl hne
  | cons d gap =>
    rintro c ⟨⟩
    exact hgap d (List.mem_cons_self ..)

theorem delimited_lineEnd : Source.Delimited ['\n'] := by
  rintro c ⟨⟩
  decide

theorem compiles_empty : Compiles old draft "" [] where
  delimited _ hrest := hrest
  reads rest data cells _ := by
    rw [List.append_nil]
    exact .refl _

/-- A single token is compiled as it is interpreted. -/
theorem compiles_lexeme (hc : old.HasInterpreter) {code : List Cell}
    (htoken : Source.IsToken token.toList)
    (h : ∀ rest data cells, Interprets old token (.drafting old draft rest data cells)
      (.drafting old draft rest data (cells ++ code))) : Compiles old draft (" " ++ token) code where
  delimited rest _ := by
    rw [String.toList_append, List.append_assoc]
    exact delimited_space _
  reads rest data cells hrest := by
    rw [String.toList_append, List.append_assoc]
    exact reads_lexeme hc htoken hrest (h rest data cells)

include hw hc in
theorem compiles_recurse (hrecurse : old.Provides (.control .recurseWord)) :
    Compiles old draft " RECURSE" [.token (old.here + 3)] where
  delimited _ _ := delimited_space _
  reads _ _ _ hrest := reads_control hw hc .recurseWord hrecurse hrest (runs_recurse hw)

include hw hc in
/-- `S"` and the text after it. -/
theorem compiles_text (htext : old.Provides .text) {t : String} (hquote : '"' ∉ t.toList) :
    Compiles old draft (" S\" " ++ t ++ "\"") [Kernel.litToken, .text t] where
  delimited rest _ := by
    simp only [String.toList_append, List.append_assoc]
    exact delimited_space _
  reads rest data cells _ := by
    have hinput : (" S\" " ++ t ++ "\"").toList ++ rest =
        ' ' :: ("S\"".toList ++ (' ' :: (t.toList ++ '"' :: rest))) := by simp
    obtain ⟨header, ⟨hfind, hcode⟩, himm⟩ := htext
    have hsound : (old.withWord draft.name draft.flags cells).Extends old :=
      hw.extends_withWord draft.name draft.named cells
    have hperforms : Performs old (.token (header + 3))
        (.drafting old draft (' ' :: (t.toList ++ '"' :: rest)) data cells)
        (.drafting old draft rest data
          (cells ++ [Kernel.litToken, .text (String.ofList t.toList)])) :=
      performs_text (hc.primitives _ (by decide)) hcode.1 hquote rfl (turns_literal hw _)
    rw [String.ofList_toList] at hperforms
    rw [hinput]
    exact reads_lexeme hc (by decide) (delimited_space _) (interprets_run
      ((hw.find_withWord_hidden draft.named draft.hidden draft.name cells _).trans hfind)
      (.inr (hsound.isImmediate himm))
      hperforms)

section Structures

variable {t : String} {a b cells' data' : List Cell}

theorem Compiles.seq (ha : Compiles old draft text a) (hb : Compiles old draft t b) :
    Compiles old draft (text ++ t) (a ++ b) where
  delimited rest hrest := by
    rw [String.toList_append, List.append_assoc]
    exact ha.delimited _ (hb.delimited _ hrest)
  reads rest data cells hrest := by
    rw [String.toList_append, List.append_assoc, ← List.append_assoc cells]
    exact (ha.reads _ data cells (hb.delimited _ hrest)).trans (hb.reads _ data _ hrest)

include hw hc

/-- A word of control flow and a text after it are read. -/
theorem Compiles.reads_after (ha : Compiles old draft text a) (w : ControlWord)
    (hword : old.Provides (.control w)) (hrest : Source.Delimited rest)
    (hruns : Runs old w.thread (.drafting old draft (text.toList ++ rest) data cells)
      (.drafting old draft (text.toList ++ rest) data' cells')) :
    Reads old (.drafting old draft (' ' :: (w.name.toList ++ (text.toList ++ rest))) data cells)
      (.drafting old draft rest data' (cells' ++ a)) :=
  (reads_control hw hc w hword (ha.delimited _ hrest) hruns).trans (ha.reads _ _ _ hrest)

/-- `IF a THEN` -/
theorem Compiles.ifThen (hif : old.Provides (.control .ifWord))
    (hend : old.Provides (.control .thenWord)) (ha : Compiles old draft text a) :
    Compiles old draft (" IF" ++ text ++ " THEN")
      ([Kernel.branchFalseToken, .int (a.length + 1)] ++ a) where
  delimited rest _ := by
    simp only [String.toList_append, List.append_assoc]
    exact delimited_space _
  reads rest data cells hrest := by
    have hinput : (" IF" ++ text ++ " THEN").toList ++ rest =
        ' ' :: (ControlWord.ifWord.name.toList ++
          (text.toList ++ (' ' :: (ControlWord.thenWord.name.toList ++ rest)))) := by
      simp [ControlWord.name]
    -- THEN fills in the cell that IF left open behind its branch
    have hthen := runs_then hw draft rest data (cells ++ [Kernel.branchFalseToken]) (.int 0) a
    have hopen : cells ++ [Kernel.branchFalseToken] ++ .int 0 :: a =
        cells ++ [Kernel.branchFalseToken] ++ [.int 0] ++ a := by simp
    have hclosed : cells ++ [Kernel.branchFalseToken] ++ .int (a.length + 1) :: a =
        cells ++ ([Kernel.branchFalseToken, .int (a.length + 1)] ++ a) := by simp
    rw [hopen, hclosed] at hthen
    rw [hinput]
    exact (ha.reads_after hw hc .ifWord hif (delimited_space _) (runs_if hw)).trans
      (reads_control hw hc .thenWord hend hrest hthen)

/-- `IF a ELSE b THEN` -/
theorem Compiles.ifElse (hif : old.Provides (.control .ifWord))
    (hor : old.Provides (.control .elseWord)) (hend : old.Provides (.control .thenWord))
    (ha : Compiles old draft text a) (hb : Compiles old draft t b) :
    Compiles old draft (" IF" ++ text ++ " ELSE" ++ t ++ " THEN")
      ([Kernel.branchFalseToken, .int (a.length + 3)] ++ a
        ++ ([Kernel.branchToken, .int (b.length + 1)] ++ b)) where
  delimited rest _ := by
    simp only [String.toList_append, List.append_assoc]
    exact delimited_space _
  reads rest data cells hrest := by
    have hinput : (" IF" ++ text ++ " ELSE" ++ t ++ " THEN").toList ++ rest =
        ' ' :: (ControlWord.ifWord.name.toList ++
          (text.toList ++ (' ' :: (ControlWord.elseWord.name.toList ++
            (t.toList ++ (' ' :: (ControlWord.thenWord.name.toList ++ rest))))))) := by
      simp [ControlWord.name]
    have helse := runs_else hw draft
      (t.toList ++ (' ' :: (ControlWord.thenWord.name.toList ++ rest))) data
      (cells ++ [Kernel.branchFalseToken]) (.int 0) a
    have hopen : cells ++ [Kernel.branchFalseToken] ++ .int 0 :: a =
        cells ++ [Kernel.branchFalseToken] ++ [.int 0] ++ a := by simp
    rw [hopen] at helse
    -- the hole that ELSE leaves is behind the branch of IF, which leads here by now
    let before := cells ++ [Kernel.branchFalseToken] ++ .int (a.length + 3) :: a
      ++ [Kernel.branchToken]
    have hthen := runs_then hw draft rest data before (.int 0) b
    have hbranch : before ++ .int 0 :: b = before ++ [.int 0] ++ b := by simp
    have hclosed : before ++ .int (b.length + 1) :: b =
        cells ++ ([Kernel.branchFalseToken, .int (a.length + 3)] ++ a
          ++ ([Kernel.branchToken, .int (b.length + 1)] ++ b)) := by simp [before]
    rw [hbranch, hclosed] at hthen
    rw [hinput]
    exact ((ha.reads_after hw hc .ifWord hif (delimited_space _) (runs_if hw)).trans
      (hb.reads_after hw hc .elseWord hor (delimited_space _) helse)).trans
        (reads_control hw hc .thenWord hend hrest hthen)

/-- `BEGIN a UNTIL` and `BEGIN a AGAIN` -/
theorem Compiles.loop (hbegin : old.Provides (.control .beginWord)) (w : ControlWord)
    (hword : old.Provides (.control w)) (ha : Compiles old draft text a) (branch : Cell)
    (hthread : w.thread = ControlWord.compileCell branch ++ ControlWord.compileBack) :
    Compiles old draft (" BEGIN" ++ text ++ (" " ++ w.name))
      (a ++ [branch, .int (-(a.length + 1))]) where
  delimited rest _ := by
    simp only [String.toList_append, List.append_assoc]
    exact delimited_space _
  reads rest data cells hrest := by
    have hinput : (" BEGIN" ++ text ++ (" " ++ w.name)).toList ++ rest =
        ' ' :: (ControlWord.beginWord.name.toList ++
          (text.toList ++ (' ' :: (w.name.toList ++ rest)))) := by
      simp [ControlWord.name]
    rw [hinput]
    refine (ha.reads_after hw hc .beginWord hbegin (delimited_space _) runs_begin).trans
      (reads_control hw hc w hword hrest ?_)
    rw [hthread]
    exact runs_branchBack hw branch

/-- `BEGIN a WHILE b REPEAT` -/
theorem Compiles.whileLoop (hbegin : old.Provides (.control .beginWord))
    (hwhile : old.Provides (.control .whileWord)) (hrepeat : old.Provides (.control .repeatWord))
    (ha : Compiles old draft text a) (hb : Compiles old draft t b) :
    Compiles old draft (" BEGIN" ++ text ++ " WHILE" ++ t ++ " REPEAT")
      (a ++ ([Kernel.branchFalseToken, .int (b.length + 3)]
        ++ (b ++ [Kernel.branchToken, .int (-(a.length + b.length + 3))]))) where
  delimited rest _ := by
    simp only [String.toList_append, List.append_assoc]
    exact delimited_space _
  reads rest data cells hrest := by
    have hinput : (" BEGIN" ++ text ++ " WHILE" ++ t ++ " REPEAT").toList ++ rest =
        ' ' :: (ControlWord.beginWord.name.toList ++
          (text.toList ++ (' ' :: (ControlWord.whileWord.name.toList ++
            (t.toList ++ (' ' :: (ControlWord.repeatWord.name.toList ++ rest))))))) := by
      simp [ControlWord.name]
    -- the branch of WHILE lies between the beginning of the loop and the cell that it left open
    have hback := runs_repeat hw draft rest data cells (a ++ [Kernel.branchFalseToken]) (.int 0) b
    have hopen : cells ++ (a ++ [Kernel.branchFalseToken]) ++ .int 0 :: b =
        cells ++ a ++ [Kernel.branchFalseToken] ++ [.int 0] ++ b := by simp
    have hdistance : -(((a ++ [Kernel.branchFalseToken]).length : Int) + b.length + 2) =
        -(a.length + b.length + 3) := by
      rw [List.length_append, List.length_singleton]
      omega
    have hclosed (back : Cell) : cells ++ (a ++ [Kernel.branchFalseToken]) ++
        .int (b.length + 3) :: (b ++ [Kernel.branchToken, back]) =
        cells ++ (a ++ ([Kernel.branchFalseToken, .int (b.length + 3)]
          ++ (b ++ [Kernel.branchToken, back]))) := by simp
    rw [hopen, hdistance, hclosed, ← List.append_assoc cells a [_]] at hback
    rw [hinput]
    exact ((ha.reads_after hw hc .beginWord hbegin (delimited_space _) runs_begin).trans
      (hb.reads_after hw hc .whileWord hwhile (delimited_space _) (runs_if hw))).trans
        (reads_control hw hc .repeatWord hrepeat hrest hback)

end Structures

end Compiling

end ThreadedForth
