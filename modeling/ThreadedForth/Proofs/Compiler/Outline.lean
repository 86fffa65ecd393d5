import ThreadedForth.Proofs.Compiler.Definition
import ThreadedForth.Proofs.Session.Waiting

/-!
# Outlines

Definitions that run straight through, with remarks and with words that are compiled as literals:
the bootstrap is written in these. A text is put together piece by piece (`Piece`), and a definition
is made of such a text and may declare its word immediate (`Outline`). `Outline.reads` says what
becomes of the line that holds one, when it may come after blank lines and more lines are to come.
-/

namespace ThreadedForth

open ThreadedForth.Action

variable {old : Memory} {hs : List Header} {draft : Draft} {s s' : Scene} {token text : String}
  {data cells : List Cell} {rest : List Char} {lines : List String} {header : Int} {p : Primitive}

/-! ## Words that read on -/

/-- Lines without a token are passed over. -/
theorem turns_nextToken_pass {blanks : List String}
    (hinput : ∀ c ∈ s.input, Source.isDelimiter c = true)
    (hwaiting : s.waiting = blanks ++ lines) (hblanks : ∀ l ∈ blanks, Reading.IsBlank l)
    (h : Turns old nextToken { s with input := [], waiting := lines } token s') :
    Turns old nextToken s token s' := by
  intro here m hm
  obtain ⟨source, hrest, hpending, hreader, -, hnext⟩ := Reading.nextToken_pass (c := m.console)
    (hm.input ▸ hinput) hblanks (hm.waiting.trans hwaiting)
  obtain ⟨m', htake, hm'⟩ := h here { m with console := { m.console with source := source } }
    { hm with input := hrest, waiting := hpending, alone := hreader.trans hm.alone }
  exact ⟨m', (nextToken_congr hnext).trans htake, hm'⟩

/-- A name gives the token of the word that it finds. -/
theorem turns_tokenOf (hfind : s.memory.find token = .ok (some (.int header))) :
    Turns old (tokenOf token) s (.token (header + headerSize)) s := by
  refine turns_get_bind fun here m hm => ?_
  have htoken : m.tokenOf token = .ok (.token (header + headerSize)) := by
    rw [Machine.tokenOf, hm.memory, hfind]
    rfl
  rw [htoken]
  exact fun _ m hm => ⟨m, rfl, hm⟩

/-- `(` passes over the text up to the closing parenthesis. -/
theorem turns_comment {t : List Char} (hkey : old.Intact (.input .key)) (hclose : ')' ∉ t)
    (hs : s.input = t ++ ')' :: rest) (i : Cell → Action Unit) (b : Nat) {bound : Nat}
    (hbound : t.length < bound) :
    Turns old ((Primitive.text .comment).perform i (execute (b + 1)) bound) s ()
      { s with input := rest } :=
  (turns_readUntil hkey hclose hs b hbound).bind (turns_pure ())

/-- `\` passes over the line. -/
theorem does_lineComment : Does old (.text .lineComment) s { s with input := [] } := by
  intro _ _ _ here m hm
  exact ⟨_, rfl, { hm with input := rfl }⟩

/-- `[']` compiles the token of the word whose name comes next. -/
theorem does_compileTick (hw : old.WellFormed hs) (htoken : Source.IsToken token.toList)
    (hrest : Source.Delimited rest) (hfind : old.find token = .ok (some (.int header))) :
    Does old (.compiler .compileTick)
      (.drafting old draft (' ' :: (token.toList ++ rest)) data cells)
      (.drafting old draft rest data (cells ++ [Kernel.litToken, .token (header + headerSize)])) := by
  intro _ _ _
  have hfind' :=
    (hw.find_withWord_hidden draft.named draft.hidden draft.name cells token).trans hfind
  have htake : Turns old nextToken (.drafting old draft (' ' :: (token.toList ++ rest)) data cells)
      token (.drafting old draft rest data cells) := turns_nextToken htoken hrest rfl
  exact htake.bind ((turns_tokenOf hfind').bind (turns_literal hw _))

/-- The definition with its immediate flag turned round. -/
def Draft.toggled (draft : Draft) : Draft :=
  { draft with
    flags := draft.flags ^^^ Flags.immediate
    named := by
      have hall : ∀ flags < 4, flags ^^^ Flags.immediate ≤ Flags.named := by decide
      exact hall draft.flags (Nat.lt_succ_of_le draft.named)
    hidden := by
      have hall : ∀ flags < 4, flags &&& Flags.hidden ≠ 0 →
          (flags ^^^ Flags.immediate) &&& Flags.hidden ≠ 0 := by decide
      exact hall draft.flags (Nat.lt_succ_of_le draft.named) draft.hidden }

/-- `IMMEDIATE` turns the immediate flag of the newest word round. -/
theorem does_immediate_withWord {name : String} {flags : Nat} (hw : old.WellFormed hs)
    (hf : flags ≤ Flags.named) (hf' : flags ^^^ Flags.immediate ≤ Flags.named)
    (hs : s.memory = old.withWord name flags cells) :
    Does old (.compiler .immediate) s
      { s with memory := old.withWord name (flags ^^^ Flags.immediate) cells } := by
  intro _ _ _
  refine turns_get_bind fun here m hm => ?_
  have hlatest : m.memory.latest = some (old.here : Int) := by
    rw [hm.memory, hs]
    rfl
  have hchange : s.memory.changeFlags (.int old.here) (· ^^^ Flags.immediate) =
      .ok (old.withWord name (flags ^^^ Flags.immediate) cells) :=
    hs ▸ hw.changeFlags_withWord hf _
  rw [hlatest]
  exact (turns_ask hchange).bind (turns_modifyMemory rfl (hw.extends_withWord name hf' cells))

/-- `IMMEDIATE` makes the word immediate that is being defined. -/
theorem does_immediate (hw : old.WellFormed hs) :
    Does old (.compiler .immediate) (.drafting old draft rest data cells)
      (.drafting old draft.toggled rest data cells) :=
  does_immediate_withWord hw draft.named draft.toggled.named rfl

/-! ## Immediate words in a definition -/

section Tools

variable (hw : old.WellFormed hs) (hc : old.HasInterpreter)

include hw hc

/-- An immediate primitive is run. -/
theorem reads_tool (hword : old.NamesImmediate token [.native (.primitive p)])
    (htoken : Source.IsToken token.toList) (hrest : Source.Delimited rest) {k : Nat}
    (hp : ∀ b ≥ k, Turns old (p.perform (invoke b) (execute b) b)
      (.drafting old draft rest data cells) () s') :
    Reads old (.drafting old draft (' ' :: (token.toList ++ rest)) data cells) s' := by
  obtain ⟨header, ⟨hfind, hcode, -⟩, himm⟩ := hword
  have hsound : (old.withWord draft.name draft.flags cells).Extends old :=
    hw.extends_withWord draft.name draft.named cells
  refine reads_lexeme hc htoken hrest (interprets_run
    ((hw.find_withWord_hidden draft.named draft.hidden draft.name cells token).trans hfind)
    (.inr (hsound.isImmediate himm)) (performs_primitive hcode hp))

theorem compiles_tick
    (hword : old.NamesImmediate "[']" [.native (.primitive (.compiler .compileTick))])
    (htoken : Source.IsToken token.toList) (hfind : old.find token = .ok (some (.int header))) :
    Compiles old draft (" ['] " ++ token) [Kernel.litToken, .token (header + headerSize)] where
  delimited _ _ := by
    simp only [String.toList_append, List.append_assoc]
    exact delimited_space _
  reads rest data cells hrest := by
    have hinput : (" ['] " ++ token).toList ++ rest =
        ' ' :: ("[']".toList ++ (' ' :: (token.toList ++ rest))) := by simp
    rw [hinput]
    exact reads_tool (k := 0) hw hc hword (by decide) (delimited_space _)
      fun _ _ => does_compileTick hw htoken hrest hfind _ _ _

theorem compiles_remark (hword : old.NamesImmediate "(" [.native (.primitive (.text .comment))])
    (hclose : ')' ∉ text.toList) : Compiles old draft (" ( " ++ text ++ ")") [] where
  delimited _ _ := by
    simp only [String.toList_append, List.append_assoc]
    exact delimited_space _
  reads rest data cells _ := by
    have hinput : (" ( " ++ text ++ ")").toList ++ rest =
        ' ' :: ("(".toList ++ (' ' :: text.toList ++ ')' :: rest)) := by simp
    rw [hinput, List.append_nil]
    refine reads_tool (k := text.toList.length + 2) hw hc hword (by decide) (delimited_space _)
      fun b hb => ?_
    obtain ⟨c, rfl⟩ : ∃ c, b = c + 1 := ⟨b - 1, by omega⟩
    exact turns_comment (hc.primitives _ (by decide)) (by simpa using hclose) rfl _ _
      (by simp only [List.length_cons]; omega)

/-- A word is compiled. -/
theorem compiles_word (htoken : Source.IsToken token.toList)
    (hfind : old.find token = .ok (some (.int header)))
    (himm : old.isImmediate (.int header) = .ok false) :
    Compiles old draft (" " ++ token) [.token (header + headerSize)] :=
  compiles_lexeme hc htoken fun _ _ _ => interprets_word hw hfind himm

/-- A numeral is compiled. -/
theorem compiles_numeral {n : Int} (htoken : Source.IsToken token.toList)
    (hfind : old.find token = .ok none) (hread : Numeral.read? token = some n) :
    Compiles old draft (" " ++ token) [Kernel.litToken, .int n] :=
  compiles_lexeme hc htoken fun _ _ _ => interprets_numeral hw hfind hread

end Tools

/-! ## Lines -/

section Lines

variable {name : String} {flags : Nat} {input : List Char} {blanks : List String}

/-- The scene in which `QUIT` waits for these lines. -/
def Scene.awaiting (memory : Memory) (data : List Cell) (input : List Char) (lines : List String) :
    Scene :=
  ⟨data, memory, .immediate, input, lines⟩

/-- The text between the name of a word and the end of its definition leads to these flags and adds
these cells. -/
def Outlines (old : Memory) (name text : String) (flags : Nat) (cells : List Cell) : Prop :=
  ∀ rest data lines, Source.Delimited rest →
    Source.Delimited (text.toList ++ rest) ∧ ∃ draft : Draft, draft.name = name ∧
      draft.lines = lines ∧ draft.shown = flags ∧
      Reads old (.drafting old { name := name, lines := lines } (text.toList ++ rest) data [])
        (.drafting old draft rest data cells)

theorem Compiles.outlines (h : ∀ lines, Compiles old { name := name, lines := lines } text cells) :
    Outlines old name text 0 cells := fun rest data lines hrest =>
  ⟨(h lines).delimited rest hrest, { name := name, lines := lines }, rfl, rfl,
    (by decide : Bits.without Flags.hidden Flags.hidden = 0), (h lines).reads rest data [] hrest⟩

/-- `QUIT` reads a line of remarks after blank lines. -/
theorem reads_note (hc : old.HasInterpreter)
    (hword : old.Names "\\" header [.native (.primitive (.text .lineComment))])
    (hinput : ∀ c ∈ input, Source.isDelimiter c = true)
    (hblanks : ∀ l ∈ blanks, Reading.IsBlank l) :
    Reads old (.awaiting old data input (blanks ++ ("\\ " ++ text) :: lines))
      (.awaiting old data [] lines) := by
  obtain ⟨hfind, hcode, -⟩ := hword
  have hline : ("\\ " ++ text).toList ++ ['\n'] =
      "\\".toList ++ (' ' :: (text.toList ++ ['\n'])) := by
    simp
  have htake : Turns old nextToken (.awaiting old data input (blanks ++ ("\\ " ++ text) :: lines))
      "\\" (.awaiting old data (' ' :: (text.toList ++ ['\n'])) lines) :=
    turns_nextToken_pass hinput rfl hblanks
      (turns_nextToken_waiting (by decide) (delimited_space _) rfl rfl hline)
  have hperforms : Performs old (.token (header + headerSize))
      (.awaiting old data (' ' :: (text.toList ++ ['\n'])) lines) (.awaiting old data [] lines) :=
    does_lineComment.performs hcode
  exact (interprets_run hfind (.inl rfl) hperforms).reads_next hc htake

variable (hw : old.WellFormed hs)

include hw

/-- A definition that begins with `IMMEDIATE`. -/
theorem Compiles.outlines_immediate (hc : old.HasInterpreter)
    (hword : old.NamesImmediate "IMMEDIATE" [.native (.primitive (.compiler .immediate))])
    (h : ∀ lines, Compiles old (Draft.toggled { name := name, lines := lines }) text cells) :
    Outlines old name (" IMMEDIATE" ++ text) Flags.immediate cells := by
  intro rest data lines hrest
  have hinput : (" IMMEDIATE" ++ text).toList ++ rest =
      ' ' :: ("IMMEDIATE".toList ++ (text.toList ++ rest)) := by simp
  rw [hinput]
  refine ⟨delimited_space _, Draft.toggled { name := name, lines := lines }, rfl, rfl,
    (by decide : Bits.without (Flags.hidden ^^^ Flags.immediate) Flags.hidden = Flags.immediate), ?_⟩
  exact (reads_tool (k := 0) hw hc hword (by decide) ((h lines).delimited rest hrest)
    fun _ _ => does_immediate hw _ _ _).trans ((h lines).reads rest data [] hrest)

/-- `QUIT` reads a definition after blank lines, when more of its line and more lines are to come.
There may be any gap before its end. -/
theorem Outlines.reads_before (hc : old.CanCompile .empty) (h : Outlines old name text flags cells)
    (htoken : Source.IsToken name.toList) (hinput : ∀ c ∈ input, Source.isDelimiter c = true)
    (hblanks : ∀ l ∈ blanks, Reading.IsBlank l) {line : String} {gap : List Char} (hne : gap ≠ [])
    (hgap : ∀ c ∈ gap, Source.isDelimiter c = true) (hrest : Source.Delimited rest)
    (hline : line.toList ++ ['\n'] =
      ":".toList ++ (' ' :: (name.toList ++ (text.toList ++ (gap ++ (";".toList ++ rest)))))) :
    Reads old (.awaiting old data input (blanks ++ line :: lines))
      (.awaiting (old.withWord name flags (cells ++ [Kernel.exitToken])) data rest lines) := by
  obtain ⟨hdelimited, draft, rfl, rfl, rfl, hreads⟩ :=
    h (gap ++ (";".toList ++ rest)) data lines (delimited_gap hne hgap _)
  have hcolon : Turns old nextToken (.awaiting old data input (blanks ++ line :: draft.lines)) ":"
      (.awaiting old data (' ' :: (draft.name.toList ++ (text.toList ++
        (gap ++ (";".toList ++ rest))))) draft.lines) :=
    turns_nextToken_pass hinput rfl hblanks
      (turns_nextToken_waiting (by decide) (delimited_space _) rfl rfl hline)
  have hsemicolon : Turns old nextToken
      (.drafting old draft (gap ++ (";".toList ++ rest)) data cells) ";"
      (.drafting old draft rest data cells) :=
    turns_nextToken_gap (by decide) hgap hrest rfl
  exact ((reads_colon hw hc htoken hdelimited hcolon).trans hreads).trans
    (reads_semicolon hw hc hsemicolon)

/-- `QUIT` reads a definition after blank lines, when more lines are to come. -/
theorem Outlines.reads (hc : old.CanCompile .empty) (h : Outlines old name text flags cells)
    (htoken : Source.IsToken name.toList) (hinput : ∀ c ∈ input, Source.isDelimiter c = true)
    (hblanks : ∀ l ∈ blanks, Reading.IsBlank l) :
    Reads old (.awaiting old data input (blanks ++ (": " ++ name ++ text ++ " ;") :: lines))
      (.awaiting (old.withWord name flags (cells ++ [Kernel.exitToken])) data ['\n'] lines) :=
  h.reads_before hw hc htoken hinput hblanks (List.cons_ne_nil ' ' [])
    (List.forall_mem_singleton.mpr rfl) delimited_lineEnd (by simp)

end Lines

/-- What is read in a grown memory is read from the older memory on. -/
theorem Reads.since {older : Memory} (h : Reads old s s') (hs : s.memory.Extends old)
    (hold : old.Extends older) : Reads older s s' := by
  obtain ⟨k, n, h⟩ := h
  refine ⟨k, n, fun b hb depth returns m hd hm => ?_⟩
  obtain ⟨m', hreaches, hm'⟩ := h b hb depth returns m hd { hm with sound := hs }
  exact ⟨m', hreaches, { hm' with sound := hm'.sound.trans hold }⟩

end ThreadedForth
