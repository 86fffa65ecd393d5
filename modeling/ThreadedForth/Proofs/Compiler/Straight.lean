import ThreadedForth.Proofs.Compiler.Outline
import ThreadedForth.Proofs.Session.Phrases
import ThreadedForth.Proofs.Text.Numerals

/-!
# Straight definitions

Definitions whose bodies consist of numerals and of words that are compiled. `Straight` relates the
tokens of such a body to the cells that they are compiled to, and `Straight.interpretText` says what
comes of the text of the whole definition, which may declare its word immediate. It does not matter
how far its end stands from its body.
-/

namespace ThreadedForth

open ThreadedForth.Action

/-- These tokens are compiled to these cells, one after the other: numerals that name no word, and
words that are not immediate. -/
inductive Straight (m : Memory) : List String → List Cell → Prop
  | nil : Straight m [] []
  | numeral {token : String} {n : Int} {tokens : List String} {cells : List Cell}
      (hread : Numeral.read? token = some n) (hfind : m.find token = .ok none)
      (rest : Straight m tokens cells) :
      Straight m (token :: tokens) (Kernel.litToken :: .int n :: cells)
  | word {token : String} {header : Int} {tokens : List String} {cells : List Cell}
      (htoken : Lexeme token) (hfind : m.find token = .ok (some (.int header)))
      (himm : m.isImmediate (.int header) = .ok false) (rest : Straight m tokens cells) :
      Straight m (token :: tokens) (.token (header + headerSize) :: cells)

/-- The flags of a word that is declared immediate, or not. -/
def Flags.declared (immediate : Bool) : Nat := if immediate then Flags.immediate else 0

/-- The text of the definition of a word with these tokens, with a gap before its end. -/
def straightText (name : String) (tokens : List String) (gap : String) (immediate : Bool) :
    String :=
  ": " ++ name ++ phraseText tokens ++ gap ++ ";" ++ if immediate then " IMMEDIATE" else ""

/-- What is needed to define a word with this name, and to make it immediate. -/
structure Memory.CanDefine (m : Memory) (name : String) (immediate : Bool) : Prop where
  compile : m.CanCompile .empty
  declare : immediate = true →
    ∃ header, m.Names "IMMEDIATE" header [.native (.primitive (.compiler .immediate))]
  other : immediate = true → Text.upper "IMMEDIATE" ≠ Text.upper name

variable {m : Memory} {old : Memory} {hs : List Header} {draft : Draft} {name token gap : String}
  {tokens : List String} {cells data : List Cell} {n : Int} {immediate : Bool}

/-! ## Tokens of one line -/

/-- A name of printable ASCII is a token of one line. -/
theorem Text.Plain.lexeme (h : Text.Plain name) : Lexeme name := by
  have hchar : ∀ c ∈ name.toList,
      Source.isDelimiter c = false ∧ CharSet.lineEnds.contains c = false := fun c hc =>
    Text.forall_plain (p := fun c =>
      Source.isDelimiter c = false ∧ CharSet.lineEnds.contains c = false)
      (by decide +kernel) (h.chars c hc)
  exact ⟨⟨h.nonempty, fun c hc => (hchar c hc).1⟩, fun c hc => (hchar c hc).2⟩

/-- A numeral is a token of one line. -/
theorem Lexeme.of_read? (h : Numeral.read? token = some n) : Lexeme token :=
  (Text.plain_of_read? h).lexeme

theorem Straight.oneLine (h : Straight m tokens cells) : Text.OneLine (phraseText tokens) := by
  have hspace : Text.OneLine " " := by decide
  induction h with
  | nil => decide
  | numeral hread _ _ ih =>
    exact Text.oneLine_append.mpr
      ⟨Text.oneLine_append.mpr ⟨hspace, (Lexeme.of_read? hread).oneLine⟩, ih⟩
  | word htoken _ _ _ ih =>
    exact Text.oneLine_append.mpr ⟨Text.oneLine_append.mpr ⟨hspace, htoken.oneLine⟩, ih⟩

/-- The text of the definition is one line. -/
theorem Straight.oneLine_text (h : Straight m tokens cells) (hname : Lexeme name)
    (hgap : Text.OneLine gap) : Text.OneLine (straightText name tokens gap immediate) := by
  simp only [straightText, Text.oneLine_append]
  refine ⟨⟨⟨⟨⟨by decide, hname.oneLine⟩, h.oneLine⟩, hgap⟩, by decide⟩, ?_⟩
  cases immediate <;> decide

/-- The tokens are compiled to the same where they find the same. -/
theorem Straight.of_find {m' : Memory} (h : Straight m tokens cells) (he : m'.Extends m)
    (hsame : ∀ token ∈ tokens, m'.find token = m.find token) : Straight m' tokens cells := by
  induction h with
  | nil => exact .nil
  | numeral hread hfind _ ih =>
    obtain ⟨htoken, hsame⟩ := List.forall_mem_cons.mp hsame
    exact .numeral hread (htoken.trans hfind) (ih hsame)
  | word hlexeme hfind himm _ ih =>
    obtain ⟨htoken, hsame⟩ := List.forall_mem_cons.mp hsame
    exact .word hlexeme (htoken.trans hfind) (he.isImmediate himm) (ih hsame)

/-! ## Compilation -/

section Reading

variable (hw : old.WellFormed hs)

include hw

/-- The tokens are compiled. -/
theorem Straight.compiles (hc : old.HasInterpreter) (h : Straight old tokens cells) :
    Compiles old draft (phraseText tokens) cells := by
  induction h with
  | nil => exact compiles_empty
  | numeral hread hfind _ ih =>
    exact (compiles_numeral hw hc (Lexeme.of_read? hread).isToken hfind hread).seq ih
  | word htoken hfind himm _ ih => exact (compiles_word hw hc htoken.isToken hfind himm).seq ih

/-- `IMMEDIATE` behind a definition makes its word immediate. -/
theorem reads_immediate (hc : old.HasInterpreter) {header : Int}
    (hword : old.Names "IMMEDIATE" header [.native (.primitive (.compiler .immediate))])
    (hname : Text.upper "IMMEDIATE" ≠ Text.upper name) :
    Reads old
      (.awaiting (old.withWord name 0 cells) data (' ' :: ("IMMEDIATE".toList ++ ['\n'])) [])
      (.awaiting (old.withWord name Flags.immediate cells) data ['\n'] []) := by
  obtain ⟨hfind, hcode, -⟩ := hword
  have hfind' : (old.withWord name 0 cells).find "IMMEDIATE" = .ok (some (.int header)) :=
    (hw.find_withWord (by decide) name cells (.inl hname)).trans hfind
  have hflags : 0 ≤ Flags.named ∧ 0 ^^^ Flags.immediate ≤ Flags.named := by decide
  have hdoes : Does old (.compiler .immediate)
      (.awaiting (old.withWord name 0 cells) data ['\n'] [])
      (.awaiting (old.withWord name (0 ^^^ Flags.immediate) cells) data ['\n'] []) :=
    does_immediate_withWord hw hflags.1 hflags.2 rfl
  have hperforms : Performs old (.token (header + headerSize))
      (.awaiting (old.withWord name 0 cells) data ['\n'] [])
      (.awaiting (old.withWord name Flags.immediate cells) data ['\n'] []) := hdoes.performs hcode
  have hinterprets : Interprets old "IMMEDIATE"
      (.awaiting (old.withWord name 0 cells) data ['\n'] [])
      (.awaiting (old.withWord name Flags.immediate cells) data ['\n'] []) :=
    interprets_run hfind' (.inl rfl) hperforms
  exact hinterprets.reads_next hc (turns_nextToken (by decide) delimited_lineEnd rfl)

/-- `QUIT` reads the definition. -/
theorem Straight.reads_definition (hc : old.CanDefine name immediate)
    (h : Straight old tokens cells) (hname : Lexeme name) (hne : gap.toList ≠ [])
    (hgap : ∀ c ∈ gap.toList, c = ' ') :
    Reads old (.awaiting old data [] [straightText name tokens gap immediate])
      (.awaiting (old.withWord name (Flags.declared immediate) (cells ++ [Kernel.exitToken])) data
        ['\n'] []) := by
  have houtlines : Outlines old name (phraseText tokens) 0 cells :=
    Compiles.outlines fun _ => h.compiles hw hc.compile.toHasInterpreter
  have hblank : ∀ c ∈ gap.toList, Source.isDelimiter c = true := fun c hc => by
    rw [hgap c hc]
    decide
  -- what is left of the line after the end of the definition
  have hreads (rest : List Char) (hrest : Source.Delimited rest)
      (hline : (straightText name tokens gap immediate).toList ++ ['\n'] = ":".toList ++
        (' ' :: (name.toList ++ ((phraseText tokens).toList ++
          (gap.toList ++ (";".toList ++ rest)))))) :
      Reads old (.awaiting old data [] [straightText name tokens gap immediate])
        (.awaiting (old.withWord name 0 (cells ++ [Kernel.exitToken])) data rest []) :=
    houtlines.reads_before hw hc.compile hname.isToken (List.forall_mem_nil _)
      (List.forall_mem_nil (Reading.IsBlank ·)) hne hblank hrest hline
  cases immediate with
  | false => exact hreads ['\n'] delimited_lineEnd (by simp [straightText])
  | true =>
    obtain ⟨header, hword⟩ := hc.declare rfl
    exact (hreads _ (delimited_space _) (by simp [straightText])).trans
      (reads_immediate hw hc.compile.toHasInterpreter hword (hc.other rfl))

end Reading

/-! ## Evaluation -/

/-- **A straight definition puts its word behind all that was there**, and does nothing else. -/
theorem Straight.interpretText_gap {m : Machine} (hw : m.memory.WellFormed hs)
    (hc : m.memory.CanDefine name immediate) (hmode : m.mode = .immediate)
    (hidle : m.console.source.hasPending = false) (hname : Lexeme name)
    (h : Straight m.memory tokens cells) (hne : gap.toList ≠ []) (hgap : ∀ c ∈ gap.toList, c = ' ')
    (sink : Sink) :
    ∃ k, ∀ b ≥ k, ∃ m',
      Session.interpretText b sink (straightText name tokens gap immediate) m = .ok "" m' ∧
      m.SettlesIn (.awaiting
        (m.memory.withWord name (Flags.declared immediate) (cells ++ [Kernel.exitToken])) m.data
        ['\n'] []) m' ∧
      m'.returns = [] := by
  have honeGap : Text.OneLine gap := fun c hc => by
    rw [hgap c hc]
    decide
  have hlines : Text.lines (straightText name tokens gap immediate) =
      [straightText name tokens gap immediate] :=
    Text.lines_of_oneLine (by simp [straightText]) (h.oneLine_text hname honeGap)
  have hreads : Reads m.memory
      ⟨m.data, m.memory, m.mode, [], [straightText name tokens gap immediate]⟩
      (.awaiting (m.memory.withWord name (Flags.declared immediate) (cells ++ [Kernel.exitToken]))
        m.data ['\n'] []) := by
    rw [hmode]
    exact h.reads_definition hw hc hname hne hgap
  obtain ⟨k, hrun⟩ := Session.interpretText_of_lines hw.extends_self hc.compile.toHasInterpreter
    hidle hlines hreads (List.forall_mem_singleton.mpr rfl) rfl sink
  refine ⟨k, fun b hb => ?_⟩
  obtain ⟨m', hrun, hsettles, hreturns, -⟩ := hrun b hb
  exact ⟨m', hrun, hsettles, hreturns⟩

/-- The same of a definition that declares nothing and has no gap in its text. -/
theorem Straight.interpretText {m : Machine} (hw : m.memory.WellFormed hs)
    (hc : m.memory.CanCompile .empty) (hmode : m.mode = .immediate)
    (hidle : m.console.source.hasPending = false) (hname : Lexeme name)
    (h : Straight m.memory tokens cells) (sink : Sink) :
    ∃ k, ∀ b ≥ k, ∃ m',
      Session.interpretText b sink (": " ++ name ++ phraseText tokens ++ " ;") m = .ok "" m' ∧
      m.SettlesIn (.awaiting (m.memory.withWord name 0 (cells ++ [Kernel.exitToken])) m.data ['\n']
        []) m' ∧
      m'.returns = [] := by
  have htext : straightText name tokens " " false = ": " ++ name ++ phraseText tokens ++ " ;" :=
    String.toList_inj.mp (by simp [straightText])
  have hdefine : m.memory.CanDefine name false := ⟨hc, nofun, nofun⟩
  have hgap : " ".toList ≠ [] ∧ ∀ c ∈ " ".toList, c = ' ' := by simp
  have hrun := h.interpretText_gap hw hdefine hmode hidle hname hgap.1 hgap.2 sink
  rwa [htext] at hrun

end ThreadedForth
