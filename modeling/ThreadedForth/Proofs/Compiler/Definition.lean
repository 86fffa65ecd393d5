import ThreadedForth.Proofs.Compiler.Structure
import ThreadedForth.Proofs.Structured.Body
import ThreadedForth.Session

/-!
# Definitions

A definition whose body is structured is compiled to the threaded code of the body. `Spelled`
relates a body to the text that spells it, by what the names in it stand for, and `Spelled.compiles`
puts the compilation of the structures together. `Session.definition_compiles` says what comes of a
whole definition. For the reading of it only those words of the compiler need to be found that the
body takes (`Memory.CanCompile`).
-/

namespace ThreadedForth

open ThreadedForth.Action

/-! ## Texts of bodies -/

/-- A text that is one token of one line. -/
structure Lexeme (token : String) : Prop where
  isToken : Source.IsToken token.toList
  oneLine : Text.OneLine token

/-- A text spells a body, where the names in it stand for what they name in a memory. -/
inductive Spelled (m : Memory) : Body → String → Prop
  | empty : Spelled m .empty ""
  | numeral {token : String} {n : Int} (htoken : Lexeme token) (hfind : m.find token = .ok none)
      (hread : Numeral.read? token = some n) : Spelled m (.literal (.int n)) (" " ++ token)
  | text {t : String} (hquote : '"' ∉ t.toList) (hline : Text.OneLine t) :
      Spelled m (.literal (.text t)) (" S\" " ++ t ++ "\"")
  | word {token : String} {header : Int} (htoken : Lexeme token)
      (hfind : m.find token = .ok (some (.int header)))
      (himm : m.isImmediate (.int header) = .ok false) :
      Spelled m (.call (header + headerSize)) (" " ++ token)
  | recurse : Spelled m .recurse " RECURSE"
  | seq {a b : Body} {s t : String} (ha : Spelled m a s) (hb : Spelled m b t) :
      Spelled m (.seq a b) (s ++ t)
  | ifThen {a : Body} {s : String} (ha : Spelled m a s) :
      Spelled m (.ifThen a) (" IF" ++ s ++ " THEN")
  | ifElse {a b : Body} {s t : String} (ha : Spelled m a s) (hb : Spelled m b t) :
      Spelled m (.ifElse a b) (" IF" ++ s ++ " ELSE" ++ t ++ " THEN")
  | untilLoop {a : Body} {s : String} (ha : Spelled m a s) :
      Spelled m (.untilLoop a) (" BEGIN" ++ s ++ " UNTIL")
  | againLoop {a : Body} {s : String} (ha : Spelled m a s) :
      Spelled m (.againLoop a) (" BEGIN" ++ s ++ " AGAIN")
  | whileLoop {a b : Body} {s t : String} (ha : Spelled m a s) (hb : Spelled m b t) :
      Spelled m (.whileLoop a b) (" BEGIN" ++ s ++ " WHILE" ++ t ++ " REPEAT")

variable {m old : Memory} {hs : List Header} {draft : Draft} {body : Body}
  {name text token : String}
  {data cells : List Cell} {rest : List Char} {s s' : Scene}

/-- A body is spelled on one line. -/
theorem Spelled.oneLine (h : Spelled m body text) : Text.OneLine text := by
  have hspace : Text.OneLine " " := by decide
  induction h with
  | empty => decide
  | numeral htoken _ _ => exact Text.oneLine_append.mpr ⟨hspace, htoken.oneLine⟩
  | word htoken _ _ => exact Text.oneLine_append.mpr ⟨hspace, htoken.oneLine⟩
  | text hquote hline =>
    simp only [Text.oneLine_append]
    exact ⟨⟨by decide, hline⟩, by decide⟩
  | recurse => decide
  | seq _ _ iha ihb => exact Text.oneLine_append.mpr ⟨iha, ihb⟩
  | ifThen _ iha | untilLoop _ iha | againLoop _ iha =>
    simp only [Text.oneLine_append]
    exact ⟨⟨by decide, iha⟩, by decide⟩
  | ifElse _ _ iha ihb | whileLoop _ _ iha ihb =>
    simp only [Text.oneLine_append]
    exact ⟨⟨⟨⟨by decide, iha⟩, by decide⟩, ihb⟩, by decide⟩

/-- The definition of a word is one line. -/
theorem Spelled.oneLine_definition (h : Spelled m body text) (hname : Lexeme name) :
    Text.OneLine (": " ++ name ++ text ++ " ;") := by
  simp only [Text.oneLine_append]
  exact ⟨⟨⟨by decide, hname.oneLine⟩, h.oneLine⟩, by decide⟩

/-- The words that a body takes when it is compiled. -/
def Body.tools : Body → List Tool
  | literal (.text _) => [.text]
  | recurse => [.control .recurseWord]
  | seq a b => a.tools ++ b.tools
  | ifThen a => .control .ifWord :: .control .thenWord :: a.tools
  | ifElse a b => .control .ifWord :: .control .elseWord :: .control .thenWord :: (a.tools ++ b.tools)
  | untilLoop a => .control .beginWord :: .control .untilWord :: a.tools
  | againLoop a => .control .beginWord :: .control .againWord :: a.tools
  | whileLoop a b =>
    .control .beginWord :: .control .whileWord :: .control .repeatWord :: (a.tools ++ b.tools)
  | _ => []

/-- The text of a body is compiled to the code of the body. -/
theorem Spelled.compiles (hw : old.WellFormed hs) (hc : old.HasInterpreter)
    (htools : ∀ tool ∈ body.tools, old.Provides tool) (h : Spelled old body text) :
    Compiles old draft text (body.code (old.here + 3)) := by
  have huntil : " " ++ ControlWord.untilWord.name = " UNTIL" := by decide
  have hagain : " " ++ ControlWord.againWord.name = " AGAIN" := by decide
  induction h with
  | empty => exact compiles_empty
  | numeral htoken hfind hread =>
    exact compiles_lexeme hc htoken.isToken fun _ _ _ => interprets_numeral hw hfind hread
  | word htoken hfind himm =>
    exact compiles_lexeme hc htoken.isToken fun _ _ _ => interprets_word hw hfind himm
  | text hquote _ => exact compiles_text hw hc (htools _ (by simp [Body.tools])) hquote
  | recurse => exact compiles_recurse hw hc (htools _ (by simp [Body.tools]))
  | seq _ _ iha ihb =>
    obtain ⟨hfirst, hlater⟩ := List.forall_mem_append.mp htools
    exact (iha hfirst).seq (ihb hlater)
  | ifThen _ iha =>
    simp only [Body.tools, List.forall_mem_cons] at htools
    obtain ⟨hif, hend, ha⟩ := htools
    simpa [Body.code] using (iha ha).ifThen hw hc hif hend
  | ifElse _ _ iha ihb =>
    simp only [Body.tools, List.forall_mem_cons, List.forall_mem_append] at htools
    obtain ⟨hif, hor, hend, ha, hb⟩ := htools
    simpa [Body.code] using (iha ha).ifElse hw hc hif hor hend (ihb hb)
  | untilLoop _ iha =>
    simp only [Body.tools, List.forall_mem_cons] at htools
    obtain ⟨hbegin, hword, ha⟩ := htools
    simpa [Body.code, huntil] using (iha ha).loop hw hc hbegin .untilWord hword _ rfl
  | againLoop _ iha =>
    simp only [Body.tools, List.forall_mem_cons] at htools
    obtain ⟨hbegin, hword, ha⟩ := htools
    simpa [Body.code, hagain] using (iha ha).loop hw hc hbegin .againWord hword _ rfl
  | whileLoop _ _ iha ihb =>
    simp only [Body.tools, List.forall_mem_cons, List.forall_mem_append] at htools
    obtain ⟨hbegin, hwhile, hrepeat, ha, hb⟩ := htools
    simpa [Body.code] using (iha ha).whileLoop hw hc hbegin hwhile hrepeat (ihb hb)

/-! ## The ends of a definition -/

/-- All words are found that the definition of a word with this body takes. -/
structure Memory.CanCompile (m : Memory) (body : Body) : Prop extends m.HasInterpreter where
  colon : ∃ header, m.Names ":" header (.native .enter :: Kernel.colonBody ++ [Kernel.exitToken])
  semicolon : m.NamesImmediate ";" (.native .enter :: Kernel.semicolonBody ++ [Kernel.exitToken])
  tools : ∀ tool ∈ body.tools, m.Provides tool

theorem Memory.HasCompiler.canCompile (h : m.HasCompiler) (body : Body) : m.CanCompile body :=
  ⟨h.interpreter, h.colon, h.semicolon, fun tool _ => h.provides tool⟩

section Ends

variable (hw : old.WellFormed hs) (hc : old.CanCompile body)

/-- What `:` does. -/
def colonThread : List Instruction :=
  [.word (.input .word), .word (.compiler .create), .word (.compiler .compileEnter),
    .word (.memory .latest), .word (.compiler .hidden), .word (.compiler .rightBracket)]

/-- What `;` does. -/
def semicolonThread : List Instruction :=
  [.word (.compiler .whenCompiling), .lit Kernel.exitToken, .word (.memory .comma),
    .word (.memory .latest), .word (.compiler .reveal), .word (.compiler .leftBracket)]

include hw in
/-- `:` takes a name, and begins a hidden word. -/
theorem runs_colon (data : List Cell) (lines : List String) (htoken : Source.IsToken name.toList)
    (hrest : Source.Delimited rest) :
    Runs old colonThread ⟨data, old, .immediate, ' ' :: (name.toList ++ rest), lines⟩
      (.drafting old { name := name, lines := lines } rest data []) := by
  have htake : Turns old nextToken ⟨data, old, .immediate, ' ' :: (name.toList ++ rest), lines⟩ name
      ⟨data, old, .immediate, rest, lines⟩ := turns_nextToken htoken hrest rfl
  have hzero : 0 ≤ Flags.named := by decide
  -- CREATE shows the word, and HIDDEN hides it before anything else is found
  have henter : (old.allocateHeader name 0).append (.native .enter) = old.withWord name 0 [] := by
    rw [Memory.append_eq_appendAll, Memory.allocateHeader_appendAll]
  have hhide : (old.withWord name 0 []).changeFlags (.int old.here) (· ^^^ Flags.hidden) =
      .ok (old.withWord name Flags.hidden []) := hw.changeFlags_withWord hzero _
  have hhidden : Does old (.compiler .hidden)
      ⟨.int old.here :: data, old.withWord name 0 [], .immediate, rest, lines⟩
      ⟨data, old.withWord name Flags.hidden [], .immediate, rest, lines⟩ := fun _ _ _ =>
    turns_changeFlags rfl hhide (hw.extends_withWord name (by decide) [])
  have hcompile : Does old (.compiler .rightBracket)
      ⟨data, old.withWord name Flags.hidden [], .immediate, rest, lines⟩
      (.drafting old { name := name, lines := lines } rest data []) := fun _ _ _ =>
    turns_mode .compile
  refine .word (does_word htake) (.word (does_create rfl (hw.extends_allocateHeader name hzero)) ?_)
  refine .word (does_compileEnter henter (hw.extends_withWord name hzero [])) ?_
  exact .word (does_latest rfl) (.word hhidden (.word hcompile .nil))

include hw in
/-- `;` ends the word and shows it. -/
theorem runs_semicolon (draft : Draft) (data cells : List Cell) (rest : List Char) :
    Runs old semicolonThread (.drafting old draft rest data cells)
      ⟨data, old.withWord draft.name draft.shown (cells ++ [Kernel.exitToken]), .immediate, rest,
        draft.lines⟩ := by
  have hshow : (old.withWord draft.name draft.flags (cells ++ [Kernel.exitToken])).changeFlags
      (.int old.here) (Bits.without · Flags.hidden) =
      .ok (old.withWord draft.name draft.shown (cells ++ [Kernel.exitToken])) :=
    hw.changeFlags_withWord draft.named _
  have hreveal : Does old (.compiler .reveal)
      (.drafting old draft rest (.int old.here :: data) (cells ++ [Kernel.exitToken]))
      ⟨data, old.withWord draft.name draft.shown (cells ++ [Kernel.exitToken]), .compile, rest,
        draft.lines⟩ := fun _ _ _ =>
    turns_changeFlags rfl hshow (hw.extends_withWord draft.name draft.shown_named _)
  have himmediate : Does old (.compiler .leftBracket)
      ⟨data, old.withWord draft.name draft.shown (cells ++ [Kernel.exitToken]), .compile, rest,
        draft.lines⟩
      ⟨data, old.withWord draft.name draft.shown (cells ++ [Kernel.exitToken]), .immediate, rest,
        draft.lines⟩ := fun _ _ _ => turns_mode .immediate
  refine .word (does_whenCompiling rfl) (.lit (.word (draft_comma hw) (.word draft_latest ?_)))
  exact .word hreveal (.word himmediate .nil)

include hw hc

/-- `QUIT` reads the beginning of a definition. -/
theorem reads_colon {lines : List String} (htoken : Source.IsToken name.toList)
    (hrest : Source.Delimited rest)
    (htake : Turns old nextToken s ":" ⟨data, old, .immediate, ' ' :: (name.toList ++ rest), lines⟩) :
    Reads old s (.drafting old { name := name, lines := lines } rest data []) := by
  obtain ⟨header, hfind, hcode⟩ := hc.colon
  have hperforms := (runs_colon hw data lines htoken hrest).performs
    (fun i hi => hc.primitives _ (by revert i; decide)) (hc.primitives _ (by decide)) hcode
  exact (interprets_run hfind (.inl rfl) hperforms).reads_next hc.toHasInterpreter htake

/-- `QUIT` reads the end of a definition. -/
theorem reads_semicolon {draft : Draft} {data cells : List Cell}
    (htake : Turns old nextToken s ";" (.drafting old draft rest data cells)) :
    Reads old s
      ⟨data, old.withWord draft.name draft.shown (cells ++ [Kernel.exitToken]), .immediate, rest,
        draft.lines⟩ := by
  obtain ⟨header, ⟨hfind, hcode⟩, himm⟩ := hc.semicolon
  have hsound : (old.withWord draft.name draft.flags cells).Extends old :=
    hw.extends_withWord draft.name draft.named _
  have hperforms := (runs_semicolon hw draft data cells rest).performs
    (fun i hi => hc.primitives _ (by revert i; decide)) (hc.primitives _ (by decide)) hcode
  have hinterprets : Interprets old ";" (.drafting old draft rest data cells)
      ⟨data, old.withWord draft.name draft.shown (cells ++ [Kernel.exitToken]), .immediate, rest,
        draft.lines⟩ :=
    interprets_run ((hw.find_withWord_hidden draft.named draft.hidden _ _ _).trans hfind)
      (.inr (hsound.isImmediate himm)) hperforms
  exact hinterprets.reads_next hc.toHasInterpreter htake

/-- `QUIT` reads a definition. -/
theorem Spelled.reads_definition (h : Spelled old body text)
    (htoken : Source.IsToken name.toList) :
    Reads old ⟨data, old, .immediate, [], [": " ++ name ++ text ++ " ;"]⟩
      ⟨data, old.withWord name 0 (body.code (old.here + 3) ++ [Kernel.exitToken]), .immediate,
        ['\n'], []⟩ := by
  let draft : Draft := { name := name }
  have hcompiles : Compiles old draft text (body.code (old.here + 3)) :=
    h.compiles hw hc.toHasInterpreter hc.tools
  -- what is left of the line after the body
  let last := ' ' :: (";".toList ++ ['\n'])
  have hlast : Source.Delimited last := delimited_space _
  have hline : (": " ++ name ++ text ++ " ;").toList ++ ['\n'] =
      ":".toList ++ (' ' :: (name.toList ++ (text.toList ++ last))) := by simp [last]
  have htake : Turns old nextToken ⟨data, old, .immediate, [], [": " ++ name ++ text ++ " ;"]⟩ ":"
      ⟨data, old, .immediate, ' ' :: (name.toList ++ (text.toList ++ last)), []⟩ :=
    turns_nextToken_waiting (by decide) (delimited_space _) rfl rfl hline
  have hcolon := reads_colon hw hc htoken (hcompiles.delimited _ hlast) htake
  have hend : Turns old nextToken (.drafting old draft last data (body.code (old.here + 3))) ";"
      (.drafting old draft ['\n'] data (body.code (old.here + 3))) :=
    turns_nextToken (by decide) delimited_lineEnd rfl
  have hsemicolon := reads_semicolon hw hc hend
  have hshown : draft.shown = 0 := (by decide : Bits.without Flags.hidden Flags.hidden = 0)
  rw [hshown] at hsemicolon
  exact (hcolon.trans (hcompiles.reads last data [] hlast)).trans hsemicolon

end Ends

/-! ## The evaluation of a definition -/

/-- A machine is what another one becomes by the definition of a word: the header, the code field,
the code of the body and `EXIT` stand behind all cells that were there, the new header is the
newest, and nothing is printed. -/
structure Machine.Defines (m : Machine) (name : String) (body : Body) (m' : Machine) : Prop where
  data : m'.data = m.data
  mode : m'.mode = m.mode
  transcript : m'.console.transcript = m.console.transcript
  cells : m'.memory.cells = m.memory.cells ++
    ([m.memory.link, .text (Text.upper name), .flags 0] ++
      (.native .enter :: body.code (m.memory.here + 3) ++ [Kernel.exitToken])).toArray
  latest : m'.memory.latest = some (m.memory.here : Int)

/-- What a machine becomes by a text that prints nothing and leads to a scene: nothing is left to be
read. -/
structure Machine.SettlesIn (m : Machine) (s : Scene) (m' : Machine) : Prop where
  data : m'.data = s.data
  memory : m'.memory = s.memory
  mode : m'.mode = s.mode
  transcript : m'.console.transcript = m.console.transcript
  idle : m'.console.source.hasPending = false

namespace Session

variable {m m' : Machine} {bound : Nat}

/-- Fed lines are interpreted up to the end of the input, where the thread is left. -/
theorem interpretFed_of_end {source : Source}
    (hsource : source = { m.console.source with reader := none })
    (h : execute bound Kernel.quitToken { m with console := { m.console with source := source } } =
      .error .endOfInput m') :
    interpretFed bound m = .ok () { m' with
      returns := [], ip := none,
      console := { m'.console with
        source := { m'.console.source with reader := m.console.source.reader } } } := by
  subst hsource
  simp only [interpretFed, bind_apply, get_apply, setReader, modifySource, modify_apply, observe, h,
    leaveThread]

/-- A text that is fed and interpreted gives back what it printed, unless that is only written, and
what was printed before is not lost. -/
theorem interpretText_of_fed {text : String} {fed : Machine}
    (hfed : fed = { m with console :=
      { source := m.console.source.feed text, transcript := {} } })
    (h : interpretFed bound fed = .ok () m') (sink : Sink) :
    interpretText bound sink text m =
      .ok (if sink = .writeOnly then "" else m'.console.transcript.printed) { m' with
        console.transcript := if sink = .separate then m.console.transcript
          else m.console.transcript.append m'.console.transcript } := by
  subst hfed
  simp only [interpretText, bind_apply, get_apply, setTranscript, modifySource, modify_apply,
    observe, h, settle, pure_apply]

/-- A text that prints nothing leaves what was printed before. -/
theorem interpretText_of_quiet {text : String} {fed : Machine}
    (hfed : fed = { m with console :=
      { source := m.console.source.feed text, transcript := {} } })
    (h : interpretFed bound fed = .ok () m') (hquiet : m'.console.transcript = {}) (sink : Sink) :
    interpretText bound sink text m = .ok "" { m' with
      console := { m'.console with transcript := m.console.transcript } } := by
  have hprinted : Transcript.printed {} = "" := rfl
  have hbefore : m.console.transcript.append {} = m.console.transcript := rfl
  rw [interpretText_of_fed hfed h sink, hquiet, hprinted, hbefore, ite_self, ite_self]

/-- What `QUIT` does with lines is what comes of a text that has these lines, while nothing else waits
to be read. -/
theorem interpretText_of_lines {ls : List String} {s : Scene} (hsound : m.memory.Extends old)
    (hc : old.HasInterpreter) (hidle : m.console.source.hasPending = false)
    (hlines : Text.lines text = ls) (hreads : Reads old ⟨m.data, m.memory, m.mode, [], ls⟩ s)
    (hinput : ∀ c ∈ s.input, Source.isDelimiter c = true) (hwaiting : s.waiting = [])
    (sink : Sink) :
    ∃ k, ∀ b ≥ k, ∃ m', interpretText b sink text m = .ok "" m' ∧ m.SettlesIn s m' ∧
      m'.returns = [] ∧ m'.ip = none := by
  obtain ⟨hpending, hrest⟩ : m.console.source.pending = [] ∧ m.console.source.rest = [] := by
    simpa [Source.hasPending] using hidle
  -- the machine as QUIT finds it: nothing printed, the lines fed, no reader
  let fed := { m with console := { source := m.console.source.feed text, transcript := {} } }
  let source := { fed.console.source with reader := none }
  have hfed : source.pending = ls := by
    simp [source, fed, Source.feed, Source.feedLines, hpending, hlines]
  have hholds : Scene.Holds ⟨m.data, m.memory, m.mode, [], ls⟩ old
      ⟨m.ip, m.returns⟩ { fed with console := { fed.console with source := source } } :=
    ⟨rfl, rfl, rfl, hrest, hfed, rfl, rfl, hsound, rfl, rfl⟩
  obtain ⟨k, hquit⟩ :=
    hreads.execute_quit hholds hinput hwaiting hc.quit (hc.primitives _ (by decide))
  refine ⟨k, ?_⟩
  intro b hb
  obtain ⟨there, m₁, hrun, hm₁⟩ := hquit b hb
  refine ⟨_, interpretText_of_quiet rfl (interpretFed_of_end rfl hrun) hm₁.quiet sink, ?_, rfl, rfl⟩
  refine ⟨hm₁.data, hm₁.memory, hm₁.mode, rfl, ?_⟩
  simp [Source.hasPending, hm₁.input, hm₁.waiting, hwaiting]

/-- What `QUIT` does with a line is what comes of a text that is the line, while nothing else waits
to be read. -/
theorem interpretText_of_reads {line : String} {s : Scene} (hsound : m.memory.Extends old)
    (hc : old.HasInterpreter) (hidle : m.console.source.hasPending = false)
    (hone : Text.OneLine line) (hne : line.toList ≠ [])
    (hreads : Reads old ⟨m.data, m.memory, m.mode, [], [line]⟩ s)
    (hinput : ∀ c ∈ s.input, Source.isDelimiter c = true) (hwaiting : s.waiting = [])
    (sink : Sink) :
    ∃ k, ∀ b ≥ k, ∃ m', interpretText b sink line m = .ok "" m' ∧ m.SettlesIn s m' := by
  obtain ⟨k, h⟩ := interpretText_of_lines hsound hc hidle (Text.lines_of_oneLine hne hone) hreads hinput
    hwaiting sink
  refine ⟨k, fun b hb => ?_⟩
  obtain ⟨m', hrun, hm', -⟩ := h b hb
  exact ⟨m', hrun, hm'⟩

/-- A definition that is interpreted while nothing else waits to be read. -/
theorem interpretText_defines (hw : m.memory.WellFormed hs) (hc : m.memory.HasCompiler)
    (hmode : m.mode = .immediate) (hidle : m.console.source.hasPending = false)
    (hname : Lexeme name) (hbody : Spelled m.memory body text) (sink : Sink) :
    ∃ k, ∀ b ≥ k, ∃ m', interpretText b sink (": " ++ name ++ text ++ " ;") m = .ok "" m' ∧
      m.Defines name body m' := by
  have hreads : Reads m.memory ⟨m.data, m.memory, m.mode, [], [": " ++ name ++ text ++ " ;"]⟩
      ⟨m.data, m.memory.withWord name 0 (body.code (m.memory.here + 3) ++ [Kernel.exitToken]),
        .immediate, ['\n'], []⟩ := by
    rw [hmode]
    exact hbody.reads_definition hw (hc.canCompile body) hname.isToken
  obtain ⟨k, htext⟩ := interpretText_of_reads hw.extends_self hc.interpreter hidle
    (hbody.oneLine_definition hname) (by simp) hreads (List.forall_mem_singleton.mpr rfl) rfl sink
  refine ⟨k, ?_⟩
  intro b hb
  obtain ⟨m', hrun, hm'⟩ := htext b hb
  have hcells : m'.memory.cells = m.memory.cells ++
      ([m.memory.link, .text (Text.upper name), .flags 0] ++
        (.native .enter :: body.code (m.memory.here + 3) ++ [Kernel.exitToken])).toArray := by
    rw [hm'.memory]
    rfl
  exact ⟨m', hrun, hm'.data, hm'.mode.trans hmode.symm, hm'.transcript, hcells,
    by rw [hm'.memory]; rfl⟩

/-- A definition that is loaded beside the input. -/
theorem loadText_defines (hw : m.memory.WellFormed hs) (hc : m.memory.HasCompiler)
    (hmode : m.mode = .immediate) (hname : Lexeme name) (hbody : Spelled m.memory body text) :
    ∃ k, ∀ b ≥ k, ∃ m', loadText b (": " ++ name ++ text ++ " ;") m = .ok "" m' ∧
      m.Defines name body m' ∧ m'.console.source = m.console.source := by
  obtain ⟨k, h⟩ := interpretText_defines
    (m := { m with console := { m.console with source := {} } }) hw hc hmode rfl hname hbody .shared
  refine ⟨k, ?_⟩
  intro b hb
  obtain ⟨m₁, hrun, hm₁⟩ := h b hb
  refine ⟨{ m₁ with console := { m₁.console with source := m.console.source } }, ?_, ?_, rfl⟩
  · simp only [loadText, bind_apply, get_apply, modifySource, modify_apply, observe, hrun, settle,
      pure_apply]
  · exact ⟨hm₁.data, hm₁.mode, hm₁.transcript, hm₁.cells, hm₁.latest⟩

/-- **A definition compiles to the threaded code of its body**: it ends well, prints nothing, leaves
the data stack and the mode, and adds the header, the code field, the code of the body and `EXIT`
behind all that was there. This holds for a text that is interpreted while nothing else waits to be
read, and for one that is loaded beside the input, which stays as it is. -/
theorem definition_compiles (hw : m.memory.WellFormed hs) (hc : m.memory.HasCompiler)
    (hmode : m.mode = .immediate) (hname : Lexeme name) (hbody : Spelled m.memory body text) :
    (m.console.source.hasPending = false → ∀ sink, ∃ k, ∀ b ≥ k, ∃ m',
      interpretText b sink (": " ++ name ++ text ++ " ;") m = .ok "" m' ∧
        m.Defines name body m') ∧
    ∃ k, ∀ b ≥ k, ∃ m', loadText b (": " ++ name ++ text ++ " ;") m = .ok "" m' ∧
      m.Defines name body m' ∧ m'.console.source = m.console.source :=
  ⟨fun hidle sink => interpretText_defines hw hc hmode hidle hname hbody sink,
    loadText_defines hw hc hmode hname hbody⟩

end Session

end ThreadedForth
