import ThreadedForth.Proofs.Compiler.Definition

/-!
# The three ways to define a word

A program makes words with `:` and `;`, with `VARIABLE` and with `CONSTANT` (`Definition`). What
each puts into memory is one thing (`Memory.define`): a header, and cells behind it. It lies behind
all that was there, so that nothing else changes, except that the new word is found by its name.
`Definition.Fits.interpretText` says that this is what comes of the text of a definition.
-/

namespace ThreadedForth

open ThreadedForth.Action

/-- A definition, as a program writes it. -/
inductive Definition
  /-- `: name text ;`, where the text spells a body -/
  | colon (name text : String) (body : Body)
  /-- `VARIABLE name` -/
  | cell (name : String)
  /-- `n CONSTANT name`, where a numeral stands for `n` -/
  | constant (name numeral : String) (n : Int)

namespace Definition

/-- The name of the word that is defined. -/
def name : Definition → String
  | colon name _ _ => name
  | cell name => name
  | constant name _ _ => name

/-- The text of the definition. -/
def source : Definition → String
  | colon name text _ => ": " ++ name ++ text ++ " ;"
  | cell name => "VARIABLE " ++ name
  | constant name numeral _ => numeral ++ " CONSTANT " ++ name

/-- The code field and the body of the word, which has its header at an address. -/
def cells (header : Int) : Definition → List Cell
  | colon _ _ body => .native .enter :: (body.code (header + headerSize) ++ [Kernel.exitToken])
  | cell _ => [.native .variable, .int 0]
  | constant _ _ n => [.native .enter, Kernel.litToken, .int n, Kernel.exitToken]

end Definition

/-! ## Memory with a word more -/

namespace Memory

variable {m : Memory} {hs : List Header} {d : Definition} {name : String}

/-- The memory with the word of a definition at its end. -/
def define (m : Memory) (d : Definition) : Memory :=
  (m.allocateHeader d.name 0).appendAll (d.cells m.here)

theorem define_colon (m : Memory) (name text : String) (body : Body) :
    m.define (.colon name text body) =
      m.withWord name 0 (body.code (m.here + 3) ++ [Kernel.exitToken]) :=
  allocateHeader_appendAll m name 0 _

/-- The new word is the newest one. -/
theorem WellFormed.define (hw : m.WellFormed hs) (d : Definition) :
    (m.define d).WellFormed (⟨m.here, Text.upper d.name⟩ :: hs) :=
  hw.addWord d.name _

theorem getElem?_define_of_lt (d : Definition) {i : Nat} (hi : i < m.here) :
    (m.define d).cells[i]? = m.cells[i]? :=
  getElem?_addWord_of_lt d.name _ hi

theorem here_define (m : Memory) (d : Definition) :
    (m.define d).here = m.here + 3 + (d.cells m.here).length :=
  here_addWord m d.name _

theorem WellFormed.extends_define (hw : m.WellFormed hs) (d : Definition) :
    (m.define d).Extends m :=
  hw.extends_addWord d.name _

/-- The code field and the body of the new word stand behind its header. -/
theorem hasCode_define (m : Memory) (d : Definition) :
    (m.define d).HasCode (m.here + headerSize) (d.cells m.here) :=
  hasCode_addWord m d.name _

/-- The new word is found by its name. -/
theorem WellFormed.find_define (hw : m.WellFormed hs)
    (hname : Text.upper name = Text.upper d.name) :
    (m.define d).find name = .ok (some (.int m.here)) :=
  hw.find_addWord _ hname

/-- By another name what was found before is found. -/
theorem WellFormed.find_define_of_ne (hw : m.WellFormed hs)
    (hname : Text.upper name ≠ Text.upper d.name) : (m.define d).find name = m.find name :=
  hw.find_addWord_of_ne _ hname

/-- The new word is not immediate. -/
theorem WellFormed.isImmediate_define (hw : m.WellFormed hs) (d : Definition) :
    (m.define d).isImmediate (.int m.here) = .ok false :=
  hw.isImmediate_addWord d.name _

/-! ### What stays of the compiler -/

variable {m' : Memory} {cells : List Cell} {header : Int}

theorem HasInterpreter.of_extends (h : m.HasInterpreter) (he : m'.Extends m) :
    m'.HasInterpreter where
  primitives p hp := he.retains _ _ (h.primitives p hp)
  quit := he.hasCode h.quit

theorem Names.define (h : m.Names name header cells) (hw : m.WellFormed hs)
    (hname : Text.upper name ≠ Text.upper d.name) : (m.define d).Names name header cells :=
  h.of_find (hw.extends_define d) (hw.find_define_of_ne hname)

theorem NamesImmediate.define (h : m.NamesImmediate name cells) (hw : m.WellFormed hs)
    (hname : Text.upper name ≠ Text.upper d.name) : (m.define d).NamesImmediate name cells :=
  h.of_find (hw.extends_define d) (hw.find_define_of_ne hname)

/-- The names of the words of the compiler. -/
def compilerNames : List String :=
  [":", ";", "S\"", "RECURSE", "IF", "ELSE", "THEN", "BEGIN", "UNTIL", "AGAIN", "WHILE", "REPEAT"]

/-- There is a compiler as long as the names of its words are not reused. -/
theorem HasCompiler.define (hc : m.HasCompiler) (hw : m.WellFormed hs)
    (hnames : ∀ name ∈ compilerNames, Text.upper name ≠ Text.upper d.name) :
    (m.define d).HasCompiler := by
  have hinterpreter := hc.interpreter.of_extends (hw.extends_define d)
  obtain ⟨header, hcolon⟩ := hc.colon
  refine ⟨hinterpreter.primitives, hinterpreter.quit,
    ⟨header, hcolon.define hw (hnames _ (by decide))⟩,
    hc.semicolon.define hw (hnames _ (by decide)), hc.text.define hw (hnames _ (by decide)), ?_⟩
  intro w
  exact (hc.control w).define hw (hnames _ (by cases w <;> decide))

end Memory

/-! ## Reading definitions -/

/-- What `VARIABLE` does. -/
def variableThread : List Instruction :=
  [.word (.input .word), .word (.compiler .create), .word (.compiler .compileVariable),
    .lit (.int 0), .word (.memory .comma)]

/-- What `CONSTANT` does. -/
def constantThread : List Instruction :=
  [.word (.input .word), .word (.compiler .create), .word (.compiler .compileEnter),
    .lit Kernel.litToken, .word (.memory .comma), .word (.memory .comma),
    .lit Kernel.exitToken, .word (.memory .comma)]

/-- A definition can be made: its names are tokens, and stand for what the definition takes them
for. -/
inductive Definition.Fits (m : Memory) : Definition → Prop
  | colon {name text : String} {body : Body} (hname : Lexeme name) (hbody : Spelled m body text)
      (hc : m.CanCompile body) : Fits m (.colon name text body)
  | cell {name : String} (hname : Lexeme name) (hc : m.HasInterpreter)
      (hcode : m.Intact (.compiler .compileVariable))
      (hword : ∃ header, m.Names "VARIABLE" header (Instruction.wordCells variableThread)) :
      Fits m (.cell name)
  | constant {name numeral : String} {n : Int} (hname : Lexeme name) (hnumeral : Lexeme numeral)
      (hfind : m.find numeral = .ok none) (hread : Numeral.read? numeral = some n)
      (hc : m.HasInterpreter)
      (hword : ∃ header, m.Names "CONSTANT" header (Instruction.wordCells constantThread)) :
      Fits m (.constant name numeral n)

section Reading

variable {old : Memory} {hs : List Header} {name numeral token : String} {data : List Cell}
  {rest : List Char} {s s' : Scene} {n header : Int} {d : Definition}

theorem does_compileVariable {memory : Memory} (h : s.memory.append (.native .variable) = memory)
    (hsound : memory.Extends old) :
    Does old (.compiler .compileVariable) s { s with memory := memory } := by
  intro i e bound
  exact turns_append h hsound

/-- A numeral that names no word is pushed outside of a definition. -/
theorem interprets_number (hfind : s.memory.find token = .ok none)
    (hread : Numeral.read? token = some n) (hmode : s.mode = .immediate) :
    Interprets old token s { s with data := .int n :: s.data } :=
  interprets_literal hfind hread (turns_literal_immediate hmode _)

/-- `VARIABLE` takes a name, and makes a word with one cell. -/
theorem runs_variable (hw : old.WellFormed hs) (data : List Cell)
    (htoken : Source.IsToken name.toList) (hrest : Source.Delimited rest) :
    Runs old variableThread ⟨data, old, .immediate, ' ' :: (name.toList ++ rest), []⟩
      ⟨data, old.addWord name [.native .variable, .int 0], .immediate, rest, []⟩ := by
  have htake : Turns old nextToken ⟨data, old, .immediate, ' ' :: (name.toList ++ rest), []⟩ name
      ⟨data, old, .immediate, rest, []⟩ := turns_nextToken htoken hrest rfl
  -- the code field is put behind the header, and then the cell
  have hfield : (old.allocateHeader name 0).append (.native .variable) =
      old.addWord name [.native .variable] := Memory.append_eq_appendAll _ _
  have hcells : (old.addWord name [.native .variable]).append (.int 0) =
      old.addWord name [.native .variable, .int 0] := by
    rw [Memory.append_eq_appendAll, Memory.addWord, Memory.appendAll_appendAll]
    rfl
  refine .word (does_word htake) (.word (does_create rfl (hw.extends_addWord name [])) ?_)
  refine .word (does_compileVariable hfield (hw.extends_addWord name _)) (.lit ?_)
  exact .word (does_comma rfl hcells (hw.extends_addWord name _)) .nil

theorem performs_variable (hw : old.WellFormed hs) (hc : old.HasInterpreter)
    (hcode : old.Intact (.compiler .compileVariable))
    (hbody : old.HasCode (header + headerSize) (Instruction.wordCells variableThread))
    (data : List Cell) (htoken : Source.IsToken name.toList) (hrest : Source.Delimited rest) :
    Performs old (.token (header + headerSize))
      ⟨data, old, .immediate, ' ' :: (name.toList ++ rest), []⟩
      ⟨data, old.addWord name [.native .variable, .int 0], .immediate, rest, []⟩ := by
  have hintact : ∀ i ∈ variableThread, old.Intact i.primitive := by
    intro i hi
    simp only [variableThread, List.mem_cons, List.not_mem_nil, or_false] at hi
    rcases hi with rfl | rfl | rfl | rfl | rfl
    · exact hc.primitives _ (by decide)
    · exact hc.primitives _ (by decide)
    · exact hcode
    · exact hc.primitives _ (by decide)
    · exact hc.primitives _ (by decide)
  exact (runs_variable hw data htoken hrest).performs hintact (hc.primitives _ (by decide)) hbody

/-- `CONSTANT` takes a name, and makes a word that pushes the cell on top. -/
theorem runs_constant (hw : old.WellFormed hs) (x : Cell) (data : List Cell)
    (htoken : Source.IsToken name.toList) (hrest : Source.Delimited rest) :
    Runs old constantThread ⟨x :: data, old, .immediate, ' ' :: (name.toList ++ rest), []⟩
      ⟨data, old.addWord name [.native .enter, Kernel.litToken, x, Kernel.exitToken], .immediate,
        rest, []⟩ := by
  have htake : Turns old nextToken
      ⟨x :: data, old, .immediate, ' ' :: (name.toList ++ rest), []⟩ name
      ⟨x :: data, old, .immediate, rest, []⟩ := turns_nextToken htoken hrest rfl
  have hflags : 0 ≤ Flags.named := by decide
  have henter : (old.allocateHeader name 0).append (.native .enter) = old.withWord name 0 [] := by
    rw [Memory.append_eq_appendAll, Memory.allocateHeader_appendAll]
  -- a cell is put behind those of the word
  have hcomma (y : Cell) (data cells : List Cell) : Does old (.memory .comma)
      ⟨y :: data, old.withWord name 0 cells, .immediate, rest, []⟩
      ⟨data, old.withWord name 0 (cells ++ [y]), .immediate, rest, []⟩ :=
    does_comma rfl (Memory.append_withWord old y) (hw.extends_withWord name hflags _)
  rw [Memory.addWord, Memory.allocateHeader_appendAll]
  refine .word (does_word htake) ?_
  refine .word (does_create rfl (hw.extends_allocateHeader name hflags)) ?_
  refine .word (does_compileEnter henter (hw.extends_withWord name hflags [])) ?_
  refine .lit (.word (hcomma Kernel.litToken _ []) (.word (hcomma x _ _) ?_))
  exact .lit (.word (hcomma Kernel.exitToken _ _) .nil)

theorem performs_constant (hw : old.WellFormed hs) (hc : old.HasInterpreter)
    (hbody : old.HasCode (header + headerSize) (Instruction.wordCells constantThread))
    (x : Cell) (data : List Cell) (htoken : Source.IsToken name.toList)
    (hrest : Source.Delimited rest) :
    Performs old (.token (header + headerSize))
      ⟨x :: data, old, .immediate, ' ' :: (name.toList ++ rest), []⟩
      ⟨data, old.addWord name [.native .enter, Kernel.litToken, x, Kernel.exitToken], .immediate,
        rest, []⟩ :=
  (runs_constant hw x data htoken hrest).performs
    (fun i hi => hc.primitives _ (by revert i; decide)) (hc.primitives _ (by decide)) hbody

/-- `QUIT` reads a definition, and puts the word into memory. -/
theorem Definition.Fits.reads (h : d.Fits old) (hw : old.WellFormed hs) :
    Reads old ⟨data, old, .immediate, [], [d.source]⟩
      ⟨data, old.define d, .immediate, ['\n'], []⟩ := by
  have hlast : Source.Delimited ['\n'] := delimited_lineEnd
  cases h with
  | @colon name text body hname hbody hc =>
    rw [Memory.define_colon]
    exact hbody.reads_definition hw hc hname.isToken
  | @cell name hname hc hcode hword =>
    obtain ⟨header, hfind, hbody⟩ := hword
    have hline : ("VARIABLE " ++ name).toList ++ ['\n'] =
        "VARIABLE".toList ++ (' ' :: (name.toList ++ ['\n'])) := by simp
    have htake : Turns old nextToken ⟨data, old, .immediate, [], ["VARIABLE " ++ name]⟩ "VARIABLE"
        ⟨data, old, .immediate, ' ' :: (name.toList ++ ['\n']), []⟩ :=
      turns_nextToken_waiting (by decide) (delimited_space _) rfl rfl hline
    have hperforms := performs_variable hw hc hcode hbody data hname.isToken hlast
    exact (interprets_run hfind (.inl rfl) hperforms).reads_next hc htake
  | @constant name numeral n hname hnumeral hfind hread hc hword =>
    obtain ⟨header, hfind', hbody⟩ := hword
    let rest := ' ' :: (name.toList ++ ['\n'])
    have hline : (numeral ++ " CONSTANT " ++ name).toList ++ ['\n'] =
        numeral.toList ++ (' ' :: ("CONSTANT".toList ++ rest)) := by simp [rest]
    have hnumber : Turns old nextToken
        ⟨data, old, .immediate, [], [numeral ++ " CONSTANT " ++ name]⟩ numeral
        ⟨data, old, .immediate, ' ' :: ("CONSTANT".toList ++ rest), []⟩ :=
      turns_nextToken_waiting hnumeral.isToken (delimited_space _) rfl rfl hline
    have htake : Turns old nextToken
        ⟨.int n :: data, old, .immediate, ' ' :: ("CONSTANT".toList ++ rest), []⟩ "CONSTANT"
        ⟨.int n :: data, old, .immediate, rest, []⟩ :=
      turns_nextToken (by decide) (delimited_space _) rfl
    have hperforms := performs_constant hw hc hbody (.int n) data hname.isToken hlast
    have hpushed : Reads old ⟨data, old, .immediate, [], [numeral ++ " CONSTANT " ++ name]⟩
        ⟨.int n :: data, old, .immediate, ' ' :: ("CONSTANT".toList ++ rest), []⟩ :=
      (interprets_number hfind hread rfl).reads_next hc hnumber
    exact hpushed.trans ((interprets_run hfind' (.inl rfl) hperforms).reads_next hc htake)

/-- The text of a definition is one line. -/
theorem Definition.Fits.oneLine (h : d.Fits old) : Text.OneLine d.source := by
  cases h with
  | colon hname hbody _ => exact hbody.oneLine_definition hname
  | cell hname _ _ _ => exact Text.oneLine_append.mpr ⟨by decide, hname.oneLine⟩
  | constant hname hnumeral _ _ _ _ =>
    exact Text.oneLine_append.mpr
      ⟨Text.oneLine_append.mpr ⟨hnumeral.oneLine, by decide⟩, hname.oneLine⟩

theorem Definition.Fits.hasInterpreter (h : d.Fits old) : old.HasInterpreter := by
  cases h with
  | colon _ _ hc => exact hc.toHasInterpreter
  | cell _ hc _ _ => exact hc
  | constant _ _ _ _ hc _ => exact hc

theorem Definition.source_ne_nil (d : Definition) : d.source.toList ≠ [] := by
  cases d <;> simp [Definition.source]

end Reading

/-- **A definition puts its word into memory**, and does nothing else. -/
theorem Definition.Fits.interpretText {m : Machine} {hs : List Header} {d : Definition}
    (h : d.Fits m.memory) (hw : m.memory.WellFormed hs) (hmode : m.mode = .immediate)
    (hidle : m.console.source.hasPending = false) (sink : Sink) :
    ∃ k, ∀ b ≥ k, ∃ m', Session.interpretText b sink d.source m = .ok "" m' ∧
      m.SettlesIn ⟨m.data, m.memory.define d, .immediate, ['\n'], []⟩ m' := by
  have hreads : Reads m.memory ⟨m.data, m.memory, m.mode, [], [d.source]⟩
      ⟨m.data, m.memory.define d, .immediate, ['\n'], []⟩ := by
    rw [hmode]
    exact h.reads hw
  exact Session.interpretText_of_reads hw.extends_self h.hasInterpreter hidle h.oneLine
    d.source_ne_nil hreads
    (List.forall_mem_singleton.mpr rfl) rfl sink

end ThreadedForth
