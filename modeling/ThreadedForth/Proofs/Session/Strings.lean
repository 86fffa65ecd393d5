import ThreadedForth.Proofs.Compiler.Booted
import ThreadedForth.Proofs.Machine.Line
import ThreadedForth.Proofs.Source.Fed

/-!
# Words that read a text

`S"` and `."` read a text from the input, one character after the other by way of `KEY`, and give it
to the machine (`Machine.given`). They pass over one delimiter and read up to the next quote, from
one line to the next if need be, and nothing else becomes of the machine. Where no quote comes, they
stop at the end of the input, and the data stack and the memory are as they were
(`Session.text_words_read`).
-/

namespace ThreadedForth

open ThreadedForth.Action

/-- The machine to which a word has given the text that it has read: the text is pushed or printed,
or it is compiled to be pushed, and printed then. -/
def Machine.given (m : Machine) (w : TextWord) (text : String) : Machine :=
  match w, m.mode with
  | .text, .immediate => { m with data := .text text :: m.data }
  | .text, .compile => { m with memory := m.memory.appendAll [Kernel.litToken, .text text] }
  | .print, .immediate =>
    { m with console :=
        { m.console with transcript := m.console.transcript.write .program text } }
  | .print, .compile =>
    { m with memory := m.memory.appendAll [Kernel.litToken, .text text, Kernel.tellToken] }
  | _, _ => m

/-- The second machine has read on, so that these characters come next, and has noted what it did.
Else it is as the first one. -/
structure Machine.ReadsOn (m : Machine) (more : List Char) (m' : Machine) : Prop where
  fed : m'.console.source.fed = more
  reader : m'.console.source.reader = m.console.source.reader
  transcript : m'.console.transcript = m.console.transcript
  data : m'.data = m.data
  returns : m'.returns = m.returns
  memory : m'.memory = m.memory
  mode : m'.mode = m.mode
  ip : m'.ip = m.ip
  tracing : m'.tracing = m.tracing
  remarks : m'.remarks = m.remarks

/-- An action stops at the end of the input, with this data stack. It has read and noted what it
did, and else it has left the machine as it was. -/
def Halts {α : Type} (act : Action α) (m : Machine) (data : List Cell) : Prop :=
  ∃ m' console, act m = .error .endOfInput m' ∧ m.Follows data console m'

variable {α β : Type} {act : Action α} {m m₁ m' : Machine} {x : α} {data data' : List Cell}
  {console : Console} {more : List Char} {w : TextWord} {text token : String} {header : Int}

namespace Machine.ReadsOn

theorem trans {between : List Char} (h : m.ReadsOn between m₁) (h' : m₁.ReadsOn more m') :
    m.ReadsOn more m' :=
  ⟨h'.fed, h'.reader.trans h.reader, h'.transcript.trans h.transcript, h'.data.trans h.data,
    h'.returns.trans h.returns, h'.memory.trans h.memory, h'.mode.trans h.mode,
    h'.ip.trans h.ip, h'.tracing.trans h.tracing, h'.remarks.trans h.remarks⟩

/-- What a machine is given makes the same of it before and after it has read on. -/
theorem given (h : m.ReadsOn more m') (w : TextWord) (text : String) :
    (m.given w text).ReadsOn more (m'.given w text) := by
  obtain ⟨hfed, hreader, htranscript, hdata, hreturns, hmemory, hmode, hip, htracing, hremarks⟩ := h
  unfold Machine.given
  rw [hmode]
  cases w <;> cases m.mode <;> constructor <;> simp_all

end Machine.ReadsOn

theorem Machine.Follows.readsOn {source : Source}
    (h : m.Follows m.data { m.console with source := source } m') (hfed : source.fed = more)
    (hreader : source.reader = m.console.source.reader) : m.ReadsOn more m' where
  fed := by rw [h.console, hfed]
  reader := by rw [h.console, hreader]
  transcript := by rw [h.console]
  data := h.data
  returns := h.returns
  memory := h.memory
  mode := h.mode
  ip := h.ip
  tracing := h.tracing
  remarks := h.remarks

/-! ## Where no quote comes -/

theorem Attains.bind_halts {f : α → Action β} (ha : Attains act m x data console)
    (hf : ∀ m₁, m.Follows data console m₁ → Halts (f x) m₁ data') :
    Halts (act >>= f) m data' := by
  obtain ⟨m₁, hact, hm₁⟩ := ha
  obtain ⟨m', console', hrest, hm'⟩ := hf m₁ hm₁
  exact ⟨m', console', (bind_of_ok hact).trans hrest, hm₁.trans hm'⟩

theorem Halts.bind {f : α → Action β} (h : Halts act m data) : Halts (act >>= f) m data := by
  obtain ⟨m', console', hact, hm'⟩ := h
  exact ⟨m', console', bind_of_error hact, hm'⟩

theorem halts_nextChar
    (hend : Reading.nextChar m.attendant m.console = .error .endOfInput console) :
    Halts nextChar m m.data := by
  refine ⟨{ m with console := console }, console, ?_, ⟨rfl, rfl, rfl, rfl, rfl, rfl, rfl, rfl⟩⟩
  simp only [nextChar, bind_apply, get_apply, onConsole, hend]

theorem halts_execute {p : Primitive} {code : Int} {b : Nat} (ht : Traceable m)
    (hcode : m.memory.get (.int code) = .ok (.native (.primitive p)))
    (hp : ∀ m₁, m.Follows m.data m.console m₁ →
      Halts (p.perform (invoke b) (execute b) b) m₁ data) :
    Halts (execute (b + 1) (.token code)) m data := by
  obtain ⟨log, -, hexecute⟩ := execute_of_perform b ht hcode
  have hnoted := Machine.Follows.noted m (some code) log
  obtain ⟨m', console, hrun, hm'⟩ := hp _ hnoted
  exact ⟨m', console, hexecute _ m' hrun, hnoted.trans hm'⟩

section Reading

variable {xs before : List Char} {quote : Char} {b bound : Nat}

/-- `KEY` stops where no character comes. -/
theorem halts_key (ht : Traceable m) (hkey : m.memory.Intact (.input .key))
    (hend : Reading.nextChar m.attendant m.console = .error .endOfInput console) :
    Halts (execute (b + 1) Kernel.keyToken) m m.data := by
  refine halts_execute ht hkey fun m₁ hm₁ => ?_
  rw [← hm₁.attendant, ← hm₁.console] at hend
  exact hm₁.data ▸ (halts_nextChar hend).bind

/-- A text is not read where its quote does not come. -/
theorem halts_readUntil (ht : Traceable m) (hkey : m.memory.Intact (.input .key))
    (hdelivers : Reading.Delivers (Reading.nextChar m.attendant) m.console xs) (hquote : quote ∉ xs)
    (hbound : xs.length < bound) :
    Halts (readUntil (execute (b + 1)) quote bound before) m m.data := by
  induction xs generalizing m before bound with
  | nil =>
    obtain ⟨n, rfl⟩ : ∃ n, bound = n + 1 := ⟨bound - 1, by omega⟩
    obtain ⟨hend⟩ := hdelivers
    exact ((halts_key ht hkey hend).bind).bind
  | cons c xs ih =>
    obtain ⟨n, rfl⟩ : ∃ n, bound = n + 1 := ⟨bound - 1, by omega⟩
    obtain _ | ⟨hnext, hdelivers⟩ := hdelivers
    have hc : c ≠ quote := fun h => hquote (h ▸ List.mem_cons_self ..)
    refine (attains_readKey ht hkey hnext b).bind_halts fun m₁ hm₁ => ?_
    rw [if_neg hc, ← hm₁.data]
    rw [← hm₁.attendant, ← hm₁.console] at hdelivers
    exact ih (hm₁.traceable ht) (hm₁.memory ▸ hkey) hdelivers
      (fun h => hquote (List.mem_cons_of_mem _ h)) (Nat.lt_of_succ_lt_succ hbound)

theorem halts_readText (ht : Traceable m) (hkey : m.memory.Intact (.input .key))
    (hdelivers : Reading.Delivers (Reading.nextChar m.attendant) m.console xs) (hquote : '"' ∉ xs)
    (hbound : xs.length < bound) : Halts (readText (execute (b + 1)) bound) m m.data := by
  cases hdelivers with
  | done hend => exact (halts_key ht hkey hend).bind
  | @more _ _ c xs hnext hdelivers =>
    refine (attains_key ht hkey hnext b).bind_halts fun m₁ hm₁ => ?_
    have hpop : DataAction.pop m₁.data = .ok (.int c.toNat) m.data := by
      rw [hm₁.data]
      rfl
    refine (attains_onData hpop).bind_halts fun m₂ hm₂ => ?_
    have hm := hm₁.trans hm₂
    rw [← hm.attendant, ← hm₁.console, ← hm₂.console] at hdelivers
    rw [← hm₂.data]
    exact (halts_readUntil (hm.traceable ht) (hm.memory ▸ hkey) hdelivers
      (fun h => hquote (List.mem_cons_of_mem _ h)) (Nat.lt_of_succ_lt hbound)).bind

end Reading

/-! ## The words -/

/-- What a word does with the text that it has read. -/
theorem perform_of_readText {e : Cell → Action Unit} {bound : Nat} (hw : w = .text ∨ w = .print)
    (hread : readText e bound m = .ok text m₁) :
    w.perform e bound m = .ok () (m₁.given w text) := by
  rcases hw with rfl | rfl
  · rw [TextWord.perform, bind_of_ok hread]
    cases hmode : m₁.mode with
    | immediate => simp [literal, bind_apply, hmode, push, Machine.given]
    | compile =>
      simp [literal, bind_apply, hmode, compileLiteral, append, modifyMemory, Machine.given,
        Memory.append_eq_appendAll, Memory.appendAll_appendAll]
  · rw [TextWord.perform, bind_of_ok hread]
    cases hmode : m₁.mode with
    | immediate => simp [bind_apply, hmode, emit, write, Machine.given]
    | compile =>
      simp [bind_apply, hmode, compileLiteral, append, modifyMemory, Machine.given,
        Memory.append_eq_appendAll, Memory.appendAll_appendAll]

/-- A word whose text does not come to its quote stops with the input. -/
theorem halts_perform {e : Cell → Action Unit} {bound : Nat} (hw : w = .text ∨ w = .print)
    (hread : Halts (readText e bound) m data) : Halts (w.perform e bound) m data := by
  rcases hw with rfl | rfl
  · exact hread.bind
  · exact hread.bind

/-- A token that finds an immediate word runs it, whatever the mode is. -/
theorem interpretToken_of_immediate {e : Cell → Action Unit}
    (hfind : m.memory.find token = .ok (some (.int header)))
    (himm : m.memory.isImmediate (.int header) = .ok true) :
    interpretToken e token m = e (.token (header + headerSize)) m := by
  have hplus : (Cell.int header).plus headerSize = .ok (header + headerSize) := rfl
  cases hmode : m.mode <;>
    simp [interpretToken, bind_apply, ask_apply, hfind, hplus, hmode, himm]

/-- What the word does that is given a text leaves the thread where it was. -/
theorem Machine.given_returns (m : Machine) (w : TextWord) (text : String) :
    (m.given w text).returns = m.returns ∧ (m.given w text).ip = m.ip := by
  unfold Machine.given
  cases w <;> cases m.mode <;> exact ⟨rfl, rfl⟩

section Interpreting

variable {gap : List Char} {d : Char} {rest : List Char}

/-- The next token of the fed lines is taken. -/
theorem nextToken_readsOn (hended : m.console.source.LineEnded)
    (hfed : m.console.source.fed = gap ++ (token.toList ++ d :: rest))
    (hgap : ∀ c ∈ gap, Source.isDelimiter c = true) (htoken : Source.IsToken token.toList)
    (hd : Source.isDelimiter d = true) :
    ∃ m₁, nextToken m = .ok token m₁ ∧ m.ReadsOn (d :: rest) m₁ := by
  obtain ⟨source, hnext, hrest, hreader⟩ :=
    Reading.nextToken_of_fed hended hfed hgap htoken hd
  refine ⟨{ m with console := { m.console with source := source } }, ?_,
    Machine.Follows.readsOn ⟨rfl, rfl, rfl, rfl, rfl, rfl, rfl, rfl⟩ hrest hreader⟩
  simp only [nextToken, bind_apply, get_apply, onConsole, hnext, String.ofList_toList]

/-- The token of an immediate word is read, and the word is run. -/
theorem interpret_of_fed (hended : m.console.source.LineEnded)
    (hfed : m.console.source.fed = gap ++ (token.toList ++ d :: rest))
    (hgap : ∀ c ∈ gap, Source.isDelimiter c = true) (htoken : Source.IsToken token.toList)
    (hd : Source.isDelimiter d = true) (hfind : m.memory.find token = .ok (some (.int header)))
    (himm : m.memory.isImmediate (.int header) = .ok true) :
    ∃ m₁, m.ReadsOn (d :: rest) m₁ ∧
      ∀ e, InputWord.interpret.perform e m = e (.token (header + headerSize)) m₁ := by
  obtain ⟨m₁, htake, hread⟩ := nextToken_readsOn hended hfed hgap htoken hd
  refine ⟨m₁, hread, fun e => ?_⟩
  rw [InputWord.perform, bind_of_ok htake]
  rw [← hread.memory] at hfind himm
  exact interpretToken_of_immediate hfind himm

end Interpreting

section Words

variable {code : Int} {rest : List Char}

/-- A word that is run reads the text in front of it. -/
theorem execute_reads {d : Char} (ht : Traceable m) (hkey : m.memory.Intact (.input .key))
    (hw : w = .text ∨ w = .print)
    (hcode : m.memory.get (.int code) = .ok (.native (.primitive (.text w))))
    (hquote : '"' ∉ text.toList)
    (hfed : m.console.source.fed = d :: (text.toList ++ '"' :: more)) {b : Nat}
    (hb : text.toList.length < b + 1) :
    ∃ m', execute (b + 2) (.token code) m = .ok () m' ∧ (m.given w text).ReadsOn more m' := by
  obtain ⟨log, hexecute, -⟩ := execute_of_perform (b + 1) ht hcode
  have hnoted := Machine.Follows.noted m (some code) log
  have hfed : m.console.source.fed = (d :: (text.toList ++ ['"'])) ++ more := by simp [hfed]
  obtain ⟨source, hpass, hmore, hreader⟩ := Reading.passes_of_fed hfed
  obtain ⟨m₁, hread, hm₁⟩ := attains_readText (hnoted.traceable ht) hkey hquote (hpass _) b hb
  rw [String.ofList_toList] at hread
  have hreads : m.ReadsOn more m₁ := (hnoted.trans hm₁).readsOn hmore hreader
  have hgiven := hreads.given w text
  obtain ⟨hreturns, -⟩ := m₁.given_returns w text
  refine ⟨_, hexecute _ (perform_of_readText hw hread) (hreturns.trans hreads.returns), ?_⟩
  exact { hgiven with ip := (m.given_returns w text).2.symm }

/-- Without a quote, the word stops with the input. -/
theorem execute_halts (ht : Traceable m) (hkey : m.memory.Intact (.input .key))
    (hw : w = .text ∨ w = .print)
    (hcode : m.memory.get (.int code) = .ok (.native (.primitive (.text w))))
    (hlacks : m.console.source.Lacks m.attendant '"') :
    ∃ k, ∀ b ≥ k, Halts (execute b (.token code)) m m.data := by
  obtain ⟨xs, hdelivers, hquote⟩ := Reading.delivers_of_lacks (by decide) hlacks
  refine ⟨xs.length + 2, fun b hb => ?_⟩
  obtain ⟨b, rfl⟩ : ∃ n, b = n + 2 := ⟨b - 2, by omega⟩
  refine halts_execute ht hcode fun m₁ hm₁ => ?_
  rw [← hm₁.attendant, ← hm₁.console] at hdelivers
  have hread := halts_readText (b := b) (hm₁.traceable ht) (hm₁.memory ▸ hkey) hdelivers hquote
    (show xs.length < b + 1 by omega)
  exact hm₁.data ▸ halts_perform hw hread

end Words

/-- **Words that read a text** read exactly the characters between the delimiter behind their token
and the next quote: the input stands at such a token, behind delimiters, and then the text is given
to the machine, and what comes behind the quote comes next. If no quote comes before the input ends,
not even from a reader, then the word stops with the input. -/
theorem Session.text_words_read {hs : List Header} {gap : List Char} {d : Char}
    (hw : m.memory.WellFormed hs) (hkey : m.memory.Intact (.input .key))
    (hword : w = .text ∨ w = .print)
    (hintact : m.memory.NamesImmediate w.name [.native (.primitive (.text w))])
    (htoken : Source.IsToken token.toList) (hname : Text.upper token = Text.upper w.name)
    (hended : m.console.source.LineEnded)
    (hgap : ∀ c ∈ gap, Source.isDelimiter c = true) (hd : Source.isDelimiter d = true) :
    (∀ text more, '"' ∉ text.toList →
      m.console.source.fed = gap ++ (token.toList ++ d :: (text.toList ++ '"' :: more)) →
      ∃ k, ∀ b ≥ k, ∃ m', InputWord.interpret.perform (execute b) m = .ok () m' ∧
        (m.given w text).ReadsOn more m') ∧
    (∀ rest, '"' ∉ rest → m.console.source.fed = gap ++ (token.toList ++ d :: rest) →
      (∀ r, m.console.source.reader = some r →
        Reader.Lacks r.attended m.attendant '"' r.entries) →
      ∃ k, ∀ b ≥ k, ∃ m', InputWord.interpret.perform (execute b) m = .error .endOfInput m' ∧
        m'.data = m.data ∧ m'.memory = m.memory) := by
  obtain ⟨header, ⟨hfind, hcode, -⟩, himm⟩ := hintact
  have hfound : m.memory.find token = .ok (some (.int header)) := by
    rw [Memory.find_eq, hname, ← Memory.find_eq, hfind]
  have ht {more : List Char} {m₁ : Machine} (h : m.ReadsOn more m₁) : Traceable m₁ := fun _ =>
    h.memory ▸ hw.label_eq_ok
  constructor
  · intro text more hquote hfed
    obtain ⟨m₁, hm₁, hrun⟩ := interpret_of_fed hended hfed hgap htoken hd hfound himm
    rw [← hm₁.memory] at hkey hcode
    refine ⟨text.toList.length + 2, fun b hb => ?_⟩
    obtain ⟨b, rfl⟩ : ∃ n, b = n + 2 := ⟨b - 2, by omega⟩
    obtain ⟨m', hexecute, hm'⟩ := execute_reads (ht hm₁) hkey hword hcode hquote hm₁.fed
      (show text.toList.length < b + 1 by omega)
    exact ⟨m', (hrun _).trans hexecute, (hm₁.given w text).trans hm'⟩
  · intro rest hquote hfed hreader
    obtain ⟨m₁, hm₁, hrun⟩ := interpret_of_fed hended hfed hgap htoken hd hfound himm
    have hattendant : m₁.attendant = m.attendant :=
      Machine.attendant_congr hm₁.data hm₁.returns hm₁.memory hm₁.mode hm₁.remarks
    have hlacks : m₁.console.source.Lacks m₁.attendant '"' := by
      refine ⟨?_, ?_⟩
      · rw [hm₁.fed, List.mem_cons, not_or]
        refine ⟨?_, hquote⟩
        rintro rfl
        exact absurd hd (by decide)
      · rw [hm₁.reader, hattendant]
        exact hreader
    rw [← hm₁.memory] at hkey hcode
    obtain ⟨k, hhalts⟩ := execute_halts (ht hm₁) hkey hword hcode hlacks
    refine ⟨k, fun b hb => ?_⟩
    obtain ⟨m', console, hexecute, hm'⟩ := hhalts b hb
    exact ⟨m', (hrun _).trans hexecute, hm'.data.trans hm₁.data, hm'.memory.trans hm₁.memory⟩

section Booted

open Kernel

/-- A booted machine to which these lines are fed. -/
def fedMachine (mode : Mode) (lines : List String) : Machine :=
  { bootedMachine with mode := mode, console := { source := { pending := lines } } }

-- the memory is read cell by cell
set_option maxRecDepth 10000 in
/-- A text of two lines is compiled, and a text without an end is not pushed. -/
theorem Session.text_words_read_lines :
    bootedMemory.WellFormed bootedHeaders ∧ bootedMemory.Intact (.input .key) ∧
      (∃ k, ∀ b ≥ k, ∃ m', InputWord.interpret.perform (execute b)
          (fedMachine .compile ["", " .\"\ttwo (", "lines\" DUP"]) = .ok () m' ∧
        m'.memory = bootedMemory.appendAll [litToken, .text "two (\nlines", tellToken] ∧
        m'.console.source.fed = " DUP\n".toList) ∧
      ∃ k, ∀ b ≥ k, ∃ m', InputWord.interpret.perform (execute b)
          (fedMachine .immediate ["s\"", "no end"]) = .error .endOfInput m' ∧
        m'.data = [.int 5] ∧ m'.memory = bootedMemory := by
  have hkey : bootedMemory.Intact (.input .key) := by decide
  have hprint : bootedMemory.NamesImmediate ".\"" [.native (.primitive (.text .print))] :=
    ⟨header (.text .print), ⟨(booted_wellFormed.find_eq _).trans rfl, by decide⟩, rfl⟩
  have htoken : Source.IsToken ".\"".toList ∧ Source.IsToken "s\"".toList := by decide
  have hgap : ∀ c ∈ ['\n', ' '], Source.isDelimiter c = true :=
    List.forall_mem_cons.mpr ⟨by decide, List.forall_mem_singleton.mpr (by decide)⟩
  obtain ⟨hcompiles, -⟩ := Session.text_words_read
    (m := fedMachine .compile ["", " .\"\ttwo (", "lines\" DUP"]) (d := '\t')
    booted_wellFormed hkey (.inr rfl) hprint htoken.1 rfl nofun hgap (by decide)
  obtain ⟨-, hends⟩ := Session.text_words_read (m := fedMachine .immediate ["s\"", "no end"])
    (d := '\n') booted_wellFormed hkey (.inl rfl) booted_hasCompiler.text htoken.2 rfl nofun
    (List.forall_mem_nil _) (by decide)
  refine ⟨booted_wellFormed, hkey, ?_, hends "no end\n".toList (by decide) rfl nofun⟩
  obtain ⟨k, hrun⟩ := hcompiles "two (\nlines" " DUP\n".toList (by decide) rfl
  refine ⟨k, fun b hb => ?_⟩
  obtain ⟨m', hrun, hm'⟩ := hrun b hb
  exact ⟨m', hrun, hm'.memory, hm'.fed⟩

end Booted

end ThreadedForth
