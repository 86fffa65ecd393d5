import ThreadedForth.Machine.Behaviour
import ThreadedForth.Proofs.Host.Answer
import ThreadedForth.Proofs.Machine.Run
import ThreadedForth.Proofs.Memory.Code
import ThreadedForth.Proofs.Reading

/-!
# Words that take from the input

Many words take something from the input, work on the data stack and change nothing else. Among them
are the words that read a text up to its quote, which go by way of `KEY`: they get the characters
that the console gives one after the other, and leave the console as it is then
(`attains_readText`). Nothing is asked of the memory here but that the code fields are whole which
are entered, and that these dispatches can be logged.

What such a word takes stands on the current line, most of the time. Then it does not matter but for
the rest of this line what becomes of the console (`Proceeds`, `proceeds_readText`).
-/

namespace ThreadedForth

open ThreadedForth.Action

/-- The second machine has this data stack and this console, and has noted what it did. Else it is
as the first one. -/
structure Machine.Follows (m : Machine) (data : List Cell) (console : Console) (m' : Machine) :
    Prop where
  data : m'.data = data
  console : m'.console = console
  returns : m'.returns = m.returns
  memory : m'.memory = m.memory
  mode : m'.mode = m.mode
  ip : m'.ip = m.ip
  tracing : m'.tracing = m.tracing
  remarks : m'.remarks = m.remarks

/-- An action ends well, with this result, this data stack and this console. -/
def Attains {α : Type} (act : Action α) (m : Machine) (x : α) (data : List Cell)
    (console : Console) : Prop :=
  ∃ m', act m = .ok x m' ∧ m.Follows data console m'

/-- The second machine has this data stack and this rest of the line, and has noted what it did.
Else it is as the first one. -/
structure Machine.Later (m : Machine) (data : List Cell) (rest : List Char) (m' : Machine) :
    Prop where
  data : m'.data = data
  rest : m'.console.source.rest = rest
  returns : m'.returns = m.returns
  memory : m'.memory = m.memory
  mode : m'.mode = m.mode
  ip : m'.ip = m.ip
  tracing : m'.tracing = m.tracing
  remarks : m'.remarks = m.remarks
  pending : m'.console.source.pending = m.console.source.pending
  lineCount : m'.console.source.lineCount = m.console.source.lineCount
  reader : m'.console.source.reader = m.console.source.reader
  transcript : m'.console.transcript = m.console.transcript

/-- An action ends well, with this result, this data stack and this rest of the line. -/
def Proceeds {α : Type} (act : Action α) (m : Machine) (x : α) (data : List Cell)
    (rest : List Char) : Prop :=
  ∃ m', act m = .ok x m' ∧ m.Later data rest m'

variable {α β : Type} {act : Action α} {m m₁ m' : Machine} {x : α} {y : β}
  {data data' : List Cell} {console console' : Console} {rest rest' : List Char} {code : Int}
  {p : Primitive} {b : Nat}

namespace Machine.Follows

theorem trans (h : m.Follows data console m₁) (h' : m₁.Follows data' console' m') :
    m.Follows data' console' m' :=
  ⟨h'.data, h'.console, h'.returns.trans h.returns, h'.memory.trans h.memory,
    h'.mode.trans h.mode, h'.ip.trans h.ip, h'.tracing.trans h.tracing,
    h'.remarks.trans h.remarks⟩

theorem noted (m : Machine) (current : Option Int) (log : List LogRecord) :
    m.Follows m.data m.console { m with current := current, log := log } :=
  ⟨rfl, rfl, rfl, rfl, rfl, rfl, rfl, rfl⟩

theorem traceable (h : m.Follows data console m') (ht : Traceable m) : Traceable m' := by
  intro htracing
  rw [h.memory]
  exact ht (h.tracing ▸ htracing)

/-- A host that attends to the reader does the same as long as the data stack is the same. -/
theorem attendant (h : m.Follows m.data console m') : m'.attendant = m.attendant :=
  attendant_congr h.data h.returns h.memory h.mode h.remarks

end Machine.Follows

namespace Machine.Later

theorem trans (h : m.Later data rest m₁) (h' : m₁.Later data' rest' m') :
    m.Later data' rest' m' :=
  ⟨h'.data, h'.rest, h'.returns.trans h.returns, h'.memory.trans h.memory, h'.mode.trans h.mode,
    h'.ip.trans h.ip, h'.tracing.trans h.tracing, h'.remarks.trans h.remarks,
    h'.pending.trans h.pending, h'.lineCount.trans h.lineCount, h'.reader.trans h.reader,
    h'.transcript.trans h.transcript⟩

theorem noted (m : Machine) (current : Option Int) (log : List LogRecord) :
    m.Later m.data m.console.source.rest { m with current := current, log := log } :=
  ⟨rfl, rfl, rfl, rfl, rfl, rfl, rfl, rfl, rfl, rfl, rfl, rfl⟩

theorem traceable (h : m.Later data rest m') (ht : Traceable m) : Traceable m' := by
  intro htracing
  rw [h.memory]
  exact ht (h.tracing ▸ htracing)

end Machine.Later

/-! ## Small actions -/

theorem attains_pure (x : α) : Attains (pure x) m x m.data m.console :=
  ⟨m, rfl, .noted m m.current m.log⟩

theorem Attains.bind {f : α → Action β} (ha : Attains act m x data console)
    (hf : ∀ m₁, m.Follows data console m₁ → Attains (f x) m₁ y data' console') :
    Attains (act >>= f) m y data' console' := by
  obtain ⟨m₁, hact, hm₁⟩ := ha
  obtain ⟨m', hrest, hm'⟩ := hf m₁ hm₁
  exact ⟨m', (bind_of_ok hact).trans hrest, hm₁.trans hm'⟩

theorem attains_onData {act : DataAction α} (h : act m.data = .ok x data) :
    Attains (onData act) m x data m.console := by
  refine ⟨{ m with data := data }, ?_, ⟨rfl, rfl, rfl, rfl, rfl, rfl, rfl, rfl⟩⟩
  rw [onData, h]

theorem attains_push (z : Cell) : Attains (push z) m () (z :: m.data) m.console :=
  ⟨{ m with data := z :: m.data }, rfl, ⟨rfl, rfl, rfl, rfl, rfl, rfl, rfl, rfl⟩⟩

theorem attains_nextChar {c : Char}
    (hnext : Reading.nextChar m.attendant m.console = .ok c console) :
    Attains nextChar m c m.data console := by
  refine ⟨{ m with console := console }, ?_, ⟨rfl, rfl, rfl, rfl, rfl, rfl, rfl, rfl⟩⟩
  simp only [nextChar, bind_apply, get_apply, onConsole, hnext]

theorem Proceeds.bind {f : α → Action β} (ha : Proceeds act m x data rest)
    (hf : ∀ m₁, m.Later data rest m₁ → Proceeds (f x) m₁ y data' rest') :
    Proceeds (act >>= f) m y data' rest' := by
  obtain ⟨m₁, hact, hm₁⟩ := ha
  obtain ⟨m', hrest, hm'⟩ := hf m₁ hm₁
  exact ⟨m', (bind_of_ok hact).trans hrest, hm₁.trans hm'⟩

theorem proceeds_onData {act : DataAction α} (h : act m.data = .ok x data) :
    Proceeds (onData act) m x data m.console.source.rest := by
  refine ⟨{ m with data := data }, ?_, ⟨rfl, rfl, rfl, rfl, rfl, rfl, rfl, rfl, rfl, rfl, rfl, rfl⟩⟩
  rw [onData, h]

theorem proceeds_push (z : Cell) : Proceeds (push z) m () (z :: m.data) m.console.source.rest :=
  ⟨{ m with data := z :: m.data }, rfl,
    ⟨rfl, rfl, rfl, rfl, rfl, rfl, rfl, rfl, rfl, rfl, rfl, rfl⟩⟩

theorem proceeds_ask {f : Memory → Except Stop α} (h : f m.memory = .ok x) :
    Proceeds (ask f) m x m.data m.console.source.rest :=
  ⟨m, by rw [ask_apply, h], .noted m m.current m.log⟩

/-- The token behind delimiters is taken. -/
theorem proceeds_nextToken {gap token : List Char} (htoken : Source.IsToken token)
    (hgap : ∀ c ∈ gap, Source.isDelimiter c = true) (hrest : Source.Delimited rest)
    (hs : m.console.source.rest = gap ++ (token ++ rest)) :
    Proceeds nextToken m (String.ofList token) m.data rest :=
  ⟨_, nextToken_of_rest hs hgap htoken hrest,
    ⟨rfl, rfl, rfl, rfl, rfl, rfl, rfl, rfl, rfl, rfl, rfl, rfl⟩⟩

/-! ## Whole words -/

/-- A primitive that is run to its end does what its behaviour does, and the thread goes on where it
was. If the behaviour stops, so does the run. -/
theorem execute_of_perform (b : Nat) (ht : Traceable m)
    (hcode : m.memory.get (.int code) = .ok (.native (.primitive p))) :
    ∃ log, let noted := { m with current := some code, log := log }
      (∀ m', p.perform (invoke b) (execute b) b noted = .ok () m' → m'.returns = m.returns →
        execute (b + 1) (.token code) m = .ok () { m' with ip := m.ip }) ∧
      ∀ stop m', p.perform (invoke b) (execute b) b noted = .error stop m' →
        execute (b + 1) (.token code) m = .error stop m' := by
  obtain ⟨log, hinvoke⟩ := invoke_of_native b ht hcode
  refine ⟨log, fun m' hperform hreturns => ?_, fun stop m' hperform => ?_⟩
  · exact executeWith_eq_ok.mpr ⟨m', m', hinvoke.trans hperform,
      returnTo_of_not_deeper (by rw [hreturns]), rfl⟩
  · rw [execute, executeWith_apply]
    exact bind_of_error (bind_of_error (hinvoke.trans hperform))

theorem attains_execute (ht : Traceable m)
    (hcode : m.memory.get (.int code) = .ok (.native (.primitive p)))
    (hp : ∀ m₁, m.Follows m.data m.console m₁ →
      Attains (p.perform (invoke b) (execute b) b) m₁ () data console) :
    Attains (execute (b + 1) (.token code)) m () data console := by
  obtain ⟨log, hexecute, -⟩ := execute_of_perform b ht hcode
  obtain ⟨m', hrun, hm'⟩ := hp _ (.noted m (some code) log)
  exact ⟨_, hexecute m' hrun hm'.returns,
    { (Machine.Follows.noted m (some code) log).trans hm' with ip := rfl }⟩

theorem proceeds_execute (ht : Traceable m)
    (hcode : m.memory.get (.int code) = .ok (.native (.primitive p)))
    (hp : ∀ m₁, m.Later m.data m.console.source.rest m₁ →
      Proceeds (p.perform (invoke b) (execute b) b) m₁ () data rest) :
    Proceeds (execute (b + 1) (.token code)) m () data rest := by
  obtain ⟨log, hexecute, -⟩ := execute_of_perform b ht hcode
  obtain ⟨m', hrun, hm'⟩ := hp _ (.noted m (some code) log)
  exact ⟨_, hexecute m' hrun hm'.returns,
    { (Machine.Later.noted m (some code) log).trans hm' with ip := rfl }⟩

/-! ## Reading a text -/

/-- `KEY` gives codes that are characters. -/
theorem characterOf_toNat (c : Char) : characterOf c.toNat = .ok c := by
  have hle : c.toNat ≤ 0x10ffff := by
    rcases c.valid with hlow | ⟨-, hhigh⟩
    · exact Nat.le_of_lt (Nat.lt_trans hlow (by decide))
    · exact Nat.le_of_lt_succ hhigh
  have hin : (0 ≤ (c.toNat : Int) && (c.toNat : Int) ≤ 0x10ffff) = true := by
    simp
    omega
  rw [characterOf, if_pos hin, Int.toNat_natCast, Char.ofNat_toNat]

section Text

variable {c quote : Char} {t before : List Char}

/-- `KEY` takes a character. -/
theorem attains_key (ht : Traceable m) (hkey : m.memory.Intact (.input .key))
    (hnext : Reading.nextChar m.attendant m.console = .ok c console) (b : Nat) :
    Attains (execute (b + 1) Kernel.keyToken) m () (.int c.toNat :: m.data) console := by
  refine attains_execute ht hkey fun m₁ hm₁ => ?_
  rw [← hm₁.attendant, ← hm₁.console] at hnext
  refine (attains_nextChar hnext).bind fun m₂ hm₂ => ?_
  rw [← hm₁.data, ← hm₂.data, ← hm₂.console]
  exact attains_push _

theorem attains_readKey (ht : Traceable m) (hkey : m.memory.Intact (.input .key))
    (hnext : Reading.nextChar m.attendant m.console = .ok c console) (b : Nat) :
    Attains (readKey (execute (b + 1))) m c m.data console := by
  refine (attains_key ht hkey hnext b).bind fun m₁ hm₁ => ?_
  have hpop : DataAction.popInt InputWord.key.name m₁.data = .ok (c.toNat : Int) m.data := by
    rw [hm₁.data]
    rfl
  refine (attains_onData hpop).bind fun m₂ hm₂ => ?_
  rw [characterOf_toNat, ← hm₁.console, ← hm₂.console, ← hm₂.data]
  exact attains_pure c

/-- A text is read up to its quote, character by character. -/
theorem attains_readUntil (ht : Traceable m) (hkey : m.memory.Intact (.input .key))
    (hquote : quote ∉ t)
    (hpass : Reading.Passes (Reading.nextChar m.attendant) m.console (t ++ [quote]) console)
    (b : Nat) {bound : Nat} (hbound : t.length < bound) :
    Attains (readUntil (execute (b + 1)) quote bound before) m (t.reverse ++ before) m.data
      console := by
  -- the characters read so far stand in front, last first
  induction t generalizing m before bound with
  | nil =>
    obtain ⟨n, rfl⟩ : ∃ n, bound = n + 1 := ⟨bound - 1, by omega⟩
    obtain _ | ⟨hnext, ⟨⟩⟩ := hpass
    refine (attains_readKey ht hkey hnext b).bind fun m₁ hm₁ => ?_
    rw [if_pos rfl, ← hm₁.data, ← hm₁.console]
    exact attains_pure before
  | cons c t ih =>
    obtain ⟨n, rfl⟩ : ∃ n, bound = n + 1 := ⟨bound - 1, by omega⟩
    obtain _ | ⟨hnext, hpass⟩ := hpass
    have hc : c ≠ quote := fun h => hquote (h ▸ List.mem_cons_self ..)
    refine (attains_readKey ht hkey hnext b).bind fun m₁ hm₁ => ?_
    rw [if_neg hc, List.reverse_cons, List.append_assoc, ← hm₁.data]
    rw [← hm₁.attendant, ← hm₁.console] at hpass
    exact ih (hm₁.traceable ht) (hm₁.memory ▸ hkey) (fun h => hquote (List.mem_cons_of_mem _ h))
      hpass (Nat.lt_of_succ_lt_succ hbound)

/-- A text is read, past the character in front of it. -/
theorem attains_readText (ht : Traceable m) (hkey : m.memory.Intact (.input .key))
    (hquote : '"' ∉ t)
    (hpass : Reading.Passes (Reading.nextChar m.attendant) m.console (c :: (t ++ ['"'])) console)
    (b : Nat) {bound : Nat} (hbound : t.length < bound) :
    Attains (readText (execute (b + 1)) bound) m (String.ofList t) m.data console := by
  obtain _ | ⟨hnext, hpass⟩ := hpass
  refine (attains_key ht hkey hnext b).bind fun m₁ hm₁ => ?_
  have hpop : DataAction.pop m₁.data = .ok (.int c.toNat) m.data := by
    rw [hm₁.data]
    rfl
  refine (attains_onData hpop).bind fun m₂ hm₂ => ?_
  have hm := hm₁.trans hm₂
  rw [← hm.attendant, ← hm₁.console, ← hm₂.console] at hpass
  rw [← hm₂.data]
  refine (attains_readUntil (hm.traceable ht) (hm.memory ▸ hkey) hquote hpass b hbound).bind
    fun m₃ hm₃ => ?_
  rw [List.append_nil, List.reverse_reverse, ← hm₃.data, ← hm₃.console]
  exact attains_pure _

/-! ### On the line at hand -/

theorem Attains.proceeds {taken : List Char} (h : Attains act m x data
      { m.console with source := { m.console.source with taken := taken, rest := rest } }) :
    Proceeds act m x data rest := by
  obtain ⟨m', hact, hm'⟩ := h
  exact ⟨m', hact, {
    data := hm'.data
    rest := by rw [hm'.console]
    returns := hm'.returns
    memory := hm'.memory
    mode := hm'.mode
    ip := hm'.ip
    tracing := hm'.tracing
    remarks := hm'.remarks
    pending := by rw [hm'.console]
    lineCount := by rw [hm'.console]
    reader := by rw [hm'.console]
    transcript := by rw [hm'.console] }⟩

theorem proceeds_readUntil (ht : Traceable m) (hkey : m.memory.Intact (.input .key))
    (hquote : quote ∉ t) (hs : m.console.source.rest = t ++ quote :: rest) (b : Nat) {bound : Nat}
    (hbound : t.length < bound) :
    Proceeds (readUntil (execute (b + 1)) quote bound before) m (t.reverse ++ before) m.data
      rest := by
  have hs : m.console.source.rest = (t ++ [quote]) ++ rest := by rw [hs]; simp
  exact (attains_readUntil ht hkey hquote (Reading.passes_of_rest _ hs) b hbound).proceeds

theorem proceeds_readText (ht : Traceable m) (hkey : m.memory.Intact (.input .key))
    (hquote : '"' ∉ t) (hs : m.console.source.rest = c :: (t ++ '"' :: rest)) (b : Nat)
    {bound : Nat} (hbound : t.length < bound) :
    Proceeds (readText (execute (b + 1)) bound) m (String.ofList t) m.data rest := by
  have hs : m.console.source.rest = (c :: (t ++ ['"'])) ++ rest := by rw [hs]; simp
  exact (attains_readText ht hkey hquote (Reading.passes_of_rest _ hs) b hbound).proceeds

end Text

end ThreadedForth
