import ThreadedForth.Proofs.Machine.Line
import ThreadedForth.Proofs.Memory.Growth

/-!
# Scenes of a compilation

What matters of a machine while it compiles (`Scene`), and what an action makes of it: `Turns` says
that an action ends well, what it gives, and to which scene it leads from any machine that is in
another one. Triples of this kind are put together as actions are (`Turns.bind`). What the compiler
is made of comes last, one triple for each primitive (`Does`).
-/

namespace ThreadedForth

open ThreadedForth.Action

/-- What matters of a machine while it compiles. -/
structure Scene where
  data : List Cell
  memory : Memory
  mode : Mode
  /-- what is left of the line -/
  input : List Char
  /-- the lines that come next -/
  waiting : List String

/-- A machine is in a scene, with its thread at a place. Its memory extends an older one, no reader
is within reach, and nothing has been printed. -/
structure Scene.Holds (s : Scene) (old : Memory) (here : Place) (m : Machine) : Prop where
  data : m.data = s.data
  memory : m.memory = s.memory
  mode : m.mode = s.mode
  input : m.console.source.rest = s.input
  waiting : m.console.source.pending = s.waiting
  alone : m.console.source.reader = none
  quiet : m.console.transcript = {}
  sound : s.memory.Extends old
  ip : m.ip = here.ip
  returns : m.returns = here.returns

/-- From any machine in the first scene an action ends well, with this result, in the second scene,
and the thread stays where it is. -/
def Turns {α : Type} (old : Memory) (act : Action α) (s : Scene) (x : α) (s' : Scene) : Prop :=
  ∀ here m, s.Holds old here m → ∃ m', act m = .ok x m' ∧ s'.Holds old here m'

variable {α β : Type} {old memory : Memory} {s s₁ s' : Scene} {x : α} {y : β} {here : Place}
  {m : Machine}

/-- Every dispatch in a scene can be logged. -/
theorem Scene.Holds.traceable (hm : s.Holds old here m) : Traceable m := by
  intro _
  rw [hm.memory]
  exact hm.sound.labelled

/-- Words on the line at hand change the data stack and the input of a scene. -/
theorem Scene.Holds.later {data : List Cell} {rest : List Char} {m' : Machine}
    (hm : s.Holds old here m) (h : m.Later data rest m') :
    Scene.Holds { s with data := data, input := rest } old here m' where
  data := h.data
  memory := h.memory.trans hm.memory
  mode := h.mode.trans hm.mode
  input := h.rest
  waiting := h.pending.trans hm.waiting
  alone := h.reader.trans hm.alone
  quiet := h.transcript.trans hm.quiet
  sound := hm.sound
  ip := h.ip.trans hm.ip
  returns := h.returns.trans hm.returns

/-! ## Small actions -/

/-- An action that proceeds on the line at hand leaves the data stack of the scene as it is. -/
theorem turns_of_proceeds {act : Action α} {rest : List Char}
    (h : ∀ here m, s.Holds old here m → Proceeds act m x m.data rest) :
    Turns old act s x { s with input := rest } := by
  intro here m hm
  obtain ⟨m', hact, hm'⟩ := h here m hm
  exact ⟨m', hact, { hm.later hm' with data := hm'.data.trans hm.data }⟩

theorem turns_pure (x : α) : Turns old (pure x) s x s := by
  intro here m hm
  exact ⟨m, rfl, hm⟩

/-- Triples in a row. -/
theorem Turns.bind {act : Action α} {f : α → Action β} (ha : Turns old act s x s₁)
    (hf : Turns old (f x) s₁ y s') : Turns old (act >>= f) s y s' := by
  intro here m hm
  obtain ⟨m₁, hact, hm₁⟩ := ha here m hm
  obtain ⟨m', hrest, hm'⟩ := hf here m₁ hm₁
  exact ⟨m', (bind_of_ok hact).trans hrest, hm'⟩

/-- What turns out in a memory that extends an older one does so for the older one. -/
theorem Turns.since {act : Action α} {older : Memory} (h : Turns old act s x s')
    (hs : s.memory.Extends old) (hold : old.Extends older) : Turns older act s x s' := by
  intro here m hm
  obtain ⟨m', hact, hm'⟩ := h here m { hm with sound := hs }
  exact ⟨m', hact, { hm' with sound := hm'.sound.trans hold }⟩

/-- What follows a look at the machine may rely on the scene. -/
theorem turns_get_bind {f : Machine → Action β}
    (hf : ∀ here m, s.Holds old here m → Turns old (f m) s y s') :
    Turns old (get >>= f) s y s' := by
  intro here m hm
  obtain ⟨m', hrest, hm'⟩ := hf here m hm here m hm
  exact ⟨m', (bind_of_ok (get_apply m)).trans hrest, hm'⟩

theorem turns_onData {act : DataAction α} {data : List Cell} (h : act s.data = .ok x data) :
    Turns old (onData act) s x { s with data := data } := by
  intro here m hm
  refine ⟨{ m with data := data }, ?_, { hm with data := rfl }⟩
  rw [onData, hm.data, h]

section Operands

variable {z : Cell} {n : Int} {text : String} {data : List Cell}

theorem turns_pop (hs : s.data = z :: data) : Turns old pop s z { s with data := data } := by
  refine turns_onData ?_
  rw [hs]
  rfl

theorem turns_popInt (op : String) (hs : s.data = .int n :: data) :
    Turns old (popInt op) s n { s with data := data } := by
  refine turns_onData ?_
  rw [hs]
  rfl

theorem turns_popIntCell (op : String) (hs : s.data = .int n :: data) :
    Turns old (popIntCell op) s (.int n) { s with data := data } := by
  refine turns_onData ?_
  rw [hs]
  rfl

theorem turns_popText (op : String) (hs : s.data = .text text :: data) :
    Turns old (popText op) s text { s with data := data } := by
  refine turns_onData ?_
  rw [hs]
  rfl

end Operands

theorem turns_push (z : Cell) : Turns old (push z) s () { s with data := z :: s.data } := by
  intro here m hm
  refine ⟨{ m with data := z :: m.data }, rfl, { hm with data := ?_ }⟩
  rw [hm.data]

theorem turns_ask {f : Memory → Except Stop α} (h : f s.memory = .ok x) :
    Turns old (ask f) s x s := by
  intro here m hm
  refine ⟨m, ?_, hm⟩
  rw [ask_apply, hm.memory, h]

theorem turns_modifyMemory {f : Memory → Memory} (h : f s.memory = memory)
    (hsound : memory.Extends old) :
    Turns old (modifyMemory f) s () { s with memory := memory } := by
  intro here m hm
  refine ⟨{ m with memory := memory }, ?_, { hm with memory := rfl, sound := hsound }⟩
  rw [modifyMemory, modify_apply, hm.memory, h]

theorem turns_append {z : Cell} (h : s.memory.append z = memory) (hsound : memory.Extends old) :
    Turns old (append z) s () { s with memory := memory } :=
  turns_modifyMemory h hsound

theorem turns_mode (mode : Mode) :
    Turns old (modify fun m => { m with mode := mode }) s () { s with mode := mode } := by
  intro here m hm
  exact ⟨{ m with mode := mode }, rfl, { hm with mode := rfl }⟩

/-! ## Reading -/

section Reading

open Source

variable {rest : List Char} {token line : String} {lines : List String}

/-- A token is taken from the line, after delimiters. -/
theorem turns_nextToken_gap {gap : List Char} (htoken : IsToken token.toList)
    (hgap : ∀ c ∈ gap, isDelimiter c = true) (hrest : Delimited rest)
    (hs : s.input = gap ++ (token.toList ++ rest)) :
    Turns old nextToken s token { s with input := rest } := by
  refine turns_of_proceeds fun here m hm => ?_
  have htake := proceeds_nextToken htoken hgap hrest (hm.input.trans hs)
  rwa [String.ofList_toList] at htake

/-- A token is taken from the line, after a space. -/
theorem turns_nextToken (htoken : IsToken token.toList) (hrest : Delimited rest)
    (hs : s.input = ' ' :: (token.toList ++ rest)) :
    Turns old nextToken s token { s with input := rest } :=
  turns_nextToken_gap htoken (List.forall_mem_singleton.mpr rfl) hrest hs

/-- The first token of the line that waits is taken. -/
theorem turns_nextToken_waiting (htoken : IsToken token.toList) (hrest : Delimited rest)
    (hs : s.input = []) (hwait : s.waiting = line :: lines)
    (hline : line.toList ++ ['\n'] = token.toList ++ rest) :
    Turns old nextToken s token { s with input := rest, waiting := lines } := by
  intro here m hm
  have hempty : ∀ c ∈ m.console.source.rest, isDelimiter c = true := by
    rw [hm.input, hs]
    simp
  have hgap : ∀ c ∈ ([] : List Char), isDelimiter c = true := by simp
  obtain ⟨source, hread, hinput, hwaiting, halone⟩ :=
    nextToken_of_pending hempty (hm.waiting.trans hwait) hline hgap htoken hrest
  rw [String.ofList_toList] at hread
  exact ⟨_, hread, { hm with
    input := hinput, waiting := hwaiting, alone := halone.trans hm.alone }⟩

end Reading

/-! ## Primitives -/

/-- A primitive takes one scene to another, whatever the words do that it may run. -/
def Does (old : Memory) (p : Primitive) (s s' : Scene) : Prop :=
  ∀ i e bound, Turns old (p.perform i e bound) s () s'

section Primitives

variable {z : Cell} {data data' : List Cell}

/-- A calculation that prints nothing. -/
theorem does_calculation {c : Calculation} (h : c.run s.data = .ok "" data) :
    Does old (.calculation c) s { s with data := data } := by
  intro i e bound
  exact (turns_onData h).bind (turns_pure ())

theorem does_comma (hs : s.data = z :: data) (h : s.memory.append z = memory)
    (hsound : memory.Extends old) :
    Does old (.memory .comma) s { s with data := data, memory := memory } := by
  intro i e bound
  exact (turns_pop hs).bind (turns_append h hsound)

theorem does_store {addr : Int} {i : Nat} (hs : s.data = .int addr :: z :: data)
    (hi : s.memory.index (.int addr) = .ok i) (h : s.memory.write i z = memory)
    (hsound : memory.Extends old) :
    Does old (.memory .store) s { s with data := data, memory := memory } := by
  intro _ _ _
  -- the address is looked at before the cell is put there
  have hask : (liftM (s.memory.index (.int addr)) : Except Stop Nat) = .ok i := by rw [hi]; rfl
  exact (turns_popIntCell _ hs).bind ((turns_pop rfl).bind
    ((turns_ask hask).bind (turns_modifyMemory h hsound)))

theorem does_here : Does old (.memory .here) s { s with data := .int s.memory.here :: s.data } := by
  intro i e bound
  refine turns_get_bind fun here m hm => ?_
  rw [hm.memory]
  exact turns_push _

theorem does_latest {n : Int} (h : s.memory.latest = some n) :
    Does old (.memory .latest) s { s with data := .int n :: s.data } := by
  intro i e bound
  refine turns_get_bind fun here m hm => ?_
  rw [hm.memory, h]
  exact turns_push _

theorem does_create {name : String} (hs : s.data = .text name :: data)
    (hsound : (s.memory.allocateHeader name 0).Extends old) :
    Does old (.compiler .create) s
      { s with data := data, memory := s.memory.allocateHeader name 0 } := by
  intro i e bound
  exact (turns_popText _ hs).bind (turns_modifyMemory rfl hsound)

theorem does_compileEnter (h : s.memory.append (.native .enter) = memory)
    (hsound : memory.Extends old) :
    Does old (.compiler .compileEnter) s { s with memory := memory } := by
  intro i e bound
  exact turns_append h hsound

/-- The words that change the flags of a header. -/
theorem turns_changeFlags {op : String} {header : Int} {f : Nat → Nat}
    (hs : s.data = .int header :: data)
    (h : s.memory.changeFlags (.int header) f = .ok memory) (hsound : memory.Extends old) :
    Turns old (do
      let header ← popIntCell op
      changeMemory fun memory => memory.changeFlags header f) s ()
      { s with data := data, memory := memory } := by
  exact (turns_popIntCell _ hs).bind ((turns_ask h).bind (turns_modifyMemory rfl hsound))

theorem does_toCode {header : Int} (hs : s.data = .int header :: data) :
    Does old (.compiler .toCode) s { s with data := .token (header + headerSize) :: data } := by
  intro i e bound
  exact (turns_popInt _ hs).bind (turns_push _)

theorem does_whenCompiling (hs : s.mode = .compile) :
    Does old (.compiler .whenCompiling) s s := by
  intro i e bound
  refine turns_get_bind fun here m hm => ?_
  rw [if_neg (by simp [hm.mode, hs])]
  exact turns_pure ()

theorem does_word {name : String} (h : Turns old nextToken s name s') :
    Does old (.input .word) s { s' with data := .text name :: s'.data } := by
  intro i e bound
  exact h.bind (turns_push _)

end Primitives

end ThreadedForth
