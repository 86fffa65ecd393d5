import ThreadedForth.Proofs.Compiler.Control

/-!
# The interpreter

What the words do that read the input while a definition is being compiled. A token is taken and
interpreted (`Interprets`): a numeral and a word are compiled, an immediate word is run. `QUIT` does
so with one token after the other (`Reads`).
-/

namespace ThreadedForth

open ThreadedForth.Action

variable {old : Memory} {hs : List Header} {s s₁ s' : Scene} {token : String} {draft : Draft}
  {input rest : List Char} {data cells : List Cell} {x : Cell} {header code n : Int} {k : Nat}
  {p : Primitive}

/-! ## Literals -/

/-- What a literal makes of the data stack: outside of a definition it is pushed. -/
def Mode.literalData (x : Cell) (data : List Cell) : Mode → List Cell
  | .immediate => x :: data
  | .compile => data

/-- What a literal makes of memory: inside of a definition it is compiled behind `LIT`. -/
def Mode.literalMemory (x : Cell) (memory : Memory) : Mode → Memory
  | .immediate => memory
  | .compile => memory.appendAll [Kernel.litToken, x]

/-- The machine to which a literal has come. -/
def Machine.withLiteral (m : Machine) (x : Cell) : Machine :=
  { m with data := m.mode.literalData x m.data, memory := m.mode.literalMemory x m.memory }

/-- The scene to which a literal has come. -/
def Scene.withLiteral (s : Scene) (x : Cell) : Scene :=
  { s with data := s.mode.literalData x s.data, memory := s.mode.literalMemory x s.memory }

theorem literal_apply (x : Cell) (m : Machine) : literal x m = .ok () (m.withLiteral x) := by
  cases hmode : m.mode with
  | immediate =>
    simp [literal, bind_apply, hmode, push, Machine.withLiteral, Mode.literalData,
      Mode.literalMemory]
  | compile =>
    simp [literal, bind_apply, hmode, compileLiteral, append, modifyMemory, Machine.withLiteral,
      Mode.literalData, Mode.literalMemory, Memory.append_eq_appendAll, Memory.appendAll_appendAll]

theorem turns_withLiteral (x : Cell)
    (hsound : s.memory.Extends old → (s.withLiteral x).memory.Extends old) :
    Turns old (literal x) s () (s.withLiteral x) := by
  intro here m hm
  exact ⟨_, literal_apply x m, { hm with
    data := by rw [Machine.withLiteral, Scene.withLiteral, hm.mode, hm.data]
    memory := by rw [Machine.withLiteral, Scene.withLiteral, hm.mode, hm.memory]
    sound := hsound hm.sound }⟩

/-- Outside of a definition a literal is pushed. -/
theorem turns_literal_immediate (hs : s.mode = .immediate) (x : Cell) :
    Turns old (literal x) s () { s with data := x :: s.data } := by
  have hpushed : s.withLiteral x = { s with data := x :: s.data } := by
    rw [Scene.withLiteral, hs]
    rfl
  rw [← hpushed]
  exact turns_withLiteral x fun hsound => hpushed ▸ hsound

/-- A literal is compiled. -/
theorem turns_literal (hw : old.WellFormed hs) (x : Cell) :
    Turns old (literal x) (.drafting old draft input data cells) ()
      (.drafting old draft input data (cells ++ [Kernel.litToken, x])) := by
  have hcompiled : (Scene.drafting old draft input data cells).withLiteral x =
      .drafting old draft input data (cells ++ [Kernel.litToken, x]) :=
    congrArg (Scene.mk data · .compile input draft.lines) (Memory.appendAll_withWord old _)
  rw [← hcompiled]
  refine turns_withLiteral x fun _ => ?_
  rw [hcompiled]
  exact hw.extends_withWord draft.name draft.named _

/-! ## Tokens -/

/-- With enough steps, to interpret a token takes one scene to another. -/
def Interprets (old : Memory) (token : String) (s s' : Scene) : Prop :=
  ∃ k, ∀ b ≥ k, Turns old (interpretToken (execute b) token) s () s'

/-- A numeral that names no word is a literal. -/
theorem interprets_literal (hfind : s.memory.find token = .ok none)
    (hread : Numeral.read? token = some n) (h : Turns old (literal (.int n)) s () s') :
    Interprets old token s s' := by
  refine ⟨0, ?_⟩
  intro b _
  refine (turns_ask hfind).bind ?_
  simp only [hread]
  exact h

/-- A numeral that names no word is compiled. -/
theorem interprets_numeral (hw : old.WellFormed hs) (hfind : old.find token = .ok none)
    (hread : Numeral.read? token = some n) :
    Interprets old token (.drafting old draft input data cells)
      (.drafting old draft input data (cells ++ [Kernel.litToken, .int n])) := by
  -- the word that is being defined is hidden, so that nothing else is found than before
  have hfind' :=
    (hw.find_withWord_hidden draft.named draft.hidden draft.name cells token).trans hfind
  exact interprets_literal hfind' hread (turns_literal hw _)

/-- A word that is not immediate is compiled. -/
theorem interprets_word (hw : old.WellFormed hs)
    (hfind : old.find token = .ok (some (.int header)))
    (himm : old.isImmediate (.int header) = .ok false) :
    Interprets old token (.drafting old draft input data cells)
      (.drafting old draft input data (cells ++ [.token (header + 3)])) := by
  refine ⟨0, ?_⟩
  intro b _
  have hfind' :=
    (hw.find_withWord_hidden draft.named draft.hidden draft.name cells token).trans hfind
  have hsound : (old.withWord draft.name draft.flags cells).Extends old :=
    hw.extends_withWord draft.name draft.named cells
  refine (turns_ask hfind').bind ?_
  refine Turns.bind (x := header + 3) (fun _ m hm => ⟨m, rfl, hm⟩) ?_
  refine turns_get_bind fun here m hm => ?_
  have hmode : m.mode = .compile := hm.mode
  rw [if_neg (by simp [hmode])]
  refine (turns_ask (hsound.isImmediate himm)).bind ?_
  rw [if_neg Bool.false_ne_true]
  exact turns_append (Memory.append_withWord old _) (hw.extends_withWord draft.name draft.named _)

/-- A word that is immediate is run, and so is any word outside of a definition. -/
theorem interprets_run (hfind : s.memory.find token = .ok (some (.int header)))
    (hrun : s.mode = .immediate ∨ s.memory.isImmediate (.int header) = .ok true)
    (hp : Performs old (.token (header + 3)) s s') : Interprets old token s s' := by
  obtain ⟨k, hp⟩ := hp
  refine ⟨k, ?_⟩
  intro b hb
  refine (turns_ask hfind).bind ?_
  refine Turns.bind (x := header + 3) (fun _ m hm => ⟨m, rfl, hm⟩) ?_
  refine turns_get_bind fun here m hm => ?_
  by_cases hmode : m.mode = .immediate
  · rw [if_pos hmode]
    exact hp b hb
  · have himm := hrun.resolve_left fun h => hmode (hm.mode.trans h)
    rw [if_neg hmode]
    refine (turns_ask himm).bind ?_
    rw [if_pos rfl]
    exact hp b hb

/-! ## Texts -/

/-- A code field that is run to its end does what its behaviour does, if that enters no thread. -/
theorem turns_dispatch {native : Native} (hcode : s.memory.get (.int code) = .ok (.native native))
    {b : Nat} (hp : Turns old (native.perform code (invoke b) (execute b) b) s () s') :
    Turns old (execute (b + 1) (.token code)) s () s' := by
  intro here m hm
  have hfield := hm.memory ▸ hcode
  obtain ⟨log, hinvoke⟩ := invoke_of_native b hm.traceable hfield
  obtain ⟨m', hrun, hm'⟩ := hp here { m with current := some code, log := log } { hm with }
  have hback : m'.returns.length ≤ m.returns.length := by rw [hm.returns, hm'.returns]
  exact ⟨_, executeWith_eq_ok.mpr ⟨m', m', hinvoke.trans hrun, returnTo_of_not_deeper hback, rfl⟩,
    { hm' with ip := hm.ip }⟩

/-- A primitive that is run to its end does what it does. -/
theorem turns_execute (hcode : old.get (.int code) = .ok (.native (.primitive p))) {b : Nat}
    (hp : Turns old (p.perform (invoke b) (execute b) b) s () s') :
    Turns old (execute (b + 1) (.token code)) s () s' := by
  intro here m hm
  exact turns_dispatch (hm.sound.retains _ _ hcode) hp here m hm

/-- A primitive does what it does once there are steps enough for it. -/
theorem performs_primitive (hcode : old.get (.int code) = .ok (.native (.primitive p)))
    (hp : ∀ b ≥ k, Turns old (p.perform (invoke b) (execute b) b) s () s') :
    Performs old (.token code) s s' := by
  refine ⟨k + 1, fun b hb => ?_⟩
  obtain ⟨c, rfl⟩ : ∃ c, b = c + 1 := ⟨b - 1, by omega⟩
  exact turns_execute hcode (hp c (by omega))

theorem Does.performs (h : Does old p s s')
    (hcode : old.get (.int code) = .ok (.native (.primitive p))) : Performs old (.token code) s s' :=
  performs_primitive hcode fun b (_ : b ≥ 0) => h (invoke b) (execute b) b

section Text

variable {quote : Char} {t before : List Char}

/-- A text is read up to its quote. -/
theorem turns_readUntil (hkey : old.Intact (.input .key)) (hquote : quote ∉ t)
    (hs : s.input = t ++ quote :: rest) (b : Nat) {bound : Nat} (hbound : t.length < bound) :
    Turns old (readUntil (execute (b + 1)) quote bound before) s (t.reverse ++ before)
      { s with input := rest } :=
  turns_of_proceeds fun _ _ hm => proceeds_readUntil hm.traceable
    (hm.memory ▸ hm.sound.retains _ _ hkey) hquote (hm.input.trans hs) b hbound

theorem turns_readText (hkey : old.Intact (.input .key)) (hquote : '"' ∉ t)
    (hs : s.input = ' ' :: (t ++ '"' :: rest)) (b : Nat) {bound : Nat} (hbound : t.length < bound) :
    Turns old (readText (execute (b + 1)) bound) s (String.ofList t) { s with input := rest } :=
  turns_of_proceeds fun _ _ hm => proceeds_readText hm.traceable
    (hm.memory ▸ hm.sound.retains _ _ hkey) hquote (hm.input.trans hs) b hbound

/-- The text that follows `S"` is a literal. -/
theorem performs_text (hkey : old.Intact (.input .key))
    (hcode : old.get (.int code) = .ok (.native (.primitive (.text .text)))) (hquote : '"' ∉ t)
    (hs : s.input = ' ' :: (t ++ '"' :: rest))
    (h : Turns old (literal (.text (String.ofList t))) { s with input := rest } () s') :
    Performs old (.token code) s s' := by
  refine performs_primitive (k := t.length + 1) hcode fun b hb => ?_
  obtain ⟨c, rfl⟩ : ∃ c, b = c + 1 := ⟨b - 1, by omega⟩
  exact (turns_readText hkey hquote hs c (by omega)).bind h

end Text

/-! ## The outer loop -/

/-- The thread of `QUIT`, wherever it goes back to. -/
def Place.quit (returns : List (Option Int)) : Place := ⟨some (Kernel.quitHeader + 4), returns⟩

/-- With enough steps, rounds of `QUIT` take one scene to another. -/
def Reads (old : Memory) (s s' : Scene) : Prop :=
  ∃ k n, ∀ b ≥ k, ∀ depth returns m, depth < returns.length → s.Holds old (.quit returns) m →
    ∃ m', Reaches (invoke b) depth n m m' ∧ s'.Holds old (.quit returns) m'

theorem Reads.refl (s : Scene) : Reads old s s := by
  refine ⟨0, 0, ?_⟩
  intro b _ depth returns m _ hm
  exact ⟨m, .refl m, hm⟩

theorem Reads.trans (h : Reads old s s₁) (h' : Reads old s₁ s') : Reads old s s' := by
  obtain ⟨k, n, h⟩ := h
  obtain ⟨k', n', h'⟩ := h'
  refine ⟨max k k', n + n', ?_⟩
  intro b hb depth returns m hd hm
  obtain ⟨m₁, hfirst, hm₁⟩ := h b (by omega) depth returns m hd hm
  obtain ⟨m', hthen, hm'⟩ := h' b (by omega) depth returns m₁ hd hm₁
  exact ⟨m', hfirst.trans hthen, hm'⟩

/-- One round of `QUIT` takes a token and interprets it. -/
theorem Interprets.reads (h : Interprets old token s₁ s') (htake : Turns old nextToken s token s₁)
    (hquit : old.HasCode (Kernel.quitHeader + 4) Kernel.quitBody)
    (hinterpret : old.Intact (.input .interpret)) (hbranch : old.Intact (.thread .branch)) :
    Reads old s s' := by
  obtain ⟨k, h⟩ := h
  refine ⟨k + 1, 1 + 1, ?_⟩
  intro b hb depth returns m hd hm
  obtain ⟨c, rfl⟩ : ∃ c, b = c + 1 := ⟨b - 1, by omega⟩
  have hperform : Turns old ((Primitive.input .interpret).perform (invoke c) (execute c) c) s ()
      s' := htake.bind (h c (by omega))
  obtain ⟨hcell, hloop⟩ := hquit
  obtain ⟨m₁, hfirst, hm₁⟩ := hperform.reaches hinterpret hcell hm hd
  obtain ⟨m', hthen, hm'⟩ := branch_reaches hbranch hloop hm₁ hd
  -- the branch after INTERPRET leads back to it
  have hback : Kernel.quitHeader + 4 + 1 + 1 + -2 = Kernel.quitHeader + 4 := by omega
  rw [hback] at hm'
  exact ⟨m', hfirst.trans hthen, hm'⟩

/-- Once the input is used up, `QUIT` stops at its end. -/
theorem Reads.execute_quit (h : Reads old s s') {here : Place} {m : Machine}
    (hm : s.Holds old here m) (hinput : ∀ c ∈ s'.input, Source.isDelimiter c = true)
    (hwaiting : s'.waiting = [])
    (hquit : old.HasCode (Kernel.quitHeader + 3) (.native .enter :: Kernel.quitBody))
    (hinterpret : old.Intact (.input .interpret)) :
    ∃ k, ∀ b ≥ k, ∃ there m', execute b Kernel.quitToken m = .error .endOfInput m' ∧
      Scene.Holds { s' with input := [] } old there m' := by
  obtain ⟨k, n, h⟩ := h
  refine ⟨k + n + 1, ?_⟩
  intro b hb
  obtain ⟨c, rfl⟩ : ∃ c, b = n + (c + 1) := ⟨b - (n + 1), by omega⟩
  have hfield := hm.memory ▸ hm.sound.retains _ _ hquit.1
  obtain ⟨log, hinvoke⟩ := invoke_of_native (n + c) hm.traceable hfield
  have haddr : Kernel.quitHeader + 3 + 1 = Kernel.quitHeader + 4 := by omega
  have hm₁ : s.Holds old (.quit (here.ip :: here.returns))
      { m with
        current := some (Kernel.quitHeader + 3), log := log, returns := m.ip :: m.returns,
        ip := some (Kernel.quitHeader + 3 + 1) } :=
    { hm with ip := by rw [haddr]; rfl, returns := by rw [hm.ip, hm.returns]; rfl }
  have hd : m.returns.length < (here.ip :: here.returns).length := by
    rw [hm.returns]
    simp
  obtain ⟨m₂, hrounds, hm₂⟩ := h (n + (c + 1)) (by omega) _ _ _ hd hm₁
  -- one more round, which finds no token
  have hcell := hm₂.memory ▸ hm₂.sound.retains _ _ (haddr ▸ hquit.2.1)
  have hnative := hm₂.memory ▸ hm₂.sound.retains _ _ hinterpret
  obtain ⟨log₂, hstep⟩ := stepWith_of_native (n + c) hm₂.traceable hm₂.ip hcell hnative
  have hnone := nextToken_at_end (m := { m₂ with
    ip := some (Kernel.quitHeader + 4 + 1),
    current := some (Kernel.header (.input .interpret) + 3), log := log₂ })
    (hm₂.input ▸ hinput) (hm₂.waiting.trans hwaiting) hm₂.alone
  have hend := hstep.trans (bind_of_error hnone)
  have hdeep : m.returns.length < m₂.returns.length := hm₂.returns ▸ hd
  have hloop : returnTo (invoke (n + (c + 1))) m.returns.length (n + (c + 1)) _ = _ :=
    (hrounds (c + 1)).trans ((returnTo_of_deeper hdeep).trans (bind_of_error hend))
  refine ⟨⟨some (Kernel.quitHeader + 4 + 1), here.ip :: here.returns⟩, _,
    executeWith_apply.trans (bind_of_error ((bind_of_ok hinvoke).trans hloop)), ?_⟩
  exact { hm₂ with input := rfl, ip := rfl, returns := hm₂.returns }

end ThreadedForth
