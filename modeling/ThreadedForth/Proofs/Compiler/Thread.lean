import ThreadedForth.Proofs.Compiler.Scene

/-!
# Threads of the compiler

The words of control flow are threads that run straight through: primitives and literals one after
the other (`Instruction`). `Runs` puts the scenes of such a thread together, and a word that holds
one goes from the first scene to the last when it is run to its end (`Runs.performs`).
-/

namespace ThreadedForth

open ThreadedForth.Action

/-! ## Instructions -/

/-- What a thread does that runs straight through. -/
inductive Instruction
  | word (p : Primitive)
  | lit (x : Cell)

namespace Instruction

/-- The cells of instructions. -/
def code : List Instruction → List Cell
  | [] => []
  | word p :: l => Kernel.token p :: code l
  | lit x :: l => Kernel.litToken :: x :: code l

/-- The primitive that an instruction runs. -/
def primitive : Instruction → Primitive
  | word p => p
  | lit _ => .thread .lit

/-- The code field and the body of a word that does this and nothing else. -/
def wordCells (l : List Instruction) : List Cell :=
  (.native .enter :: code l) ++ [Kernel.exitToken]

end Instruction

/-- Instructions take one scene to another. -/
inductive Runs (old : Memory) : List Instruction → Scene → Scene → Prop
  | nil {s : Scene} : Runs old [] s s
  | word {p : Primitive} {l : List Instruction} {s s₁ s' : Scene} (hp : Does old p s s₁)
      (h : Runs old l s₁ s') : Runs old (.word p :: l) s s'
  | lit {x : Cell} {l : List Instruction} {s s' : Scene}
      (h : Runs old l { s with data := x :: s.data } s') : Runs old (.lit x :: l) s s'

/-- With enough steps, a word takes one scene to another when it is run to its end. -/
def Performs (old : Memory) (x : Cell) (s s' : Scene) : Prop :=
  ∃ k, ∀ b ≥ k, Turns old (execute b x) s () s'

variable {old : Memory} {s s' : Scene} {m : Machine} {addr code : Int}
  {returns rest : List (Option Int)} {back : Option Int} {depth b : Nat} {p : Primitive} {x : Cell}
  {l : List Instruction}

/-! ## Steps of the loop -/

section Steps

/-- A step does what the primitive does that the thread comes to. -/
theorem Turns.reaches (hp : Turns old (p.perform (invoke b) (execute b) b) s () s')
    (hi : old.Intact p) (hx : old.get (.int addr) = .ok (Kernel.token p))
    (hm : s.Holds old ⟨some addr, returns⟩ m) (hd : depth < returns.length) :
    ∃ m', Reaches (invoke (b + 1)) depth 1 m m' ∧ s'.Holds old ⟨some (addr + 1), returns⟩ m' := by
  have hcell := hm.memory ▸ hm.sound.retains _ _ hx
  have hnative := hm.memory ▸ hm.sound.retains _ _ hi
  obtain ⟨log, hstep⟩ := stepWith_of_native b hm.traceable hm.ip hcell hnative
  obtain ⟨m', hrun, hm'⟩ := hp ⟨some (addr + 1), returns⟩
    { m with ip := some (addr + 1), current := some (Kernel.header p + 3), log := log }
    { hm with ip := rfl, returns := hm.returns }
  exact ⟨m', .of_step (hm.returns ▸ hd) (hstep.trans hrun), hm'⟩

/-- A step pushes the next cell. -/
theorem lit_reaches (hi : old.Intact (.thread .lit))
    (hcode : old.HasCode addr [Kernel.litToken, x]) (hm : s.Holds old ⟨some addr, returns⟩ m)
    (hd : depth < returns.length) :
    ∃ m', Reaches (invoke (b + 1)) depth 1 m m' ∧
      Scene.Holds { s with data := x :: s.data } old ⟨some (addr + 1 + 1), returns⟩ m' := by
  obtain ⟨hcell, hx, -⟩ := hm.memory ▸ hm.sound.hasCode hcode
  have hnative := hm.memory ▸ hm.sound.retains _ _ hi
  obtain ⟨log, hstep⟩ := stepWith_of_native b hm.traceable hm.ip hcell hnative
  exact ⟨_, .of_step (hm.returns ▸ hd) (hstep.trans (lit_apply rfl hx)),
    { hm with data := by rw [hm.data], ip := rfl, returns := hm.returns }⟩

/-- A step goes where the next cell says. -/
theorem branch_reaches {distance : Int} (hi : old.Intact (.thread .branch))
    (hcode : old.HasCode addr [Kernel.branchToken, .int distance])
    (hm : s.Holds old ⟨some addr, returns⟩ m) (hd : depth < returns.length) :
    ∃ m', Reaches (invoke (b + 1)) depth 1 m m' ∧
      s.Holds old ⟨some (addr + 1 + distance), returns⟩ m' := by
  obtain ⟨hcell, hx, -⟩ := hm.memory ▸ hm.sound.hasCode hcode
  have hnative := hm.memory ▸ hm.sound.retains _ _ hi
  obtain ⟨log, hstep⟩ := stepWith_of_native b hm.traceable hm.ip hcell hnative
  exact ⟨_, .of_step (hm.returns ▸ hd) (hstep.trans (jump_apply _ rfl hx)),
    { hm with ip := rfl, returns := hm.returns }⟩

/-- A step goes back to where the word was entered from. -/
theorem exit_reaches (hi : old.Intact (.thread .exit))
    (hx : old.get (.int addr) = .ok Kernel.exitToken)
    (hm : s.Holds old ⟨some addr, back :: rest⟩ m) (hd : depth < (back :: rest).length) :
    ∃ m', Reaches (invoke (b + 1)) depth 1 m m' ∧ s.Holds old ⟨back, rest⟩ m' := by
  have hcell := hm.memory ▸ hm.sound.retains _ _ hx
  have hnative := hm.memory ▸ hm.sound.retains _ _ hi
  obtain ⟨log, hstep⟩ := stepWith_of_native b hm.traceable hm.ip hcell hnative
  exact ⟨_, .of_step (hm.returns ▸ hd) (hstep.trans (exit_apply hm.returns)),
    { hm with ip := rfl, returns := rfl }⟩

end Steps

/-! ## Whole threads -/

/-- The loop goes through the instructions, one step for each. -/
theorem Runs.reaches (hruns : Runs old l s s')
    (hi : ∀ instruction ∈ l, old.Intact instruction.primitive)
    (hcode : old.HasCode addr (Instruction.code l)) (hm : s.Holds old ⟨some addr, returns⟩ m)
    (hd : depth < returns.length) :
    ∃ m', Reaches (invoke (b + 1)) depth l.length m m' ∧
      s'.Holds old ⟨some (addr + (Instruction.code l).length), returns⟩ m' := by
  -- each instruction leaves a scene whose memory still holds the rest of the thread
  induction hruns generalizing addr m with
  | nil => exact ⟨m, .refl m, by simpa [Instruction.code] using hm⟩
  | @word p l s s₁ s' hp _ ih =>
    obtain ⟨hx, hrest⟩ := hcode
    have hintact : old.Intact p := hi (.word p) (List.mem_cons_self ..)
    obtain ⟨m₁, hfirst, hm₁⟩ := (hp (invoke b) (execute b) b).reaches hintact hx hm hd
    obtain ⟨m', hthen, hm'⟩ := ih (fun i h => hi i (List.mem_cons_of_mem _ h)) hrest hm₁
    have haddr : addr + (Instruction.code (.word p :: l)).length =
        addr + 1 + (Instruction.code l).length := by
      rw [Instruction.code, List.length_cons]
      omega
    rw [haddr, List.length_cons, Nat.add_comm l.length]
    exact ⟨m', hfirst.trans hthen, hm'⟩
  | @lit x l s s' _ ih =>
    obtain ⟨hx, hy, hrest⟩ := hcode
    have hintact : old.Intact (.thread .lit) := hi (.lit x) (List.mem_cons_self ..)
    obtain ⟨m₁, hfirst, hm₁⟩ := lit_reaches (b := b) hintact ⟨hx, hy, trivial⟩ hm hd
    obtain ⟨m', hthen, hm'⟩ := ih (fun i h => hi i (List.mem_cons_of_mem _ h)) hrest hm₁
    have haddr : addr + (Instruction.code (.lit x :: l)).length =
        addr + 1 + 1 + (Instruction.code l).length := by
      rw [Instruction.code, List.length_cons, List.length_cons]
      omega
    rw [haddr, List.length_cons, Nat.add_comm l.length]
    exact ⟨m', hfirst.trans hthen, hm'⟩

/-- A word that holds instructions does what they do. -/
theorem Runs.performs (hruns : Runs old l s s')
    (hi : ∀ instruction ∈ l, old.Intact instruction.primitive) (hexit : old.Intact (.thread .exit))
    (hword : old.HasCode code (Instruction.wordCells l)) : Performs old (.token code) s s' := by
  -- one step for each instruction, one for EXIT, and two for the dispatch and the end of the loop
  refine ⟨l.length + 3, ?_⟩
  intro b hb here m hm
  obtain ⟨c, rfl⟩ : ∃ c, b = l.length + 1 + (c + 1) + 1 := ⟨b - (l.length + 3), by omega⟩
  obtain ⟨⟨henter, hcode⟩, hend, -⟩ := Memory.hasCode_append.mp hword
  have hfield := hm.memory ▸ hm.sound.retains _ _ henter
  obtain ⟨log, hinvoke⟩ := invoke_of_native (l.length + 1 + (c + 1)) hm.traceable hfield
  have hm₁ : s.Holds old ⟨some (code + 1), here.ip :: here.returns⟩
      { m with
        current := some code, log := log, returns := m.ip :: m.returns, ip := some (code + 1) } :=
    { hm with ip := rfl, returns := by rw [hm.ip, hm.returns] }
  -- the thread runs above the return address, which EXIT takes off in the end
  have hd : m.returns.length < (here.ip :: here.returns).length := by
    rw [hm.returns]
    simp
  obtain ⟨m₂, hthread, hm₂⟩ :=
    hruns.reaches (b := l.length + 1 + (c + 1)) hi hcode hm₁ hd
  have hback : code + 1 + (Instruction.code l).length =
      code + (Cell.native .enter :: Instruction.code l).length := by
    rw [List.length_cons]
    omega
  rw [hback] at hm₂
  obtain ⟨m₃, hout, hm₃⟩ := exit_reaches (b := l.length + 1 + (c + 1)) hexit hend hm₂ hd
  have hloop : returnTo (invoke (l.length + 1 + (c + 1) + 1)) m.returns.length
      (l.length + 1 + (c + 1) + 1) _ = .ok () m₃ :=
    ((hthread.trans hout) (c + 1 + 1)).trans
      (returnTo_of_not_deeper (by rw [hm.returns, hm₃.returns]))
  exact ⟨_, executeWith_eq_ok.mpr ⟨_, m₃, hinvoke, hloop, rfl⟩, { hm₃ with ip := hm.ip }⟩

end ThreadedForth
