import ThreadedForth.Kernel.Image
import ThreadedForth.Proofs.Machine.Alteration
import ThreadedForth.Proofs.Machine.Run
import ThreadedForth.Proofs.Memory.Image
import ThreadedForth.Proofs.Memory.Search

/-!
# A stray semicolon

On a memory that begins with the kernel (`Memory.OnKernel`), the token `;` faults while nothing is
compiled, if it still names the word of the kernel, and does nothing to the memory
(`stray_semicolon_fails`). Nothing is assumed of the headers above the kernel.
-/

namespace ThreadedForth

open ThreadedForth.Action

/-- The memory begins with the kernel, and its newest header lies above it. -/
structure Memory.OnKernel (m : Memory) : Prop where
  cells : ∀ i < Kernel.memory.here, m.cells[i]? = Kernel.memory.cells[i]?
  latest : ∃ l, m.latest = some l ∧ (Kernel.memory.here : Int) ≤ l

namespace Kernel

/-- The headers of the kernel, newest first. -/
def headers : List Header := Memory.headersFrom 1 [] words

theorem memory_wellFormed : memory.WellFormed headers :=
  Memory.wellFormed_ofWords words (by simp [words]) (by decide)

/-- The headers up to `;`, newest first. -/
theorem headers_eq : ∃ older, headers =
    [⟨quitHeader.toNat, "QUIT"⟩] ++ ⟨semicolonHeader.toNat, ";"⟩ :: older := ⟨_, rfl⟩

-- the kernel is read cell by cell
set_option maxRecDepth 10000 in
/-- The word `;` begins with a check that a word is being compiled. -/
theorem semicolon_checks :
    memory.HasCode (semicolonHeader + 3) [.native .enter, token (.compiler .whenCompiling)] ∧
      memory.Intact (.compiler .whenCompiling) := by decide

end Kernel

namespace Memory.OnKernel

variable {m : Memory}

theorem get_eq (hk : m.OnKernel) {addr x : Cell} (hx : Kernel.memory.get addr = .ok x) :
    m.get addr = .ok x := by
  obtain ⟨i, hi, hcell⟩ := get_eq_ok_iff.mp hx
  have hlt : i < Kernel.memory.here := (Array.getElem?_eq_some_iff.mp hcell).1
  exact get_eq_ok_iff.mpr ⟨i, hi, (hk.cells i hlt).trans hcell⟩

theorem here_le (hk : m.OnKernel) : Kernel.memory.here ≤ m.here := by
  by_contra hnot
  have hlt : m.here < Kernel.memory.cells.size := Nat.lt_of_not_le hnot
  have hcell := hk.cells m.here hlt
  rw [here, Array.getElem?_eq_none (Nat.le_refl _), ← here, Array.getElem?_eq_getElem hlt] at hcell
  cases hcell

/-! What is appended, or written above the kernel, does not touch it. -/

theorem appendAll (hk : m.OnKernel) (xs : List Cell) : (m.appendAll xs).OnKernel where
  cells i hi := (getElem?_appendAll_of_lt xs (by have := hk.here_le; omega)).trans (hk.cells i hi)
  latest := hk.latest

theorem append (hk : m.OnKernel) (x : Cell) : (m.append x).OnKernel := by
  rw [append_eq_appendAll]
  exact hk.appendAll [x]

theorem allocateHeader (hk : m.OnKernel) (name : String) (flags : Nat) :
    (m.allocateHeader name flags).OnKernel where
  cells := (hk.appendAll _).cells
  latest := ⟨m.here, rfl, by have := hk.here_le; omega⟩

theorem write (hk : m.OnKernel) {i : Nat} (hi : Kernel.memory.here ≤ i) (x : Cell) :
    (m.write i x).OnKernel where
  cells j hj := (getElem?_write_of_ne x (by omega)).trans (hk.cells j hj)
  latest := hk.latest

/-- The headers of the kernel still stand. -/
theorem chained (hk : m.OnKernel) : m.Chained Kernel.headers :=
  Kernel.memory_wellFormed.chained.transfer fun h _ link hl => hl.transfer fun k hk' =>
    hk.cells _ (by have := hl.end_le; omega)

end Memory.OnKernel

/-- **A stray `;` faults and changes nothing in the memory.** -/
theorem stray_semicolon_fails {m : Machine} (hk : m.memory.OnKernel) (hmode : m.mode = .immediate)
    (hfind : m.memory.find ";" = .ok (some (.int Kernel.semicolonHeader))) (bound : Nat) :
    ∃ m', interpretToken (execute (bound + 1)) ";" m = .error (.fault .notCompiling) m' ∧
      m'.memory = m.memory := by
  have htrace : Traceable m := by
    intro _ code
    obtain ⟨older, hheaders⟩ := Kernel.headers_eq
    have hchained : m.memory.Chained (⟨Kernel.semicolonHeader.toNat, ";"⟩ :: older) := by
      have hall := hk.chained
      rw [hheaders] at hall
      exact hall.suffix
    exact Memory.label_eq_ok_of_find hchained hfind code
  obtain ⟨⟨henter, hcell, -⟩, hcheck⟩ := Kernel.semicolon_checks
  -- `;` is entered, and then its first cell
  obtain ⟨log, hinvoke⟩ := invoke_of_native bound htrace (hk.get_eq henter)
  let inside : Machine := { m with
    current := some (Kernel.semicolonHeader + 3), log := log, returns := m.ip :: m.returns,
    ip := some (Kernel.semicolonHeader + 3 + 1) }
  obtain ⟨log', hstep⟩ := stepWith_of_native bound (m := inside) htrace rfl (hk.get_eq hcell)
    (hk.get_eq hcheck)
  let failed : Machine := { inside with
    ip := some (Kernel.semicolonHeader + 3 + 1 + 1),
    current := some (Kernel.header (.compiler .whenCompiling) + 3), log := log' }
  have hfails : stepWith (invoke (bound + 1)) inside = .error (.fault .notCompiling) failed := by
    rw [hstep]
    simp [Native.perform, Primitive.perform, CompilerWord.perform, bind_apply, inside, failed,
      hmode]
  have hexecute : execute (bound + 1) (.token (Kernel.semicolonHeader + 3)) m =
      .error (.fault .notCompiling) failed := by
    have hloop : returnTo (invoke (bound + 1)) m.returns.length (bound + 1) inside = _ :=
      (returnTo_of_deeper (by simp [inside])).trans (bind_of_error hfails)
    rw [execute, executeWith_apply, bind_of_error]
    rw [bind_of_ok hinvoke]
    exact hloop
  refine ⟨failed, ?_, rfl⟩
  have hplus : (Cell.int Kernel.semicolonHeader).plus headerSize =
      .ok (Kernel.semicolonHeader + 3) := rfl
  simp only [interpretToken, bind_apply, ask_apply, hfind, hplus, liftM_ok, get_apply, hmode,
    if_true]
  exact hexecute

end ThreadedForth
