import ThreadedForth.Proofs.Compiler.Booted
import ThreadedForth.Proofs.Structured.Execution
import ThreadedForth.Proofs.Structured.Extension

/-!
# The word that prints spaces

`SPACES` is a loop that the words of control flow compiled, and each round calls another word of the
bootstrap. Its body has a meaning for every count (`spaces_means`), so that it prints one space for
each unit of a positive count, and none for any other (`spaces_counts_right`).
-/

namespace ThreadedForth

open ThreadedForth.Action Kernel

/-- The image of the bootstrap is whole: what could be read in it reads the same. -/
def Memory.KeepsImage (m : Memory) : Prop :=
  ∀ addr x, bootedMemory.get addr = .ok x → m.get addr = .ok x

/-! ## The two words -/

/-- The address of the code field of `SPACE`. -/
def spaceCode : Int := 516

/-- The address of the code field of `SPACES`. -/
def spacesCode : Int := 532

/-- `32 EMIT` -/
def spaceBody : Body :=
  .seq (.literal (.int 32)) (.call (codeField (.calculation (.output .emit))))

/-- `BEGIN DUP 0> WHILE SPACE 1- REPEAT` -/
def spacesLoop : Body :=
  .whileLoop
    (.seq (.call (codeField (.calculation (.stack .dup))))
      (.call (codeField (.calculation (.comparison .isPositive)))))
    (.seq (.call spaceCode) (.call (codeField (.calculation (.arithmetic .decrement)))))

/-- The loop, and `DROP` -/
def spacesBody : Body := .seq spacesLoop (.call (codeField (.calculation (.stack .drop))))

/-- The calculations, `SPACE` and `SPACES`. -/
def spacesProgram : Program := (program.add spaceCode spaceBody).add spacesCode spacesBody

-- the memory is read cell by cell
set_option maxRecDepth 10000 in
/-- The word is the one of that name. -/
theorem find_spaces : bootedMemory.find "SPACES" = .ok (some (.int (spacesCode - 3))) :=
  (booted_wellFormed.find_eq _).trans (by decide +kernel)

theorem booted_spaces :
    bootedMemory.HasCode spaceCode
        (.native .enter :: spaceBody.code spaceCode ++ [exitToken]) ∧
      bootedMemory.HasCode spacesCode
        (.native .enter :: spacesBody.code spacesCode ++ [exitToken]) := by
  decide +kernel

theorem spacesProgram_heldBy {m : Memory} (h : m.KeepsImage) : spacesProgram.HeldBy m := by
  have hintact : ∀ p ∈ order, m.Intact p := fun p hp => h _ _ (booted_intact p hp)
  obtain ⟨hfield, hcode⟩ := booted_spaces.1.of_retains h
  obtain ⟨hfield', hcode'⟩ := booted_spaces.2.of_retains h
  have hspace : spaceBody.ClosedIn program := by decide
  have hspaces : spacesBody.ClosedIn (program.add spaceCode spaceBody) := by decide
  have hheld := (program_heldBy hintact).add (by decide) hfield hcode hspace
  exact hheld.add (by decide) hfield' hcode' hspaces

/-! ## What they mean -/

section Meaning

variable (self : Int) (data : List Cell) (texts : List String)

/-- The calculations are words of the program. -/
theorem calculation_means {self : Int} (c : Calculation) {s : Progress}
    (hs : s.status = .running) :
    Means spacesProgram self (.call (codeField (.calculation c))) s (s.calculate c) := by
  refine .calculation hs ?_
  cases c with
  | stack w => cases w <;> rfl
  | arithmetic w => cases w <;> rfl
  | comparison w => cases w <;> rfl
  | logic w => cases w <;> rfl
  | output w => cases w <;> rfl

/-- `SPACE` prints a space. -/
theorem space_means :
    Means spacesProgram self (.call spaceCode) ⟨.running, data, texts⟩
      ⟨.running, data, " " :: texts⟩ := by
  have hbody : Means spacesProgram spaceCode spaceBody ⟨.running, data, texts⟩
      ⟨.running, data, " " :: texts⟩ :=
    .seq (.literal rfl) (calculation_means (.output .emit) rfl)
  exact .thread rfl rfl hbody

/-- The test of the loop leaves the count and whether it is positive. -/
theorem count_means (n : Int) :
    Means spacesProgram self
      (.seq (.call (codeField (.calculation (.stack .dup))))
        (.call (codeField (.calculation (.comparison .isPositive)))))
      ⟨.running, .int n :: data, texts⟩
      ⟨.running, .bool (decide (n > 0)) :: .int n :: data, texts⟩ :=
  .seq (calculation_means (.stack .dup) rfl) (calculation_means (.comparison .isPositive) rfl)

/-- A round of the loop prints a space and counts down. -/
theorem round_means (n : Int) :
    Means spacesProgram self
      (.seq (.call spaceCode) (.call (codeField (.calculation (.arithmetic .decrement)))))
      ⟨.running, .int n :: data, texts⟩ ⟨.running, .int (n - 1) :: data, " " :: texts⟩ :=
  .seq (space_means self _ texts) (calculation_means (.arithmetic .decrement) rfl)

/-- The loop prints a space for each unit of a positive count. A count that is not positive is left
as it is. -/
theorem spacesLoop_means (n : Int) :
    Means spacesProgram self spacesLoop ⟨.running, .int n :: data, texts⟩
      ⟨.running, .int (min n 0) :: data, List.replicate n.toNat " " ++ texts⟩ := by
  -- the count that is left decides how often the loop goes round
  induction h : n.toNat generalizing n texts with
  | zero =>
    have hn : n ≤ 0 := Int.toNat_eq_zero.mp h
    have hmin : min n 0 = n := Int.min_eq_left hn
    have htest : decide (n > 0) = false := by simpa using hn
    have hcount := count_means self data texts n
    rw [htest] at hcount
    rw [hmin, List.replicate_zero, List.nil_append]
    exact .whileDone hcount rfl
  | succ k ih =>
    have htest : decide (n > 0) = true := by
      rw [decide_eq_true_eq]
      omega
    have hcount := count_means self data texts n
    rw [htest] at hcount
    have hagain := ih (" " :: texts) (n - 1) (by omega)
    have hmin : min (n - 1) 0 = min n 0 := by omega
    have htexts : List.replicate k " " ++ " " :: texts = List.replicate (k + 1) " " ++ texts := by
      rw [List.replicate_succ', List.append_assoc, List.singleton_append]
    rw [hmin, htexts] at hagain
    exact .whileAgain hcount rfl (round_means self data texts n) hagain

/-- `SPACES` takes a count and prints as many spaces. -/
theorem spaces_means (n : Int) :
    Means spacesProgram self (.call spacesCode) (.start (.int n :: data))
      ⟨.running, data, List.replicate n.toNat " "⟩ := by
  have hloop := spacesLoop_means spacesCode data [] n
  rw [List.append_nil] at hloop
  exact .thread rfl rfl (.seq hloop (calculation_means (.stack .drop) rfl))

end Meaning

/-! ## What they do -/

/-- **`SPACES` counts right for every integer**: where the image of the bootstrap is whole, and
every code field has a label if dispatches are logged, to execute `SPACES` with an integer on top
of the data stack comes to its end and prints exactly as many spaces, none for an integer that is
not positive. It takes the integer and leaves the rest of the data stack, the return stack, the
instruction pointer, the memory and the mode as they were. -/
theorem spaces_counts_right {m : Machine} (himage : m.memory.KeepsImage) (ht : Traceable m)
    (n : Int) :
    ∃ k, ∀ bound ≥ k, ∃ m',
      execute bound (.token spacesCode) { m with data := .int n :: m.data } = .ok () m' ∧
        m'.console = m.console.printing (List.replicate n.toNat " ") ∧ m'.data = m.data ∧
        m'.returns = m.returns ∧ m'.ip = m.ip ∧ m'.memory = m.memory ∧ m'.mode = m.mode := by
  let start : Machine := { m with data := .int n :: m.data }
  have hheld : spacesProgram.HeldBy start.memory := spacesProgram_heldBy himage
  have hlabels : Traceable start := ht
  have hmeans := spaces_means spacesCode m.data n
  obtain ⟨k, hyields⟩ := hmeans.execute_yields hheld hlabels rfl (stands_start start)
  refine ⟨k, fun bound hbound => ?_⟩
  cases hyields.of_approximates (execute_approximates hbound _) with
  | running _ h hm =>
    exact ⟨_, h, hm.console, hm.data, hm.returns, hm.ip, hm.memory, hm.mode⟩
  | failed hs => cases hs

/-! ### A machine that prints spaces, and one that fails to -/

/-- A machine after the bootstrap, in the middle of a thread and of a definition. -/
def spacesMachine : Machine where
  data := [.text "x"]
  returns := [some 9, none]
  memory := bootedMemory
  mode := .compile
  ip := some 12

/-- Three spaces are printed, and none for a negative count. -/
theorem spaces_counts_three_and_none :
    spacesMachine.memory.KeepsImage ∧ Traceable spacesMachine ∧
      (∃ k, ∀ bound ≥ k, ∃ m',
        execute bound (.token spacesCode) { spacesMachine with data := [.int 3, .text "x"] } =
            .ok () m' ∧
          m'.console.transcript.pieces = [(.program, " "), (.program, " "), (.program, " ")] ∧
          m'.data = [.text "x"]) ∧
      ∃ k, ∀ bound ≥ k, ∃ m',
        execute bound (.token spacesCode) { spacesMachine with data := [.int (-2), .text "x"] } =
            .ok () m' ∧
          m'.console.transcript.pieces = [] ∧ m'.data = [.text "x"] := by
  have himage : spacesMachine.memory.KeepsImage := fun _ _ hx => hx
  have ht : Traceable spacesMachine := by
    intro h
    cases h
  refine ⟨himage, ht, ?_, ?_⟩
  · obtain ⟨k, hspaces⟩ := spaces_counts_right himage ht 3
    refine ⟨k, fun bound hbound => ?_⟩
    obtain ⟨m', hrun, hconsole, hdata, -⟩ := hspaces bound hbound
    exact ⟨m', hrun, by rw [hconsole]; rfl, hdata⟩
  · obtain ⟨k, hspaces⟩ := spaces_counts_right himage ht (-2)
    refine ⟨k, fun bound hbound => ?_⟩
    obtain ⟨m', hrun, hconsole, hdata, -⟩ := hspaces bound hbound
    exact ⟨m', hrun, by rw [hconsole]; rfl, hdata⟩

/-- A machine that logs its dispatches, with the link of a word behind the image written over, and
three on the data stack. -/
def unlinkedMachine : Machine where
  data := [.int 3]
  memory :=
    { bootedMemory.appendAll [.int 9999, .text "SEVEN", .flags 0, .native .enter, litToken,
        .int 7, exitToken] with latest := some 550 }
  tracing := true

-- the memory is read cell by cell
set_option maxRecDepth 10000 in
/-- Where there are no labels to log, `SPACES` prints nothing at all, although the image is whole.
-/
theorem spaces_need_labels :
    unlinkedMachine.memory.KeepsImage ∧
      ¬ ∃ bound m', execute bound (.token spacesCode) unlinkedMachine = .ok () m' := by
  refine ⟨fun addr x hx => Memory.get_appendAll_of_get _ _ hx, ?_⟩
  rintro ⟨bound, m', hrun⟩
  have hreason : reason (execute 5 (.token spacesCode) unlinkedMachine) =
      some (.fault (.outOfRange (.int 9999) 557)) := by
    decide +kernel
  obtain ⟨m₁, hfails⟩ := exists_of_reason hreason
  have heq := execute_unique (fun m₁ => by rw [hrun]; simp) (fun m₁ => by rw [hfails]; simp)
  cases hrun.symm.trans (heq.trans hfails)

end ThreadedForth
