import ThreadedForth.Proofs.Compiler.Thread

/-!
# The words of control flow

What the words of control flow do to a definition that is being compiled. They take the cells that
were compiled so far (`Scene.drafting`) and the data stack, where they leave the addresses that a
later word is to fill in or to branch back to; what lies below on the stack does not matter to them.
-/

namespace ThreadedForth

/-! ## Drafts -/

/-- A definition that is being compiled, and what does not change meanwhile. -/
structure Draft where
  name : String
  /-- the flags of the header, which hide it -/
  flags : Nat := Flags.hidden
  /-- the lines that come next -/
  lines : List String := []
  named : flags ≤ Flags.named := by decide
  hidden : flags &&& Flags.hidden ≠ 0 := by decide

/-- The flags that the header has once the definition is shown. -/
def Draft.shown (draft : Draft) : Nat := Bits.without draft.flags Flags.hidden

theorem Draft.shown_named (draft : Draft) : draft.shown ≤ Flags.named := by
  have hall : ∀ flags < 4, Bits.without flags Flags.hidden ≤ Flags.named := by decide
  exact hall draft.flags (Nat.lt_succ_of_le draft.named)

/-- A definition is being compiled, and these are its cells so far. -/
def Scene.drafting (old : Memory) (draft : Draft) (input : List Char) (data cells : List Cell) :
    Scene :=
  ⟨data, old.withWord draft.name draft.flags cells, .compile, input, draft.lines⟩

/-- Where a definition with these cells ends. -/
def Memory.draftEnd (old : Memory) (cells : List Cell) : Int := old.here + 4 + cells.length

section Drafts

variable {old : Memory} {hs : List Header} {draft : Draft} {input : List Char}
  {data data' cells before after : List Cell} {x y : Cell}

theorem draft_calculation {c : Calculation} (h : c.run data = .ok "" data') :
    Does old (.calculation c) (.drafting old draft input data cells)
      (.drafting old draft input data' cells) :=
  does_calculation h

theorem draft_here : Does old (.memory .here) (.drafting old draft input data cells)
    (.drafting old draft input (.int (old.draftEnd cells) :: data) cells) := by
  have hend : old.draftEnd cells = ((old.withWord draft.name draft.flags cells).here : Int) := by
    rw [Memory.here_withWord, Memory.draftEnd]
    omega
  rw [hend]
  exact does_here

theorem draft_latest : Does old (.memory .latest) (.drafting old draft input data cells)
    (.drafting old draft input (.int old.here :: data) cells) :=
  does_latest rfl

theorem draft_toCode {header : Int} :
    Does old (.compiler .toCode) (.drafting old draft input (.int header :: data) cells)
      (.drafting old draft input (.token (header + 3) :: data) cells) :=
  does_toCode rfl

theorem draft_comma (hw : old.WellFormed hs) :
    Does old (.memory .comma) (.drafting old draft input (x :: data) cells)
      (.drafting old draft input data (cells ++ [x])) :=
  does_comma rfl (Memory.append_withWord old x) (hw.extends_withWord draft.name draft.named _)

/-- A cell that was left open is filled in. -/
theorem draft_store (hw : old.WellFormed hs) :
    Does old (.memory .store)
      (.drafting old draft input (.int (old.draftEnd before) :: y :: data) (before ++ x :: after))
      (.drafting old draft input data (before ++ y :: after)) := by
  have hindex : (old.withWord draft.name draft.flags (before ++ x :: after)).index
      (.int (old.draftEnd before)) = .ok (old.here + 4 + before.length) := by
    refine Memory.index_eq_ok_iff.mpr ⟨?_, ?_⟩
    · rw [Cell.int?, Memory.draftEnd]
      simp
    · rw [Memory.here_withWord, List.length_append, List.length_cons]
      omega
  have hwrite : (old.withWord draft.name draft.flags (before ++ x :: after)).write
      (old.here + 4 + before.length) y = old.withWord draft.name draft.flags (before ++ y :: after) := by
    rw [Memory.write_withWord]
    simp
  exact does_store rfl hindex hwrite (hw.extends_withWord draft.name draft.named _)

end Drafts

/-! ## The words -/

/-- The words of control flow. -/
inductive ControlWord
  | recurseWord | ifWord | elseWord | thenWord | beginWord | untilWord | againWord | whileWord
  | repeatWord

namespace ControlWord

/-- The name of a word of control flow. -/
def name : ControlWord → String
  | recurseWord => "RECURSE" | ifWord => "IF" | elseWord => "ELSE" | thenWord => "THEN"
  | beginWord => "BEGIN" | untilWord => "UNTIL" | againWord => "AGAIN" | whileWord => "WHILE"
  | repeatWord => "REPEAT"

/-- Compiles a cell. -/
def compileCell (x : Cell) : List Instruction := [.lit x, .word (.memory .comma)]

/-- Leaves a cell open and pushes its address. -/
def leaveOpen : List Instruction := .word (.memory .here) :: compileCell (.int 0)

/-- Gives the distance from the address on top to the end. -/
def measure : List Instruction :=
  [.word (.calculation (.stack .dup)), .word (.memory .here), .word (.calculation (.stack .swap)),
    .word (.calculation (.arithmetic .sub))]

/-- Puts the cell on top at the address below it. -/
def fillIn : List Instruction :=
  [.word (.calculation (.stack .swap)), .word (.memory .store)]

/-- Compiles the distance back to the address on top. -/
def compileBack : List Instruction :=
  [.word (.memory .here), .word (.calculation (.arithmetic .sub)), .word (.memory .comma)]

/-- What a word of control flow does. -/
def thread : ControlWord → List Instruction
  | recurseWord => [.word (.memory .latest), .word (.compiler .toCode), .word (.memory .comma)]
  | ifWord | whileWord => compileCell Kernel.branchFalseToken ++ leaveOpen
  | elseWord =>
    measure ++ ([.lit (.int 2), .word (.calculation (.arithmetic .add))]
      ++ (fillIn ++ (compileCell Kernel.branchToken ++ leaveOpen)))
  | thenWord => measure ++ fillIn
  | beginWord => [.word (.memory .here)]
  | untilWord => compileCell Kernel.branchFalseToken ++ compileBack
  | againWord => compileCell Kernel.branchToken ++ compileBack
  | repeatWord =>
    compileCell Kernel.branchToken ++ (.word (.calculation (.stack .swap)) :: compileBack
      ++ (measure ++ fillIn))

end ControlWord

/-! ## What they do -/

section Words

open ControlWord

variable {old : Memory} {hs : List Header} {draft : Draft} {input : List Char}
  {data cells before between after : List Cell} {x y : Cell} {s s₁ s' : Scene}
  {l l' : List Instruction}

theorem Runs.append (h : Runs old l s s₁) (h' : Runs old l' s₁ s') : Runs old (l ++ l') s s' := by
  induction h with
  | nil => exact h'
  | word hp _ ih => exact .word hp (ih h')
  | lit _ ih => exact .lit (ih h')

theorem runs_compileCell (hw : old.WellFormed hs) :
    Runs old (compileCell x) (.drafting old draft input data cells)
      (.drafting old draft input data (cells ++ [x])) :=
  .lit (.word (draft_comma hw) .nil)

theorem runs_leaveOpen (hw : old.WellFormed hs) :
    Runs old leaveOpen (.drafting old draft input data cells)
      (.drafting old draft input (.int (old.draftEnd cells) :: data) (cells ++ [.int 0])) :=
  .word draft_here (runs_compileCell hw)

theorem runs_measure :
    Runs old measure
      (.drafting old draft input (.int (old.draftEnd before) :: data) (before ++ x :: after))
      (.drafting old draft input (.int (after.length + 1) :: .int (old.draftEnd before) :: data)
        (before ++ x :: after)) := by
  -- the distance is counted from the cell that it stands in
  have hdistance : old.draftEnd (before ++ x :: after) - old.draftEnd before =
      after.length + 1 := by
    simp only [Memory.draftEnd, List.length_append, List.length_cons]
    omega
  rw [← hdistance]
  exact .word (draft_calculation rfl) (.word draft_here (.word (draft_calculation rfl)
    (.word (draft_calculation rfl) .nil)))

theorem runs_fillIn (hw : old.WellFormed hs) :
    Runs old fillIn
      (.drafting old draft input (y :: .int (old.draftEnd before) :: data) (before ++ x :: after))
      (.drafting old draft input data (before ++ y :: after)) :=
  .word (draft_calculation rfl) (.word (draft_store hw) .nil)

theorem runs_compileBack (hw : old.WellFormed hs) (draft : Draft) (input : List Char)
    (data before after : List Cell) :
    Runs old compileBack
      (.drafting old draft input (.int (old.draftEnd before) :: data) (before ++ after))
      (.drafting old draft input data (before ++ after ++ [.int (-after.length)])) := by
  have hdistance : old.draftEnd before - old.draftEnd (before ++ after) = -after.length := by
    simp only [Memory.draftEnd, List.length_append]
    omega
  rw [← hdistance]
  exact .word draft_here (.word (draft_calculation rfl) (.word (draft_comma hw) .nil))

/-- `RECURSE` compiles the word that is being defined. -/
theorem runs_recurse (hw : old.WellFormed hs) :
    Runs old (thread recurseWord) (.drafting old draft input data cells)
      (.drafting old draft input data (cells ++ [.token (old.here + 3)])) :=
  .word draft_latest (.word draft_toCode (.word (draft_comma hw) .nil))

/-- `IF` and `WHILE` compile a conditional branch, and leave open where it leads. -/
theorem runs_if (hw : old.WellFormed hs) :
    Runs old (thread ifWord) (.drafting old draft input data cells)
      (.drafting old draft input
        (.int (old.draftEnd (cells ++ [Kernel.branchFalseToken])) :: data)
        (cells ++ [Kernel.branchFalseToken] ++ [.int 0])) :=
  (runs_compileCell hw).append (runs_leaveOpen hw)

/-- `THEN` lets a branch lead to the end. -/
theorem runs_then (hw : old.WellFormed hs) (draft : Draft) (input : List Char)
    (data before : List Cell) (x : Cell) (after : List Cell) :
    Runs old (thread thenWord)
      (.drafting old draft input (.int (old.draftEnd before) :: data) (before ++ x :: after))
      (.drafting old draft input data (before ++ .int (after.length + 1) :: after)) :=
  runs_measure.append (runs_fillIn hw)

/-- `ELSE` compiles a branch, and lets the one of `IF` lead behind it. -/
theorem runs_else (hw : old.WellFormed hs) (draft : Draft) (input : List Char)
    (data before : List Cell) (x : Cell) (after : List Cell) :
    Runs old (thread elseWord)
      (.drafting old draft input (.int (old.draftEnd before) :: data) (before ++ x :: after))
      (.drafting old draft input
        (.int (old.draftEnd
          (before ++ .int (after.length + 3) :: after ++ [Kernel.branchToken])) :: data)
        (before ++ .int (after.length + 3) :: after ++ [Kernel.branchToken] ++ [.int 0])) := by
  -- two more cells than to the end: the branch that is compiled next, and its distance
  have hthree : (after.length + 3 : Int) = after.length + 1 + 2 := by omega
  rw [hthree]
  exact runs_measure.append (.lit (.word (draft_calculation rfl)
    ((runs_fillIn hw).append ((runs_compileCell hw).append (runs_leaveOpen hw)))))

/-- `BEGIN` notes where a loop begins. -/
theorem runs_begin : Runs old (thread beginWord) (.drafting old draft input data cells)
    (.drafting old draft input (.int (old.draftEnd cells) :: data) cells) :=
  .word draft_here .nil

/-- `UNTIL` and `AGAIN` compile a branch back to where the loop begins. -/
theorem runs_branchBack (hw : old.WellFormed hs) (branch : Cell) :
    Runs old (compileCell branch ++ compileBack)
      (.drafting old draft input (.int (old.draftEnd before) :: data) (before ++ after))
      (.drafting old draft input data
        (before ++ (after ++ [branch, .int (-(after.length + 1))]))) := by
  have hback := runs_compileBack hw draft input data before (after ++ [branch])
  have hfrom : before ++ (after ++ [branch]) = before ++ after ++ [branch] := by simp
  have hto : before ++ (after ++ [branch]) ++ [.int (-(after ++ [branch]).length)] =
      before ++ (after ++ [branch, .int (-(after.length + 1))]) := by simp
  rw [hto, hfrom] at hback
  exact (runs_compileCell hw).append hback

/-- `REPEAT` compiles a branch back to where the loop begins, and lets the one of `WHILE` lead
behind it. -/
theorem runs_repeat (hw : old.WellFormed hs) (draft : Draft) (input : List Char)
    (data before between : List Cell) (x : Cell) (after : List Cell) :
    Runs old (thread repeatWord)
      (.drafting old draft input
        (.int (old.draftEnd (before ++ between)) :: .int (old.draftEnd before) :: data)
        (before ++ between ++ x :: after))
      (.drafting old draft input data (before ++ between ++ .int (after.length + 3) ::
        (after ++ [Kernel.branchToken, .int (-(between.length + after.length + 2))]))) := by
  have hback := runs_compileBack hw draft input (.int (old.draftEnd (before ++ between)) :: data)
    before (between ++ x :: (after ++ [Kernel.branchToken]))
  have hfrom : before ++ (between ++ x :: (after ++ [Kernel.branchToken])) =
      before ++ between ++ x :: after ++ [Kernel.branchToken] := by simp
  have hdistance : -((between ++ x :: (after ++ [Kernel.branchToken])).length : Int) =
      -(between.length + after.length + 2) := by
    simp only [List.length_append, List.length_cons, List.length_nil]
    omega
  rw [hdistance, hfrom] at hback
  -- by now the branch back stands between the open cell and the end
  have hthen := runs_then hw draft input data (before ++ between) x
    (after ++ [Kernel.branchToken, .int (-(between.length + after.length + 2))])
  have hlength : ((after ++ [Kernel.branchToken,
      Cell.int (-(between.length + after.length + 2))]).length : Int) + 1 = after.length + 3 := by
    simp only [List.length_append, List.length_cons, List.length_nil]
    omega
  have hopen : before ++ between ++ x ::
      (after ++ [Kernel.branchToken, .int (-(between.length + after.length + 2))]) =
      before ++ between ++ x :: after ++ [Kernel.branchToken] ++
        [.int (-(between.length + after.length + 2))] := by simp
  rw [hlength, hopen] at hthen
  exact (runs_compileCell hw).append (.word (draft_calculation rfl) (hback.append hthen))

end Words

end ThreadedForth
