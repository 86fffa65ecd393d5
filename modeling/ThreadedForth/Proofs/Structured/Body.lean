import ThreadedForth.Proofs.Memory.Code

/-!
# Structured bodies and their threaded code

The body of a word, as its structure has it (`Body`), and the cells that it is compiled to
(`Body.code`). A branch is followed by a cell with the distance from that cell to where it leads, so
the distances depend on the sizes of all that lies between.
-/

namespace ThreadedForth

/-- The body of a word. -/
inductive Body
  /-- nothing -/
  | empty
  /-- pushes a cell -/
  | literal (x : Cell)
  /-- runs the word with its code field at an address -/
  | call (addr : Int)
  /-- runs the word that the body belongs to -/
  | recurse
  /-- leaves the word -/
  | exit
  | seq (a b : Body)
  /-- `IF a THEN` -/
  | ifThen (a : Body)
  /-- `IF a ELSE b THEN` -/
  | ifElse (a b : Body)
  /-- `BEGIN a UNTIL` -/
  | untilLoop (a : Body)
  /-- `BEGIN a AGAIN` -/
  | againLoop (a : Body)
  /-- `BEGIN a WHILE b REPEAT` -/
  | whileLoop (a b : Body)

namespace Body

/-- How many cells a body is compiled to. -/
def size : Body → Nat
  | empty => 0
  | literal _ => 2
  | call _ => 1
  | recurse => 1
  | exit => 1
  | seq a b => a.size + b.size
  | ifThen a => 2 + a.size
  | ifElse a b => 2 + a.size + (2 + b.size)
  | untilLoop a => a.size + 2
  | againLoop a => a.size + 2
  | whileLoop a b => a.size + (2 + (b.size + 2))

/-- The cells that a body is compiled to, in a word with its code field at `self`. -/
def code (self : Int) : Body → List Cell
  | empty => []
  | literal x => [Kernel.litToken, x]
  | call addr => [.token addr]
  | recurse => [.token self]
  | exit => [Kernel.exitToken]
  | seq a b => a.code self ++ b.code self
  | ifThen a => [Kernel.branchFalseToken, .int (a.size + 1)] ++ a.code self
  | ifElse a b =>
    [Kernel.branchFalseToken, .int (a.size + 3)] ++ a.code self
      ++ ([Kernel.branchToken, .int (b.size + 1)] ++ b.code self)
  | untilLoop a => a.code self ++ [Kernel.branchFalseToken, .int (-(a.size + 1))]
  | againLoop a => a.code self ++ [Kernel.branchToken, .int (-(a.size + 1))]
  | whileLoop a b =>
    a.code self ++ ([Kernel.branchFalseToken, .int (b.size + 3)]
      ++ (b.code self ++ [Kernel.branchToken, .int (-(a.size + b.size + 3))]))

/-- The words that a body runs, by the addresses of their code fields. -/
def calls : Body → List Int
  | call addr => [addr]
  | seq a b => a.calls ++ b.calls
  | ifThen a => a.calls
  | ifElse a b => a.calls ++ b.calls
  | untilLoop a => a.calls
  | againLoop a => a.calls
  | whileLoop a b => a.calls ++ b.calls
  | empty | literal _ | recurse | exit => []

@[simp] theorem length_code (self : Int) (s : Body) : (s.code self).length = s.size := by
  induction s with
  | empty => rfl
  | literal x => rfl
  | call addr => rfl
  | recurse => rfl
  | exit => rfl
  | seq a b iha ihb => simp [code, size, iha, ihb]
  | ifThen a iha => simp [code, size, iha]; omega
  | ifElse a b iha ihb => simp [code, size, iha, ihb]; omega
  | untilLoop a iha => simp [code, size, iha]
  | againLoop a iha => simp [code, size, iha]
  | whileLoop a b iha ihb => simp [code, size, iha, ihb]; omega

end Body

/-! ## Where the parts of a structure stand -/

namespace Memory.HasCode

variable {m : Memory} {addr self : Int} {a b : Body}

theorem seq (h : m.HasCode addr ((Body.seq a b).code self)) :
    m.HasCode addr (a.code self) ∧ m.HasCode (addr + a.size) (b.code self) := by
  rw [Body.code, hasCode_append, Body.length_code] at h
  exact h

theorem ifThen (h : m.HasCode addr ((Body.ifThen a).code self)) :
    m.HasCode addr [Kernel.branchFalseToken, .int (a.size + 1)] ∧
      m.HasCode (addr + 2) (a.code self) := by
  rw [Body.code, hasCode_append] at h
  exact h

theorem ifElse (h : m.HasCode addr ((Body.ifElse a b).code self)) :
    m.HasCode addr [Kernel.branchFalseToken, .int (a.size + 3)] ∧
      m.HasCode (addr + 2) (a.code self) ∧
      m.HasCode (addr + 2 + a.size) [Kernel.branchToken, .int (b.size + 1)] ∧
      m.HasCode (addr + 2 + a.size + 2) (b.code self) := by
  rw [Body.code, hasCode_append, hasCode_append, hasCode_append] at h
  obtain ⟨⟨htest, ha⟩, hjump, hb⟩ := h
  have hlength : (([Kernel.branchFalseToken, .int (a.size + 3)] ++ a.code self).length : Int) =
      2 + a.size := by
    rw [List.length_append, Body.length_code]
    simp
  rw [hlength, ← Int.add_assoc] at hjump hb
  exact ⟨htest, ha, hjump, hb⟩

theorem untilLoop (h : m.HasCode addr ((Body.untilLoop a).code self)) :
    m.HasCode addr (a.code self) ∧
      m.HasCode (addr + a.size) [Kernel.branchFalseToken, .int (-(a.size + 1))] := by
  rw [Body.code, hasCode_append, Body.length_code] at h
  exact h

theorem againLoop (h : m.HasCode addr ((Body.againLoop a).code self)) :
    m.HasCode addr (a.code self) ∧
      m.HasCode (addr + a.size) [Kernel.branchToken, .int (-(a.size + 1))] := by
  rw [Body.code, hasCode_append, Body.length_code] at h
  exact h

theorem whileLoop (h : m.HasCode addr ((Body.whileLoop a b).code self)) :
    m.HasCode addr (a.code self) ∧
      m.HasCode (addr + a.size) [Kernel.branchFalseToken, .int (b.size + 3)] ∧
      m.HasCode (addr + a.size + 2) (b.code self) ∧
      m.HasCode (addr + a.size + 2 + b.size)
        [Kernel.branchToken, .int (-(a.size + b.size + 3))] := by
  rw [Body.code, hasCode_append, hasCode_append, hasCode_append, Body.length_code,
    Body.length_code] at h
  exact h

end Memory.HasCode

end ThreadedForth
