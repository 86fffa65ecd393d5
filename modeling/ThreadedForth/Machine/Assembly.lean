import ThreadedForth.Machine.Thread

/-!
# Assembly

Making a word from the outside, cell by cell, without interpreting a text.
-/

namespace ThreadedForth.Action

/-- Appends the cells of a body, with the execution token of a word for each text. -/
def appendBody : List Cell → Action Unit
  | [] => return
  | .text name :: body => do
    append (← tokenOf name)
    appendBody body
  | x :: body => do
    append x
    appendBody body

/-- Makes a word from the names and cells of its body, and gives the address of its header. -/
def assemble (name : String) (body : List Cell) (flags : Nat) (remark : String) : Action Int := do
  let header := (← get).memory.here
  modifyMemory (·.allocateHeader name flags)
  append (.native .enter)
  appendBody body
  append Kernel.exitToken
  if remark ≠ "" then modify fun m => { m with remarks := (header, remark) :: m.remarks }
  return header

end ThreadedForth.Action
