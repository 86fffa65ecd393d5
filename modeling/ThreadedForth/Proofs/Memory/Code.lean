import ThreadedForth.Kernel.Layout
import ThreadedForth.Memory.Basic

/-!
# Threaded code in memory

That cells stand in memory one after the other (`Memory.HasCode`), and that a primitive still has
the code field that the kernel gave it (`Memory.Intact`).
-/

namespace ThreadedForth

namespace Kernel

/-- The address of the code field of a primitive. -/
def codeField (p : Primitive) : Int := header p + 3

end Kernel

namespace Memory

/-- These cells stand in memory from an address on. -/
def HasCode (m : Memory) : Int → List Cell → Prop
  | _, [] => True
  | addr, x :: xs => m.get (.int addr) = .ok x ∧ m.HasCode (addr + 1) xs

/-- The code field of a primitive holds its behaviour. -/
def Intact (m : Memory) (p : Primitive) : Prop :=
  m.get (.int (Kernel.codeField p)) = .ok (.native (.primitive p))

variable {m : Memory}

@[simp] theorem hasCode_nil (addr : Int) : m.HasCode addr [] := trivial

@[simp] theorem hasCode_cons {addr : Int} {x : Cell} {xs : List Cell} :
    m.HasCode addr (x :: xs) ↔ m.get (.int addr) = .ok x ∧ m.HasCode (addr + 1) xs := Iff.rfl

@[simp] theorem hasCode_append {addr : Int} {xs ys : List Cell} :
    m.HasCode addr (xs ++ ys) ↔ m.HasCode addr xs ∧ m.HasCode (addr + xs.length) ys := by
  induction xs generalizing addr with
  | nil => simp
  | cons x xs ih =>
    have haddr : addr + 1 + (xs.length : Int) = addr + ((xs.length : Int) + 1) := by omega
    simp [ih, haddr, and_assoc]

/-- Code stands where all cells stand that the code is made of. -/
theorem HasCode.of_retains {old : Memory} (h : ∀ addr x, old.get addr = .ok x → m.get addr = .ok x)
    {addr : Int} {xs : List Cell} (hc : old.HasCode addr xs) : m.HasCode addr xs := by
  induction xs generalizing addr with
  | nil => trivial
  | cons x xs ih => exact ⟨h _ _ hc.1, ih hc.2⟩

end Memory

end ThreadedForth
