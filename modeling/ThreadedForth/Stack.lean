import ThreadedForth.Fault

/-!
# Stacks

A stack is a list with its top first. Taking from an empty stack is a fault that names the stack.
-/

namespace ThreadedForth.Stack

variable {α : Type}

/-- The item `depth` places below the top. -/
def look (name : String) (depth : Nat) (items : List α) : Except Fault α :=
  match items[depth]? with
  | some x => .ok x
  | none => .error (.underflow name)

/-- The item at a depth; a depth below zero counts from the bottom, the bottom itself being at minus
one, and to count past the top is a defect. -/
def peek (name : String) (depth : Int) (items : List α) : Except Stop α :=
  match depth with
  | .ofNat n => look name n items
  | .negSucc n =>
    match items.reverse[n]? with
    | some x => .ok x
    | none => .error (.defect .noItem)

/-- Takes the top off a stack. -/
def pop (name : String) : EStateM Fault (List α) α := do
  match (← get) with
  | [] => throw (.underflow name)
  | x :: items =>
    set items
    return x

/-- Puts an item on a stack. -/
def push (x : α) : EStateM Fault (List α) Unit := modify (x :: ·)

@[simp] theorem pop_nil (name : String) :
    pop (α := α) name [] = .error (.underflow name) [] := rfl

@[simp] theorem pop_cons (name : String) (x : α) (items : List α) :
    pop name (x :: items) = .ok x items := rfl

@[simp] theorem push_apply (x : α) (items : List α) : push x items = .ok () (x :: items) := rfl

/-- Whether a stack has more than `n` items. -/
def deeperThan (n : Nat) (items : List α) : Bool := ! (items.drop n).isEmpty

/-- A stack is deeper than `n` exactly when its height says so. -/
theorem deeperThan_eq_true_iff {n : Nat} {items : List α} :
    deeperThan n items = true ↔ n < items.length := by
  simp [deeperThan]

end ThreadedForth.Stack
