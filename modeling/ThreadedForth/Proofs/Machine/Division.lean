import ThreadedForth.Machine.Behaviour
import ThreadedForth.Proofs.Machine.Action

/-!
# Division

What the three words make of two integers that divide. The quotient is rounded down, so that the
remainder has the sign of the divisor (`FloorDivision`), and the words agree on both. They refuse a
divisor of zero themselves, whatever the division of the host makes of it (`ArithmeticWord.runOver`).

* `FloorDivision.of_ne_zero` — there is a quotient by any integer but zero.
* `ArithmeticWord.division_consistent` — what the words do on any two cells.
-/

namespace ThreadedForth

/-! ## Quotients and remainders -/

/-- The integer `a` divided by `b` gives the quotient `q` and the remainder `r`, rounded down. -/
structure FloorDivision (a b q r : Int) : Prop where
  sum : a = q * b + r
  /-- the remainder has the sign of the divisor -/
  sign : r = 0 ∨ r.sign = b.sign
  small : r.natAbs < b.natAbs

namespace FloorDivision

variable {a b q r : Int}

/-- The opposite of both integers has the same quotient, and the opposite remainder. -/
theorem neg (h : FloorDivision a b q r) : FloorDivision (-a) (-b) q (-r) where
  sum := by
    rw [h.sum, Int.mul_neg]
    omega
  sign := by
    rcases h.sign with hr | hr
    · exact .inl (by rw [hr, Int.neg_zero])
    · exact .inr (by rw [Int.sign_neg, Int.sign_neg, hr])
  small := by simpa using h.small

theorem of_pos (hb : 0 < b) : FloorDivision a b (a.fdiv b) (a.fmod b) := by
  have hr := Int.fmod_nonneg_of_pos a hb
  have hlt := Int.fmod_lt_of_pos a hb
  refine ⟨(Int.fdiv_mul_add_fmod a b).symm, ?_, by omega⟩
  rcases Int.le_iff_eq_or_lt.mp hr with hr | hr
  · exact .inl hr.symm
  · exact .inr (by rw [Int.sign_eq_one_of_pos hr, Int.sign_eq_one_of_pos hb])

/-- There is a quotient by any integer but zero. -/
theorem of_ne_zero (hb : b ≠ 0) : FloorDivision a b (a.fdiv b) (a.fmod b) := by
  rcases Int.lt_or_gt_of_ne hb with hneg | hpos
  · have h := (of_pos (a := -a) (Int.neg_pos_of_neg hneg)).neg
    rwa [Int.neg_neg, Int.neg_neg, Int.neg_fdiv_neg, Int.neg_fmod_neg, Int.neg_neg] at h
  · exact of_pos hpos

end FloorDivision

/-! ## Operands -/

namespace DataAction

variable {x y : Cell} {a b : Int} {data : List Cell}

theorem popInt_of_int? (op : String) (hx : x.int? = some a) :
    popInt op (x :: data) = .ok a data := by
  have hpop : pop (x :: data) = .ok x data := rfl
  rw [popInt, Action.bind_of_ok hpop, Cell.expectInt, hx]
  rfl

theorem popInt_of_none (op : String) (hx : x.int? = none) :
    popInt op (x :: data) = .error (.expected op .integer x) data := by
  have hpop : pop (x :: data) = .ok x data := rfl
  rw [popInt, Action.bind_of_ok hpop, Cell.expectInt, hx]
  rfl

/-- A word that divides takes its divisor first, and then finds it to be zero or not. -/
theorem divide_of_ints (op : String) (f : Int → Int → Int) (hx : x.int? = some a)
    (hy : y.int? = some b) :
    divide op f (y :: x :: data) =
      if b = 0 then .error (.divisionByZero op) data else .ok () (.int (f a b) :: data) := by
  rw [divide, Action.bind_of_ok (popInt_of_int? op hy), Action.bind_of_ok (popInt_of_int? op hx)]
  split <;> rfl

theorem divide_congr {f g : Int → Int → Int} (op : String)
    (hfg : ∀ a b, b ≠ 0 → f a b = g a b) : divide op f = divide op g := by
  refine bind_congr fun b => bind_congr fun a => ?_
  by_cases hb : b = 0
  · rw [if_pos hb, if_pos hb]
    rfl
  · rw [hfg a b hb]

end DataAction

namespace ArithmeticWord

open DataAction

/-! ## The words on stacks -/

/-- The words that divide. -/
def Divides (w : ArithmeticWord) : Prop := w = .div ∨ w = .mod ∨ w = .divMod

/-- Runs a word, with a division and a remainder of the host that it divides by. -/
def runOver (hostDiv hostMod : Int → Int → Int) (w : ArithmeticWord) : DataAction Unit :=
  match w with
  | .div => divide w.name hostDiv
  | .mod => divide w.name hostMod
  | .divMod => do
    let b ← popInt w.name
    if b = 0 then throw (.divisionByZero w.name)
    let a ← popInt w.name
    pushInt (hostMod a b)
    pushInt (hostDiv a b)
  | w => w.run

variable {x y : Cell} {a b : Int} {data : List Cell} {w : ArithmeticWord}
  {hostDiv hostMod hostDiv' hostMod' : Int → Int → Int}

/-- The words divide as the host does if it rounds down. -/
theorem runOver_floor (w : ArithmeticWord) : w.runOver Int.fdiv Int.fmod = w.run := by
  cases w <;> rfl

/-- The words never ask the host for a quotient by zero, so it does not matter what that would be. -/
theorem runOver_congr
    (h : ∀ a b, b ≠ 0 → hostDiv a b = hostDiv' a b ∧ hostMod a b = hostMod' a b)
    (w : ArithmeticWord) : w.runOver hostDiv hostMod = w.runOver hostDiv' hostMod' := by
  cases w with
  | div => exact divide_congr _ fun a b hb => (h a b hb).1
  | mod => exact divide_congr _ fun a b hb => (h a b hb).2
  | divMod =>
    refine bind_congr fun b => ?_
    by_cases hb : b = 0
    · rw [if_pos hb, if_pos hb]
      rfl
    · rw [if_neg hb, if_neg hb]
      refine bind_congr fun a => ?_
      rw [(h a b hb).1, (h a b hb).2]
  | _ => rfl

/-- The third word has the remainder below the quotient. -/
theorem run_divMod_of_ne_zero (hx : x.int? = some a) (hy : y.int? = some b) (hb : b ≠ 0) :
    divMod.run (y :: x :: data) = .ok () (.int (a.fdiv b) :: .int (a.fmod b) :: data) := by
  rw [run, Action.bind_of_ok (popInt_of_int? _ hy), if_neg hb]
  exact Action.bind_of_ok (popInt_of_int? _ hx)

/-- Two of the words have taken both integers by then, the third has taken the divisor only. -/
theorem run_of_zero (hw : w.Divides) (hx : x.int? = some a) (hy : y.int? = some 0) :
    ∃ left, w.run (y :: x :: data) = .error (.divisionByZero w.name) left := by
  rcases hw with rfl | rfl | rfl
  · exact ⟨data, (divide_of_ints _ _ hx hy).trans (if_pos rfl)⟩
  · exact ⟨data, (divide_of_ints _ _ hx hy).trans (if_pos rfl)⟩
  · rw [run, Action.bind_of_ok (popInt_of_int? _ hy), if_pos rfl]
    exact ⟨x :: data, rfl⟩

/-- The words want a divisor that is an integer, whatever lies below it. -/
theorem run_of_no_divisor (hw : w.Divides) (hy : y.int? = none) :
    w.run (y :: data) = .error (.expected w.name .integer y) data := by
  rcases hw with rfl | rfl | rfl <;> exact Action.bind_of_error (popInt_of_none _ hy)

theorem run_of_no_dividend (hw : w.Divides) (hx : x.int? = none) (hy : y.int? = some b)
    (hb : b ≠ 0) : w.run (y :: x :: data) = .error (.expected w.name .integer x) data := by
  rcases hw with rfl | rfl | rfl
  · rw [run, divide, Action.bind_of_ok (popInt_of_int? _ hy)]
    exact Action.bind_of_error (popInt_of_none _ hx)
  · rw [run, divide, Action.bind_of_ok (popInt_of_int? _ hy)]
    exact Action.bind_of_error (popInt_of_none _ hx)
  · rw [run, Action.bind_of_ok (popInt_of_int? _ hy), if_neg hb]
    exact Action.bind_of_error (popInt_of_none _ hx)

/-! ## The words on machines -/

/-- On every machine with one stack the word leaves another, and changes nothing else. -/
def Yields (w : ArithmeticWord) (before after : List Cell) : Prop :=
  ∀ addr invoke execute bound (m : Machine), m.data = before →
    (Native.primitive (.calculation (.arithmetic w))).perform addr invoke execute bound m =
      .ok () { m with data := after }

/-- On every machine with the stack the word fails, and changes nothing but the stack. -/
def Rejects (w : ArithmeticWord) (before : List Cell) (f : Fault) : Prop :=
  ∀ addr invoke execute bound (m : Machine), m.data = before → ∃ left,
    (Native.primitive (.calculation (.arithmetic w))).perform addr invoke execute bound m =
      .error (.fault f) { m with data := left }

theorem yields_of_run {before after : List Cell} (h : w.run before = .ok () after) :
    w.Yields before after := by
  rintro addr invoke execute bound m rfl
  have hdata : Action.onData (Calculation.arithmetic w).run m = .ok "" { m with data := after } := by
    rw [Action.onData, Calculation.run, Action.bind_of_ok h]
    rfl
  exact Action.bind_of_ok hdata

theorem rejects_of_run {before left : List Cell} {f : Fault}
    (h : w.run before = .error f left) : w.Rejects before f := by
  rintro addr invoke execute bound m rfl
  have hdata : Action.onData (Calculation.arithmetic w).run m =
      .error (.fault f) { m with data := left } := by
    rw [Action.onData, Calculation.run, Action.bind_of_error h]
  exact ⟨left, Action.bind_of_error hdata⟩

/-- **The words that divide agree** on any two cells, and on all signs. -/
theorem division_consistent (x y : Cell) (data : List Cell) :
    (∀ a b, x.int? = some a → y.int? = some b → b ≠ 0 → ∃ q r, FloorDivision a b q r ∧
      div.Yields (y :: x :: data) (.int q :: data) ∧
      mod.Yields (y :: x :: data) (.int r :: data) ∧
      divMod.Yields (y :: x :: data) (.int q :: .int r :: data)) ∧
    (∀ w : ArithmeticWord, w.Divides → ∀ a, x.int? = some a → y.int? = some 0 →
      ∃ f, f.kind = .general ∧ w.Rejects (y :: x :: data) f) ∧
    (∀ w : ArithmeticWord, w.Divides → x.int? = none ∨ y.int? = none → y.int? ≠ some 0 →
      ∃ f, f.kind = .cellType ∧ w.Rejects (y :: x :: data) f) ∧
    ∀ hostDiv hostMod : Int → Int → Int,
      (∀ a b, b ≠ 0 → hostDiv a b = a.fdiv b ∧ hostMod a b = a.fmod b) →
      ∀ w : ArithmeticWord, w.runOver hostDiv hostMod = w.run := by
  refine ⟨fun a b hx hy hb => ?_, fun w hw a hx hy => ?_, fun w hw hnone hzero => ?_,
    fun hostDiv hostMod h w => (runOver_congr h w).trans (runOver_floor w)⟩
  · have hdivide (op : String) (f : Int → Int → Int) :
        divide op f (y :: x :: data) = .ok () (.int (f a b) :: data) :=
      (divide_of_ints op f hx hy).trans (if_neg hb)
    exact ⟨a.fdiv b, a.fmod b, .of_ne_zero hb, yields_of_run (hdivide _ _),
      yields_of_run (hdivide _ _), yields_of_run (run_divMod_of_ne_zero hx hy hb)⟩
  · obtain ⟨left, hrun⟩ := run_of_zero hw hx hy
    exact ⟨_, rfl, rejects_of_run hrun⟩
  · cases hy : y.int? with
    | none => exact ⟨_, rfl, rejects_of_run (run_of_no_divisor hw hy)⟩
    | some b =>
      have hx : x.int? = none := hnone.resolve_right (by simp [hy])
      have hb : b ≠ 0 := fun hb => hzero (by rw [hy, hb])
      exact ⟨_, rfl, rejects_of_run (run_of_no_dividend hw hx hy hb)⟩

/-- Minus seven by two, by zero, and by a Boolean. -/
theorem division_consistent_minus_seven :
    (∃ q r, FloorDivision (-7) 2 q r ∧
      div.Yields [.int 2, .int (-7), .text "x"] [.int q, .text "x"] ∧
      mod.Yields [.int 2, .int (-7), .text "x"] [.int r, .text "x"] ∧
      divMod.Yields [.int 2, .int (-7), .text "x"] [.int q, .int r, .text "x"]) ∧
    (∃ f, f.kind = .general ∧ divMod.Rejects [.int 0, .int (-7)] f) ∧
    (∃ f, f.kind = .cellType ∧ mod.Rejects [.bool true, .int (-7)] f) ∧
    div.runOver (fun a b => if b = 0 then a else a.fdiv b) Int.fmod = div.run := by
  obtain ⟨hdivide, -, -, -⟩ := division_consistent (.int (-7)) (.int 2) [.text "x"]
  obtain ⟨-, hzero, -, hhost⟩ := division_consistent (.int (-7)) (.int 0) []
  obtain ⟨-, -, hkind, -⟩ := division_consistent (.int (-7)) (.bool true) []
  exact ⟨hdivide (-7) 2 rfl rfl (by decide), hzero _ (.inr (.inr rfl)) (-7) rfl rfl,
    hkind _ (.inr (.inl rfl)) (.inr rfl) nofun, hhost _ _ (fun a b hb => ⟨if_neg hb, rfl⟩) _⟩

end ArithmeticWord

end ThreadedForth
