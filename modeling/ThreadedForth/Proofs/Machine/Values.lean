import ThreadedForth.Machine.Thread
import ThreadedForth.Proofs.Machine.Triple

/-!
# Calculations on stacks of values

A word that works on the data stack alone leaves cells of the kinds that it found there, and values
(`Calculation.leaves`). So it does when it fails.
-/

namespace ThreadedForth

/-- All cells of a stack are of a kind. -/
def AllOf (V : Cell → Prop) (data : List Cell) : Prop := ∀ x ∈ data, V x

/-- No condition. -/
def Any {α : Type} (_ : α) : Prop := True

variable {α β : Type} {V : Cell → Prop} {data : List Cell} {x : Cell}

theorem AllOf.cons (hx : V x) (hdata : AllOf V data) : AllOf V (x :: data) :=
  List.forall_mem_cons.mpr ⟨hx, hdata⟩

theorem AllOf.head (h : AllOf V (x :: data)) : V x := (List.forall_mem_cons.mp h).1

theorem AllOf.tail (h : AllOf V (x :: data)) : AllOf V data := (List.forall_mem_cons.mp h).2

namespace DataAction

/-- From a stack of cells of a kind an action leaves such a stack, whether it ends well or fails,
and its result is of another kind. -/
def Leaves (V : Cell → Prop) (act : DataAction α) (Q : α → Prop) : Prop :=
  Ensures (AllOf V) act (fun x data => AllOf V data ∧ Q x) fun _ data => AllOf V data

variable {Q : α → Prop} {R : β → Prop} {act : DataAction α} {op : String}

theorem leaves_pure {x : α} (hx : Q x) : Leaves V (pure x) Q := fun _ hd => ⟨hd, hx⟩

theorem leaves_throw (f : Fault) : Leaves V (throw f : DataAction α) Q := fun _ hd => hd

theorem Leaves.bind {f : α → DataAction β} (ha : Leaves V act Q)
    (hf : ∀ x, Q x → Leaves V (f x) R) : Leaves V (act >>= f) R :=
  Ensures.bind ha fun x data hd => hf x hd.2 data hd.1

theorem leaves_lift {o : Except Fault α} (ho : ∀ x, o = .ok x → Q x) : Leaves V (liftM o) Q := by
  intro data hd
  cases o with
  | ok x => exact ⟨hd, ho x rfl⟩
  | error f => exact hd

theorem leaves_pop : Leaves V pop V := by
  intro data hd
  cases data with
  | nil => exact hd
  | cons x data => exact ⟨hd.tail, hd.head⟩

theorem leaves_push (hx : V x) : Leaves V (push x) Any := fun _ hd => ⟨hd.cons hx, trivial⟩

theorem leaves_get_bind {f : List Cell → DataAction β}
    (hf : ∀ data, AllOf V data → Leaves V (f data) R) : Leaves V (get >>= f) R :=
  fun data hd => hf data hd data hd

theorem leaves_look (depth : Nat) : Leaves V (look depth) V := by
  refine leaves_get_bind fun data hd => ?_
  rw [Stack.look]
  cases hx : data[depth]? with
  | none => exact leaves_throw _
  | some x => exact leaves_pure (hd x (List.mem_of_getElem? hx))

theorem leaves_popInt : Leaves V (popInt op) Any :=
  leaves_pop.bind fun _ _ => leaves_lift fun _ _ => trivial

theorem leaves_popText : Leaves V (popText op) Any :=
  leaves_pop.bind fun _ _ => leaves_lift fun _ _ => trivial

theorem leaves_popToken : Leaves V (popToken op) Any :=
  leaves_pop.bind fun _ _ => leaves_lift fun _ _ => trivial

theorem leaves_popTruth : Leaves V (popTruth op) Any :=
  leaves_pop.bind fun _ _ => leaves_lift fun _ _ => trivial

/-- An integer is given as the cell that it was. -/
theorem leaves_popIntCell :
    Leaves V (popIntCell op) fun x => V x ∧ ∃ n, x.int? = some n := by
  refine leaves_pop.bind fun x hx => (leaves_lift (Q := fun n => x.int? = some n) fun n hn => ?_).bind
    fun n hn => leaves_pure ⟨hx, n, hn⟩
  rw [Cell.expectInt] at hn
  cases hint : x.int? with
  | none =>
    rw [hint] at hn
    cases hn
  | some k =>
    rw [hint] at hn
    rw [Except.ok.inj hn]

end DataAction

open DataAction

/-! ## The words -/

variable {op : String}

theorem leaves_choose (precedes : Int → Int → Bool) :
    Leaves V (DataAction.choose op precedes) Any := by
  refine leaves_popIntCell.bind fun b hb => leaves_popIntCell.bind fun a ha => ?_
  refine (leaves_lift (Q := Any) fun _ _ => trivial).bind fun n _ =>
    (leaves_lift (Q := Any) fun _ _ => trivial).bind fun m _ => leaves_push ?_
  by_cases hp : precedes n m = true
  · rw [if_pos hp]
    exact hb.1
  · rw [if_neg hp]
    exact ha.1

/-- A connective of two cells is a value. -/
theorem isValue_of_connect {truth : Bool → Bool → Bool} {bits : Int → Int → Int} {a b : Cell}
    (h : Cell.connect op truth bits a b = .ok x) : x.isValue = true := by
  cases a <;> cases b <;>
    simp only [Cell.connect, Cell.expectInt, Cell.int?, bind, Except.bind, pure, Except.pure,
      Except.ok.injEq, reduceCtorEq] at h <;>
    exact h ▸ rfl

section Words

variable (hV : ∀ x : Cell, x.isValue → V x)

include hV

theorem leaves_pushInt (n : Int) : Leaves V (pushInt n) Any := leaves_push (hV _ rfl)

theorem leaves_pushBool (b : Bool) : Leaves V (pushBool b) Any := leaves_push (hV _ rfl)

theorem leaves_calculate (op : String) (f : Int → Int → Int) : Leaves V (calculate op f) Any :=
  leaves_popInt.bind fun _ _ => leaves_popInt.bind fun _ _ => leaves_pushInt hV _

theorem leaves_divide (op : String) (f : Int → Int → Int) : Leaves V (divide op f) Any := by
  refine leaves_popInt.bind fun b _ => leaves_popInt.bind fun a _ => ?_
  by_cases hb : b = 0
  · rw [if_pos hb]
    exact (leaves_throw (Q := Any) _).bind fun _ _ => leaves_pushInt hV _
  · rw [if_neg hb]
    exact leaves_pushInt hV _

theorem leaves_change (op : String) (f : Int → Int) : Leaves V (change op f) Any :=
  leaves_popInt.bind fun _ _ => leaves_pushInt hV _

theorem leaves_compareInts (op : String) (holds : Int → Int → Bool) :
    Leaves V (compareInts op holds) Any :=
  leaves_popInt.bind fun _ _ => leaves_popInt.bind fun _ _ => leaves_pushBool hV _

theorem leaves_compareCells (holds : Cell → Cell → Bool) : Leaves V (compareCells holds) Any :=
  leaves_pop.bind fun _ _ => leaves_pop.bind fun _ _ => leaves_pushBool hV _

theorem leaves_combine (op : String) (truth : Bool → Bool → Bool) (bits : Int → Int → Int) :
    Leaves V (combine op truth bits) Any :=
  leaves_pop.bind fun _ _ => leaves_pop.bind fun _ _ =>
    (leaves_lift fun _ hx => hV _ (isValue_of_connect hx)).bind fun _ hx => leaves_push hx

theorem StackWord.leaves (w : StackWord) : Leaves V w.run Any := by
  cases w with
  | drop => exact leaves_pop.bind fun _ _ => leaves_pure trivial
  | dup => exact (leaves_look 0).bind fun _ hx => leaves_push hx
  | swap =>
    exact leaves_pop.bind fun _ hb => leaves_pop.bind fun _ ha =>
      (leaves_push hb).bind fun _ _ => leaves_push ha
  | «over» => exact (leaves_look 1).bind fun _ hx => leaves_push hx
  | rot =>
    exact leaves_pop.bind fun _ hc => leaves_pop.bind fun _ hb => leaves_pop.bind fun _ ha =>
      (leaves_push hb).bind fun _ _ => (leaves_push hc).bind fun _ _ => leaves_push ha
  | rotBack =>
    exact leaves_pop.bind fun _ hc => leaves_pop.bind fun _ hb => leaves_pop.bind fun _ ha =>
      (leaves_push hc).bind fun _ _ => (leaves_push ha).bind fun _ _ => leaves_push hb
  | nip => exact leaves_pop.bind fun _ hb => leaves_pop.bind fun _ _ => leaves_push hb
  | twoDup =>
    exact (leaves_look 0).bind fun _ hb => (leaves_look 1).bind fun _ ha =>
      (leaves_push ha).bind fun _ _ => leaves_push hb
  | twoDrop => exact leaves_pop.bind fun _ _ => leaves_pop.bind fun _ _ => leaves_pure trivial
  | twoSwap =>
    exact leaves_pop.bind fun _ hd => leaves_pop.bind fun _ hc => leaves_pop.bind fun _ hb =>
      leaves_pop.bind fun _ ha => (leaves_push hc).bind fun _ _ => (leaves_push hd).bind fun _ _ =>
        (leaves_push ha).bind fun _ _ => leaves_push hb
  | twoOver =>
    exact (leaves_look 3).bind fun _ ha => (leaves_look 2).bind fun _ hb =>
      (leaves_push ha).bind fun _ _ => leaves_push hb
  | dupTrue =>
    refine (leaves_look 0).bind fun x hx => (leaves_lift (Q := Any) fun _ _ => trivial).bind
      fun truth _ => ?_
    cases truth with
    | true => exact leaves_push hx
    | false => exact leaves_pure trivial
  | depth => exact leaves_get_bind fun _ _ => leaves_pushInt hV _

theorem ArithmeticWord.leaves (w : ArithmeticWord) : Leaves V w.run Any := by
  cases w with
  | add => exact leaves_calculate hV _ _
  | sub => exact leaves_calculate hV _ _
  | mul => exact leaves_calculate hV _ _
  | div => exact leaves_divide hV _ _
  | mod => exact leaves_divide hV _ _
  | min => exact leaves_choose _
  | max => exact leaves_choose _
  | divMod =>
    refine leaves_popInt.bind fun b _ => ?_
    have hrest : Leaves V (popInt ArithmeticWord.divMod.name >>= fun a =>
        pushInt (a.fmod b) >>= fun _ => pushInt (a.fdiv b)) Any :=
      leaves_popInt.bind fun _ _ => (leaves_pushInt hV _).bind fun _ _ => leaves_pushInt hV _
    by_cases hb : b = 0
    · rw [if_pos hb]
      exact (leaves_throw (Q := Any) _).bind fun _ _ => hrest
    · rw [if_neg hb]
      exact hrest
  | negate => exact leaves_change hV _ _
  | abs => exact leaves_change hV _ _
  | increment => exact leaves_change hV _ _
  | decrement => exact leaves_change hV _ _

theorem ComparisonWord.leaves (w : ComparisonWord) : Leaves V w.run Any := by
  cases w with
  | less => exact leaves_compareInts hV _ _
  | greater => exact leaves_compareInts hV _ _
  | lessEqual => exact leaves_compareInts hV _ _
  | greaterEqual => exact leaves_compareInts hV _ _
  | equal => exact leaves_compareCells hV _
  | notEqual => exact leaves_compareCells hV _
  | isZero => exact leaves_popTruth.bind fun _ _ => leaves_pushBool hV _
  | isNegative => exact leaves_popInt.bind fun _ _ => leaves_pushBool hV _
  | isPositive => exact leaves_popInt.bind fun _ _ => leaves_pushBool hV _

theorem LogicWord.leaves (w : LogicWord) : Leaves V w.run Any := by
  cases w with
  | and => exact leaves_combine hV _ _ _
  | or => exact leaves_combine hV _ _ _
  | xor => exact leaves_combine hV _ _ _
  | invert =>
    refine leaves_popIntCell.bind fun x _ => ?_
    have hint : Leaves V (liftM (x.expectInt LogicWord.invert.name) >>= fun n =>
        pushInt (Bits.complement n)) Any :=
      (leaves_lift (Q := Any) fun _ _ => trivial).bind fun _ _ => leaves_pushInt hV _
    cases x with
    | flags bits => exact leaves_push (hV _ rfl)
    | _ => exact hint
  | not => exact leaves_popTruth.bind fun _ _ => leaves_pushBool hV _
  | true => exact leaves_pushBool hV _
  | false => exact leaves_pushBool hV _

omit hV in
theorem OutputWord.leaves (w : OutputWord) : Leaves V w.run Any := by
  cases w with
  | dot => exact leaves_popInt.bind fun _ _ => leaves_pure trivial
  | emit =>
    exact leaves_popInt.bind fun _ _ => (leaves_lift (Q := Any) fun _ _ => trivial).bind
      fun _ _ => leaves_pure trivial
  | tell => exact leaves_popText
  | showStack => exact leaves_get_bind fun _ _ => leaves_pure trivial
  | dump => exact leaves_get_bind fun _ _ => leaves_pure trivial

/-- **A calculation leaves cells of the kinds that it found, and values.** -/
theorem Calculation.leaves (c : Calculation) : Leaves V c.run Any := by
  cases c with
  | stack w => exact (w.leaves hV).bind fun _ _ => leaves_pure trivial
  | arithmetic w => exact (w.leaves hV).bind fun _ _ => leaves_pure trivial
  | comparison w => exact (w.leaves hV).bind fun _ _ => leaves_pure trivial
  | logic w => exact (w.leaves hV).bind fun _ _ => leaves_pure trivial
  | output w => exact w.leaves

end Words

end ThreadedForth
