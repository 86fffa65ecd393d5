import ThreadedForth.Proofs.Compiler.Defining
import ThreadedForth.Proofs.Structured.Steps

/-!
# Programs that grow

A program that is part of another one means the same there (`Program.Within.means_call_iff`), and a
memory that extends another one holds the programs that it holds. So a word that is defined joins
the program of the words that were there (`Program.HeldBy.define`). The primitives make up the first
program (`Kernel.program`).
-/

namespace ThreadedForth

namespace Program

variable {p q : Program} {old memory : Memory} {code : Int} {body : Body}

/-! ## Programs in memory -/

/-- A memory that extends another one holds the programs that it holds. -/
theorem HeldBy.of_extends (h : p.HeldBy old) (he : memory.Extends old) : p.HeldBy memory where
  steering w hw := he.retains _ _ (h.steering w hw)
  primitives addr c hc := he.retains _ _ (h.primitives addr c hc)
  threads addr b hb :=
    ⟨he.retains _ _ (h.threads addr b hb).1, he.hasCode (h.threads addr b hb).2⟩
  closed := h.closed

/-- The words of a program lie below the end of memory. -/
theorem HeldBy.eq_none_of_here_le (h : p.HeldBy memory) (hcode : memory.here ≤ code) :
    p code = none := by
  have hout (x : Cell) : memory.get (.int code) ≠ .ok x := by
    intro hx
    obtain ⟨i, hi, hcell⟩ := Memory.get_eq_ok_iff.mp hx
    have hlt : i < memory.here := (Array.getElem?_eq_some_iff.mp hcell).1
    obtain rfl : code = i := by simpa [Cell.int?] using hi
    omega
  cases hcallee : p code with
  | none => rfl
  | some callee =>
    cases callee with
    | primitive c => exact absurd (h.primitives _ c hcallee) (hout _)
    | thread b => exact absurd (h.threads _ b hcallee).1 (hout _)

/-! ## Parts of programs -/

/-- A program is part of another one. -/
def Within (p q : Program) : Prop := ∀ addr callee, p addr = some callee → q addr = some callee

/-- The program with one more word, which is threaded code. -/
def add (p : Program) (code : Int) (body : Body) : Program :=
  fun addr => if addr = code then some (.thread body) else p addr

theorem add_self (p : Program) (code : Int) (body : Body) :
    p.add code body code = some (.thread body) := if_pos rfl

theorem within_add (hfresh : p code = none) : p.Within (p.add code body) := by
  intro addr callee hcallee
  have hne : addr ≠ code := by
    rintro rfl
    cases hfresh.symm.trans hcallee
  rw [add, if_neg hne]
  exact hcallee

theorem Within.closedIn (h : p.Within q) (hclosed : body.ClosedIn p) : body.ClosedIn q := by
  intro addr haddr hnone
  cases hcallee : p addr with
  | none => exact hclosed addr haddr hcallee
  | some callee => cases (h addr callee hcallee).symm.trans hnone

/-- A word of threaded code joins the program where its code stands, if its body runs words of the
program. -/
theorem HeldBy.add (h : p.HeldBy memory) (hfresh : p code = none)
    (hfield : memory.get (.int code) = .ok (.native .enter))
    (hcode : memory.HasCode (code + 1) (body.code code ++ [Kernel.exitToken]))
    (hclosed : body.ClosedIn p) : (p.add code body).HeldBy memory := by
  have hwithin : p.Within (p.add code body) := within_add hfresh
  refine ⟨h.steering, ?_, ?_, ?_⟩
  · intro addr c hc
    rw [Program.add] at hc
    split_ifs at hc
    · cases hc
    · exact h.primitives addr c hc
  · intro addr b hb
    rw [Program.add] at hb
    split_ifs at hb with hself
    · cases hb
      rw [hself]
      exact ⟨hfield, hcode⟩
    · exact h.threads addr b hb
  · intro addr b hb
    rw [Program.add] at hb
    split_ifs at hb
    · cases hb
      exact hwithin.closedIn hclosed
    · exact hwithin.closedIn (h.closed addr b hb)

/-- A word that is defined joins the program, if its body runs words of the program. -/
theorem HeldBy.define (h : p.HeldBy old) {hs : List Header} (hw : old.WellFormed hs)
    (hclosed : body.ClosedIn p) (name text : String) :
    (p.add (old.here + 3) body).HeldBy (old.define (.colon name text body)) := by
  obtain ⟨hfield, hbody⟩ := Memory.hasCode_define old (.colon name text body)
  have hold := h.of_extends (hw.extends_define (.colon name text body))
  exact hold.add (h.eq_none_of_here_le (by omega)) hfield hbody hclosed

/-! ## What a part of a program means -/

variable {self : Int} {s t : Progress}

/-- What a body means in a program, it means in any program of which that one is part. -/
theorem Within.means (hwithin : p.Within q) (h : Means p self body s t) :
    Means q self body s t := by
  induction h with
  | stopped h => exact .stopped h
  | empty => exact .empty
  | literal h => exact .literal h
  | calculation h hp => exact .calculation h (hwithin _ _ hp)
  | thread h hp _ ih => exact .thread h (hwithin _ _ hp) ih
  | recurse _ ih => exact .recurse ih
  | exit h => exact .exit h
  | seq _ _ iha ihb => exact .seq iha ihb
  | ifThen ht _ ih => exact .ifThen ht ih
  | ifElse ht _ ih => exact .ifElse ht ih
  | untilDone _ ht ih => exact .untilDone ih ht
  | untilAgain _ ht _ iha ihagain => exact .untilAgain iha ht ihagain
  | again _ _ iha ihagain => exact .again iha ihagain
  | whileDone _ ht ih => exact .whileDone ih ht
  | whileAgain _ ht _ _ iha ihb ihagain => exact .whileAgain iha ht ihb ihagain

/-- In a program that is part of another one, a body that runs words of the smaller one only means
there what it means in the larger one. -/
theorem Within.means_of_means (hwithin : p.Within q)
    (hclosed : ∀ addr b, p addr = some (.thread b) → b.ClosedIn p) (h : Means q self body s t) :
    p self ≠ none → body.ClosedIn p → Means p self body s t := by
  have hsame {addr : Int} {callee : Callee} (hq : q addr = some callee) (haddr : p addr ≠ none) :
      p addr = some callee := by
    obtain ⟨callee', hcallee⟩ := Option.ne_none_iff_exists'.mp haddr
    rw [hcallee, ← hq, hwithin addr callee' hcallee]
  induction h with
  | stopped h => exact fun _ _ => .stopped h
  | empty => exact fun _ _ => .empty
  | literal h => exact fun _ _ => .literal h
  | calculation h hq =>
    exact fun _ hbody => .calculation h (hsame hq (hbody _ (List.mem_singleton_self _)))
  | thread h hq _ ih =>
    intro _ hbody
    have haddr := hbody _ (List.mem_singleton_self _)
    have hp := hsame hq haddr
    exact .thread h hp (ih haddr (hclosed _ _ hp))
  | recurse _ ih =>
    exact fun hself _ => .recurse (ih hself fun addr haddr => List.mem_singleton.mp haddr ▸ hself)
  | exit h => exact fun _ _ => .exit h
  | seq _ _ iha ihb => exact fun hself hbody => .seq (iha hself hbody.seq.1) (ihb hself hbody.seq.2)
  | @ifThen self a s t u truth ht _ ih =>
    intro hself hbody
    refine .ifThen ht (ih hself ?_)
    cases truth with
    | true => exact hbody
    | false => exact fun _ haddr => absurd haddr (List.not_mem_nil)
  | @ifElse self a b s t u truth ht _ ih =>
    intro hself hbody
    refine .ifElse ht (ih hself ?_)
    cases truth with
    | true => exact hbody.ifElse.1
    | false => exact hbody.ifElse.2
  | untilDone _ ht ih => exact fun hself hbody => .untilDone (ih hself hbody) ht
  | untilAgain _ ht _ iha ihagain =>
    exact fun hself hbody => .untilAgain (iha hself hbody) ht (ihagain hself hbody)
  | again _ _ iha ihagain => exact fun hself hbody => .again (iha hself hbody) (ihagain hself hbody)
  | whileDone _ ht ih => exact fun hself hbody => .whileDone (ih hself hbody.whileLoop.1) ht
  | whileAgain _ ht _ _ iha ihb ihagain =>
    exact fun hself hbody => .whileAgain (iha hself hbody.whileLoop.1) ht
      (ihb hself hbody.whileLoop.2) (ihagain hself hbody)

/-- A word of a program means the same in any program of which that one is part. -/
theorem Within.means_call_iff (hwithin : p.Within q)
    (hclosed : ∀ addr b, p addr = some (.thread b) → b.ClosedIn p) (hcode : p code ≠ none) :
    Means q code (.call code) s t ↔ Means p code (.call code) s t := by
  refine ⟨fun h => hwithin.means_of_means hclosed h hcode ?_, hwithin.means⟩
  exact fun addr haddr => List.mem_singleton.mp haddr ▸ hcode

end Program

/-! ## The program of the kernel -/

namespace Kernel

/-- The calculations, by the addresses of their code fields. -/
def program : Program := fun addr =>
  match order.find? (codeField · = addr) with
  | some (.calculation c) => some (.primitive c)
  | _ => none

/-- A memory in which the primitives are whole holds the program of the kernel. -/
theorem program_heldBy {m : Memory} (h : ∀ p ∈ order, m.Intact p) : program.HeldBy m where
  steering w _ := h _ (by cases w <;> decide)
  primitives addr c hc := by
    rw [program] at hc
    split at hc
    · next c' hfound =>
      cases hc
      have haddr : codeField (.calculation c) = addr := by simpa using List.find?_some hfound
      exact haddr ▸ h _ (List.mem_of_find?_eq_some hfound)
    · cases hc
  threads addr b hb := by
    rw [program] at hb
    split at hb <;> cases hb
  closed addr b hb := by
    rw [program] at hb
    split at hb <;> cases hb

end Kernel

end ThreadedForth
