import ThreadedForth.Kernel.Image
import ThreadedForth.Proofs.Machine.Record

/-!
# Definitions that are not closed

What a record says about definitions. A pass of `:` or `;` is the entry of that word through its
code field and the dispatches of its body in order (`Course.Passes`). A header is open from the end
of the pass of `:` that made it until `;` closes it (`Open`), and abandoned once a fault was raised
while it was open (`Abandoned`). A record is orderly if nothing but `:` hides a header or begins to
compile, and nothing but `;` reveals a header (`Orderly`).
-/

namespace ThreadedForth

/-- The native behaviour that a cell leads to. -/
def Machine.behaviour (m : Machine) : Cell → Option Native
  | .token code =>
    match m.memory.get (.int code) with
    | .ok (.native n) => some n
    | _ => none
  | _ => none

/-- The native behaviour that the cell at an address leads to. -/
def Machine.behaviourAt (m : Machine) (addr : Int) : Option Native :=
  match m.memory.get (.int addr) with
  | .ok x => m.behaviour x
  | .error _ => none

/-- A cell that leads to a native behaviour is the token of its code field. -/
theorem Machine.behaviour_eq_some {m : Machine} {x : Cell} {n : Native}
    (h : m.behaviour x = some n) :
    ∃ addr, x = .token addr ∧ m.memory.get (.int addr) = .ok (.native n) := by
  cases x with
  | token addr =>
    rw [Machine.behaviour] at h
    cases hcell : m.memory.get (.int addr) with
    | error f => rw [hcell] at h; cases h
    | ok y =>
      cases y with
      | native n' =>
        rw [hcell] at h
        obtain rfl := Option.some.inj h
        exact ⟨addr, rfl, hcell⟩
      | _ => rw [hcell] at h; cases h
  | _ => cases h

theorem Machine.behaviourAt_eq_some {m : Machine} {ip : Int} {n : Native}
    (h : m.behaviourAt ip = some n) :
    ∃ addr, m.memory.get (.int ip) = .ok (.token addr) ∧
      m.memory.get (.int addr) = .ok (.native n) := by
  cases hx : m.memory.get (.int ip) with
  | error f => simp [behaviourAt, hx] at h
  | ok x =>
    simp only [behaviourAt, hx] at h
    obtain ⟨addr, rfl, hcell⟩ := behaviour_eq_some h
    exact ⟨addr, rfl, hcell⟩

namespace Event

/-- The native behaviour that is dispatched. -/
def behaviour : Event → Option Native
  | .entry x m => m.behaviour x
  | _ => none

/-- The code field that is entered. -/
def codeField : Event → Option Int
  | .entry (.token code) _ => some code
  | _ => none

/-- The integer on top of the data stack. -/
def operand (e : Event) : Option Int := e.machine.data.head?.bind Cell.int?

/-- A native behaviour is dispatched from the cell of a thread at an address. -/
def DispatchedAt (e : Event) (n : Native) (addr : Int) : Prop :=
  e.behaviour = some n ∧ e.machine.ip = some (addr + 1)

/-- The cells from an address on and below another are not hit by a store and not cut off. -/
def Spares (e : Event) (start stop : Int) : Prop :=
  ∀ i ∈ e.operand,
    (e.behaviour = some (.primitive (.memory .store)) ∨
      e.behaviour = some (.primitive (.memory .addStore)) → i < start ∨ stop ≤ i) ∧
    (e.behaviour = some (.primitive (.memory .allot)) → stop ≤ (e.machine.memory.resize i).here)

end Event

/-! ## Passes -/

/-- How a word runs whose body is straight-line code of primitives. -/
structure Course where
  /-- the address of the code field -/
  code : Int
  /-- the cells that are dispatched, each by its distance from the code field, and their behaviours
  -/
  steps : List (Int × Native)

namespace Course

/-- The last events are the entry of the word through its code field and the first `k` dispatches of
its body, in order. -/
def Passes (c : Course) : Nat → List Event → Prop
  | _, [] => False
  | 0, e :: _ => e.behaviour = some .enter ∧ e.codeField = some c.code
  | k + 1, e :: past =>
    c.Passes k past ∧ ∃ s, c.steps[k]? = some s ∧ e.DispatchedAt s.2 (c.code + s.1)

/-- The course of `:`. -/
def colon : Course where
  code := Kernel.colonHeader + 3
  steps :=
    [(1, .primitive (.input .word)), (2, .primitive (.compiler .create)),
      (3, .primitive (.compiler .compileEnter)), (4, .primitive (.memory .latest)),
      (5, .primitive (.compiler .hidden)), (6, .primitive (.compiler .rightBracket)),
      (7, .primitive (.thread .exit))]

/-- The course of `;`, where the cell after `LIT` is not dispatched. -/
def semicolon : Course where
  code := Kernel.semicolonHeader + 3
  steps :=
    [(1, .primitive (.compiler .whenCompiling)), (2, .primitive (.thread .lit)),
      (4, .primitive (.memory .comma)), (5, .primitive (.memory .latest)),
      (6, .primitive (.compiler .reveal)), (7, .primitive (.compiler .leftBracket)),
      (8, .primitive (.thread .exit))]

/-- The cells of a word that runs a body lead to the behaviours of a course. -/
def StandsIn (c : Course) (m : Machine) : Prop :=
  m.behaviour (.token c.code) = some .enter ∧
    ∀ s ∈ c.steps, m.behaviourAt (c.code + s.1) = some s.2

instance (c : Course) (m : Machine) : Decidable (c.StandsIn m) :=
  inferInstanceAs (Decidable (_ ∧ _))

end Course

open ThreadedForth.Course

/-! ## Open definitions -/

/-- `;` closes the definition of a header: it reveals the newest header while compiling. -/
structure Event.Closes (e : Event) (h : Nat) : Prop where
  reveals : e.behaviour = some (.primitive (.compiler .reveal))
  compiling : e.machine.mode = .compile
  newest : e.machine.memory.latest = some (h : Int)

/-- `:` has made a header, and since then `;` has not closed its definition, and the header was
spared. -/
inductive Open (h : Nat) : List Event → Prop
  | opened {e : Event} {past : List Event} (hpass : colon.Passes 7 (e :: past))
      (hnewest : e.machine.memory.latest = some (h : Int)) : Open h (e :: past)
  | stays {e : Event} {past : List Event} (hopen : Open h past) (hspares : e.Spares h (h + 3))
      (hclose : ¬ e.Closes h) : Open h (e :: past)

/-- A fault was raised while the definition of a header was open, and since then the header was
spared. -/
inductive Abandoned (h : Nat) : List Event → Prop
  | fault {f : Fault} {m : Machine} {past : List Event} (hopen : Open h past) :
      Abandoned h (.fault f m :: past)
  | stays {e : Event} {past : List Event} (habandoned : Abandoned h past)
      (hspares : e.Spares h (h + 3)) : Abandoned h (e :: past)

/-! ## Orderly records -/

/-- After these events, `HIDDEN` and `]` are dispatched as parts of `:` only, and `REVEAL` as part
of `;` only. -/
structure Event.Proper (e : Event) (past : List Event) : Prop where
  hides : e.behaviour = some (.primitive (.compiler .hidden)) → colon.Passes 5 (e :: past)
  compiles : e.behaviour = some (.primitive (.compiler .rightBracket)) →
    colon.Passes 6 (e :: past)
  reveals : e.behaviour = some (.primitive (.compiler .reveal)) → semicolon.Passes 5 (e :: past)

/-- Each event is a proper one after those before it. -/
def Orderly : List Event → Prop
  | [] => True
  | e :: past => e.Proper past ∧ Orderly past

/-- No store hits the kernel, and `ALLOT` does not cut into it. -/
def SparesKernel (past : List Event) : Prop := ∀ e ∈ past, e.Spares 0 Kernel.memory.here

/-! ## Events and open definitions -/

section Events

variable {c : Course} {e : Event} {past : List Event} {n : Native} {k j h : Nat}

theorem Course.Passes.behaviour (hp : c.Passes (k + 1) (e :: past)) :
    ∃ s ∈ c.steps, e.behaviour = some s.2 := by
  obtain ⟨-, s, hs, hat⟩ := hp
  exact ⟨s, List.mem_of_getElem? hs, hat.1⟩

/-- A dispatch of a course is known by its behaviour, if no other one has the same. -/
theorem Course.Passes.of_behaviour (hp : c.Passes (k + 1) (e :: past)) (hb : e.behaviour = some n)
    (honly : ∀ i < c.steps.length, c.steps[i]?.map Prod.snd = some n → i = j) :
    c.Passes (j + 1) (e :: past) := by
  obtain ⟨-, s, hs, hs', -⟩ := id hp
  have hsnd : c.steps[k]?.map Prod.snd = some n := by
    rw [hs, Option.map_some, ← hb, hs']
  obtain rfl := honly k (List.getElem?_eq_some_iff.mp hs).1 hsnd
  exact hp

theorem Course.Passes.behaviour_ne (hp : c.Passes (k + 1) (e :: past))
    (hnone : ∀ s ∈ c.steps, s.2 ≠ n) : e.behaviour ≠ some n := by
  intro hb
  obtain ⟨s, hs, hb'⟩ := hp.behaviour
  exact hnone s hs (Option.some.inj (hb'.symm.trans hb))

/-- A dispatch of `:` is a proper one. -/
theorem Course.Passes.proper_of_colon (hp : colon.Passes (k + 1) (e :: past)) : e.Proper past where
  hides hb := hp.of_behaviour hb (by decide)
  compiles hb := hp.of_behaviour hb (by decide)
  reveals hb := absurd hb (hp.behaviour_ne (by decide))

/-- A dispatch of `;` is a proper one. -/
theorem Course.Passes.proper_of_semicolon (hp : semicolon.Passes (k + 1) (e :: past)) :
    e.Proper past where
  hides hb := absurd hb (hp.behaviour_ne (by decide))
  compiles hb := absurd hb (hp.behaviour_ne (by decide))
  reveals hb := hp.of_behaviour hb (by decide)

/-- To enter a word that runs a body is proper. -/
theorem Course.Passes.proper_entry (hp : c.Passes 0 (e :: past)) : e.Proper past := by
  obtain ⟨hb, -⟩ := hp
  constructor <;> simp [hb]

/-- An event without a behaviour is a proper one. -/
theorem Event.proper_of_behaviour_none (he : e.behaviour = none) : e.Proper past := by
  constructor <;> simp [he]

/-- An event without a behaviour leaves open what is open. -/
theorem Open.of_behaviour_none (ho : Open h past) (he : e.behaviour = none) : Open h (e :: past) :=
  .stays ho (fun i _ => by simp [he]) fun hc => by
    have hb := hc.reveals
    rw [he] at hb
    cases hb

end Events

end ThreadedForth
