import ThreadedForth.Calculation
import ThreadedForth.Proofs.Structured.Body

/-!
# The meaning of structured bodies

What a body does to a data stack and what it prints, told by its structure, without any threaded
code (`Means`). A body runs on until it is done, the word is left, or something fails, and
`Progress` keeps which of these it is. What has been left or has failed does nothing more, so the
rules need not say so for each structure.
-/

namespace ThreadedForth

/-! ## Programs -/

/-- What a word is, as far as structured bodies go. -/
inductive Callee
  | primitive (c : Calculation)
  | thread (body : Body)

/-- The words of a program, by the addresses of their code fields. -/
abbrev Program := Int → Option Callee

/-- All words that a body runs are words of a program. -/
def Body.ClosedIn (p : Program) (s : Body) : Prop := ∀ addr ∈ s.calls, p addr ≠ none

instance (p : Program) (s : Body) : Decidable (s.ClosedIn p) :=
  inferInstanceAs (Decidable (∀ addr ∈ s.calls, p addr ≠ none))

namespace Body

variable {p : Program} {a b : Body}

theorem ClosedIn.seq (h : (Body.seq a b).ClosedIn p) : a.ClosedIn p ∧ b.ClosedIn p :=
  List.forall_mem_append.mp h

theorem ClosedIn.ifElse (h : (Body.ifElse a b).ClosedIn p) : a.ClosedIn p ∧ b.ClosedIn p :=
  List.forall_mem_append.mp h

theorem ClosedIn.whileLoop (h : (Body.whileLoop a b).ClosedIn p) : a.ClosedIn p ∧ b.ClosedIn p :=
  List.forall_mem_append.mp h

end Body

/-! ## Progress -/

/-- Whether a body goes on. -/
inductive Status
  | running
  /-- the word has been left -/
  | left
  | failed (f : Fault)
  deriving DecidableEq

/-- How far a body has got. -/
structure Progress where
  status : Status
  data : List Cell
  /-- the texts that were printed, last first -/
  printed : List String

namespace Progress

/-- Nothing has been done yet. -/
def start (data : List Cell) : Progress := ⟨.running, data, []⟩

/-- A calculation is done, or fails. -/
def calculate (c : Calculation) (s : Progress) : Progress :=
  match c.run s.data with
  | .ok text data => ⟨.running, data, if text = "" then s.printed else text :: s.printed⟩
  | .error f data => ⟨.failed f, data, s.printed⟩

/-- The top cell is taken for its truth. Where there is none, the truth that is given does not
matter. -/
def test (s : Progress) : Bool × Progress :=
  match s.status with
  | .running =>
    match s.data with
    | [] => (true, { s with status := .failed (.underflow "data") })
    | x :: data =>
      match x.expectTruth ThreadWord.branchFalse.name with
      | .ok truth => (truth, { s with data := data })
      | .error f => (true, { s with status := .failed f, data := data })
  | _ => (true, s)

/-- A word that has been left is done, and what ran it goes on. -/
def back (s : Progress) : Progress :=
  match s.status with
  | .left => { s with status := .running }
  | _ => s

variable {s : Progress}

theorem calculate_of_ok {c : Calculation} {text : String} {data : List Cell}
    (h : c.run s.data = .ok text data) :
    s.calculate c = ⟨.running, data, if text = "" then s.printed else text :: s.printed⟩ := by
  rw [calculate, h]

theorem calculate_of_error {c : Calculation} {f : Fault} {data : List Cell}
    (h : c.run s.data = .error f data) : s.calculate c = ⟨.failed f, data, s.printed⟩ := by
  rw [calculate, h]

theorem test_of_nil (hs : s.status = .running) (hd : s.data = []) :
    s.test = (true, { s with status := .failed (.underflow "data") }) := by
  rw [test, hs, hd]

theorem test_of_ok {x : Cell} {data : List Cell} {truth : Bool} (hs : s.status = .running)
    (hd : s.data = x :: data) (hx : x.expectTruth ThreadWord.branchFalse.name = .ok truth) :
    s.test = (truth, { s with data := data }) := by
  simp [test, hs, hd, hx]

theorem test_of_error {x : Cell} {data : List Cell} {f : Fault} (hs : s.status = .running)
    (hd : s.data = x :: data) (hx : x.expectTruth ThreadWord.branchFalse.name = .error f) :
    s.test = (true, { s with status := .failed f, data := data }) := by
  simp [test, hs, hd, hx]

theorem test_of_not_running (h : s.status ≠ .running) : s.test = (true, s) := by
  cases hs : s.status with
  | running => exact absurd hs h
  | left => simp [test, hs]
  | failed f => simp [test, hs]

/-- A test of what is stopped has no effect. -/
theorem eq_of_test {t : Progress} {truth : Bool} (h : s.status ≠ .running)
    (ht : s.test = (truth, t)) : truth = true ∧ t = s := by
  rw [test_of_not_running h] at ht
  cases ht
  exact ⟨rfl, rfl⟩

theorem running_of_test {t : Progress} {truth : Bool} (ht : s.test = (truth, t))
    (h : t.status = .running) : s.status = .running := by
  by_cases hs : s.status = .running
  · exact hs
  · obtain ⟨-, rfl⟩ := eq_of_test hs ht
    exact h

theorem back_status_ne_left : s.back.status ≠ .left := by
  cases hs : s.status <;> simp [back, hs]

@[simp] theorem back_data : s.back.data = s.data := by
  cases hs : s.status <;> simp [back, hs]

@[simp] theorem back_printed : s.back.printed = s.printed := by
  cases hs : s.status <;> simp [back, hs]

end Progress

/-! ## Meaning -/

/-- In the word with its code field at `self`, a body comes from one state of progress to another.
-/
inductive Means (p : Program) : Int → Body → Progress → Progress → Prop
  | stopped {self : Int} {b : Body} {s : Progress} (h : s.status ≠ .running) : Means p self b s s
  | empty {self : Int} {s : Progress} : Means p self .empty s s
  | literal {self : Int} {x : Cell} {s : Progress} (h : s.status = .running) :
      Means p self (.literal x) s { s with data := x :: s.data }
  | calculation {self addr : Int} {c : Calculation} {s : Progress} (h : s.status = .running)
      (hp : p addr = some (.primitive c)) : Means p self (.call addr) s (s.calculate c)
  | thread {self addr : Int} {b : Body} {s t : Progress} (h : s.status = .running)
      (hp : p addr = some (.thread b)) (hb : Means p addr b s t) :
      Means p self (.call addr) s t.back
  | recurse {self : Int} {s t : Progress} (hself : Means p self (.call self) s t) :
      Means p self .recurse s t
  | exit {self : Int} {s : Progress} (h : s.status = .running) :
      Means p self .exit s { s with status := .left }
  | seq {self : Int} {a b : Body} {s t u : Progress} (ha : Means p self a s t)
      (hb : Means p self b t u) : Means p self (.seq a b) s u
  | ifThen {self : Int} {a : Body} {s t u : Progress} {truth : Bool} (ht : s.test = (truth, t))
      (ha : Means p self (if truth then a else .empty) t u) : Means p self (.ifThen a) s u
  | ifElse {self : Int} {a b : Body} {s t u : Progress} {truth : Bool} (ht : s.test = (truth, t))
      (hab : Means p self (if truth then a else b) t u) : Means p self (.ifElse a b) s u
  | untilDone {self : Int} {a : Body} {s t u : Progress} (ha : Means p self a s t)
      (ht : t.test = (true, u)) : Means p self (.untilLoop a) s u
  | untilAgain {self : Int} {a : Body} {s t u v : Progress} (ha : Means p self a s t)
      (ht : t.test = (false, u)) (hagain : Means p self (.untilLoop a) u v) :
      Means p self (.untilLoop a) s v
  | again {self : Int} {a : Body} {s t u : Progress} (ha : Means p self a s t)
      (hagain : Means p self (.againLoop a) t u) : Means p self (.againLoop a) s u
  | whileDone {self : Int} {a b : Body} {s t u : Progress} (ha : Means p self a s t)
      (ht : t.test = (false, u)) : Means p self (.whileLoop a b) s u
  | whileAgain {self : Int} {a b : Body} {s t u v w : Progress} (ha : Means p self a s t)
      (ht : t.test = (true, u)) (hb : Means p self b u v)
      (hagain : Means p self (.whileLoop a b) v w) : Means p self (.whileLoop a b) s w

/-- What has been left or has failed does nothing more. -/
theorem Means.eq_of_stopped {p : Program} {self : Int} {b : Body} {s t : Progress}
    (hm : Means p self b s t) (h : s.status ≠ .running) : t = s := by
  induction hm with
  | stopped _ => rfl
  | empty => rfl
  | literal hrun => exact absurd hrun h
  | calculation hrun _ => exact absurd hrun h
  | thread hrun _ _ _ => exact absurd hrun h
  | recurse _ ih => exact ih h
  | exit hrun => exact absurd hrun h
  | seq _ _ iha ihb =>
    obtain rfl := iha h
    exact ihb h
  | ifThen ht _ ih =>
    obtain ⟨-, rfl⟩ := Progress.eq_of_test h ht
    exact ih h
  | ifElse ht _ ih =>
    obtain ⟨-, rfl⟩ := Progress.eq_of_test h ht
    exact ih h
  | untilDone _ ht ih =>
    obtain rfl := ih h
    exact (Progress.eq_of_test h ht).2
  | untilAgain _ ht _ ih _ =>
    obtain rfl := ih h
    obtain ⟨htruth, -⟩ := Progress.eq_of_test h ht
    cases htruth
  | again _ _ iha ihagain =>
    obtain rfl := iha h
    exact ihagain h
  | whileDone _ ht ih =>
    obtain rfl := ih h
    exact (Progress.eq_of_test h ht).2
  | whileAgain _ ht _ _ iha ihb ihagain =>
    obtain rfl := iha h
    obtain ⟨-, rfl⟩ := Progress.eq_of_test h ht
    obtain rfl := ihb h
    exact ihagain h

/-! ### Bodies that run straight through -/

section Straight

variable {p : Program} {self : Int} {s t : Progress}

theorem means_empty_iff : Means p self .empty s t ↔ t = s := by
  constructor
  · intro h
    cases h <;> rfl
  · rintro rfl
    exact .empty

theorem means_literal_iff {x : Cell} : Means p self (.literal x) s t ↔
    if s.status = .running then t = { s with data := x :: s.data } else t = s := by
  constructor
  · intro h
    cases h with
    | stopped h => rw [if_neg h]
    | literal h => rw [if_pos h]
  · intro h
    by_cases hs : s.status = .running
    · rw [if_pos hs] at h
      exact h ▸ .literal hs
    · rw [if_neg hs] at h
      rw [h]
      exact .stopped hs

theorem means_seq_iff {a b : Body} :
    Means p self (.seq a b) s t ↔ ∃ u, Means p self a s u ∧ Means p self b u t := by
  constructor
  · intro h
    cases h with
    | stopped h => exact ⟨s, .stopped h, .stopped h⟩
    | seq ha hb => exact ⟨_, ha, hb⟩
  · rintro ⟨u, ha, hb⟩
    exact .seq ha hb

/-- What a call means does not depend on the word that it stands in. -/
theorem Means.call_in {code here : Int} (h : Means p self (.call code) s t) :
    Means p here (.call code) s t := by
  cases h with
  | stopped h => exact .stopped h
  | calculation h hp => exact .calculation h hp
  | thread h hp hb => exact .thread h hp hb

/-- A call of threaded code means what its body means, and then goes on. -/
theorem means_thread_iff {code : Int} {b : Body} (hs : s.status = .running)
    (hp : p code = some (.thread b)) :
    Means p self (.call code) s t ↔ ∃ u, Means p code b s u ∧ t = u.back := by
  constructor
  · intro h
    cases h with
    | stopped h => exact absurd hs h
    | calculation _ hp' => cases hp.symm.trans hp'
    | thread _ hp' hb =>
      cases hp.symm.trans hp'
      exact ⟨_, hb, rfl⟩
  · rintro ⟨u, hb, rfl⟩
    exact .thread hs hp hb

end Straight

end ThreadedForth
