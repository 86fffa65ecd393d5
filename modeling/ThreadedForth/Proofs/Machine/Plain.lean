import ThreadedForth.Proofs.Machine.Frame
import ThreadedForth.Proofs.Machine.Record
import ThreadedForth.Proofs.Memory.Search

/-!
# What words are made of

A word works on the data stack, the memory, the mode and the thread (`Core`), enters other words,
prints, reports a token and drops the rest of a line. An action that is put together from such parts
is a plain one (`Plain`). A primitive that runs no other word is plain, or reads first and is plain
from then on, unless it is `EXIT` or `BYE` (`Native.alone_made`). So what holds of every part, and
of one part after the other, holds of every primitive.
-/

namespace ThreadedForth

/-! ## Local actions -/

/-- What a word works on: all but the return stack, the console and the log. -/
structure Core where
  data : List Cell
  memory : Memory
  mode : Mode
  ip : Option Int

/-- The part of a machine that a word works on. -/
def Machine.core (m : Machine) : Core := ⟨m.data, m.memory, m.mode, m.ip⟩

/-- A machine with another such part. -/
def Machine.withCore (m : Machine) (k : Core) : Machine :=
  { m with data := k.data, memory := k.memory, mode := k.mode, ip := k.ip }

namespace Action

variable {α β : Type} {m m' : Machine}

/-- The same outcome for another machine. -/
def carryOver (m' : Machine) : EStateM.Result Stop Machine α → EStateM.Result Stop Machine α
  | .ok x m => .ok x (m'.withCore m.core)
  | .error stop m => .error stop (m'.withCore m.core)

/-- An action works on the core of a machine and looks at nothing else. It does not end the input.
-/
structure Local (act : Action α) : Prop where
  same : ∀ m m' : Machine, m'.core = m.core → act m' = carryOver m' (act m)
  inside : ∀ m m' : Machine, act m ≠ .error .endOfInput m'

theorem withCore_core (h : m'.core = m.core) : m'.withCore m.core = m' := by
  rw [← h]
  rfl

theorem local_pure (x : α) : Local (pure x : Action α) where
  same _ _ h := congrArg (EStateM.Result.ok x) (withCore_core h).symm
  inside _ _ h := by cases h

theorem local_throw {stop : Stop} (hstop : stop ≠ .endOfInput) :
    Local (throw stop : Action α) where
  same _ _ h := congrArg (EStateM.Result.error stop) (withCore_core h).symm
  inside _ _ h := by
    cases h
    exact hstop rfl

theorem local_fail (f : Fault) : Local (fail f : Action α) := local_throw (by simp)

theorem Local.bind {act : Action α} {k : α → Action β} (ha : Local act) (hk : ∀ x, Local (k x)) :
    Local (act >>= k) where
  same m m' h := by
    have hact := ha.same m m' h
    cases hrun : act m with
    | error stop m₁ =>
      rw [hrun] at hact
      rw [bind_of_error hrun, bind_of_error hact]
      rfl
    | ok x m₁ =>
      rw [hrun] at hact
      rw [bind_of_ok hrun, bind_of_ok hact, (hk x).same m₁ (m'.withCore m₁.core) rfl]
      cases k x m₁ <;> rfl
  inside m m' h := by
    cases hrun : act m with
    | error stop m₁ =>
      rw [bind_of_error hrun] at h
      cases h
      exact ha.inside m _ hrun
    | ok x m₁ =>
      rw [bind_of_ok hrun] at h
      exact (hk x).inside m₁ m' h

/-- A look at the core. -/
theorem local_get_bind {k : Machine → Action α} (hk : ∀ m, Local (k m))
    (hsame : ∀ m m' : Machine, m'.core = m.core → k m' = k m) : Local (get >>= k) where
  same m m' h := by
    rw [bind_of_ok (get_apply _), bind_of_ok (get_apply _), hsame m m' h]
    exact (hk m).same m m' h
  inside m m' h := by
    rw [bind_of_ok (get_apply m)] at h
    exact (hk m).inside m m' h

theorem local_modify {g : Machine → Machine}
    (hg : ∀ m m' : Machine, m'.core = m.core → g m' = m'.withCore (g m).core) :
    Local (modify g : Action Unit) where
  same m m' h := congrArg (EStateM.Result.ok ()) (hg m m' h)
  inside _ _ h := by cases h

section Parts

theorem data_of_core (h : m'.core = m.core) : m'.data = m.data := congrArg Core.data h

theorem memory_of_core (h : m'.core = m.core) : m'.memory = m.memory := congrArg Core.memory h

theorem mode_of_core (h : m'.core = m.core) : m'.mode = m.mode := congrArg Core.mode h

theorem ip_of_core (h : m'.core = m.core) : m'.ip = m.ip := congrArg Core.ip h

theorem local_liftM_stop {o : Except Stop α} (ho : Outcome.Inside o) :
    Local (liftM o : Action α) := by
  cases o with
  | ok x => exact local_pure x
  | error stop => exact local_throw fun h => ho (by rw [h])

theorem local_liftM_fault (o : Except Fault α) : Local (liftM o : Action α) := by
  cases o with
  | ok x => exact local_pure x
  | error f => exact local_fail f

theorem local_onData (act : DataAction α) : Local (onData act) where
  same m m' h := by
    rw [onData, onData, data_of_core h]
    cases act m.data with
    | ok x data =>
      rw [carryOver, ← withCore_core h]
      rfl
    | error f data =>
      rw [carryOver, ← withCore_core h]
      rfl
  inside m m' h := by
    rw [onData] at h
    cases hact : act m.data <;> rw [hact] at h <;> cases h

theorem local_push (x : Cell) : Local (push x) := by
  refine local_modify fun m m' h => ?_
  rw [data_of_core h, ← withCore_core h]
  rfl

theorem local_ask {f : Memory → Except Stop α} (hf : ∀ memory, Outcome.Inside (f memory)) :
    Local (ask f) :=
  local_get_bind (fun m => local_liftM_stop (hf m.memory)) fun m m' h => by rw [memory_of_core h]

theorem local_askFault (f : Memory → Except Fault α) : Local (ask fun memory => f memory) :=
  local_ask fun _ => Outcome.inside_liftM _

theorem local_modifyMemory (f : Memory → Memory) : Local (modifyMemory f) := by
  refine local_modify fun m m' h => ?_
  rw [memory_of_core h, ← withCore_core h]
  rfl

theorem local_setMode (mode : Mode) :
    Local (modify fun m => { m with mode := mode } : Action Unit) := by
  refine local_modify fun m m' h => ?_
  rw [← withCore_core h]
  rfl

theorem local_setPointer (ip : Option Int) :
    Local (modify fun m => { m with ip := ip } : Action Unit) := by
  refine local_modify fun m m' h => ?_
  rw [← withCore_core h]
  rfl

theorem local_changeFlags (header : Cell) (f : Nat → Nat) :
    Local (changeMemory (·.changeFlags header f)) :=
  (local_ask fun _ => Memory.inside_changeFlags _ _).bind fun _ => local_modifyMemory _

theorem local_put (addr x : Cell) : Local (put addr x) :=
  (local_askFault _).bind fun _ => local_modifyMemory _

theorem local_append (x : Cell) : Local (append x) := local_modifyMemory _

theorem local_compileLiteral (x : Cell) : Local (compileLiteral x) :=
  (local_append _).bind fun _ => local_append x

theorem local_literal (x : Cell) : Local (literal x) := by
  refine local_get_bind (fun m => ?_) fun m m' h => by rw [mode_of_core h]
  cases m.mode with
  | compile => exact local_compileLiteral x
  | immediate => exact local_push x

theorem local_tokenOf (name : String) : Local (tokenOf name) := by
  refine local_get_bind (fun m => local_liftM_stop ?_) fun m m' h => ?_
  · refine (Memory.inside_find name).bind fun found => ?_
    cases found with
    | none => exact Outcome.inside_error (by simp)
    | some k => exact (Memory.inside_plus k headerSize).bind fun _ => Outcome.inside_ok _
  · rw [Machine.tokenOf, Machine.tokenOf, memory_of_core h]

theorem local_threadCell : Local threadCell :=
  local_get_bind (fun _ => local_askFault _) fun m m' h => by rw [ip_of_core h]

theorem local_advance (distance : Int) : Local (advance distance) := by
  refine local_get_bind (fun m => ?_) fun m m' h => by rw [ip_of_core h]
  cases m.ip with
  | none => exact local_throw (by simp)
  | some n => exact local_setPointer _

theorem local_jump (op : String) : Local (jump op) :=
  local_threadCell.bind fun _ => (local_liftM_fault _).bind fun _ => local_advance _

theorem local_nextCell : Local Recorded.nextCell := by
  refine local_get_bind (fun m => ?_) fun m m' h => by rw [ip_of_core h]
  cases m.ip with
  | none => exact local_fail _
  | some ip =>
    exact (local_askFault _).bind fun x => (local_setPointer _).bind fun _ => local_pure x

theorem local_codeField (x : Cell) : Local (Recorded.codeField x) := by
  cases x with
  | token addr =>
    refine (local_askFault _).bind fun cell => ?_
    cases cell with
    | native n => exact local_pure _
    | _ => exact local_fail _
  | _ => exact local_get_bind (fun m => local_fail _) fun m m' h => by rw [ip_of_core h]

theorem local_takeKey : Local takeKey := by
  refine (local_onData _).bind fun code => ?_
  cases characterOf code with
  | ok c => exact local_pure c
  | error f => exact local_throw (by simp)

end Parts

/-! ## Plain actions -/

/-- An action is put together from local ones, entering a word, printing, reporting a token and
dropping the rest of a line. -/
inductive Plain : {α : Type} → Action α → Prop
  | core {α : Type} {act : Action α} (hact : Local act) : Plain act
  | enter (addr : Int) :
      Plain (modify fun m => { m with returns := m.ip :: m.returns, ip := some (addr + 1) })
  | emit (text : String) : Plain (emit text)
  | report (name : String) : Plain (reportUnknown name)
  | skipLine : Plain (modifySource Source.skipLine)
  | bind {α β : Type} {act : Action α} {k : α → Action β} (hact : Plain act)
      (hk : ∀ x, Plain (k x)) : Plain (act >>= k)

theorem plain_pure (x : α) : Plain (pure x : Action α) := .core (local_pure x)

/-- A look at the core. -/
theorem plain_get_bind {k : Machine → Action α} (hk : ∀ m, Plain (k m))
    (hsame : ∀ m m' : Machine, m'.core = m.core → k m' = k m) : Plain (get >>= k) := by
  have hlook : Local (get >>= fun m => pure m.core : Action Core) :=
    local_get_bind (fun m => local_pure m.core) fun m m' h => by rw [h]
  have heq : get >>= k = (get >>= fun m => pure m.core) >>= fun c =>
      k (Machine.withCore default c) := by
    funext m
    rw [bind_of_ok (get_apply m)]
    exact congrFun (hsame (Machine.withCore default m.core) m rfl) m
  rw [heq]
  exact .bind (.core hlook) fun c => hk _

theorem plain_printText (text : String) : Plain (printText text) := by
  refine plain_get_bind (fun m => ?_) fun m m' h => by rw [mode_of_core h]
  cases m.mode with
  | compile => exact .core ((local_compileLiteral _).bind fun _ => local_append _)
  | immediate => exact .emit text

theorem plain_choose (name : String) : Plain (choose name) := by
  refine .bind (.core (local_ask fun _ => Memory.inside_find name)) fun found => ?_
  cases found with
  | none =>
    cases Numeral.read? name with
    | none => exact .bind (.report name) fun _ => plain_pure none
    | some n => exact .bind (.core (local_literal _)) fun _ => plain_pure none
  | some h =>
    refine .bind (.core (local_liftM_stop (Memory.inside_plus h headerSize))) fun code => ?_
    refine plain_get_bind (fun m => ?_) fun m m' h => by rw [mode_of_core h]
    by_cases hm : m.mode = .immediate
    · rw [if_pos hm]
      exact plain_pure _
    · rw [if_neg hm]
      refine .bind (.core (local_ask fun _ => Memory.inside_isImmediate h)) fun immediate => ?_
      cases immediate with
      | true => exact plain_pure _
      | false => exact .core ((local_append _).bind fun _ => local_pure none)

/-! ## What plain actions do to the input -/

theorem Local.after_eq {act : Action α} (h : Local act) (m : Machine) :
    after act m = m.withCore (after act m).core := by
  have hsame := h.same m m rfl
  rw [after]
  cases hrun : act m with
  | ok x m₁ =>
    rw [hrun] at hsame
    exact (EStateM.Result.ok.inj hsame).2
  | error stop m₁ =>
    rw [hrun] at hsame
    exact (EStateM.Result.error.inj hsame).2

/-- A source is as another one, but for the rest of the line, which may have been dropped. -/
def SkipsTo (s s' : Source) : Prop := s' = s ∨ s' = s.skipLine

theorem SkipsTo.trans {s s₁ s' : Source} (h : SkipsTo s s₁) (h' : SkipsTo s₁ s') : SkipsTo s s' := by
  have htwice : s.skipLine.skipLine = s.skipLine := by simp [Source.skipLine]
  rcases h with rfl | rfl
  · exact h'
  · rcases h' with rfl | rfl
    · exact .inr rfl
    · exact .inr htwice

theorem Plain.skipsTo {act : Action α} (h : Plain act) (m : Machine) :
    SkipsTo m.console.source (after act m).console.source := by
  induction h generalizing m with
  | core hact =>
    rw [hact.after_eq]
    exact .inl rfl
  | enter addr => exact .inl rfl
  | emit text => exact .inl rfl
  | report name => exact .inl rfl
  | skipLine => exact .inr rfl
  | @bind α β act k hact hk ih ihk =>
    have hfirst := ih m
    rw [after] at hfirst ⊢
    rw [bind_apply]
    cases hrun : act m with
    | ok x m₁ =>
      rw [hrun] at hfirst
      exact hfirst.trans (ihk x m₁)
    | error stop m₁ =>
      rw [hrun] at hfirst
      exact hfirst

/-- A plain action does not end the input. -/
theorem Plain.inside {act : Action α} (h : Plain act) (m m' : Machine) :
    act m ≠ .error .endOfInput m' := by
  induction h generalizing m m' with
  | core hact => exact hact.inside m m'
  | @bind α β act k hact hk ih ihk =>
    cases hrun : act m with
    | ok x m₁ =>
      rw [bind_of_ok hrun]
      exact ihk x m₁ m'
    | error stop m₁ =>
      rw [bind_of_error hrun]
      rintro ⟨⟩
      exact ih m _ hrun
  | _ =>
    intro hend
    cases hend

end Action

open ThreadedForth.Action

/-! ## Primitives -/

/-- Whether a behaviour takes a token or a character from the input. -/
def Native.reads : Native → Bool
  | .primitive (.input .number) => false
  | .primitive (.input _) => true
  | .primitive (.compiler .tick) => true
  | .primitive (.compiler .compileTick) => true
  | _ => false

/-- An action is plain, or it is plain from its first read on. -/
inductive Made (reads : Bool) : Action Unit → Prop
  | plain {act : Action Unit} (hact : Plain act) : Made reads act
  | token {k : String → Action Unit} (hreads : reads = true) (hk : ∀ name, Plain (k name)) :
    Made reads (nextToken >>= k)
  | char {k : Char → Action Unit} (hreads : reads = true) (hk : ∀ c, Plain (k c)) :
    Made reads (nextChar >>= k)

theorem Calculation.plain (c : Calculation) (addr : Int) :
    Plain ((Native.primitive (.calculation c)).alone addr) := by
  refine .bind (.core (local_onData c.run)) fun text => ?_
  by_cases htext : text ≠ ""
  · rw [if_pos htext]
    exact .emit text
  · rw [if_neg htext]
    exact plain_pure ()

theorem ThreadWord.local_perform {w : ThreadWord} (hexit : w ≠ .exit) (hexecute : w ≠ .execute)
    (invoke : Cell → Action Unit) : Local (w.perform invoke) := by
  cases w with
  | exit => exact absurd rfl hexit
  | lit =>
    exact local_threadCell.bind fun _ => (local_push _).bind fun _ => local_advance 1
  | branch => exact local_jump _
  | branchFalse =>
    refine (local_onData _).bind fun truth => ?_
    cases truth with
    | true => exact local_advance 1
    | false => exact local_jump _
  | execute => exact absurd rfl hexecute

theorem MemoryWord.local_perform (w : MemoryWord) : Local w.perform := by
  cases w with
  | fetch => exact (local_onData _).bind fun _ => (local_askFault _).bind fun _ => local_push _
  | store => exact (local_onData _).bind fun _ => (local_onData _).bind fun _ => local_put _ _
  | addStore =>
    exact (local_onData _).bind fun _ => (local_onData _).bind fun _ =>
      (local_askFault _).bind fun _ => (local_liftM_fault _).bind fun _ => local_put _ _
  | comma => exact (local_onData _).bind fun _ => local_append _
  | here =>
    exact local_get_bind (fun m => local_push _) fun m m' h => by rw [memory_of_core h]
  | latest =>
    exact local_get_bind (fun m => local_push _) fun m m' h => by rw [memory_of_core h]
  | allot => exact (local_onData _).bind fun _ => local_modifyMemory _

theorem CompilerWord.made (w : CompilerWord) :
    Made (Native.primitive (.compiler w)).reads w.perform := by
  cases w with
  | create => exact .plain (.core ((local_onData _).bind fun _ => local_modifyMemory _))
  | compileEnter => exact .plain (.core (local_append _))
  | compileVariable => exact .plain (.core (local_append _))
  | find =>
    exact .plain (.core ((local_onData _).bind fun name =>
      (local_ask fun _ => Memory.inside_find name).bind fun _ => local_push _))
  | toCode => exact .plain (.core ((local_onData _).bind fun _ => local_push _))
  | toBody => exact .plain (.core ((local_onData _).bind fun _ => local_push _))
  | hidden => exact .plain (.core ((local_onData _).bind fun _ => local_changeFlags _ _))
  | reveal => exact .plain (.core ((local_onData _).bind fun _ => local_changeFlags _ _))
  | whenCompiling =>
    refine .plain (.core (local_get_bind (fun m => ?_) fun m m' h => by rw [mode_of_core h]))
    by_cases hm : m.mode ≠ .compile
    · rw [if_pos hm]
      exact local_fail _
    · rw [if_neg hm]
      exact local_pure ()
  | immediate =>
    refine .plain (.core (local_get_bind (fun m => ?_) fun m m' h => by rw [memory_of_core h]))
    cases m.memory.latest with
    | none => exact local_fail _
    | some h => exact local_changeFlags _ _
  | leftBracket => exact .plain (.core (local_setMode _))
  | rightBracket => exact .plain (.core (local_setMode _))
  | state =>
    exact .plain (.core (local_get_bind (fun m => local_push _) fun m m' h => by
      rw [mode_of_core h]))
  | tick => exact .token rfl fun name => .core ((local_tokenOf name).bind fun _ => local_push _)
  | compileTick =>
    exact .token rfl fun name => .core ((local_tokenOf name).bind fun _ => local_literal _)

/-- `EXIT` leaves the console alone, and does not end the input. -/
theorem exit_cases (invoke : Cell → Action Unit) (m : Machine) :
    (m.returns = [] ∧ ThreadWord.exit.perform invoke m = .error (.fault (.underflow "return")) m) ∨
      ∃ ip rest, m.returns = ip :: rest ∧
        ThreadWord.exit.perform invoke m = .ok () { m with ip := ip, returns := rest } := by
  rw [ThreadWord.perform, bind_of_ok (get_apply m)]
  cases hreturns : m.returns with
  | nil => exact .inl ⟨rfl, rfl⟩
  | cons ip rest => exact .inr ⟨ip, rest, rfl, rfl⟩

/-- **A primitive that runs no other word is made of plain parts**, before which it may read. The
exceptions are `EXIT`, which leaves a word, and `BYE`, which ends the input. -/
theorem Native.alone_made {n : Native} (hn : n.runsWords = false)
    (hexit : n ≠ .primitive (.thread .exit)) (hbye : n ≠ .primitive (.session .bye)) (addr : Int) :
    Made n.reads (n.alone addr) := by
  cases n with
  | enter => exact .plain (.enter addr)
  | «variable» => exact .plain (.core (local_push _))
  | primitive p =>
    cases p with
    | calculation c => exact .plain (c.plain addr)
    | thread w =>
      have hexecute : w ≠ .execute := by
        rintro rfl
        cases hn
      have hw : w ≠ .exit := by
        rintro rfl
        exact hexit rfl
      exact .plain (.core (w.local_perform hw hexecute fun _ => pure ()))
    | memory w => exact .plain (.core w.local_perform)
    | compiler w => exact w.made
    | input w =>
      cases w with
      | word => exact .token rfl fun _ => .core (local_push _)
      | key => exact .char rfl fun _ => .core (local_push _)
      | number =>
        refine .plain (.core ((local_onData _).bind fun name => ?_))
        cases Numeral.read? name with
        | none => exact (local_push _).bind fun _ => local_push _
        | some n => exact (local_push _).bind fun _ => local_push _
      | char => exact .token rfl fun _ => .core (local_push _)
      | interpret => cases hn
    | text w =>
      cases w with
      | lineComment => exact .plain .skipLine
      | _ => cases hn
    | session w =>
      cases w with
      | abort => exact .plain (.core (local_fail _))
      | bye => exact absurd rfl hbye

end ThreadedForth
