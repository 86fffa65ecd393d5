import ThreadedForth.Proofs.Machine.Alteration
import ThreadedForth.Proofs.Machine.Values
import ThreadedForth.Proofs.Memory.Search
import ThreadedForth.Proofs.Reading

/-!
# The terms on which words run

What a primitive leaves on the data stack, and why it stops, gone through once for all of them. The
terms say which cells may be on the stack and which reasons to stop there may be: values may be on
the stack, and a run may stop for a reason that is no defect. Further reasons there may be where a
link of the dictionary is no number, and where the host answers a line with one.

Every primitive that runs no other word keeps to any such terms (`Native.alone_keeping`), except
that `LIT` leaves whatever cell it finds in the thread, and that `0BRANCH` moves on from nowhere
where there is no thread. So do the parts of the others: interpreting a token (`Terms.interprets`),
taking a character (`leaves_takeKey`, `takeKey_stops`), and what is done with a text.
-/

namespace ThreadedForth

open ThreadedForth.Action

/-! ## Values -/

theorem Cell.isValue_of_number {x : Cell} {n : Int} (h : x.number? = some n) : x.isValue := by
  cases x with
  | text s => cases h
  | native n => cases h
  | absent => cases h
  | _ => rfl

/-- What is fetched is a value. -/
theorem Memory.isValue_of_fetch {m : Memory} {addr x : Cell} (h : m.fetch addr = .ok x) :
    x.isValue := by
  rw [fetch] at h
  cases hget : m.get addr with
  | error f => rw [hget] at h; cases h
  | ok y => rw [hget] at h; cases y <;> cases h <;> rfl

/-! ## Terms -/

/-- Which cells may be on the data stack of a machine, and why a run may stop there. -/
structure Terms (V : Cell → Prop) (E : Stop → Prop) (m : Machine) : Prop where
  values : ∀ x : Cell, x.isValue → V x
  regular : ∀ stop : Stop, stop.Regular → E stop
  links : ∀ h ∈ m.memory.chain.headers, h.number? = none → ∀ stop, E stop
  answers : Reading.Attended m.console →
    ∀ line stop, m.attendant.answer line = some (.error stop) → E stop

/-- Nothing but the data stack has been changed so far, and the console. -/
structure Within (V : Cell → Prop) (m₀ m : Machine) : Prop where
  data : AllOf V m.data
  memory : m.memory = m₀.memory
  ip : m.ip = m₀.ip

section

variable {α β : Type} {V : Cell → Prop} {E : Stop → Prop} {m₀ : Machine}

/-- How it is left where a run stops. -/
abbrev Halted (V : Cell → Prop) (E : Stop → Prop) (stop : Stop) (m : Machine) : Prop :=
  AllOf V m.data ∧ E stop

/-- An action that gives something and changes no more than the data stack and the console. -/
abbrev Gives (V : Cell → Prop) (E : Stop → Prop) (m₀ : Machine) (act : Action α) (Q : α → Prop) :
    Prop :=
  Ensures (Within V m₀) act (fun x m => Within V m₀ m ∧ Q x) (Halted V E)

/-- An action after which the memory may be another one. -/
abbrev Finishes (V : Cell → Prop) (E : Stop → Prop) (m₀ : Machine) (act : Action α) : Prop :=
  Ensures (Within V m₀) act (fun _ m => AllOf V m.data ∧ m.ip = m₀.ip) (Halted V E)

/-- An action after which the thread may be elsewhere. -/
abbrev Moves (V : Cell → Prop) (E : Stop → Prop) (m₀ : Machine) (act : Action α) : Prop :=
  Ensures (Within V m₀) act (fun _ m => AllOf V m.data) (Halted V E)

variable {act : Action α} {Q : α → Prop} {R : β → Machine → Prop} {op : String} {x : Cell}

theorem Within.refl (h : AllOf V m₀.data) : Within V m₀ m₀ := ⟨h, rfl, rfl⟩

theorem Gives.bind {f : α → Action β} (ha : Gives V E m₀ act Q)
    (hf : ∀ x, Q x → Ensures (Within V m₀) (f x) R (Halted V E)) :
    Ensures (Within V m₀) (act >>= f) R (Halted V E) :=
  Ensures.bind ha fun x m hm => hf x hm.2 m hm.1

theorem Gives.finishes (ha : Gives V E m₀ act Q) : Finishes V E m₀ act :=
  ha.imp (fun _ _ hm => ⟨hm.1.data, hm.1.ip⟩) fun _ _ => id

theorem Finishes.moves (ha : Finishes V E m₀ act) : Moves V E m₀ act :=
  ha.imp (fun _ _ hm => hm.1) fun _ _ => id

theorem Gives.moves (ha : Gives V E m₀ act Q) : Moves V E m₀ act := ha.finishes.moves

theorem gives_pure {x : α} (hx : Q x) : Gives V E m₀ (pure x : Action α) Q :=
  ensures_pure fun _ hm => ⟨hm, hx⟩

theorem within_get_bind {f : Machine → Action β}
    (hf : ∀ m, Within V m₀ m → Ensures (Within V m₀) (f m) R (Halted V E)) :
    Ensures (Within V m₀) (get >>= f) R (Halted V E) := fun m hm => hf m hm m hm

theorem gives_push (hx : V x) : Gives V E m₀ (push x) Any :=
  ensures_modify fun _ hm => ⟨⟨hm.data.cons hx, hm.memory, hm.ip⟩, trivial⟩

theorem gives_emit (text : String) : Gives V E m₀ (emit text) Any :=
  ensures_modify fun _ hm => ⟨⟨hm.data, hm.memory, hm.ip⟩, trivial⟩

theorem gives_record (level : Level) (channel : Channel) (text : String) :
    Gives V E m₀ (record level channel text) Any :=
  ensures_modify fun _ hm => ⟨⟨hm.data, hm.memory, hm.ip⟩, trivial⟩

theorem gives_modifySource (f : Source → Source) : Gives V E m₀ (modifySource f) Any :=
  ensures_modify fun _ hm => ⟨⟨hm.data, hm.memory, hm.ip⟩, trivial⟩

theorem gives_setMode (mode : Mode) :
    Gives V E m₀ (modify fun m => { m with mode := mode } : Action Unit) Any :=
  ensures_modify fun _ hm => ⟨⟨hm.data, hm.memory, hm.ip⟩, trivial⟩

theorem finishes_modifyMemory (f : Memory → Memory) : Finishes V E m₀ (modifyMemory f) :=
  ensures_modify fun _ hm => ⟨hm.data, hm.ip⟩

theorem gives_liftM {o : Except Stop α} (ho : ∀ stop, o = .error stop → E stop) :
    Gives V E m₀ (liftM o) fun x => o = .ok x := by
  intro m hm
  cases o with
  | ok x => exact ⟨hm, rfl⟩
  | error stop => exact ⟨hm.data, ho stop rfl⟩

theorem gives_plus {h : Cell} {n : Int} (hn : h.number? = some n) :
    Gives V E m₀ (liftM (h.plus headerSize)) Any :=
  (gives_liftM fun stop h => by rw [Memory.plus_of_number hn] at h; cases h).imp
    (fun _ _ hm => ⟨hm.1, trivial⟩) fun _ _ => id

theorem gives_ask {f : Memory → Except Stop α}
    (hf : ∀ stop, f m₀.memory = .error stop → E stop) :
    Gives V E m₀ (ask f) fun x => f m₀.memory = .ok x := by
  refine within_get_bind fun m hm => ?_
  rw [hm.memory]
  exact gives_liftM hf

theorem finishes_changeMemory {f : Memory → Except Stop Memory}
    (hf : ∀ stop, f m₀.memory = .error stop → E stop) : Finishes V E m₀ (changeMemory f) :=
  (gives_ask hf).bind fun _ _ => finishes_modifyMemory _

/-! ## Compiling -/

theorem finishes_append (x : Cell) : Finishes V E m₀ (append x) := finishes_modifyMemory _

theorem finishes_compileLiteral (x : Cell) : Finishes V E m₀ (compileLiteral x) :=
  ensures_modify fun _ hm => ⟨hm.data, hm.ip⟩

theorem finishes_literal (hx : V x) : Finishes V E m₀ (literal x) := by
  refine within_get_bind fun m _ => ?_
  cases m.mode with
  | compile => exact finishes_compileLiteral x
  | immediate => exact (gives_push hx).finishes

/-! ## Keeping to the terms -/

namespace Terms

variable (ht : Terms V E m₀)

include ht

theorem fails (f : Fault) : Ensures (Within V m₀) (fail f : Action β) R (Halted V E) :=
  ensures_throw fun _ hm => ⟨hm.data, ht.regular _ (Stop.regular_fault f)⟩

theorem onData {act : DataAction α} (ha : DataAction.Leaves V act Q) :
    Gives V E m₀ (Action.onData act) Q := by
  intro m hm
  have hact := ha m.data hm.data
  rw [Action.onData]
  cases h : act m.data with
  | ok x data =>
    rw [h] at hact
    exact ⟨⟨hact.1, hm.memory, hm.ip⟩, hact.2⟩
  | error f data =>
    rw [h] at hact
    exact ⟨hact, ht.regular _ (Stop.regular_fault f)⟩

theorem popInt : Gives V E m₀ (Action.popInt op) Any := ht.onData DataAction.leaves_popInt

theorem popText : Gives V E m₀ (Action.popText op) Any := ht.onData DataAction.leaves_popText

theorem popToken : Gives V E m₀ (Action.popToken op) Any := ht.onData DataAction.leaves_popToken

theorem popTruth : Gives V E m₀ (Action.popTruth op) Any := ht.onData DataAction.leaves_popTruth

theorem pop : Gives V E m₀ Action.pop V := ht.onData DataAction.leaves_pop

theorem popIntCell : Gives V E m₀ (Action.popIntCell op) fun x => V x ∧ ∃ n, x.int? = some n :=
  ht.onData DataAction.leaves_popIntCell

theorem pushInt (n : Int) : Gives V E m₀ (push (.int n)) Any := gives_push (ht.values _ rfl)

theorem askFault {f : Memory → Except Fault α} :
    Gives V E m₀ (ask fun memory => f memory) fun x => f m₀.memory = .ok x := by
  refine (gives_ask fun stop h => ht.regular stop (Outcome.regular_of_liftM h)).imp ?_ fun _ _ => id
  rintro x m ⟨hm, hx⟩
  refine ⟨hm, ?_⟩
  cases h : f m₀.memory with
  | ok y => rw [h] at hx; exact congrArg Except.ok (Except.ok.inj hx)
  | error f => rw [h] at hx; cases hx

theorem liftFault {o : Except Fault α} : Gives V E m₀ (liftM o) fun x => o = .ok x := by
  intro m hm
  cases o with
  | ok x => exact ⟨hm, rfl⟩
  | error f => exact ⟨hm.data, ht.regular _ (Stop.regular_fault f)⟩

/-- What may stop only where a link is no number. -/
theorem of_links {stop : Stop}
    (h : stop.Regular ∨ ∃ k ∈ m₀.memory.chain.headers, k.number? = none) : E stop := by
  rcases h with h | ⟨k, hk, hn⟩
  · exact ht.regular stop h
  · exact ht.links k hk hn stop

theorem find (name : String) : Gives V E m₀ (ask fun memory => memory.find name)
    fun found => m₀.memory.find name = .ok found :=
  gives_ask fun _ h => ht.of_links (Memory.find_stops h)

theorem put (addr x : Cell) : Finishes V E m₀ (Action.put addr x) :=
  ht.askFault.bind fun _ _ => finishes_modifyMemory _

theorem tokenOf (name : String) : Gives V E m₀ (Action.tokenOf name) V := by
  refine within_get_bind fun m hm => ?_
  have htoken : m.tokenOf name = m₀.tokenOf name := by
    simp only [Machine.tokenOf, hm.memory]
  rw [htoken]
  refine (gives_liftM fun stop h => ?_).imp (fun x m hm => ⟨hm.1, ?_⟩) fun _ _ => id
  · cases hfind : m₀.memory.find name with
    | error stop' =>
      simp only [Machine.tokenOf, hfind, Outcome.error_bind, Except.error.injEq] at h
      exact h ▸ ht.of_links (Memory.find_stops hfind)
    | ok found =>
      cases found with
      | none =>
        simp only [Machine.tokenOf, hfind, Outcome.ok_bind, Outcome.throw_eq_error,
          Except.error.injEq] at h
        exact h ▸ ht.regular _ (Stop.regular_fault _)
      | some k =>
        obtain ⟨n, hn⟩ := Memory.number_of_find hfind
        simp [Machine.tokenOf, hfind, Memory.plus_of_number hn] at h
  · have hx := hm.2
    cases hfind : m₀.memory.find name with
    | error stop' => simp [Machine.tokenOf, hfind] at hx
    | ok found =>
      cases found with
      | none => simp [Machine.tokenOf, hfind] at hx
      | some k =>
        obtain ⟨n, hn⟩ := Memory.number_of_find hfind
        simp only [Machine.tokenOf, hfind, Outcome.ok_bind, Memory.plus_of_number hn,
          Outcome.pure_eq_ok, Except.ok.injEq] at hx
        exact hx ▸ ht.values _ rfl

/-! ## Reading -/

variable (hdata : AllOf V m₀.data)

include hdata

/-- What reads from the console first. -/
theorem onConsole {read : Attendant → Reading α}
    (hread : ∀ stop c', read m₀.attendant m₀.console = .error stop c' →
      Reading.StopsWith m₀.attendant (Reading.Attended m₀.console) stop) :
    Ensures (fun m => m = m₀) (get >>= fun m => Action.onConsole (read m.attendant))
      (fun _ m => Within V m₀ m) (Halted V E) := by
  intro m hm
  rw [hm, bind_of_ok (get_apply _), Action.onConsole]
  cases h : read m₀.attendant m₀.console with
  | ok x c => exact ⟨hdata, rfl, rfl⟩
  | error stop c =>
    refine ⟨hdata, ?_⟩
    rcases hread stop c h with rfl | ⟨hattended, line, hanswer⟩
    · exact ht.regular _ Stop.regular_endOfInput
    · exact ht.answers hattended line stop hanswer

theorem nextToken : Ensures (fun m => m = m₀) Action.nextToken (fun _ m => Within V m₀ m)
    (Halted V E) :=
  ht.onConsole hdata fun _ _ => Reading.nextToken_stops

theorem nextChar : Ensures (fun m => m = m₀) Action.nextChar (fun _ m => Within V m₀ m)
    (Halted V E) :=
  ht.onConsole hdata fun _ _ => Reading.nextChar_stops

end Terms

/-! ## Families of primitives -/

/-- From a machine on an action keeps to the terms. -/
abbrev Keeping (V : Cell → Prop) (E : Stop → Prop) (m₀ : Machine) (act : Action α) : Prop :=
  Ensures (fun m => m = m₀) act (fun _ m => AllOf V m.data) (Halted V E)

variable {act : Action α} {x : Cell} (ht : Terms V E m₀) (hdata : AllOf V m₀.data)

include hdata in
theorem Moves.keeping (ha : Moves V E m₀ act) : Keeping V E m₀ act := by
  refine ha.weaken fun m hm => ?_
  rw [hm]
  exact Within.refl hdata

include ht in
theorem MemoryWord.finishes (w : MemoryWord) : Finishes V E m₀ w.perform := by
  cases w with
  | fetch =>
    exact ht.popIntCell.bind fun _ _ => ht.askFault.bind fun _ hx =>
      (gives_push (ht.values _ (Memory.isValue_of_fetch hx))).finishes
  | store => exact ht.popIntCell.bind fun _ _ => ht.pop.bind fun _ _ => ht.put _ _
  | addStore =>
    exact ht.popIntCell.bind fun _ _ => ht.popInt.bind fun _ _ => ht.askFault.bind fun _ _ =>
      ht.liftFault.bind fun _ _ => ht.put _ _
  | comma => exact ht.pop.bind fun x _ => finishes_append x
  | here => exact within_get_bind fun _ _ => (ht.pushInt _).finishes
  | latest => exact within_get_bind fun _ _ => (ht.pushInt _).finishes
  | allot => exact ht.popInt.bind fun _ _ => finishes_modifyMemory _

include ht in
/-- The word of a name: its header, or zero. -/
theorem finishes_find (name : String) : Finishes V E m₀ (do
    push ((← ask fun memory => memory.find name).getD (.int 0))) := by
  refine (ht.find name).bind fun found hfound => (gives_push (ht.values _ ?_)).finishes
  cases found with
  | none => rfl
  | some k =>
    obtain ⟨n, hn⟩ := Memory.number_of_find hfound
    exact Cell.isValue_of_number hn

include ht in
/-- The flags of a header are changed whose address is an integer. -/
theorem finishes_changeFlags {n : Int} (hx : x.number? = some n) (f : Nat → Nat) :
    Finishes V E m₀ (changeMemory (·.changeFlags x f)) :=
  finishes_changeMemory fun _ h => ht.regular _ (Memory.changeFlags_stops hx h)

theorem Cell.number_of_int {n : Int} (h : x.int? = some n) : x.number? = some n := by
  cases x with
  | bool b => cases h
  | _ => exact h

include ht hdata in
theorem CompilerWord.keeping (w : CompilerWord) : Keeping V E m₀ w.perform := by
  have hchange (op : String) (f : Nat → Nat) :
      Finishes V E m₀ (popIntCell op >>= fun x => changeMemory (·.changeFlags x f)) :=
    ht.popIntCell.bind fun x ⟨_, n, hn⟩ => finishes_changeFlags ht (Cell.number_of_int hn) f
  cases w with
  | create => exact Moves.keeping hdata (ht.popText.bind fun _ _ => (finishes_modifyMemory _).moves)
  | compileEnter => exact Moves.keeping hdata (finishes_append _).moves
  | compileVariable => exact Moves.keeping hdata (finishes_append _).moves
  | find => exact Moves.keeping hdata (ht.popText.bind fun name _ => (finishes_find ht name).moves)
  | toCode =>
    exact Moves.keeping hdata (ht.popInt.bind fun _ _ => (gives_push (ht.values _ rfl)).moves)
  | toBody => exact Moves.keeping hdata (ht.popToken.bind fun _ _ => (ht.pushInt _).moves)
  | hidden => exact Moves.keeping hdata (hchange _ _).moves
  | reveal => exact Moves.keeping hdata (hchange _ _).moves
  | whenCompiling =>
    refine Moves.keeping hdata (within_get_bind fun m _ => ?_)
    by_cases hm : m.mode ≠ .compile
    · rw [if_pos hm]
      exact ht.fails _
    · rw [if_neg hm]
      exact (gives_pure (Q := Any) trivial).moves
  | immediate =>
    refine Moves.keeping hdata (within_get_bind fun m _ => ?_)
    cases m.memory.latest with
    | none => exact ht.fails _
    | some h => exact (finishes_changeFlags ht (x := .int h) rfl _).moves
  | leftBracket => exact Moves.keeping hdata (gives_setMode _).moves
  | rightBracket => exact Moves.keeping hdata (gives_setMode _).moves
  | state =>
    exact Moves.keeping hdata (within_get_bind fun _ _ => (gives_push (ht.values _ rfl)).moves)
  | tick =>
    exact (ht.nextToken hdata).bind fun name => (ht.tokenOf name).bind fun _ hx =>
      (gives_push hx).moves
  | compileTick =>
    exact (ht.nextToken hdata).bind fun name => (ht.tokenOf name).bind fun _ hx =>
      (finishes_literal hx).moves

include ht in
theorem finishes_choose (name : String) : Finishes V E m₀ (choose name) := by
  refine (ht.find name).bind fun found hfound => ?_
  cases found with
  | none =>
    cases Numeral.read? name with
    | none =>
      have hreport : Gives V E m₀ (reportUnknown name) Any :=
        within_get_bind fun _ _ => (gives_record _ _ _).bind fun _ _ => gives_emit _
      exact hreport.bind fun _ _ => (gives_pure (Q := Any) trivial).finishes
    | some n =>
      exact Ensures.bind (finishes_literal (ht.values (.int n) rfl)) fun _ => ensures_pure fun _ hm => hm
  | some h =>
    obtain ⟨n, hn⟩ := Memory.number_of_find hfound
    refine (gives_plus hn).bind fun code _ => within_get_bind fun m _ => ?_
    by_cases hmode : m.mode = .immediate
    · rw [if_pos hmode]
      exact (gives_pure (Q := Any) trivial).finishes
    · rw [if_neg hmode]
      refine (gives_ask fun stop h => ht.regular stop (Memory.isImmediate_stops hn h)).bind
        fun immediate _ => ?_
      cases immediate with
      | true => exact (gives_pure (Q := Any) trivial).finishes
      | false => exact Ensures.bind (finishes_append _) fun _ => ensures_pure fun _ hm => hm

include ht hdata in
/-- **To decide what becomes of a token keeps to the terms**, and leaves the thread where it is. -/
theorem Terms.interprets : Ensures (fun m => m = m₀) (Action.nextToken >>= choose)
    (fun _ m => AllOf V m.data ∧ m.ip = m₀.ip) (Halted V E) :=
  (ht.nextToken hdata).bind fun name => finishes_choose ht name

include ht hdata in
theorem Calculation.keeping (c : Calculation) (addr : Int) :
    Keeping V E m₀ ((Native.primitive (.calculation c)).alone addr) := by
  refine Moves.keeping hdata ((ht.onData (c.leaves ht.values)).bind fun text _ => ?_)
  by_cases htext : text ≠ ""
  · rw [if_pos htext]
    exact (gives_emit text).moves
  · rw [if_neg htext]
    exact (gives_pure (Q := Any) trivial).moves

/-! ## The thread -/

theorem moves_advance (distance : Int) (hip : m₀.ip = none → ∀ stop, E stop) :
    Moves V E m₀ (advance distance) := by
  refine within_get_bind fun m hm => ?_
  cases h : m.ip with
  | none => exact ensures_throw fun _ hm' => ⟨hm'.data, hip (hm.ip ▸ h) _⟩
  | some n => exact ensures_modify fun _ hm' => hm'.data

section Thread

include ht

/-- The cell that the thread is at, if it is somewhere. -/
theorem Terms.threadCell : Gives V E m₀ Action.threadCell
    fun x => m₀.memory.get (pointerCell m₀.ip) = .ok x ∧ m₀.ip ≠ none := by
  refine within_get_bind fun m hm => ?_
  rw [hm.ip]
  refine ht.askFault.imp (fun x m hm => ⟨hm.1, hm.2, fun hip => ?_⟩) fun _ _ => id
  have hget := hm.2
  rw [hip] at hget
  cases hget

theorem Terms.moves_jump (op : String) : Moves V E m₀ (jump op) :=
  ht.threadCell.bind fun _ hx => ht.liftFault.bind fun distance _ =>
    moves_advance distance fun hip => absurd hip hx.2

/-- A word that steers the thread leaves no other cell than that behind `LIT`, and stops for no
other reason than that there is no thread behind `0BRANCH`. -/
theorem ThreadWord.moves {w : ThreadWord} (hw : w ≠ .execute) (i : Cell → Action Unit)
    (hlit : w = .lit → ∀ x, m₀.memory.get (pointerCell m₀.ip) = .ok x → V x)
    (hip : w = .branchFalse → m₀.ip = none → ∀ stop, E stop) : Moves V E m₀ (w.perform i) := by
  cases w with
  | exit =>
    refine within_get_bind fun m _ => ?_
    cases m.returns with
    | nil => exact ht.fails _
    | cons ip returns => exact ensures_modify fun _ hm => hm.data
  | lit =>
    exact ht.threadCell.bind fun x hx => (gives_push (hlit rfl x hx.1)).bind fun _ _ =>
      moves_advance 1 fun hip => absurd hip hx.2
  | branch => exact ht.moves_jump _
  | branchFalse =>
    refine ht.popTruth.bind fun truth _ => ?_
    cases truth with
    | true => exact moves_advance 1 (hip rfl)
    | false => exact ht.moves_jump _
  | execute => exact absurd rfl hw

end Thread

include ht hdata in
/-- **A primitive that runs no other word keeps to the terms**, if the cell behind `LIT` may be on
the stack, and if a run may stop where there is no thread behind `0BRANCH`. -/
theorem Native.alone_keeping {n : Native} (hn : n.runsWords = false) (addr : Int)
    (hlit : n = .primitive (.thread .lit) →
      ∀ x, m₀.memory.get (pointerCell m₀.ip) = .ok x → V x)
    (hip : n = .primitive (.thread .branchFalse) → m₀.ip = none → ∀ stop, E stop) :
    Keeping V E m₀ (n.alone addr) := by
  cases n with
  | enter => exact Moves.keeping hdata (ensures_modify fun _ hm => hm.data)
  | «variable» => exact Moves.keeping hdata (ht.pushInt _).moves
  | primitive p =>
    cases p with
    | calculation c => exact c.keeping ht hdata addr
    | thread w =>
      have hw : w ≠ .execute := by
        rintro rfl
        cases hn
      have hmoves : Moves V E m₀ (w.perform fun _ => pure ()) :=
        ThreadWord.moves ht hw _ (fun h => hlit (by rw [h])) fun h => hip (by rw [h])
      exact Moves.keeping hdata hmoves
    | memory w => exact Moves.keeping hdata (w.finishes ht).moves
    | compiler w => exact w.keeping ht hdata
    | input w =>
      cases w with
      | word =>
        exact (ht.nextToken hdata).bind fun _ => (gives_push (ht.values _ rfl)).moves
      | key => exact (ht.nextChar hdata).bind fun _ => (ht.pushInt _).moves
      | number =>
        refine Moves.keeping hdata (ht.popText.bind fun name _ => ?_)
        cases Numeral.read? name with
        | none =>
          exact (gives_push (ht.values _ rfl)).bind fun _ _ => (gives_push (ht.values _ rfl)).moves
        | some n =>
          exact (ht.pushInt n).bind fun _ _ => (gives_push (ht.values _ rfl)).moves
      | char => exact (ht.nextToken hdata).bind fun _ => (ht.pushInt _).moves
      | interpret => cases hn
    | text w =>
      cases w with
      | lineComment => exact Moves.keeping hdata (gives_modifySource _).moves
      | _ => cases hn
    | session w =>
      cases w with
      | abort => exact Moves.keeping hdata (ht.fails _)
      | bye =>
        exact Moves.keeping hdata
          (ensures_throw fun _ hm => ⟨hm.data, ht.regular _ Stop.regular_endOfInput⟩)

/-! ## Characters -/

/-- To take the character of a code leaves cells of the kinds that were there. -/
theorem leaves_takeKey (hV : ∀ x : Cell, x.isValue → V x) :
    Ensures (fun m => AllOf V m.data) takeKey (fun _ m => AllOf V m.data)
      fun _ m => AllOf V m.data := by
  intro m hm
  have ht : Terms V (fun _ => True) m := ⟨hV, by simp, by simp, by simp⟩
  have hall : Moves V (fun _ => True) m takeKey := by
    refine ht.popInt.bind fun code _ => ?_
    cases characterOf code with
    | ok c => exact (gives_pure (Q := Any) trivial).moves
    | error f => exact ensures_throw fun _ hm => ⟨hm.data, trivial⟩
  exact hall.imp (fun _ _ => id) (fun _ _ h => h.1) m (.refl hm)

/-- No character is taken for a regular reason, or because the code on the stack has none. -/
theorem takeKey_stops {m m' : Machine} {stop : Stop} (h : takeKey m = .error stop m') :
    stop.Regular ∨ ∃ code f, m.data.head?.bind Cell.int? = some code ∧
      characterOf code = .error f := by
  simp only [takeKey, bind_apply] at h
  cases hpop : popInt InputWord.key.name m with
  | error stop' m₁ =>
    rw [hpop] at h
    cases h
    obtain ⟨f, rfl⟩ := onData_stops hpop
    exact .inl (Stop.regular_fault f)
  | ok code m₁ =>
    rw [hpop] at h
    cases hcode : characterOf code with
    | ok c =>
      simp only [hcode] at h
      cases h
    | error f =>
      obtain ⟨x, data, hdata, hx, -⟩ := popInt_ok hpop
      exact .inr ⟨code, f, by simpa [hdata] using hx, hcode⟩

end

end ThreadedForth
