import ThreadedForth.Proofs.Compiler.Pass
import ThreadedForth.Proofs.Host.Answer
import ThreadedForth.Proofs.Machine.Dispatch
import ThreadedForth.Proofs.Machine.Pair
import ThreadedForth.Proofs.Machine.Plain
import ThreadedForth.Proofs.Machine.Terms

/-!
# Tracing

A machine that logs its dispatches goes through the same states as one that does not
(`Machine.Traced`), and enters the same cells in the same order (`Record.Traced`). What a word does
looks neither at the log nor at whether it is kept (`Blind`). A label has to be found for each
dispatch, though, and the search for it may fail where a program has written over links. So the two
runs go together as long as the headers can be walked to their end at each dispatch (`Walked`), and
then they do so whatever the run comes to, the bound on its steps included
(`Recorded.execute_transparent`).
-/

namespace ThreadedForth

open ThreadedForth.Action

variable {α β : Type}

/-! ## Labels of code fields -/

namespace Memory

variable {m : Memory} {code : Int} {x : Cell}

/-- The headers of a chain that comes to its end can be read. -/
theorem get_of_mem_chainFrom {bound : Nat} {k l : Cell}
    (hend : (m.chainFrom bound k).ending = .closed) (hl : l ∈ (m.chainFrom bound k).headers) :
    ∃ link, m.get l = .ok link := by
  induction bound generalizing k with
  | zero => cases hend
  | succ bound ih =>
    cases hget : m.get k with
    | error f => cases k <;> simp_all [chainFrom]
    | ok link =>
      rw [chainFrom_of_get hget] at hend hl
      rcases List.mem_cons.mp hl with rfl | hl
      · exact ⟨link, hget⟩
      · exact ih hend hl

/-- **Every code field has a label, if the headers can be walked to their end.** -/
theorem label_eq_ok_of_closed (hend : m.chain.ending = .closed)
    (hcode : m.get (.int code) = .ok x) : ∃ name, m.label code = .ok name := by
  have hread : ∀ l ∈ m.chain.headers, ∃ i : Nat, l.number? = some (i : Int) := by
    intro l hl
    rw [chain] at hend hl
    cases hlatest : m.latest with
    | none =>
      rw [hlatest] at hl
      cases hl
    | some h =>
      rw [hlatest] at hend hl
      obtain ⟨link, hlink⟩ := get_of_mem_chainFrom hend hl
      obtain ⟨i, hi, -⟩ := get_eq_ok_iff.mp hlink
      exact ⟨i, Cell.number_of_int hi⟩
  obtain ⟨found, hgo, -⟩ := find?_go_code hend code fun l hl =>
    (hread l hl).elim fun i hi => ⟨(i : Int), hi⟩
  have hheaderOf : m.headerOf code = .ok found := by rw [headerOf, Chain.find?, hgo]
  rw [label, hheaderOf]
  cases found with
  | none => exact ⟨_, rfl⟩
  | some l =>
    -- the name lies between the header and the code field, and both of them can be read
    obtain ⟨before, later, hheaders, htest, -⟩ := find?_go_ok hgo
    obtain ⟨i, hi⟩ := hread l (by rw [hheaders]; simp)
    rw [plus_of_number hi] at htest
    have hplace : (i : Int) + headerSize = code := by simpa using htest
    obtain ⟨j, hj, hcell⟩ := get_eq_ok_iff.mp hcode
    have hlt : j < m.cells.size := (Array.getElem?_eq_some_iff.mp hcell).1
    obtain rfl : code = j := Option.some.inj hj
    have hname : i + 1 < m.cells.size := by
      rw [headerSize] at hplace
      omega
    refine ⟨m.cells[i + 1], ?_⟩
    have hget : m.get (.int ((i : Int) + 1)) = .ok m.cells[i + 1] :=
      get_int_add_of_cell (Array.getElem?_eq_getElem hname)
    simp [nameOf, plus_of_number hi, hget]

end Memory

/-! ## Machines that log their dispatches -/

/-- A machine that does not log its dispatches, and the same machine as it logs them: nothing differs
but the log, which has more records. -/
structure Machine.Traced (m m' : Machine) : Prop where
  silent : m.tracing = false
  same : m' = { m with tracing := true, log := m'.log }
  log : m.log.Sublist m'.log

namespace Machine.Traced

variable {m m' : Machine}

theorem core (h : m.Traced m') : m'.core = m.core := by
  rw [h.same]
  rfl

theorem withCore (h : m.Traced m') (k : Core) : (m.withCore k).Traced (m'.withCore k) where
  silent := h.silent
  same := by
    rw [h.same]
    rfl
  log := h.log

/-- What does not touch upon the log makes no difference. -/
theorem change (h : m.Traced m') {g : Machine → Machine}
    (hg : ∀ (m : Machine) tracing log, g { m with tracing := tracing, log := log } =
      { g m with tracing := tracing, log := log }) : (g m).Traced (g m') := by
  have hm : g m = { g m with tracing := m.tracing, log := m.log } := hg m m.tracing m.log
  have hm' : g m' = { g m with tracing := true, log := m'.log } := by
    conv_lhs => rw [h.same]
    exact hg m true m'.log
  refine ⟨?_, ?_, ?_⟩
  · rw [hm]
    exact h.silent
  · rw [hm']
  · rw [hm, hm']
    exact h.log

theorem attendant (h : m.Traced m') : m'.attendant = m.attendant := by
  rw [h.same]
  exact Machine.attendant_congr rfl rfl rfl rfl rfl

theorem console (h : m.Traced m') : m'.console = m.console := by rw [h.same]

end Machine.Traced

/-! ## What words do -/

/-- An action does the same whether dispatches are logged or not. -/
def Blind (act : Action α) : Prop :=
  ∀ m m', m.Traced m' → Agree Machine.Traced (fun _ => Machine.Traced) (act m) (act m')

theorem blind_pure (x : α) : Blind (pure x : Action α) := fun _ _ h => .ok h

theorem blind_throw (stop : Stop) : Blind (throw stop : Action α) := fun _ _ h => .error h

theorem Blind.bind {act : Action α} {k : α → Action β} (ha : Blind act) (hk : ∀ x, Blind (k x)) :
    Blind (act >>= k) := by
  intro m m' h
  have hact := ha m m' h
  generalize hleft : act m = left at hact
  generalize hright : act m' = right at hact
  cases hact with
  | ok h₁ =>
    rw [bind_of_ok hleft, bind_of_ok hright]
    exact hk _ _ _ h₁
  | error h₁ =>
    rw [bind_of_error hleft, bind_of_error hright]
    exact .error h₁

/-- A look at what is the same. -/
theorem blind_get_bind {k : Machine → Action α} (hk : ∀ m, Blind (k m))
    (hsame : ∀ m m', m.Traced m' → k m' = k m) : Blind (get >>= k) := by
  intro m m' h
  rw [bind_of_ok (get_apply m), bind_of_ok (get_apply m'), hsame m m' h]
  exact hk m m m' h

theorem blind_modify {g : Machine → Machine}
    (hg : ∀ (m : Machine) tracing log, g { m with tracing := tracing, log := log } =
      { g m with tracing := tracing, log := log }) : Blind (modify g : Action Unit) :=
  fun _ _ h => .ok (h.change hg)

theorem blind_write (voice : Voice) (text : String) : Blind (write voice text) :=
  blind_modify fun _ _ _ => rfl

theorem blind_modifySource (f : Source → Source) : Blind (modifySource f) :=
  blind_modify fun _ _ _ => rfl

theorem blind_record (level : Level) (channel : Channel) (text : String) :
    Blind (record level channel text) := by
  intro m m' h
  refine .ok ⟨h.silent, ?_, h.log.cons_cons _⟩
  conv_lhs => rw [h.same]

theorem blind_report (name : String) : Blind (reportUnknown name) :=
  blind_get_bind (fun _ => (blind_record _ _ _).bind fun _ => blind_write _ _)
    fun m m' h => by rw [h.console]

theorem blind_local {act : Action α} (hact : Local act) : Blind act := by
  intro m m' h
  have hleft := hact.same m m rfl
  have hright := hact.same m m' h.core
  cases hrun : act m with
  | ok x m₁ =>
    rw [hrun] at hleft hright
    rw [hleft, hright]
    exact .ok (h.withCore m₁.core)
  | error stop m₁ =>
    rw [hrun] at hleft hright
    rw [hleft, hright]
    exact .error (h.withCore m₁.core)

theorem blind_plain {act : Action α} (hact : Plain act) : Blind act := by
  induction hact with
  | core hact => exact blind_local hact
  | enter addr => exact blind_modify fun _ _ _ => rfl
  | emit text => exact blind_write .program text
  | report name => exact blind_report name
  | skipLine => exact blind_modifySource _
  | bind _ _ ih ihk => exact ih.bind ihk

theorem blind_onConsole (act : Reading α) : Blind (onConsole act) := by
  intro m m' h
  rw [onConsole, onConsole, h.console]
  cases act m.console with
  | ok x c => exact .ok (h.change (g := fun m => { m with console := c }) fun _ _ _ => rfl)
  | error stop c => exact .error (h.change (g := fun m => { m with console := c }) fun _ _ _ => rfl)

theorem blind_nextToken : Blind nextToken :=
  blind_get_bind (fun _ => blind_onConsole _) fun m m' h => by rw [h.attendant]

theorem blind_nextChar : Blind nextChar :=
  blind_get_bind (fun _ => blind_onConsole _) fun m m' h => by rw [h.attendant]

theorem blind_exit (invoke : Cell → Action Unit) : Blind (ThreadWord.exit.perform invoke) := by
  refine blind_get_bind (fun m => ?_) fun m m' h => by rw [h.same]
  cases m.returns with
  | nil => exact blind_throw _
  | cons ip rest => exact blind_modify fun _ _ _ => rfl

/-- **A primitive that runs no other word does the same whether dispatches are logged or not.** -/
theorem blind_alone {n : Native} (hn : n.runsWords = false) (addr : Int) :
    Blind (n.alone addr) := by
  by_cases hexit : n = .primitive (.thread .exit)
  · subst hexit
    exact blind_exit fun _ => pure ()
  by_cases hbye : n = .primitive (.session .bye)
  · subst hbye
    exact blind_throw _
  have hmade := n.alone_made hn hexit hbye addr
  generalize n.alone addr = act at hmade
  cases hmade with
  | plain hact => exact blind_plain hact
  | token _ hk => exact blind_nextToken.bind fun name => blind_plain (hk name)
  | char _ hk => exact blind_nextChar.bind fun c => blind_plain (hk c)

/-! ## Records -/

/-- The same event, apart from what was logged. -/
inductive Event.Traced : Event → Event → Prop
  | start {m m' : Machine} (h : m.Traced m') : Traced (.start m) (.start m')
  | entry (x : Cell) {m m' : Machine} (h : m.Traced m') : Traced (.entry x m) (.entry x m')
  | back {m m' : Machine} (h : m.Traced m') : Traced (.back m) (.back m')
  | fault (f : Fault) {m m' : Machine} (h : m.Traced m') : Traced (.fault f m) (.fault f m')

/-- The same events in the same order, and then the same machine, apart from what was logged. -/
structure Record.Traced (r r' : Record) : Prop where
  past : List.Forall₂ Event.Traced r.past r'.past
  machine : r.machine.Traced r'.machine

/-- At each dispatch so far the headers could be walked to their end. -/
def Walked (past : List Event) : Prop :=
  ∀ e ∈ past, e.behaviour ≠ none → e.machine.memory.chain.ending = .closed

theorem Walked.of_suffix {past later : List Event} (h : Walked later) (hs : past <:+ later) :
    Walked past := fun e he => h e (hs.subset he)

namespace Recorded

/-- The record that something leaves behind. -/
def trail (act : Recorded α) (r : Record) : Record :=
  match act r with
  | .ok _ r' => r'
  | .error _ r' => r'

/-- Something only adds to the record. -/
def Grows (act : Recorded α) : Prop := ∀ r, r.past <:+ (trail act r).past

/-- Something does the same whether dispatches are logged or not, as long as each of them has a
label. -/
structure Transparent (act : Recorded α) : Prop where
  grows : Grows act
  agrees : ∀ r r', r.Traced r' → Walked (trail act r).past →
    Agree Record.Traced (fun _ => Record.Traced) (act r) (act r')

theorem trail_of_ok {act : Recorded α} {r r₁ : Record} {x : α} (h : act r = .ok x r₁) :
    trail act r = r₁ := by rw [trail, h]

theorem trail_of_error {act : Recorded α} {r r₁ : Record} {stop : Stop}
    (h : act r = .error stop r₁) : trail act r = r₁ := by rw [trail, h]

theorem trail_bind_of_ok {act : Recorded α} {k : α → Recorded β} {r r₁ : Record} {x : α}
    (h : act r = .ok x r₁) : trail (act >>= k) r = trail (k x) r₁ := by
  rw [trail, bind_of_ok h, trail]

theorem trail_bind_of_error {act : Recorded α} {k : α → Recorded β} {r r₁ : Record} {stop : Stop}
    (h : act r = .error stop r₁) : trail (act >>= k) r = r₁ := by
  rw [trail, bind_of_error h]

theorem lift_of_error {act : Action α} {past : List Event} {m m' : Machine} {stop : Stop}
    (h : act m = .error stop m') : lift act ⟨past, m⟩ = .error stop ⟨past, m'⟩ := by
  rw [lift, h]

theorem note_apply (event : Machine → Event) (past : List Event) (m : Machine) :
    note event ⟨past, m⟩ = .ok () ⟨event m :: past, m⟩ := rfl

theorem Grows.bind {act : Recorded α} {k : α → Recorded β} (ha : Grows act)
    (hk : ∀ x, Grows (k x)) : Grows (act >>= k) := by
  intro r
  have hgrows := ha r
  cases hrun : act r with
  | ok x r₁ =>
    rw [trail_of_ok hrun] at hgrows
    rw [trail_bind_of_ok hrun]
    exact hgrows.trans (hk x r₁)
  | error stop r₁ =>
    rw [trail_of_error hrun] at hgrows
    rw [trail_bind_of_error hrun]
    exact hgrows

theorem grows_lift (act : Action α) : Grows (lift act) := by
  intro r
  rw [trail, lift]
  cases act r.machine <;> exact List.suffix_rfl

theorem grows_note (event : Machine → Event) : Grows (note event) := fun _ => List.suffix_cons _ _

theorem transparent_pure (x : α) : Transparent (pure x : Recorded α) where
  grows _ := List.suffix_rfl
  agrees _ _ h _ := .ok h

theorem transparent_throw (stop : Stop) : Transparent (throw stop : Recorded α) where
  grows _ := List.suffix_rfl
  agrees _ _ h _ := .error h

theorem Transparent.bind {act : Recorded α} {k : α → Recorded β} (ha : Transparent act)
    (hk : ∀ x, Transparent (k x)) : Transparent (act >>= k) where
  grows := ha.grows.bind fun x => (hk x).grows
  agrees r r' h hwalked := by
    have hact := ha.agrees r r' h
    cases hrun : act r with
    | ok x r₁ =>
      rw [trail_bind_of_ok hrun] at hwalked
      rw [trail_of_ok hrun, hrun] at hact
      have hagree := hact (hwalked.of_suffix ((hk x).grows r₁))
      generalize hright : act r' = right at hagree
      cases hagree with
      | ok h₁ =>
        rw [bind_of_ok hrun, bind_of_ok hright]
        exact (hk x).agrees _ _ h₁ hwalked
    | error stop r₁ =>
      rw [trail_bind_of_error hrun] at hwalked
      rw [trail_of_error hrun, hrun] at hact
      have hagree := hact hwalked
      generalize hright : act r' = right at hagree
      cases hagree with
      | error h₁ =>
        rw [bind_of_error hrun, bind_of_error hright]
        exact .error h₁

/-- A look at what is the same. -/
theorem transparent_get_bind {k : Record → Recorded α} (hk : ∀ r, Transparent (k r))
    (hsame : ∀ r r', r.Traced r' → k r' = k r) : Transparent (get >>= k) where
  grows r := by
    rw [trail_bind_of_ok (get_apply r)]
    exact (hk r).grows r
  agrees r r' h hwalked := by
    rw [trail_bind_of_ok (get_apply r)] at hwalked
    rw [bind_of_ok (get_apply r), bind_of_ok (get_apply r'), hsame r r' h]
    exact (hk r).agrees r r' h hwalked

theorem transparent_lift {act : Action α} (hact : Blind act) : Transparent (lift act) where
  grows := grows_lift act
  agrees r r' h _ := by
    have hagree := hact _ _ h.machine
    rw [lift, lift]
    generalize act r.machine = left at hagree
    generalize act r'.machine = right at hagree
    cases hagree with
    | ok h₁ => exact .ok ⟨h.past, h₁⟩
    | error h₁ => exact .error ⟨h.past, h₁⟩

theorem transparent_note {event : Machine → Event}
    (hevent : ∀ m m', m.Traced m' → (event m).Traced (event m')) : Transparent (note event) where
  grows := grows_note event
  agrees _ _ h _ := .ok ⟨.cons (hevent _ _ h.machine) h.past, h.machine⟩

theorem Transparent.observe {act : Recorded α} (ha : Transparent act) :
    Transparent (observe act) where
  grows r := by
    have hgrows := ha.grows r
    rw [trail] at hgrows ⊢
    rw [Recorded.observe]
    cases hrun : act r with
    | ok x r₁ => rwa [hrun] at hgrows
    | error stop r₁ => rwa [hrun] at hgrows
  agrees r r' h hwalked := by
    have htrail : trail (Recorded.observe act) r = trail act r := by
      rw [trail, Recorded.observe, trail]
      cases act r <;> rfl
    have hagree := ha.agrees r r' h (htrail ▸ hwalked)
    rw [Recorded.observe, Recorded.observe]
    generalize act r = left at hagree
    generalize act r' = right at hagree
    cases hagree with
    | ok h₁ => exact .ok h₁
    | error h₁ => exact .ok h₁

/-! ## Runs -/

section Words

variable {i e : Cell → Recorded Unit} {bound : Nat}

theorem transparent_interpretToken (he : ∀ x, Transparent (e x)) (name : String) :
    Transparent (interpretToken e name) := by
  refine (transparent_lift (blind_plain (plain_choose name))).bind fun found => ?_
  cases found with
  | none => exact transparent_pure _
  | some x => exact he x

theorem transparent_readKey (he : ∀ x, Transparent (e x)) : Transparent (readKey e) :=
  (he _).bind fun _ => transparent_lift (blind_local local_takeKey)

theorem transparent_readUntil (he : ∀ x, Transparent (e x)) (delimiter : Char) (n : Nat)
    (before : List Char) : Transparent (readUntil e delimiter n before) := by
  induction n generalizing before with
  | zero => exact transparent_throw _
  | succ n ih =>
    refine (transparent_readKey he).bind fun c => ?_
    by_cases hc : c = delimiter
    · rw [if_pos hc]
      exact transparent_pure _
    · rw [if_neg hc]
      exact ih _

theorem transparent_readText (he : ∀ x, Transparent (e x)) (n : Nat) :
    Transparent (readText e n) :=
  (he _).bind fun _ => (transparent_lift (blind_local (local_onData _))).bind fun _ =>
    (transparent_readUntil he _ _ _).bind fun _ => transparent_pure _

theorem transparent_perform (hi : ∀ x, Transparent (i x)) (he : ∀ x, Transparent (e x))
    (n : Native) (addr : Int) : Transparent (perform n addr i e bound) := by
  cases hn : n.runsWords with
  | false =>
    rw [perform_eq_lift hn]
    exact transparent_lift (blind_alone hn addr)
  | true =>
    cases n with
    | primitive p =>
      cases p with
      | thread w =>
        cases w with
        | execute => exact (transparent_lift (blind_local (local_onData _))).bind fun code => hi _
        | _ => cases hn
      | input w =>
        cases w with
        | interpret =>
          exact (transparent_lift blind_nextToken).bind fun name =>
            transparent_interpretToken he name
        | _ => cases hn
      | text w =>
        cases w with
        | text =>
          exact (transparent_readText he bound).bind fun text =>
            transparent_lift (blind_local (local_literal _))
        | print =>
          exact (transparent_readText he bound).bind fun text =>
            transparent_lift (blind_plain (plain_printText text))
        | comment =>
          exact (transparent_readUntil he _ _ _).bind fun _ => transparent_pure _
        | lineComment => cases hn
      | _ => cases hn
    | _ => cases hn

theorem transparent_returnTo (hi : ∀ x, Transparent (i x)) (depth n : Nat) :
    Transparent (returnTo i depth n) := by
  induction n with
  | zero => exact transparent_throw _
  | succ n ih =>
    refine transparent_get_bind (fun r => ?_) fun r r' h => by rw [h.machine.same]
    by_cases hd : Stack.deeperThan depth r.machine.returns
    · rw [if_pos hd]
      exact ((transparent_lift (blind_local local_nextCell)).bind hi).bind fun _ => ih
    · rw [if_neg hd]
      exact transparent_pure _

theorem transparent_executeWith (hi : ∀ x, Transparent (i x)) (n : Nat) (x : Cell) :
    Transparent (executeWith i n x) := by
  refine transparent_get_bind (fun r => ?_) fun r r' h => by rw [h.machine.same]
  exact (hi x).bind fun _ => (transparent_returnTo hi _ n).bind fun _ =>
    (transparent_lift (blind_modify fun _ _ _ => rfl)).bind fun _ => transparent_note fun _ _ => .back

/-- A dispatch is logged, if the headers can be walked to their end. -/
theorem arrive_agrees {m m' : Machine} (h : m.Traced m') {addr : Int} {n : Native}
    (hn : m.memory.get (.int addr) = .ok (.native n)) (hend : m.memory.chain.ending = .closed) :
    ∃ m₁ m₁', arrive addr m = .ok () m₁ ∧ arrive addr m' = .ok () m₁' ∧ m₁.Traced m₁' := by
  obtain ⟨name, hname⟩ := Memory.label_eq_ok_of_closed hend hn
  have hlabel : m'.memory.label addr = .ok name := by rw [h.same, hname]
  have htracing : m'.tracing = true := by rw [h.same]
  have hleft : arrive addr m = .ok () { m with current := some addr } := by
    simp [arrive, trace, bind_apply, h.silent]
  have hright : ∃ r,
      arrive addr m' = .ok () { m' with current := some addr, log := r :: m'.log } := by
    simp only [arrive, trace, bind_apply, get_apply, htracing, hlabel, if_true, liftM_ok, record,
      modify_apply]
    exact ⟨_, rfl⟩
  obtain ⟨r, hright⟩ := hright
  refine ⟨_, _, hleft, hright, h.silent, ?_, h.log.trans (List.sublist_cons_self _ _)⟩
  conv_lhs => rw [h.same]

/-- **A dispatch does the same whether it is logged or not.** -/
theorem transparent_enter (hi : ∀ x, Transparent (i x)) (n : Nat) (x : Cell) :
    Transparent (note (.entry x) >>= fun _ => enterWith i n x) := by
  have hperform : ∀ found : Int × Native,
      Transparent (perform found.2 found.1 i (executeWith i n) n) :=
    fun found => transparent_perform hi (transparent_executeWith hi n) found.2 found.1
  have hgrows : Grows (enterWith i n x) := (grows_lift _).bind fun found =>
    (grows_lift _).bind fun _ => (hperform found).grows
  refine ⟨(grows_note _).bind fun _ => hgrows, fun ⟨past, m⟩ ⟨past', m'⟩ h hwalked => ?_⟩
  have hnoted : Record.Traced ⟨.entry x m :: past, m⟩ ⟨.entry x m' :: past', m'⟩ :=
    ⟨.cons (.entry x h.machine) h.past, h.machine⟩
  rw [trail_bind_of_ok (note_apply _ past m)] at hwalked
  rw [bind_of_ok (note_apply _ past m), bind_of_ok (note_apply _ past' m')]
  have hcode := blind_local (local_codeField x) m m' h.machine
  rcases codeField_cases x m with ⟨⟨addr, w⟩, hx, hn, hfound⟩ | ⟨f, hfault⟩
  · rw [hfound] at hcode
    generalize hright : codeField x m' = right at hcode
    cases hcode with
    | @ok _ _ m₁' h₁ =>
      have hentry : Event.entry x m ∈ (trail (enterWith i n x) ⟨.entry x m :: past, m⟩).past :=
        (hgrows _).subset List.mem_cons_self
      have hbehaviour : (Event.entry x m).behaviour ≠ none := by
        simp [Event.behaviour, Machine.behaviour, hx, hn]
      obtain ⟨m₂, m₂', hm₂, hm₂', h₂⟩ := arrive_agrees h₁ hn (hwalked _ hentry hbehaviour)
      rw [enterWith, trail_bind_of_ok (lift_of_ok hfound),
        trail_bind_of_ok (lift_of_ok hm₂)] at hwalked
      rw [enterWith, bind_of_ok (lift_of_ok hfound), bind_of_ok (lift_of_ok hright)]
      dsimp only
      rw [bind_of_ok (lift_of_ok hm₂), bind_of_ok (lift_of_ok hm₂')]
      exact (hperform (addr, w)).agrees _ _ ⟨hnoted.past, h₂⟩ hwalked
  · rw [hfault] at hcode
    generalize hright : codeField x m' = right at hcode
    cases hcode with
    | error h₁ =>
      rw [enterWith, bind_of_error (lift_of_error hfault), bind_of_error (lift_of_error hright)]
      exact .error ⟨hnoted.past, h₁⟩

end Words

theorem invoke_transparent (bound : Nat) (x : Cell) : Transparent (invoke bound x) := by
  induction bound generalizing x with
  | zero => exact transparent_throw _
  | succ n ih => exact transparent_enter ih n x

/-- **A word does the same whether dispatches are logged or not.** -/
theorem execute_transparent (bound : Nat) (x : Cell) : Transparent (execute bound x) :=
  transparent_executeWith (invoke_transparent bound) bound x

end Recorded

end ThreadedForth
