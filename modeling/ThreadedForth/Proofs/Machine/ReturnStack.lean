import Mathlib.Data.List.Basic
import ThreadedForth.Kernel.Image
import ThreadedForth.Proofs.Machine.Bound
import ThreadedForth.Proofs.Machine.Dispatch
import ThreadedForth.Proofs.Machine.Frame

/-!
# The discipline of the return stack

A word that is run to its end leaves the return stack as it found it, or without its top entry
(`execute_restores_returns`). The second case needs a reason: the first dispatch must have been of
`EXIT`, or have led to it by way of `EXECUTE` and `INTERPRET` alone (`LeadsTo`).

The invariant of the loop in `returnTo` is that the return stack of the entry is a suffix of the
return stack now. One step changes the stack by one entry at most, so the loop, which goes on as
long as the stack is deeper than it was, ends exactly at the stack of the entry. Words that run
other words rely on this for the words that they run: hence the induction on the bound. The words
that read a text run `KEY` once for each character, and nothing is assumed of the machine but that
`KEY` is still `KEY`.
-/

namespace ThreadedForth.Action

/-! ## Effects on the return stack -/

/-- What a dispatch does to the return stack; to take an entry off it needs a reason. -/
inductive Effect (reason : Prop) (before after : List (Option Int)) : Prop
  | same (h : after = before)
  | push (ip : Option Int) (h : after = ip :: before)
  | pop (ip : Option Int) (h : before = ip :: after) (because : reason)

theorem Effect.imp {p q : Prop} {before after : List (Option Int)} (he : Effect p before after)
    (hpq : p → q) : Effect q before after := by
  cases he with
  | same h => exact .same h
  | push ip h => exact .push ip h
  | pop ip h because => exact .pop ip h (hpq because)

/-- An effect on a stack that is higher than a part of its bottom leaves that part alone. -/
theorem Effect.suffix {reason : Prop} {before after entry : List (Option Int)}
    (he : Effect reason before after) (hs : entry <:+ before) (hd : entry.length < before.length) :
    entry <:+ after := by
  cases he with
  | same h => rwa [h]
  | push ip h =>
    rw [h]
    exact hs.trans (List.suffix_cons ip before)
  | pop ip h _ =>
    rw [h] at hs hd
    rcases List.suffix_cons_iff.mp hs with heq | hs
    · rw [heq] at hd
      exact absurd hd (Nat.lt_irrefl _)
    · exact hs

/-! ## Where a dispatch leads -/

/-- A native behaviour passes the thread on: it enters `x` in the machine `m'` before it does
anything else to the return stack. -/
inductive PassesOn : Native → Machine → Cell → Machine → Prop
  /-- `EXECUTE` enters the word of the token on top of the data stack -/
  | execute {m m' : Machine} {addr : Int}
      (hpop : popToken ThreadWord.execute.name m = .ok addr m') :
      PassesOn (.primitive (.thread .execute)) m (.token addr) m'
  /-- `INTERPRET` enters the word that the next token names, unless the word is compiled -/
  | interpret {m m' : Machine} {name : String} {h : Cell} {code : Int}
      (hname : nextToken m = .ok name m') (hfind : m'.memory.find name = .ok (some h))
      (hcode : h.plus headerSize = .ok code)
      (hrun : m'.mode = .immediate ∨ m'.memory.isImmediate h = .ok true) :
      PassesOn (.primitive (.input .interpret)) m (.token code) m'

/-- The dispatch of a cell comes to a native behaviour, at once or passed on to it. -/
inductive LeadsTo (target : Native) : Cell → Machine → Prop
  | here {addr : Int} {m : Machine} (hcell : m.memory.get (.int addr) = .ok (.native target)) :
      LeadsTo target (.token addr) m
  | through {addr : Int} {n : Native} {m m₁ m₂ : Machine} {x : Cell}
      (hcell : m.memory.get (.int addr) = .ok (.native n)) (harrive : arrive addr m = .ok () m₁)
      (hpass : PassesOn n m₁ x m₂) (hrest : LeadsTo target x m₂) :
      LeadsTo target (.token addr) m

/-- The behaviour of `EXIT`. -/
def exitNative : Native := .primitive (.thread .exit)

theorem PassesOn.unique {n : Native} {m m₁ m₂ : Machine} {x y : Cell} (h₁ : PassesOn n m x m₁)
    (h₂ : PassesOn n m y m₂) : x = y ∧ m₁ = m₂ := by
  cases h₁ with
  | execute hpop =>
    cases h₂ with
    | execute hpop' =>
      rw [hpop] at hpop'
      cases hpop'
      exact ⟨rfl, rfl⟩
  | interpret hname hfind hcode _ =>
    cases h₂ with
    | interpret hname' hfind' hcode' _ =>
      rw [hname] at hname'
      cases hname'
      rw [hfind] at hfind'
      cases hfind'
      rw [hcode] at hcode'
      cases hcode'
      exact ⟨rfl, rfl⟩

/-- A dispatch that comes to `EXIT` does not come to a body. -/
theorem LeadsTo.not_enter {x : Cell} {m : Machine} (hx : LeadsTo exitNative x m) :
    ¬ LeadsTo .enter x m := by
  induction hx with
  | here hcell =>
    intro he
    cases he with
    | here hcell' => rw [hcell] at hcell'; cases hcell'
    | through hcell' _ hpass _ => rw [hcell] at hcell'; cases hcell'; cases hpass
  | through hcell harrive hpass _ ih =>
    intro he
    cases he with
    | here hcell' => rw [hcell] at hcell'; cases hcell'; cases hpass
    | through hcell' harrive' hpass' hrest' =>
      rw [hcell] at hcell'
      cases hcell'
      rw [harrive] at harrive'
      cases harrive'
      obtain ⟨rfl, rfl⟩ := hpass.unique hpass'
      exact ih hrest'

/-! ## The loop -/

section Loop

variable {i : Cell → Action Unit} {reason : Cell → Machine → Prop}
  (hi : ∀ x m m', i x m = .ok () m' → Effect (reason x m) m.returns m'.returns)

include hi in
/-- A step changes the return stack as the dispatch in it does. -/
theorem stepWith_effect {m m' : Machine} (h : stepWith i m = .ok () m') :
    Effect True m.returns m'.returns := by
  rw [stepWith, bind_eq_ok] at h
  obtain ⟨_, _, hget, h⟩ := h
  cases hget
  cases hip : m.ip with
  | none =>
    rw [hip] at h
    cases h
  | some ip =>
    rw [hip] at h
    obtain ⟨x, m₁, hask, h⟩ := bind_eq_ok.mp h
    obtain ⟨_, m₂, hmod, h⟩ := bind_eq_ok.mp h
    have hsame : m₁.returns = m.returns := (keeps_ask _).of_ok hask
    cases hmod
    rw [← hsame]
    exact (hi x _ m' h).imp fun _ => trivial

include hi in
/-- The loop ends at the return stack that it is told to come back to. -/
theorem returnTo_returns {entry : List (Option Int)} {bound : Nat} {m m' : Machine}
    (hs : entry <:+ m.returns) (h : returnTo i entry.length bound m = .ok () m') :
    m'.returns = entry := by
  induction bound generalizing m with
  | zero => cases h
  | succ n ih =>
    rw [returnTo, bind_eq_ok] at h
    obtain ⟨_, _, hget, h⟩ := h
    cases hget
    by_cases hd : Stack.deeperThan entry.length m.returns = true
    · rw [if_pos hd] at h
      obtain ⟨_, m₁, hstep, h⟩ := bind_eq_ok.mp h
      have hlt := Stack.deeperThan_eq_true_iff.mp hd
      exact ih ((stepWith_effect hi hstep).suffix hs hlt) h
    · rw [if_neg hd] at h
      cases h
      rw [Stack.deeperThan_eq_true_iff] at hd
      exact (hs.eq_of_length_le (by omega)).symm

include hi in
/-- A word that is run to its end puts the instruction pointer back, and the return stack too,
unless its first dispatch took an entry off it. -/
theorem executeWith_returns {bound : Nat} {x : Cell} {m m' : Machine}
    (h : executeWith i bound x m = .ok () m') :
    m'.ip = m.ip ∧
      (m'.returns = m.returns ∨ reason x m ∧ ∃ ip, m.returns = ip :: m'.returns) := by
  obtain ⟨m₁, m₂, hx, hloop, rfl⟩ := executeWith_eq_ok.mp h
  refine ⟨rfl, ?_⟩
  cases hi x m m₁ hx with
  | same heq =>
    have hs : m.returns <:+ m₁.returns := heq ▸ List.suffix_refl m.returns
    have hback : m₂.returns = m.returns := returnTo_returns hi hs hloop
    exact .inl hback
  | push ip heq =>
    have hs : m.returns <:+ m₁.returns := heq ▸ List.suffix_cons ip m.returns
    have hback : m₂.returns = m.returns := returnTo_returns hi hs hloop
    exact .inl hback
  | pop ip heq because =>
    -- the loop has nothing to do: the stack is lower than the one that it is told to come back to
    have hlen : m₁.returns.length ≤ m.returns.length := by simp [heq]
    cases bound with
    | zero => cases hloop
    | succ n =>
      rw [returnTo_of_not_deeper hlen] at hloop
      cases hloop
      exact .inr ⟨because, ip, heq⟩

end Loop

/-! ## Native behaviours -/

section Natives

variable {i e : Cell → Action Unit} {reason : Cell → Machine → Prop} {bound : Nat}

/-- What is needed of the words that a native behaviour runs. -/
structure Disciplined (i e : Cell → Action Unit) (reason : Cell → Machine → Prop) : Prop where
  enters : ∀ x m m', i x m = .ok () m' → Effect (reason x m) m.returns m'.returns
  executes : ∀ x m m', e x m = .ok () m' →
    m'.returns = m.returns ∨ reason x m ∧ ∃ ip, m.returns = ip :: m'.returns
  reads : ∀ m m', e Kernel.keyToken m = .ok () m' → m'.returns = m.returns

theorem readKey_returns (hw : Disciplined i e reason) {m m' : Machine} {c : Char}
    (h : readKey e m = .ok c m') : m'.returns = m.returns := by
  obtain ⟨_, m₁, hkey, h⟩ := bind_eq_ok.mp h
  obtain ⟨code, m₂, hpop, h⟩ := bind_eq_ok.mp h
  have hfirst := hw.reads m m₁ hkey
  have hsecond : m₂.returns = m₁.returns := (keeps_onData (fun _ _ => rfl) _).of_ok hpop
  rw [← hfirst, ← hsecond]
  cases hc : characterOf code with
  | ok c => rw [hc] at h; cases h; rfl
  | error f => rw [hc] at h; cases h

theorem readUntil_returns (hw : Disciplined i e reason) {delimiter : Char} {m m' : Machine}
    {before cs : List Char} (h : readUntil e delimiter bound before m = .ok cs m') :
    m'.returns = m.returns := by
  induction bound generalizing before m with
  | zero => cases h
  | succ n ih =>
    obtain ⟨c, m₁, hkey, h⟩ := bind_eq_ok.mp h
    have hfirst := readKey_returns hw hkey
    by_cases hc : c = delimiter
    · rw [if_pos hc] at h
      cases h
      exact hfirst
    · rw [if_neg hc] at h
      exact (ih h).trans hfirst

theorem readText_returns (hw : Disciplined i e reason) {m m' : Machine} {text : String}
    (h : readText e bound m = .ok text m') : m'.returns = m.returns := by
  obtain ⟨_, m₁, hkey, h⟩ := bind_eq_ok.mp h
  obtain ⟨_, m₂, hpop, h⟩ := bind_eq_ok.mp h
  obtain ⟨_, m₃, hread, h⟩ := bind_eq_ok.mp h
  have hfirst := hw.reads m m₁ hkey
  have hsecond : m₂.returns = m₁.returns := (keeps_onData (fun _ _ => rfl) _).of_ok hpop
  have hthird := readUntil_returns hw hread
  cases h
  rw [hthird, hsecond, hfirst]

/-- To interpret a token takes an entry off the return stack only if the word does that it runs. -/
theorem interpretToken_returns (hw : Disciplined i e reason) {name : String} {m m' : Machine}
    (h : interpretToken e name m = .ok () m') :
    m'.returns = m.returns ∨
      ∃ header code, m.memory.find name = .ok (some header) ∧ header.plus headerSize = .ok code ∧
        (m.mode = .immediate ∨ m.memory.isImmediate header = .ok true) ∧
        reason (.token code) m ∧ ∃ ip, m.returns = ip :: m'.returns := by
  obtain ⟨found, m₁, hask, h⟩ := bind_eq_ok.mp h
  obtain ⟨hfind, rfl⟩ := ask_eq_ok.mp hask
  cases found with
  | none =>
    cases hn : Numeral.read? name with
    | none =>
      rw [hn] at h
      exact .inl ((keeps_reportUnknown (fun _ _ => rfl) (fun _ _ => rfl) _).of_ok h)
    | some n =>
      rw [hn] at h
      exact .inl ((keeps_literal (fun _ _ => rfl) (fun _ _ => rfl) _).of_ok h)
  | some header =>
    obtain ⟨code, m₂, hlift, h⟩ := bind_eq_ok.mp h
    obtain ⟨hcode, rfl⟩ := liftM_eq_ok.mp hlift
    rw [bind_of_ok (get_apply m)] at h
    by_cases hm : m.mode = .immediate
    · rw [if_pos hm] at h
      refine (hw.executes _ _ _ h).imp_right fun ⟨hreason, hip⟩ => ?_
      exact ⟨header, code, hfind, hcode, .inl hm, hreason, hip⟩
    · rw [if_neg hm] at h
      obtain ⟨immediate, m₃, hask, h⟩ := bind_eq_ok.mp h
      obtain ⟨himm, rfl⟩ := ask_eq_ok.mp hask
      cases immediate with
      | true =>
        refine (hw.executes _ _ _ h).imp_right fun ⟨hreason, hip⟩ => ?_
        exact ⟨header, code, hfind, hcode, .inr himm, hreason, hip⟩
      | false => exact .inl ((keeps_append (fun _ _ => rfl) _).of_ok h)

/-- A native behaviour takes an entry off the return stack only as `EXIT`, or by passing the thread
on to a word that does. -/
theorem perform_effect (hw : Disciplined i e reason) {n : Native} {addr : Int} {m m' : Machine}
    (h : n.perform addr i e bound m = .ok () m') :
    Effect (n = exitNative ∨ ∃ x m₁, PassesOn n m x m₁ ∧ reason x m₁) m.returns m'.returns := by
  cases n with
  | enter =>
    cases h
    exact .push m.ip rfl
  | «variable» =>
    cases h
    exact .same rfl
  | primitive p =>
    cases p with
    | calculation c =>
      have hkeep := c.keeps (fun _ _ => rfl) (fun _ _ => rfl) i e bound (f := Machine.returns)
      exact .same (hkeep.of_ok h)
    | thread w =>
      cases w with
      | exit =>
        obtain ⟨_, _, hget, h⟩ := bind_eq_ok.mp h
        cases hget
        cases hr : m.returns with
        | nil => rw [hr] at h; cases h
        | cons ip rest =>
          rw [hr] at h
          cases h
          exact .pop ip rfl (.inl rfl)
      | lit =>
        exact .same (((keeps_bind keeps_threadCell fun _ => keeps_bind
          (keeps_push (fun _ _ => rfl) _) fun _ => keeps_advance (fun _ _ _ => rfl) _)).of_ok h)
      | branch => exact .same ((keeps_jump (fun _ _ _ => rfl) _).of_ok h)
      | branchFalse =>
        obtain ⟨truth, m₁, hpop, h⟩ := bind_eq_ok.mp h
        have hsame : m₁.returns = m.returns := (keeps_onData (fun _ _ => rfl) _).of_ok hpop
        rw [← hsame]
        cases truth with
        | true => exact .same ((keeps_advance (fun _ _ _ => rfl) _).of_ok h)
        | false => exact .same ((keeps_jump (fun _ _ _ => rfl) _).of_ok h)
      | execute =>
        obtain ⟨inner, m₁, hpop, h⟩ := bind_eq_ok.mp h
        have hsame : m₁.returns = m.returns := (keeps_onData (fun _ _ => rfl) _).of_ok hpop
        rw [← hsame]
        exact (hw.enters _ _ _ h).imp fun hreason => .inr ⟨_, m₁, .execute hpop, hreason⟩
    | memory w => exact .same ((w.keeps (fun _ _ => rfl) (fun _ _ => rfl)).of_ok h)
    | compiler w =>
      exact .same ((w.keeps (fun _ _ => rfl) (fun _ _ => rfl) (fun _ _ => rfl)
        (fun _ _ => rfl)).of_ok h)
    | input w =>
      cases w with
      | word =>
        exact .same ((keeps_bind (keeps_nextToken (fun _ _ => rfl)) fun _ =>
          keeps_push (fun _ _ => rfl) _).of_ok h)
      | key =>
        exact .same ((keeps_bind (keeps_nextChar (fun _ _ => rfl)) fun _ =>
          keeps_push (fun _ _ => rfl) _).of_ok h)
      | number =>
        obtain ⟨name, m₁, hpop, h⟩ := bind_eq_ok.mp h
        have hsame : m₁.returns = m.returns := (keeps_onData (fun _ _ => rfl) _).of_ok hpop
        rw [← hsame]
        cases hn : Numeral.read? name <;> rw [hn] at h <;> cases h <;> exact .same rfl
      | char =>
        exact .same ((keeps_bind (keeps_nextToken (fun _ _ => rfl)) fun _ =>
          keeps_push (fun _ _ => rfl) _).of_ok h)
      | interpret =>
        obtain ⟨name, m₁, hname, h⟩ := bind_eq_ok.mp h
        have hsame : m₁.returns = m.returns := (keeps_nextToken (fun _ _ => rfl)).of_ok hname
        rw [← hsame]
        rcases interpretToken_returns hw h with heq | ⟨header, code, hfind, hcode, hrun, hreason,
          ip, hip⟩
        · exact .same heq
        · exact .pop ip hip (.inr ⟨_, m₁, .interpret hname hfind hcode hrun, hreason⟩)
    | text w =>
      cases w with
      | text =>
        obtain ⟨text, m₁, hread, h⟩ := bind_eq_ok.mp h
        rw [← readText_returns hw hread]
        exact .same ((keeps_literal (fun _ _ => rfl) (fun _ _ => rfl) _).of_ok h)
      | print =>
        obtain ⟨text, m₁, hread, h⟩ := bind_eq_ok.mp h
        obtain ⟨_, _, hget, h⟩ := bind_eq_ok.mp h
        cases hget
        rw [← readText_returns hw hread]
        cases hm : m₁.mode with
        | compile =>
          rw [hm] at h
          exact .same ((keeps_bind (keeps_compileLiteral (fun _ _ => rfl) _) fun _ =>
            keeps_append (fun _ _ => rfl) _).of_ok h)
        | immediate =>
          rw [hm] at h
          exact .same ((keeps_emit (fun _ _ => rfl) _).of_ok h)
      | comment =>
        obtain ⟨_, m₁, hread, h⟩ := bind_eq_ok.mp h
        cases h
        exact .same (readUntil_returns hw hread)
      | lineComment =>
        cases h
        exact .same rfl
    | session w => exact .same ((w.keeps).of_ok h)

end Natives

/-! ## Runs during which `KEY` stays what it is -/

/-- The code field of `KEY` holds the behaviour of `KEY`. -/
def keyIntact : Watch := fun _ m =>
  match m.memory.get (.int (Kernel.header (.input .key) + 3)) with
  | .ok x => x = .native (.primitive (.input .key))
  | .error _ => false

theorem get_key_of_intact {x : Cell} {m : Machine} (h : keyIntact x m = true) :
    m.memory.get (.int (Kernel.header (.input .key) + 3)) =
      .ok (.native (.primitive (.input .key))) := by
  rw [keyIntact] at h
  cases hcell : m.memory.get (.int (Kernel.header (.input .key) + 3)) with
  | ok y => rw [hcell] at h; rw [of_decide_eq_true h]
  | error f => rw [hcell] at h; cases h

/-- To enter `KEY` leaves the return stack alone. -/
theorem invokeWatched_key_returns {bound : Nat} {m m' : Machine}
    (h : invokeWatched keyIntact bound Kernel.keyToken m = .ok () m') : m'.returns = m.returns := by
  cases bound with
  | zero => cases h
  | succ n =>
    rw [invokeWatched_succ] at h
    cases hkey : keyIntact Kernel.keyToken m with
    | false => rw [hkey] at h; cases h
    | true =>
      rw [hkey, if_pos rfl] at h
      obtain ⟨addr, native, m₁, htoken, hcell, harrive, h⟩ := enterWith_eq_ok h
      cases htoken
      rw [get_key_of_intact hkey] at hcell
      cases hcell
      have hfirst : m₁.returns = m.returns :=
        (keeps_arrive (fun _ _ _ => rfl) (fun _ _ => rfl) _).of_ok harrive
      rw [← hfirst]
      exact (keeps_bind (keeps_nextChar (fun _ _ => rfl)) fun _ =>
        keeps_push (fun _ _ => rfl) _).of_ok h

/-- What a dispatch does to the return stack while `KEY` stays what it is. -/
theorem invokeWatched_effect (bound : Nat) (x : Cell) (m m' : Machine)
    (h : invokeWatched keyIntact bound x m = .ok () m') :
    Effect (LeadsTo exitNative x m) m.returns m'.returns := by
  induction bound generalizing x m m' with
  | zero => cases h
  | succ n ih =>
    have hw : Disciplined (invokeWatched keyIntact n) (executeWatched keyIntact n)
        (LeadsTo exitNative) := by
      refine ⟨ih, fun x m m' hx => (executeWith_returns ih hx).2, fun m m' hx => ?_⟩
      obtain ⟨m₁, m₂, henter, hloop, rfl⟩ := executeWith_eq_ok.mp hx
      have hsame := invokeWatched_key_returns henter
      have hs : m.returns <:+ m₁.returns := hsame ▸ List.suffix_refl m.returns
      have hback : m₂.returns = m.returns := returnTo_returns ih hs hloop
      exact hback
    rw [invokeWatched_succ] at h
    cases hkey : keyIntact x m with
    | false => rw [hkey] at h; cases h
    | true =>
      rw [hkey, if_pos rfl] at h
      obtain ⟨addr, native, m₁, rfl, hcell, harrive, h⟩ := enterWith_eq_ok h
      have hfirst : m₁.returns = m.returns :=
        (keeps_arrive (fun _ _ _ => rfl) (fun _ _ => rfl) _).of_ok harrive
      rw [← hfirst]
      refine (perform_effect hw h).imp ?_
      rintro (rfl | ⟨y, m₂, hpass, hrest⟩)
      · exact .here hcell
      · exact .through hcell harrive hpass hrest

/-- **Return-stack discipline**: a word that is run to its end, in a run during which `KEY` stays
what it is, puts the instruction pointer back. The return stack is as it was, or lacks its top
entry; the latter only if the first dispatch came to `EXIT`, and not if it came to a body. -/
theorem execute_restores_returns {bound : Nat} {x : Cell} {m m' : Machine}
    (hrun : execute bound x m = .ok () m') (hkey : Throughout keyIntact bound x m) :
    m'.ip = m.ip ∧
      (m'.returns = m.returns ∨ LeadsTo exitNative x m ∧ ∃ ip, m.returns = ip :: m'.returns) ∧
      (LeadsTo .enter x m → m'.returns = m.returns) := by
  rw [Throughout, hrun] at hkey
  obtain ⟨hip, hreturns⟩ := executeWith_returns (invokeWatched_effect bound) hkey
  refine ⟨hip, hreturns, fun henter => ?_⟩
  rcases hreturns with hsame | ⟨hexit, -⟩
  · exact hsame
  · exact absurd henter hexit.not_enter

/-- A machine in the middle of a thread, with a word at the end of memory that pushes seven. -/
def sevenMachine : Machine where
  returns := [some 5]
  memory := Kernel.memory.appendAll [.native .enter, Kernel.litToken, .int 7, Kernel.exitToken]
  ip := some 9

-- the kernel is read cell by cell
set_option maxRecDepth 10000 in
theorem execute_seven_restores_returns :
    ∃ m', execute 5 (.token 368) sevenMachine = .ok () m' ∧
      Throughout keyIntact 5 (.token 368) sevenMachine ∧ LeadsTo .enter (.token 368) sevenMachine ∧
      m'.data = [.int 7] ∧ m'.ip = some 9 ∧ m'.returns = [some 5] := by
  have hrun : execute 5 (.token 368) sevenMachine =
      .ok () { sevenMachine with data := [.int 7], current := some 4 } := rfl
  have hwatched : executeWatched keyIntact 5 (.token 368) sevenMachine =
      .ok () { sevenMachine with data := [.int 7], current := some 4 } := rfl
  have hkey : Throughout keyIntact 5 (.token 368) sevenMachine := hwatched.trans hrun.symm
  have henter : LeadsTo .enter (.token 368) sevenMachine := .here rfl
  obtain ⟨hip, -, hreturns⟩ := execute_restores_returns hrun hkey
  exact ⟨_, hrun, hkey, henter, rfl, hip, hreturns henter⟩

end ThreadedForth.Action
