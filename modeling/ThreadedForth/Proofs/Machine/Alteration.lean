import ThreadedForth.Proofs.Machine.Frame
import ThreadedForth.Proofs.Machine.Record
import ThreadedForth.Proofs.Memory.Flags

/-!
# What primitives do to the memory

Whatever a primitive does to the memory, it is one of a few things, and which it may be depends on
the primitive (`Native.Alters`, `Native.alone_alters`). Only two primitives change the mode
(`Native.alone_mode`).
-/

namespace ThreadedForth

namespace Action

variable {α β γ : Type} {m m' : Machine} {op : String} {x : Cell} {n : Int}

/-! ## Operands -/

theorem onData_ok {act : DataAction α} {y : α} (h : onData act m = .ok y m') :
    ∃ data, act m.data = .ok y data ∧ m' = { m with data := data } := by
  rw [onData] at h
  cases hact : act m.data with
  | ok z data =>
    rw [hact] at h
    cases h
    exact ⟨data, rfl, rfl⟩
  | error f data =>
    rw [hact] at h
    cases h

theorem onData_stops {act : DataAction α} {stop : Stop} (h : onData act m = .error stop m') :
    ∃ f, stop = .fault f := by
  rw [onData] at h
  cases hact : act m.data with
  | ok y data =>
    rw [hact] at h
    cases h
  | error f data =>
    rw [hact] at h
    cases h
    exact ⟨f, rfl⟩

theorem dataPop_ok {data data' : List Cell} (h : DataAction.pop data = .ok x data') :
    data = x :: data' := by
  cases data with
  | nil => cases h
  | cons y data => cases h; rfl

theorem expectInt_ok {data data' : List Cell}
    (h : (liftM (x.expectInt op) : DataAction Int) data = .ok n data') :
    x.int? = some n ∧ data = data' := by
  rw [Cell.expectInt] at h
  cases hint : x.int? with
  | none => rw [hint] at h; cases h
  | some k => rw [hint] at h; cases h; exact ⟨rfl, rfl⟩

theorem popInt_ok (h : popInt op m = .ok n m') :
    ∃ x data, m.data = x :: data ∧ x.int? = some n ∧ m' = { m with data := data } := by
  obtain ⟨data, hact, rfl⟩ := onData_ok h
  obtain ⟨x, data', hpop, hint⟩ := bind_eq_ok.mp hact
  obtain ⟨hn, rfl⟩ := expectInt_ok hint
  exact ⟨x, data', dataPop_ok hpop, hn, rfl⟩

theorem popIntCell_ok (h : popIntCell op m = .ok x m') :
    ∃ data, m.data = x :: data ∧ (∃ n, x.int? = some n) ∧ m' = { m with data := data } := by
  obtain ⟨data, hact, rfl⟩ := onData_ok h
  obtain ⟨y, data', hpop, hrest⟩ := bind_eq_ok.mp hact
  obtain ⟨n, data'', hint, hend⟩ := bind_eq_ok.mp hrest
  obtain ⟨hn, rfl⟩ := expectInt_ok hint
  cases hend
  exact ⟨_, dataPop_ok hpop, ⟨n, hn⟩, rfl⟩

/-! ## Two actions in a row -/

theorem Keeps.of_error {act : Action α} {f : Machine → γ} {stop : Stop} (hk : Keeps f act)
    (h : act m = .error stop m') : f m' = f m := by
  have := hk m
  rwa [after, h] at this

/-- What holds of the memory after two actions of which the first one leaves it alone. -/
theorem memory_bind {P : Memory → Prop} {act : Action α} {f : α → Action β}
    (hkeep : Keeps Machine.memory act) (hsame : P m.memory)
    (hok : ∀ y m₁, act m = .ok y m₁ → m₁.memory = m.memory → P (after (f y) m₁).memory) :
    P (after (act >>= f) m).memory := by
  rw [after, bind_apply]
  cases h : act m with
  | ok y m₁ => exact hok y m₁ h (hkeep.of_ok h)
  | error stop m₁ =>
    have hm₁ : m₁.memory = m.memory := hkeep.of_error h
    exact hm₁ ▸ hsame

theorem memory_modifyMemory (f : Memory → Memory) :
    (after (modifyMemory f) m).memory = f m.memory := rfl

theorem memory_append (x : Cell) : (after (append x) m).memory = m.memory.append x := rfl

/-- To put a cell somewhere writes over one cell, if the address is in range. -/
theorem memory_put {P : Memory → Prop} {addr : Cell} (hsame : P m.memory)
    (hwrite : ∀ i, m.memory.index addr = .ok i → P (m.memory.write i x)) :
    P (after (put addr x) m).memory := by
  refine memory_bind (keeps_ask _) hsame fun i m₁ h hm₁ => ?_
  obtain ⟨hi, rfl⟩ := ask_eq_ok.mp h
  cases hindex : m.memory.index addr with
  | error f => rw [hindex] at hi; cases hi
  | ok j => rw [hindex] at hi; cases hi; exact hwrite i hindex

/-- To replace the memory by one that is made from it may fail. -/
theorem memory_change {P : Memory → Prop} {f : Memory → Except Stop Memory} (hsame : P m.memory)
    (hchange : ∀ memory, f m.memory = .ok memory → P memory) :
    P (after (changeMemory f) m).memory := by
  refine memory_bind (keeps_ask _) hsame fun memory m₁ h hm₁ => ?_
  exact hchange memory (ask_eq_ok.mp h).1

/-- To compile or push a literal appends cells at most. -/
theorem memory_literal {P : Memory → Prop} (hsame : P m.memory)
    (happend : ∀ xs, P (m.memory.appendAll xs)) : P (after (literal x) m).memory := by
  cases hmode : m.mode with
  | immediate =>
    have hliteral : literal x m = push x m := by simp [literal, bind_apply, hmode]
    rw [after, hliteral]
    exact hsame
  | compile =>
    have hliteral : literal x m = compileLiteral x m := by simp [literal, bind_apply, hmode]
    have hboth : (after (compileLiteral x) m).memory = m.memory.appendAll [Kernel.litToken, x] := by
      have hcells : (m.memory.cells.push Kernel.litToken).push x =
          m.memory.cells ++ #[Kernel.litToken, x] := Array.toList_inj.mp (by simp)
      exact congrArg (fun cells => ({ m.memory with cells := cells } : Memory)) hcells
    rw [after, hliteral, ← after, hboth]
    exact happend _

end Action

open ThreadedForth.Action

/-! ## Alterations -/

/-- What a native behaviour may make of the memory of a machine. -/
inductive Native.Alters (m : Machine) : Native → Memory → Prop
  | keeps (n : Native) : Alters m n m.memory
  | appends (n : Native) (xs : List Cell) : Alters m n (m.memory.appendAll xs)
  | creates (name : String) :
      Alters m (.primitive (.compiler .create)) (m.memory.allocateHeader name 0)
  | stores {w : MemoryWord} {addr : Cell} {data : List Cell} {i : Nat} (x : Cell)
      (hw : w = .store ∨ w = .addStore) (hdata : m.data = addr :: data)
      (hi : m.memory.index addr = .ok i) : Alters m (.primitive (.memory w)) (m.memory.write i x)
  | allots {x : Cell} {data : List Cell} {delta : Int} (hdata : m.data = x :: data)
      (hx : x.int? = some delta) :
      Alters m (.primitive (.memory .allot)) (m.memory.resize delta)
  | hides {header : Cell} {data : List Cell} {memory : Memory} (hdata : m.data = header :: data)
      (hchange : m.memory.changeFlags header (· ^^^ Flags.hidden) = .ok memory) :
      Alters m (.primitive (.compiler .hidden)) memory
  | reveals {header : Cell} {data : List Cell} {memory : Memory} (hdata : m.data = header :: data)
      (hchange : m.memory.changeFlags header (Bits.without · Flags.hidden) = .ok memory) :
      Alters m (.primitive (.compiler .reveal)) memory
  | immediates {h : Int} {memory : Memory} (hlatest : m.memory.latest = some h)
      (hchange : m.memory.changeFlags (.int h) (· ^^^ Flags.immediate) = .ok memory) :
      Alters m (.primitive (.compiler .immediate)) memory

theorem Native.alters_of_keeps {α : Type} {m : Machine} {n : Native} {act : Action α}
    (h : Keeps Machine.memory act) : n.Alters m (after act m).memory := by
  have hsame : (after act m).memory = m.memory := h m
  rw [hsame]
  exact .keeps n

theorem Native.alters_append {m : Machine} {n : Native} (x : Cell) :
    n.Alters m (m.memory.append x) := by
  rw [Memory.append_eq_appendAll]
  exact .appends n [x]

section Memory

variable {α : Type}

theorem keepsMemory_onData (act : DataAction α) : Keeps Machine.memory (onData act) :=
  keeps_onData (fun _ _ => rfl) act

theorem keepsMemory_push (x : Cell) : Keeps Machine.memory (push x) := keeps_push (fun _ _ => rfl) x

end Memory

theorem MemoryWord.alters (w : MemoryWord) (m : Machine) :
    (Native.primitive (.memory w)).Alters m (after w.perform m).memory := by
  cases w with
  | fetch =>
    exact Native.alters_of_keeps (keeps_bind (keepsMemory_onData _) fun _ =>
      keeps_bind (keeps_ask _) fun _ => keepsMemory_push _)
  | store =>
    refine memory_bind (keepsMemory_onData _) (.keeps _) fun addr m₁ h hm₁ => ?_
    obtain ⟨data, hdata, -, -⟩ := popIntCell_ok h
    refine memory_bind (keepsMemory_onData _) (hm₁ ▸ .keeps _) fun x m₂ h hm₂ => ?_
    rw [hm₁] at hm₂
    refine memory_put (hm₂ ▸ .keeps _) fun i hi => ?_
    rw [hm₂] at hi ⊢
    exact .stores x (.inl rfl) hdata hi
  | addStore =>
    refine memory_bind (keepsMemory_onData _) (.keeps _) fun addr m₁ h hm₁ => ?_
    obtain ⟨data, hdata, -, -⟩ := popIntCell_ok h
    refine memory_bind (keepsMemory_onData _) (hm₁ ▸ .keeps _) fun k m₂ _ hm₂ => ?_
    rw [hm₁] at hm₂
    refine memory_bind (keeps_ask _) (hm₂ ▸ .keeps _) fun y m₃ _ hm₃ => ?_
    rw [hm₂] at hm₃
    refine memory_bind (keeps_liftM_fault _) (hm₃ ▸ .keeps _) fun l m₄ _ hm₄ => ?_
    rw [hm₃] at hm₄
    refine memory_put (hm₄ ▸ .keeps _) fun i hi => ?_
    rw [hm₄] at hi ⊢
    exact .stores _ (.inr rfl) hdata hi
  | comma =>
    refine memory_bind (keepsMemory_onData _) (.keeps _) fun x m₁ _ hm₁ => ?_
    rw [memory_append, hm₁]
    exact Native.alters_append x
  | here => exact Native.alters_of_keeps (keeps_bind keeps_get fun _ => keepsMemory_push _)
  | latest => exact Native.alters_of_keeps (keeps_bind keeps_get fun _ => keepsMemory_push _)
  | allot =>
    refine memory_bind (keepsMemory_onData _) (.keeps _) fun delta m₁ h hm₁ => ?_
    obtain ⟨x, data, hdata, hx, -⟩ := popInt_ok h
    rw [memory_modifyMemory, hm₁]
    exact .allots hdata hx

theorem CompilerWord.alters (w : CompilerWord) (m : Machine) :
    (Native.primitive (.compiler w)).Alters m (after w.perform m).memory := by
  cases w with
  | create =>
    refine memory_bind (keepsMemory_onData _) (.keeps _) fun name m₁ _ hm₁ => ?_
    rw [memory_modifyMemory, hm₁]
    exact .creates name
  | compileEnter => exact Native.alters_append _
  | compileVariable => exact Native.alters_append _
  | find =>
    exact Native.alters_of_keeps (keeps_bind (keepsMemory_onData _) fun _ =>
      keeps_bind (keeps_ask _) fun _ => keepsMemory_push _)
  | toCode =>
    exact Native.alters_of_keeps (keeps_bind (keepsMemory_onData _) fun _ => keepsMemory_push _)
  | toBody =>
    exact Native.alters_of_keeps (keeps_bind (keepsMemory_onData _) fun _ => keepsMemory_push _)
  | hidden =>
    refine memory_bind (keepsMemory_onData _) (.keeps _) fun x m₁ h hm₁ => ?_
    obtain ⟨data, hdata, -, -⟩ := popIntCell_ok h
    exact memory_change (hm₁ ▸ .keeps _) fun memory hchange => .hides hdata (hm₁ ▸ hchange)
  | reveal =>
    refine memory_bind (keepsMemory_onData _) (.keeps _) fun x m₁ h hm₁ => ?_
    obtain ⟨data, hdata, -, -⟩ := popIntCell_ok h
    exact memory_change (hm₁ ▸ .keeps _) fun memory hchange => .reveals hdata (hm₁ ▸ hchange)
  | immediate =>
    cases hlatest : m.memory.latest with
    | none =>
      have hperform : perform .immediate m = fail .emptyDictionary m := by
        simp [perform, bind_apply, hlatest]
      rw [after, hperform]
      exact .keeps _
    | some h =>
      have hperform : perform .immediate m =
          changeMemory (·.toggleFlags (.int h) Flags.immediate) m := by
        simp [perform, bind_apply, hlatest]
      rw [after, hperform]
      exact memory_change (.keeps _) fun memory hchange => .immediates hlatest hchange
  | leftBracket => exact .keeps _
  | rightBracket => exact .keeps _
  | compileTick =>
    refine memory_bind (keeps_nextToken fun _ _ => rfl) (.keeps _) fun name m₁ _ hm₁ => ?_
    refine memory_bind (keeps_tokenOf _) (hm₁ ▸ .keeps _) fun x m₂ _ hm₂ => ?_
    rw [hm₁] at hm₂
    exact memory_literal (hm₂ ▸ .keeps _) fun xs => hm₂ ▸ .appends _ xs
  | whenCompiling =>
    refine Native.alters_of_keeps (keeps_bind keeps_get fun m => ?_)
    by_cases hm : m.mode ≠ .compile
    · rw [if_pos hm]
      exact keeps_fail _
    · rw [if_neg hm]
      exact keeps_pure _
  | state => exact Native.alters_of_keeps (keeps_bind keeps_get fun _ => keepsMemory_push _)
  | tick =>
    exact Native.alters_of_keeps (keeps_bind (keeps_nextToken fun _ _ => rfl) fun _ =>
      keeps_bind (keeps_tokenOf _) fun _ => keepsMemory_push _)

/-! ## Words that change flags -/

/-- What a word makes of the flags of the header whose address it takes. -/
def CompilerWord.onFlags : CompilerWord → Option (Nat → Nat)
  | .hidden => some (· ^^^ Flags.hidden)
  | .reveal => some (Bits.without · Flags.hidden)
  | _ => none

section FlagWords

variable {m : Machine} {w : CompilerWord} {f : Nat → Nat} {header : Cell} {data : List Cell}
  {memory : Memory} {stop : Stop} {a : Int}

theorem popIntCell_of_int (op : String) (hdata : m.data = header :: data)
    (hint : header.int? = some a) : popIntCell op m = .ok header { m with data := data } := by
  have hact : DataAction.popIntCell op (header :: data) = .ok header data := by
    have hexpect : (liftM (header.expectInt op) : DataAction Int) data = .ok a data := by
      rw [Cell.expectInt, hint]
      rfl
    have hpop : DataAction.pop (header :: data) = .ok header data := rfl
    rw [DataAction.popIntCell, bind_of_ok hpop, bind_of_ok hexpect]
    rfl
  rw [popIntCell, onData, hdata, hact]

theorem changeMemory_of_ok {g : Memory → Except Stop Memory} (h : g m.memory = .ok memory) :
    changeMemory g m = .ok () { m with memory := memory } := by
  rw [changeMemory, bind_apply, ask_apply, h]
  rfl

theorem changeMemory_of_error {g : Memory → Except Stop Memory} (h : g m.memory = .error stop) :
    changeMemory g m = .error stop m := by
  rw [changeMemory, bind_apply, ask_apply, h]

/-- A word that changes flags takes an integer and changes the memory. -/
theorem CompilerWord.perform_of_onFlags (hw : w.onFlags = some f) (hdata : m.data = header :: data)
    (hint : header.int? = some a) :
    w.perform m = changeMemory (·.changeFlags header f) { m with data := data } := by
  cases w with
  | hidden =>
    obtain rfl := Option.some.inj hw
    exact bind_of_ok (popIntCell_of_int _ hdata hint)
  | reveal =>
    obtain rfl := Option.some.inj hw
    exact bind_of_ok (popIntCell_of_int _ hdata hint)
  | _ => cases hw

theorem CompilerWord.perform_of_change (hw : w.onFlags = some f) (hdata : m.data = header :: data)
    (hint : header.int? = some a) (hchange : m.memory.changeFlags header f = .ok memory) :
    w.perform m = .ok () { m with data := data, memory := memory } :=
  (perform_of_onFlags hw hdata hint).trans
    (changeMemory_of_ok (m := { m with data := data }) hchange)

end FlagWords

/-! ## Primitives that end well -/

section EndingWell

variable {m m' : Machine}

theorem CompilerWord.create_ok (h : perform .create m = .ok () m') :
    ∃ name data, m' = { m with data := data, memory := m.memory.allocateHeader name 0 } := by
  obtain ⟨name, m₁, hpop, h⟩ := bind_eq_ok.mp h
  obtain ⟨data, -, rfl⟩ := onData_ok hpop
  cases h
  exact ⟨name, data, rfl⟩

theorem CompilerWord.hidden_ok (h : perform .hidden m = .ok () m') :
    ∃ header data memory, m.data = header :: data ∧
      m.memory.changeFlags header (· ^^^ Flags.hidden) = .ok memory ∧
      m' = { m with data := data, memory := memory } := by
  obtain ⟨header, m₁, hpop, h⟩ := bind_eq_ok.mp h
  obtain ⟨data, hdata, -, rfl⟩ := popIntCell_ok hpop
  obtain ⟨memory, m₂, hask, h⟩ := bind_eq_ok.mp h
  obtain ⟨hchange, rfl⟩ := ask_eq_ok.mp hask
  cases h
  exact ⟨header, data, memory, hdata, hchange, rfl⟩

theorem CompilerWord.whenCompiling_ok (h : perform .whenCompiling m = .ok () m') :
    m.mode = .compile ∧ m' = m := by
  by_cases hm : m.mode = .compile
  · simp only [perform, bind_apply, get_apply, hm, ne_eq, not_true_eq_false, if_false, pure_apply,
      EStateM.Result.ok.injEq, true_and] at h
    exact ⟨hm, h.symm⟩
  · simp [perform, bind_apply, hm] at h

end EndingWell

/-! ## All primitives that run no other word -/

namespace Native

variable {γ : Type} {f : Machine → γ} {n : Native}

/-- A part of the machine that depends on none of the stacks, the console and the thread is left
alone, if it is left alone by the words of the memory and of the compiler. -/
theorem alone_keeps (hdata : IgnoresData f)
    (hreturns : ∀ (m : Machine) returns, f { m with returns := returns } = f m)
    (hconsole : IgnoresConsole f) (hthread : IgnoresThread f) (hn : n.runsWords = false)
    (hmemory : ∀ w, n = .primitive (.memory w) → Keeps f w.perform)
    (hcompiler : ∀ w, n = .primitive (.compiler w) → Keeps f w.perform) (addr : Int) :
    Keeps f (n.alone addr) := by
  have hpush (x : Cell) : Keeps f (push x) := keeps_push hdata x
  have htoken {α : Type} {k : String → Action α} (hk : ∀ name, Keeps f (k name)) :
      Keeps f (nextToken >>= k) := keeps_bind (keeps_nextToken hconsole) hk
  cases n with
  | enter =>
    exact keeps_modify fun m =>
      (hthread { m with returns := m.ip :: m.returns } (some (addr + 1)) m.current).trans
        (hreturns m _)
  | «variable» => exact hpush _
  | primitive p =>
    cases p with
    | calculation c => exact c.keeps hdata hconsole (fun _ => pure ()) (fun _ => pure ()) 0
    | thread w =>
      cases w with
      | exit =>
        refine keeps_bind keeps_get fun m => ?_
        cases m.returns with
        | nil => exact keeps_fail _
        | cons ip rest =>
          exact keeps_modify fun m =>
            (hthread { m with returns := rest } ip m.current).trans (hreturns m _)
      | lit =>
        exact keeps_bind keeps_threadCell fun _ => keeps_bind (hpush _) fun _ =>
          keeps_advance hthread _
      | branch => exact keeps_jump hthread _
      | branchFalse =>
        refine keeps_bind (keeps_onData hdata _) fun truth => ?_
        cases truth with
        | true => exact keeps_advance hthread _
        | false => exact keeps_jump hthread _
      | execute => cases hn
    | memory w => exact hmemory w rfl
    | compiler w => exact hcompiler w rfl
    | input w =>
      cases w with
      | word => exact htoken fun _ => hpush _
      | key => exact keeps_bind (keeps_nextChar hconsole) fun _ => hpush _
      | number =>
        refine keeps_bind (keeps_onData hdata _) fun name => ?_
        cases Numeral.read? name with
        | none => exact keeps_bind (hpush _) fun _ => hpush _
        | some n => exact keeps_bind (hpush _) fun _ => hpush _
      | char => exact htoken fun _ => hpush _
      | interpret => cases hn
    | text w =>
      cases w with
      | lineComment => exact keeps_modify fun m => hconsole m _
      | _ => cases hn
    | session w => exact w.keeps

/-- What becomes of the memory. -/
theorem alone_alters (hn : n.runsWords = false) (addr : Int) (m : Machine) :
    n.Alters m (after (n.alone addr) m).memory := by
  by_cases hmemory : ∃ w, n = .primitive (.memory w)
  · obtain ⟨w, rfl⟩ := hmemory
    exact w.alters m
  · by_cases hcompiler : ∃ w, n = .primitive (.compiler w)
    · obtain ⟨w, rfl⟩ := hcompiler
      exact w.alters m
    · refine alters_of_keeps (alone_keeps (fun _ _ => rfl) (fun _ _ => rfl) (fun _ _ => rfl)
        (fun _ _ _ => rfl) hn ?_ ?_ addr)
      · exact fun w h => absurd ⟨w, h⟩ hmemory
      · exact fun w h => absurd ⟨w, h⟩ hcompiler

/-- Only `[` and `]` change the mode. -/
theorem alone_mode (hn : n.runsWords = false) (hleft : n ≠ .primitive (.compiler .leftBracket))
    (hright : n ≠ .primitive (.compiler .rightBracket)) (addr : Int) :
    Keeps Machine.mode (n.alone addr) := by
  refine alone_keeps (fun _ _ => rfl) (fun _ _ => rfl) (fun _ _ => rfl) (fun _ _ _ => rfl) hn ?_ ?_
    addr
  · exact fun w _ => w.keeps (fun _ _ => rfl) (fun _ _ => rfl)
  · rintro w rfl
    refine CompilerWord.keeps_of_ne (fun _ _ => rfl) (fun _ _ => rfl) (fun _ _ => rfl) ?_ ?_
    · rintro rfl
      exact hleft rfl
    · rintro rfl
      exact hright rfl

end Native

end ThreadedForth
