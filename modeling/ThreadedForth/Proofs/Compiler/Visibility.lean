import ThreadedForth.Proofs.Compiler.Booted
import ThreadedForth.Proofs.Machine.Alteration
import ThreadedForth.Proofs.Machine.Run

/-!
# Words that hide and reveal

`HIDDEN` and `REVEAL` take an address and change the flags of the header there. They do not know
headers: whatever integer stands two cells further is taken for flags and written over, and the only
thing that keeps them from it is that there is no integer (`execute_flagWord`). So an address that
is no header may pass (`hidden_overwrites_link`).
-/

namespace ThreadedForth

open ThreadedForth.Action

/-! ## From outside a thread -/

section Execution

variable {m : Machine} {w : CompilerWord} {f : Nat → Nat} {header : Cell} {data : List Cell}
  {a k : Int} {i : Nat}

/-- A word that changes flags is entered, and nothing else is done after it. -/
theorem execute_of_onFlags (bound : Nat) (ht : Traceable m) (hw : w.onFlags = some f)
    (hword : m.memory.Intact (.compiler w)) (hdata : m.data = header :: data)
    (hint : header.int? = some a) :
    ∃ log, let arrived : Machine := { m with
        data := data, current := some (Kernel.codeField (.compiler w)), log := log }
      (∀ memory, m.memory.changeFlags header f = .ok memory →
        execute (bound + 1) (Kernel.token (.compiler w)) m = .ok () { arrived with memory := memory }) ∧
      ∀ stop, m.memory.changeFlags header f = .error stop →
        execute (bound + 1) (Kernel.token (.compiler w)) m = .error stop arrived := by
  obtain ⟨log, hinvoke⟩ := invoke_of_native bound ht hword
  let arrived : Machine := { m with
    data := data, current := some (Kernel.codeField (.compiler w)), log := log }
  have henter : invoke (bound + 1) (Kernel.token (.compiler w)) m =
      changeMemory (·.changeFlags header f) arrived :=
    hinvoke.trans (CompilerWord.perform_of_onFlags hw hdata hint)
  refine ⟨log, fun memory hchange => ?_, fun stop hchange => ?_⟩
  · refine executeWith_eq_ok.mpr ⟨{ arrived with memory := memory }, { arrived with memory := memory },
      ?_, returnTo_of_not_deeper (Nat.le_refl _), rfl⟩
    exact henter.trans (changeMemory_of_ok (m := arrived) hchange)
  · have hstops := henter.trans (changeMemory_of_error (m := arrived) hchange)
    rw [execute, executeWith_apply, bind_of_error]
    exact bind_of_error hstops

/-- **What `HIDDEN` and `REVEAL` do with an address.** If an integer stands two cells further, it is
taken for flags and written over by what becomes of them. Otherwise there is a fault that says that
the cell or the address is wrong, and the memory stays as it is. -/
theorem execute_flagWord (bound : Nat) (ht : Traceable m) (hw : w.onFlags = some f)
    (hword : m.memory.Intact (.compiler w)) (hdata : m.data = header :: data)
    (hint : header.int? = some a) :
    (∃ i k, m.memory.HasFlags header i k ∧ ∃ m',
      execute (bound + 1) (Kernel.token (.compiler w)) m = .ok () m' ∧ m'.data = data ∧
        m'.memory = m.memory.write i (.flags (f (k % 4).toNat))) ∨
    ((∀ i k, ¬ m.memory.HasFlags header i k) ∧ ∃ fault m',
      execute (bound + 1) (Kernel.token (.compiler w)) m = .error (.fault fault) m' ∧
        (fault.kind = .cellType ∨ fault.kind = .address) ∧ m'.data = data ∧
        m'.memory = m.memory) := by
  obtain ⟨log, hok, herror⟩ := execute_of_onFlags bound ht hw hword hdata hint
  by_cases hflags : ∃ i k, m.memory.HasFlags header i k
  · obtain ⟨i, k, hhas⟩ := hflags
    exact .inl ⟨i, k, hhas, _, hok _ (hhas.changeFlags_eq f), rfl, rfl⟩
  · have hnone : ∀ i k, ¬ m.memory.HasFlags header i k := fun i k hhas => hflags ⟨i, k, hhas⟩
    obtain ⟨fault, hfails, hkind⟩ := Memory.changeFlags_fails hint hnone f
    exact .inr ⟨hnone, fault, _, herror _ hfails, hkind, rfl, rfl⟩

end Execution

open Kernel

-- the memory is read cell by cell
set_option maxRecDepth 10000 in
/-- Two cells after the reserved one stands the name of a word. -/
theorem hidden_rejects_zero :
    bootedMemory.Intact (.compiler .hidden) ∧ ∃ fault m',
      execute 1 (token (.compiler .hidden)) { data := [.int 0], memory := bootedMemory } =
        .error (.fault fault) m' ∧
      (fault.kind = .cellType ∨ fault.kind = .address) ∧ m'.memory = bootedMemory := by
  have hword : bootedMemory.Intact (.compiler .hidden) := by decide
  have hname : bootedMemory.cells[2]? = some (.text "EXIT") := by decide
  refine ⟨hword, ?_⟩
  rcases execute_flagWord 0 (m := { data := [.int 0], memory := bootedMemory })
    (fun htrace => by cases htrace) rfl hword rfl rfl with ⟨i, k, hhas, -⟩ | ⟨-, hfault⟩
  · obtain ⟨n, hn, hi⟩ := hhas.place
    obtain ⟨x, hx, hk⟩ := hhas.holds
    obtain rfl : (0 : Int) = n := Option.some.inj hn
    obtain rfl : i = 2 := by omega
    obtain rfl := Option.some.inj (hname.symm.trans hx)
    cases hk
  · obtain ⟨fault, m', hexecute, hkind, -, hmemory⟩ := hfault
    exact ⟨fault, m', hexecute, hkind, hmemory⟩

set_option maxRecDepth 10000 in
/-- No header stands at the address 3, but `HIDDEN` takes the link of the second word for flags, and
writes over it. -/
theorem hidden_overwrites_link :
    bootedMemory.WellFormed bootedHeaders ∧ (∀ h ∈ bootedHeaders, h.addr ≠ 3) ∧
      bootedMemory.cells[5]? = some (.int 1) ∧ ∃ m',
        execute 1 (token (.compiler .hidden)) { data := [.int 3], memory := bootedMemory } =
          .ok () m' ∧ m'.memory.cells[5]? = some (.flags 3) := by
  have hlink : bootedMemory.cells[5]? = some (.int 1) := by decide
  have hhas : bootedMemory.HasFlags (.int 3) 5 1 := ⟨⟨3, rfl, rfl⟩, _, hlink, rfl⟩
  obtain ⟨log, hok, -⟩ := execute_of_onFlags 0 (m := { data := [.int 3], memory := bootedMemory })
    (w := .hidden) (fun htrace => by cases htrace) rfl (by decide) rfl rfl
  refine ⟨booted_wellFormed, by decide, hlink, _, hok _ (hhas.changeFlags_eq _), ?_⟩
  exact Memory.getElem?_write_self _ hhas.lt_here

end ThreadedForth
