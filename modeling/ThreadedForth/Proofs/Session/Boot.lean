import ThreadedForth.Proofs.Compiler.Bootstrap
import ThreadedForth.Proofs.Machine.Constancy
import ThreadedForth.Proofs.Session.Chunks

/-!
# How a session begins

Every session begins with the bootstrap. With steps enough it comes to its end without a fault and
without a word to the user, and leaves a machine that is at rest and holds the words of the kernel
and of the bootstrap (`Session.boot_ends`).
-/

namespace ThreadedForth

open ThreadedForth.Action

/-- A machine at the beginning of a session. -/
structure Machine.Booted (tracing : Bool) (m : Machine) : Prop where
  data : m.data = []
  returns : m.returns = []
  memory : m.memory = Kernel.bootedMemory
  mode : m.mode = .immediate
  ip : m.ip = none
  console : m.console = {}
  tracing : m.tracing = tracing
  remarks : m.remarks = Kernel.remarks

namespace Session

/-- The lines of the bootstrap are those of its text. -/
theorem lines_bootstrap : Text.lines (String.join (Kernel.bootstrap.map (· ++ "\n"))) =
    Kernel.bootstrap :=
  lines_chunkText (by decide +kernel)

theorem loadText_bootstrap (tracing : Bool) : ∃ k, ∀ b ≥ k, ∃ m,
    loadText b (String.join (Kernel.bootstrap.map (· ++ "\n")))
      { Kernel.machine with tracing := tracing } = .ok "" m ∧ m.Booted tracing := by
  obtain ⟨input, hinput, hreads⟩ := Kernel.reads_bootstrap
  have hc : Kernel.memory.HasInterpreter := ⟨Kernel.kernel_primitives.1, Kernel.kernel_primitives.2⟩
  let start : Machine := { Kernel.machine with tracing := tracing }
  obtain ⟨k, htext⟩ := interpretText_of_lines (m := start) Kernel.kernel_wellFormed.extends_self hc
    rfl lines_bootstrap hreads hinput rfl .shared
  refine ⟨k, fun b hb => ?_⟩
  obtain ⟨m, hrun, hm, hreturns, hip⟩ := htext b hb
  have hkeeps {γ : Type} {f : Machine → γ} (hf : Machine.Untouched f) : f m = f start :=
    (interpretText_keeps hf b .shared _).of_ok hrun
  refine ⟨{ m with console := { m.console with source := {} } }, ?_, hm.data, hreturns, hm.memory,
    hm.mode, hip, ?_, hkeeps untouched_tracing, hkeeps untouched_remarks⟩
  · simp only [loadText, bind_apply, get_apply, modifySource, modify_apply, observe]
    have hrun' : interpretText b .shared (String.join (Kernel.bootstrap.map (· ++ "\n")))
        { start with console := { start.console with source := {} } } = .ok "" m := hrun
    rw [hrun']
    rfl
  · show ({ transcript := m.console.transcript } : Console) = {}
    rw [hm.transcript]
    rfl

/-- **The bootstrap comes to its end.** -/
theorem boot_ends (tracing : Bool) : ∃ k, ∀ b ≥ k, ∃ m,
    boot b { Kernel.machine with tracing := tracing } = .ok () m ∧ m.Booted tracing := by
  obtain ⟨k, hload⟩ := loadText_bootstrap tracing
  refine ⟨k, fun b hb => ?_⟩
  obtain ⟨m, hrun, hm⟩ := hload b hb
  obtain ⟨names, hnames⟩ := Kernel.booted_wellFormed.words_eq_ok
  have hask : ask Memory.words m = .ok names m := by
    rw [ask_apply, hm.memory, hnames]
  rw [boot, bind_of_ok hrun, bind_of_ok hask]
  exact ⟨_, rfl, { hm with }⟩

end Session

end ThreadedForth
