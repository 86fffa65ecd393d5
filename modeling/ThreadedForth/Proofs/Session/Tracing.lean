import ThreadedForth.Proofs.Compiler.Booted
import ThreadedForth.Proofs.Machine.Tracing
import ThreadedForth.Proofs.Session.Record

/-!
# Traced sessions

Between two runs of `QUIT` the driver of a session does not care for the log. So whatever a session
is asked for, it does the same with and without tracing: it enters the same cells in the same order
and comes to the same end (`Session.tracing_is_transparent`). All that is needed is that the headers
can be walked to their end at each dispatch of the run without tracing.
-/

namespace ThreadedForth

open ThreadedForth.Action

variable {α : Type}

/-! ## What the driver does -/

theorem blind_reset : Blind reset :=
  (blind_modify fun _ _ _ => rfl).bind fun _ => blind_modifySource _

theorem blind_leaveThread : Blind Session.leaveThread := blind_modify fun _ _ _ => rfl

theorem blind_reportFault (f : Fault) : Blind (Session.report f) :=
  (blind_write _ _).bind fun _ =>
    blind_get_bind (fun _ => (blind_record _ _ _).bind fun _ => blind_record _ _ _)
      fun m m' h => by rw [h.console]

theorem blind_closeSession : Blind Session.closeSession :=
  blind_leaveThread.bind fun _ =>
    blind_get_bind (fun _ => blind_record _ _ _) fun m m' h => by rw [h.console]

namespace Recorded

theorem transparent_settle (outcome : Except Stop α) : Transparent (lift (settle outcome)) := by
  cases outcome with
  | ok x => exact transparent_lift (blind_pure x)
  | error stop => exact transparent_lift (blind_throw stop)

theorem transparent_source (f : Source → Source) : Transparent (lift (modifySource f)) :=
  transparent_lift (blind_modifySource f)

theorem transparent_transcript (t : Transcript) : Transparent (lift (Session.setTranscript t)) :=
  transparent_lift (blind_modify fun _ _ _ => rfl)

theorem transparent_quit (bound : Nat) : Transparent (quit bound) :=
  (transparent_note fun _ _ => .start).bind fun _ =>
    (execute_transparent bound Kernel.quitToken).observe

theorem transparent_resetAfter (f : Fault) : Transparent (resetAfter f) :=
  (transparent_lift blind_reset).bind fun _ => transparent_note fun _ _ => .fault f

theorem transparent_interpretFed (bound : Nat) : Transparent (interpretFed bound) := by
  refine transparent_get_bind (fun r => ?_) fun r r' h => by rw [h.machine.console]
  refine (transparent_source _).bind fun _ => (transparent_quit bound).bind fun outcome =>
    (transparent_source _).bind fun _ => ?_
  cases outcome with
  | ok _ => exact transparent_settle _
  | error stop =>
    cases stop with
    | endOfInput => exact transparent_lift blind_leaveThread
    | fault f =>
      exact (transparent_source _).bind fun _ => (transparent_resetAfter f).bind fun _ =>
        transparent_throw _
    | _ => exact transparent_settle _

theorem transparent_interpretText (bound : Nat) (sink : Sink) (text : String) :
    Transparent (interpretText bound sink text) := by
  refine transparent_get_bind (fun r => ?_) fun r r' h => by rw [h.machine.console]
  refine (transparent_transcript _).bind fun _ => (transparent_source _).bind fun _ =>
    (transparent_interpretFed bound).observe.bind fun outcome => ?_
  refine transparent_get_bind (fun r => ?_) fun r r' h => by rw [h.machine.console]
  exact (transparent_transcript _).bind fun _ => (transparent_settle _).bind fun _ =>
    transparent_pure _

theorem transparent_loadText (bound : Nat) (text : String) :
    Transparent (loadText bound text) := by
  refine transparent_get_bind (fun r => ?_) fun r r' h => by rw [h.machine.console]
  exact (transparent_source _).bind fun _ =>
    (transparent_interpretText bound .shared text).observe.bind fun outcome =>
      (transparent_source _).bind fun _ => transparent_settle _

theorem transparent_runWithin (bound : Nat) (restart : Bool) (rounds : Nat) :
    Transparent (runWithin bound restart rounds) := by
  induction rounds with
  | zero => exact transparent_throw _
  | succ n ih =>
    refine (transparent_quit bound).bind fun outcome => ?_
    cases outcome with
    | ok _ => exact ih
    | error stop =>
      cases stop with
      | endOfInput => exact transparent_lift blind_closeSession
      | fault f =>
        refine (transparent_lift (blind_reportFault f)).bind fun _ =>
          (transparent_resetAfter f).bind fun _ => ?_
        have hgoesOn : Transparent (do
            lift (record .info .session "interpreter restarted")
            runWithin bound restart n) :=
          (transparent_lift (blind_record _ _ _)).bind fun _ => ih
        cases restart with
        | true => exact hgoesOn
        | false => exact (transparent_throw (.fault f)).bind fun _ => hgoesOn
      | _ => exact transparent_throw _

theorem transparent_answer (bound : Nat) (request : Session.Request) :
    Transparent (answer bound request) := by
  cases request with
  | interpret sink text => exact transparent_interpretText bound sink text
  | load text => exact transparent_loadText bound text
  | run restart =>
    exact (transparent_runWithin bound restart bound).bind fun _ => transparent_pure _

end Recorded

/-! ## Sessions -/

namespace Session

/-- **Tracing makes no difference.** -/
theorem tracing_is_transparent (bound : Nat) (request : Request) {m : Machine}
    (hsilent : m.tracing = false)
    (hwalked : Walked (Recorded.trail (Recorded.answer bound request) ⟨[], m⟩).past) :
    Agree Record.Traced (fun _ => Record.Traced) (Recorded.answer bound request ⟨[], m⟩)
        (Recorded.answer bound request ⟨[], { m with tracing := true }⟩) ∧
      request.perform bound m = Recorded.forget (Recorded.answer bound request ⟨[], m⟩) ∧
      request.perform bound { m with tracing := true } =
        Recorded.forget (Recorded.answer bound request ⟨[], { m with tracing := true }⟩) := by
  have htraced : m.Traced { m with tracing := true } := ⟨hsilent, rfl, List.Sublist.refl _⟩
  refine ⟨?_, Recorded.answer_follows bound request ⟨[], m⟩,
    Recorded.answer_follows bound request ⟨[], { m with tracing := true }⟩⟩
  exact (Recorded.transparent_answer bound request).agrees _ _ ⟨.nil, htraced⟩ hwalked

-- the memory is compared cell by cell
set_option maxRecDepth 10000 in
theorem tracing_of_numeral :
    let m : Machine := { memory := Kernel.bootedMemory }
    let answer := Recorded.answer 10 (.interpret .shared "5")
    m.tracing = false ∧ Walked (Recorded.trail answer ⟨[], m⟩).past ∧
      Agree Record.Traced (fun _ => Record.Traced) (answer ⟨[], m⟩)
        (answer ⟨[], { m with tracing := true }⟩) := by
  have hkept : ∀ e ∈ (Recorded.trail (Recorded.answer 10 (.interpret .shared "5"))
      ⟨[], { memory := Kernel.bootedMemory }⟩).past,
      e.machine.memory.cells.toList = Kernel.bootedMemory.cells.toList ∧
        e.machine.memory.latest = Kernel.bootedMemory.latest := by decide +kernel
  have hwalked : Walked (Recorded.trail (Recorded.answer 10 (.interpret .shared "5"))
      ⟨[], { memory := Kernel.bootedMemory }⟩).past := by
    intro e he _
    have hmemory : e.machine.memory = Kernel.bootedMemory :=
      congrArg₂ Memory.mk (Array.toList_inj.mp (hkept e he).1) (hkept e he).2
    rw [hmemory, Kernel.booted_wellFormed.chain_eq]
  exact ⟨rfl, hwalked, (tracing_is_transparent 10 (.interpret .shared "5") rfl hwalked).1⟩

end Session

end ThreadedForth
