import ThreadedForth.Proofs.Machine.Lockstep
import ThreadedForth.Session

/-!
# Sessions in lockstep

The driver of a session runs `QUIT` over and over (`Session.drive`). Between two runs it reports a
fault, resets the machine or closes the session, and a coupling is kept by all of this if it does
not tell apart what is empty. So two sessions go in lockstep if their runs of `QUIT` do
(`Coupling.keeps_drive`).
-/

namespace ThreadedForth

open ThreadedForth.Action

namespace Session

/-- Runs the input by a given way to run `QUIT`, with a bound on the number of restarts. -/
def drive (quit : Action Unit) (restart : Bool) : Nat → Action Unit
  | 0 => throw .exhausted
  | rounds + 1 => do
    match ← observe quit with
    | .ok () => drive quit restart rounds
    | .error .endOfInput => closeSession
    | .error (.fault f) =>
      report f
      reset
      if ! restart then fail f
      record .info .session "interpreter restarted"
      drive quit restart rounds
    | .error stop => throw stop

/-- To run the input is to do so by the word `QUIT`. -/
theorem runWithin_eq_drive (bound : Nat) (restart : Bool) (rounds : Nat) :
    runWithin bound restart rounds = drive (execute bound Kernel.quitToken) restart rounds := by
  induction rounds with
  | zero => rfl
  | succ n ih =>
    rw [runWithin, ih]
    rfl

/-- A session goes as another one does, as long as its runs of `QUIT` do. -/
theorem drive_approximates {quit quit' : Action Unit} (hquit : Approximates quit quit')
    (restart : Bool) (rounds : Nat) :
    Approximates (drive quit restart rounds) (drive quit' restart rounds) := by
  induction rounds with
  | zero => exact approximates_refl _
  | succ n ih =>
    refine approximates_observe_bind hquit (fun m => ⟨m, rfl⟩) fun outcome => ?_
    cases outcome with
    | ok _ => exact ih
    | error stop =>
      cases stop with
      | fault f =>
        refine approximates_bind (approximates_refl _) fun _ =>
          approximates_bind (approximates_refl _) fun _ => ?_
        cases restart with
        | true => exact approximates_bind (approximates_refl _) fun _ => ih
        | false => exact approximates_refl _
      | _ => exact approximates_refl _

end Session

/-- Two machines that agree in the stacks, the memory, the mode and the number of the line. -/
structure Machine.SameState (m m' : Machine) : Prop where
  data : m'.data = m.data
  returns : m'.returns = m.returns
  memory : m'.memory = m.memory
  mode : m'.mode = m.mode
  lineCount : m'.console.source.lineCount = m.console.source.lineCount

namespace Coupling

open ThreadedForth.Session

variable {C : Coupling} {α β : Type} {P : Machine → Machine → Prop} {Q : α → Machine → Machine → Prop}
  {S : β → Machine → Machine → Prop} {act act' : Action α} {quit quit' : Action Unit}

/-- What is done about an outcome. If it is that the left side has given up, the left side has to
give up. -/
theorem keeps_observe_bind {k k' : Except Stop α → Action β} (hact : C.Lockstep P act act' Q)
    (hgiveUp : k (.error .exhausted) = throw .exhausted)
    (hok : ∀ x, C.Lockstep (Q x) (k (.ok x)) (k' (.ok x)) S)
    (herror : ∀ stop, C.Lockstep C.Rel (k (.error stop)) (k' (.error stop)) S) :
    C.Lockstep P (observe act >>= k) (observe act' >>= k') S := by
  have hgone {m : Machine} (h : Gone C.Lost (act m)) : Gone C.Lost ((observe act >>= k) m) := by
    simp only [bind_apply, observe]
    cases hrun : act m with
    | ok x m₁ =>
      rw [hrun] at h
      exact (hok x).apart m₁ h
    | error stop m₁ =>
      rw [hrun] at h
      rcases h with rfl | hlost
      · show Gone C.Lost (k (.error .exhausted) m₁)
        rw [hgiveUp]
        exact .inl rfl
      · exact (herror stop).apart m₁ hlost
  refine ⟨fun m hm => hgone (hact.apart m hm), fun m m' hm => ?_⟩
  refine (hact.along m m' hm).elim (fun h => .inl (hgone h)) fun hagree => ?_
  simp only [bind_apply, observe]
  generalize act m = left at hagree
  generalize act' m' = right at hagree
  cases hagree with
  | ok hQ => exact (hok _).along _ _ hQ
  | error hrel => exact (herror _).along _ _ hrel

theorem Rel.sameState {m m' : Machine} (h : C.Rel m m') (hreturns : m'.returns = m.returns)
    (hcount : m'.console.source.lineCount = m.console.source.lineCount) : m.SameState m' :=
  ⟨data_of_core h.core, hreturns, memory_of_core h.core, mode_of_core h.core, hcount⟩

theorem keeps_record (level : Level) (channel : Channel) (text : String) :
    C.Keeps (record level channel text) (record level channel text) :=
  lockstep_modify (fun _ hm => hm) fun _ _ hm => hm.noted _ _ _ _

/-- A fault is reported in the same words on both sides. The number of the line is for the log. -/
theorem keeps_sessionReport (f : Fault) : C.Keeps (report f) (report f) :=
  (keeps_write .session _).bind fun _ =>
    lockstep_get_bind (fun _ hm => hm) fun _ _ hm => .inr (.ok (hm.noted _ _ _ _))

theorem keeps_reset (hback : C.back [] []) : C.Keeps reset reset := by
  have hclear : C.Keeps
      (modify fun m =>
        { m with data := [], returns := [], mode := .immediate, ip := none, current := none })
      (modify fun m =>
        { m with data := [], returns := [], mode := .immediate, ip := none, current := none }) :=
    lockstep_modify (fun _ hm => hm) fun m m' hm =>
      ⟨congrArg (fun k : Core => { k with data := [], mode := .immediate, ip := none }) hm.core,
        hm.tracing, hm.remarks, hback, hm.console⟩
  exact hclear.bind fun _ => keeps_plain .skipLine

theorem keeps_closeSession (hback : C.back [] []) : C.Keeps closeSession closeSession := by
  have hleave : C.Keeps leaveThread leaveThread :=
    lockstep_modify (fun _ hm => hm) fun m m' hm =>
      ⟨congrArg (fun k : Core => { k with ip := none }) hm.core, hm.tracing, hm.remarks, hback,
        hm.console⟩
  exact hleave.bind fun _ =>
    lockstep_get_bind (fun _ hm => hm) fun _ _ hm => .inr (.ok (hm.noted _ _ _ _))

/-- **Sessions go in lockstep** if their runs of `QUIT` do. -/
theorem keeps_drive (hquit : C.Keeps quit quit') (hback : C.back [] []) (restart : Bool)
    (rounds : Nat) : C.Keeps (drive quit restart rounds) (drive quit' restart rounds) := by
  induction rounds with
  | zero => exact lockstep_exhausted
  | succ n ih =>
    refine keeps_observe_bind hquit rfl (fun _ => ih) fun stop => ?_
    cases stop with
    | endOfInput => exact keeps_closeSession hback
    | fault f =>
      refine (keeps_sessionReport f).bind fun _ => (keeps_reset hback).bind fun _ => ?_
      cases restart with
      | true => exact (keeps_record _ _ _).bind fun _ => ih
      | false => exact lockstep_throw fun _ _ hm => hm
    | _ => exact lockstep_throw fun _ _ hm => hm

end Coupling

end ThreadedForth
