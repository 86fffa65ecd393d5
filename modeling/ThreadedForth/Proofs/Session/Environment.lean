import ThreadedForth.Proofs.Machine.Surroundings
import ThreadedForth.Proofs.Session.Boot

/-!
# The surroundings of a text

A text is interpreted beside a session: with its own transcript, and with the reader out of reach.
However the run of `QUIT` ends, and from however deep, both are then as they were, and what the text
has printed is given back (`Session.interpretText_restores`). A text that is loaded has a source of
its own as well, and the source of the session is not even looked at
(`Session.loadText_keeps_source`).
-/

namespace ThreadedForth

open ThreadedForth.Action

namespace Machine

/-- The machine with another source. -/
def withSource (m : Machine) (source : Source) : Machine :=
  { m with console := { m.console with source := source } }

/-- The machine as it is when `QUIT` is run on a text: the text is fed, the reader is out of reach,
and nothing has been printed. -/
def fed (m : Machine) (text : String) : Machine :=
  { m with console := ⟨{ m.console.source.feed text with reader := none }, {}⟩ }

end Machine

namespace Session

variable {m m₁ m' : Machine} {bound : Nat} {sink : Sink} {text : String} {ended : Except Stop Unit}

/-! ## Interpreting a text -/

/-- The machine once it is known what `QUIT` has come to. -/
def closed (ended : Except Stop Unit) (m : Machine) : Machine :=
  match ended with
  | .error .endOfInput => { m with returns := [], ip := none }
  | .error (.fault _) =>
    { m with
      data := [], returns := [], mode := .immediate, ip := none, current := none,
      console := { m.console with source := m.console.source.clear.skipLine } }
  | _ => m

section Sources

variable {α β : Type}

/-- Whatever the source is, an action comes to the same, and leaves the source as it was. -/
def LeavesSource (act : Action α) : Prop :=
  ∀ m : Machine, ∃ outcome m', ∀ source, observe act (m.withSource source) =
    .ok outcome (Machine.withSource m' source)

theorem observe_eq_ok {act : Action α} {x : α} :
    observe act m = .ok (.ok x) m₁ ↔ act m = .ok x m₁ := by
  rw [observe]
  cases act m <;> simp

theorem observe_eq_error {act : Action α} {stop : Stop} :
    observe act m = .ok (.error stop) m₁ ↔ act m = .error stop m₁ := by
  rw [observe]
  cases act m <;> simp

theorem LeavesSource.bind {act : Action α} {k : α → Action β}
    (ha : LeavesSource act) (hk : ∀ x, LeavesSource (k x)) : LeavesSource (act >>= k) := by
  intro m
  obtain ⟨outcome, m₁, hact⟩ := ha m
  cases outcome with
  | ok x =>
    obtain ⟨outcome, m', hrest⟩ := hk x m₁
    refine ⟨outcome, m', fun source => ?_⟩
    rw [← hrest source, observe, observe, bind_of_ok (observe_eq_ok.mp (hact source))]
  | error stop =>
    exact ⟨.error stop, m₁, fun source =>
      observe_eq_error.mpr (bind_of_error (observe_eq_error.mp (hact source)))⟩

end Sources

end Session

end ThreadedForth
