import ThreadedForth.Proofs.Machine.Bound
import ThreadedForth.Session

/-!
# The bound on a text

What comes of a text does not depend on the bound, once it is large enough: a smaller bound
approximates a larger one for texts as well (`Session.interpretText_approximates`).
-/

namespace ThreadedForth.Session

open ThreadedForth.Action

variable {b bound : Nat}

theorem interpretFed_approximates (hb : b ≤ bound) :
    Approximates (interpretFed b) (interpretFed bound) := by
  refine approximates_bind (approximates_refl _) fun m =>
    approximates_bind (approximates_refl _) fun _ => ?_
  refine approximates_observe_bind (execute_approximates hb _) (fun m => ⟨_, rfl⟩) fun outcome => ?_
  exact approximates_refl _

/-- A text that is interpreted with a small bound is interpreted as with a large one, unless it is
exhausted. -/
theorem interpretText_approximates (hb : b ≤ bound) (sink : Sink) (text : String) :
    Approximates (interpretText b sink text) (interpretText bound sink text) := by
  refine approximates_bind (approximates_refl _) fun m =>
    approximates_bind (approximates_refl _) fun _ =>
      approximates_bind (approximates_refl _) fun _ => ?_
  refine approximates_observe_bind (interpretFed_approximates hb) (fun m => ⟨_, rfl⟩)
    fun outcome => ?_
  exact approximates_refl _

/-- Two interpretations of a text that come to an end come to the same end. -/
theorem interpretText_unique {sink : Sink} {text : String} {m : Machine}
    (h : ∀ m₁, interpretText b sink text m ≠ .error .exhausted m₁)
    (h' : ∀ m₁, interpretText bound sink text m ≠ .error .exhausted m₁) :
    interpretText b sink text m = interpretText bound sink text m :=
  (interpretText_approximates (Nat.le_max_left b bound) sink text).unique
    (interpretText_approximates (Nat.le_max_right b bound) sink text) h h'

end ThreadedForth.Session
