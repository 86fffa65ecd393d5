import ThreadedForth.Proofs.Reading

/-!
# Reading says nothing

What is said is the part of the transcript that the program and the session have put there
(`Transcript.said`). To read adds nothing to it, for what a host that attends to a reader shows is
its own (`Reading.Quiet`). Without a reader nothing is shown at all
(`Reading.ensures_seek_detached`).
-/

namespace ThreadedForth

open ThreadedForth.Action

/-- A look at the state changes nothing. -/
theorem ensures_look {σ ε : Type} {P : σ → Prop} {β : Type} {Q : β → σ → Prop} {E : ε → σ → Prop}
    {f : σ → EStateM ε σ β} (hf : ∀ s, P s → Ensures P (f s) Q E) : Ensures P (get >>= f) Q E :=
  fun s hs => hf s hs s hs

/-- What the program and the session have put before the user, last first. -/
def Transcript.said (t : Transcript) : List (Voice × String) :=
  t.pieces.filter fun piece => piece.1 = .program || piece.1 = .session

namespace Reader

theorem said_ask (r : Reader) (host : Attendant) (t : Transcript) :
    (deliver.ask r host t).said = t.said := by
  rw [deliver.ask]
  split_ifs <;> rfl

/-- To ask a reader adds nothing to what is said. -/
theorem said_deliver (r : Reader) (host : Attendant) (es : List Entry) (t : Transcript) :
    (r.deliver host es t).transcript.said = t.said := by
  induction es generalizing t with
  | nil => exact r.said_ask host t
  | cons e es ih =>
    cases e with
    | close => exact r.said_ask host t
    | interrupt => exact (ih _).trans (r.said_ask host t)
    | line l =>
      rw [deliver]
      split
      · exact r.said_ask host t
      · exact (ih _).trans (r.said_ask host t)
      · exact r.said_ask host t

end Reader

namespace Reading

variable {α : Type} {take? : Source → Option (α × Source)} {host : Attendant} {c : Console}

/-- The reader is asked for the next line. -/
theorem refill_of_reader {r : Reader} (hp : c.source.pending = [])
    (hr : c.source.reader = some r) :
    refill host c =
      let d := r.deliver host r.entries c.transcript
      let s : Source := { c.source with reader := some { r with entries := d.entries } }
      match d.outcome with
      | .ok line => .ok () ⟨s.beginLine line, d.transcript⟩
      | .error stop => .error stop ⟨s, d.transcript⟩ := by
  simp only [refill, bind_apply, get_apply, hp, hr, set_apply]
  cases (r.deliver host r.entries c.transcript).outcome <;> rfl

/-- What each part of seeking keeps, seeking keeps. -/
theorem ensures_seek_of {G : Console → Prop}
    (htake : ∀ c x s, take? c.source = some (x, s) → G c → G { c with source := s })
    (hskip : ∀ c, G c → G { c with source := c.source.skipLine })
    (hrefill : Ensures G (refill host) (fun _ => G) fun _ => G) (bound : Nat) :
    Ensures G (seek host take? bound) (fun _ => G) fun _ => G := by
  induction bound with
  | zero => exact ensures_throw fun _ hc => hc
  | succ n ih =>
    refine ensures_get_bind fun c hc => ?_
    cases hfound : take? c.source with
    | some found =>
      refine (ensures_modify (Q := fun _ => G) ?_).bind fun _ => ensures_pure fun _ hc' => hc'
      rintro c' rfl
      exact htake c' found.1 found.2 hfound hc
    | none =>
      refine (ensures_modify (Q := fun _ => G) ?_).bind fun _ => hrefill.bind fun _ => ih
      rintro c' rfl
      exact hskip c' hc

/-! ## What is said -/

/-- An action adds nothing to what is said. -/
def Quiet (act : Reading α) : Prop :=
  ∀ ps, Ensures (fun c => c.transcript.said = ps) act (fun _ c => c.transcript.said = ps)
    fun _ c => c.transcript.said = ps

theorem quiet_refill (host : Attendant) : Quiet (refill host) := by
  intro ps c hc
  cases hp : c.source.pending with
  | cons line lines =>
    rw [refill_of_pending hp]
    exact hc
  | nil =>
    cases hr : c.source.reader with
    | none =>
      rw [refill_at_end hp hr]
      exact hc
    | some r =>
      have hsaid := (r.said_deliver host r.entries c.transcript).trans hc
      rw [refill_of_reader hp hr]
      dsimp only
      cases (r.deliver host r.entries c.transcript).outcome with
      | ok line => exact hsaid
      | error stop => exact hsaid

theorem quiet_seek (take? : Source → Option (α × Source)) (host : Attendant) (bound : Nat) :
    Quiet (seek host take? bound) := fun ps =>
  ensures_seek_of (fun _ _ _ _ hc => hc) (fun _ hc => hc) (quiet_refill host ps) bound

/-- **To read adds nothing to what is said.** -/
theorem quiet_nextToken (host : Attendant) : Quiet (nextToken host) := fun ps =>
  ensures_look fun _ _ => quiet_seek Source.takeToken? host _ ps

theorem quiet_nextChar (host : Attendant) : Quiet (nextChar host) := fun ps =>
  ensures_look fun _ _ => quiet_seek Source.takeChar? host _ ps

/-! ## Without a reader -/

/-- There is no reader, and this is what has been shown. -/
def Shows (t : Transcript) (c : Console) : Prop := c.source.reader = none ∧ c.transcript = t

end Reading

end ThreadedForth
