import ThreadedForth.Proofs.Machine.Pair
import ThreadedForth.Proofs.Reading

/-!
# Consoles in lockstep

Two consoles from which the same is taken. A `Feed` says how they differ, and has to be kept where a
token or a character is taken, where the rest of a line is dropped and where something is shown.

Most of the time the lines come from elsewhere, but are the same. A `Link` says how the consoles
differ then. What is left of the current line has to be the same, and when a line is begun on one of
them the same line is begun on the other one. Then tokens and characters are taken in lockstep
(`Link.nextToken`, `Link.nextChar`), so every link is a feed (`Link.feed`).

How many lines may be begun does not matter, as long as it is more than there are
(`Reading.seek_of_bound`).
-/

namespace ThreadedForth

open ThreadedForth.Action

variable {α : Type}

namespace Reading

variable {host : Attendant} {take? : Source → Option (α × Source)} {c c' : Console}

/-! ## Bounds -/

theorem deliver_entries {r : Reader} {es : List Entry} {t : Transcript} {line : String}
    (h : (r.deliver host es t).outcome = .ok line) :
    (r.deliver host es t).entries.length < es.length := by
  induction es generalizing t with
  | nil => cases h
  | cons e es ih =>
    cases e with
    | close => cases h
    | interrupt => exact Nat.lt_succ_of_lt (ih h)
    | line l =>
      rw [Reader.deliver] at h ⊢
      cases hanswer : (if r.attended then host.answer l else none) with
      | none => exact Nat.lt_succ_self _
      | some outcome =>
        rw [hanswer] at h
        cases outcome with
        | ok report => exact Nat.lt_succ_of_lt (ih h)
        | error stop => cases h

/-- To begin a line uses up one of those that are left. -/
theorem linesLeft_of_refill (h : refill host c = .ok () c') :
    c'.source.linesLeft < c.source.linesLeft := by
  cases hp : c.source.pending with
  | cons line lines =>
    rw [refill_of_pending hp] at h
    cases h
    simp only [Source.linesLeft, Source.beginLine, hp, List.length_cons]
    omega
  | nil =>
    cases hr : c.source.reader with
    | none =>
      rw [refill_at_end hp hr] at h
      cases h
    | some r =>
      cases hd : (r.deliver host r.entries c.transcript).outcome with
      | error stop =>
        obtain ⟨c₁, hrefill⟩ := refill_of_error hp hr hd
        rw [hrefill] at h
        cases h
      | ok line =>
        have hless := deliver_entries hd
        simp only [refill, bind_apply, get_apply, hp, hr, set_apply, hd, modify_apply,
          EStateM.Result.ok.injEq, true_and] at h
        subst h
        simpa [Source.linesLeft, Source.beginLine, hp, hr] using hless

/-- What is sought is found within the lines that are left, or not at all. -/
theorem seek_of_bound {n k : Nat} (hn : c.source.linesLeft < n) (hk : c.source.linesLeft < k) :
    seek host take? n c = seek host take? k c := by
  induction n generalizing c k with
  | zero => exact absurd hn (Nat.not_lt_zero _)
  | succ n ih =>
    obtain ⟨k, rfl⟩ : ∃ j, k = j + 1 := ⟨k - 1, by omega⟩
    cases htake : take? c.source with
    | some found => rw [seek_of_take n htake, seek_of_take k htake]
    | none =>
      simp only [seek, bind_apply, get_apply, htake, modify_apply]
      cases hrefill : refill host { c with source := c.source.skipLine } with
      | error stop c₁ => rfl
      | ok _ c₁ =>
        have hless : c₁.source.linesLeft < c.source.linesLeft :=
          linesLeft_of_refill (c := { c with source := c.source.skipLine }) hrefill
        exact ih (by omega) (by omega)

end Reading

/-! ## Feeds -/

/-- How two consoles differ from which the same is taken. -/
structure Feed where
  /-- the console on the left goes together with that on the right -/
  rel : Console → Console → Prop
  /-- from this source of the console on the left there is no way back -/
  lost : Source → Prop
  /-- the hosts that may attend -/
  hosts : Attendant → Attendant → Prop
  writes : ∀ {c c'} (voice : Voice) (text : String), rel c c' →
    rel { c with transcript := c.transcript.write voice text }
      { c' with transcript := c'.transcript.write voice text }
  skips : ∀ {c c'}, rel c c' → lost c.source.skipLine ∨
    rel { c with source := c.source.skipLine } { c' with source := c'.source.skipLine }
  tokens : ∀ {host host' c c'}, hosts host host' → rel c c' →
    Locked (fun c => lost c.source) rel (fun _ => rel) (Reading.nextToken host c)
      (Reading.nextToken host' c')
  chars : ∀ {host host' c c'}, hosts host host' → rel c c' →
    Locked (fun c => lost c.source) rel (fun _ => rel) (Reading.nextChar host c)
      (Reading.nextChar host' c')
  lost_skips : ∀ {s}, lost s → lost s.skipLine
  lost_tokens : ∀ host {c : Console}, lost c.source →
    Gone (fun c => lost c.source) (Reading.nextToken host c)
  lost_chars : ∀ host {c : Console}, lost c.source →
    Gone (fun c => lost c.source) (Reading.nextChar host c)

/-- Two ways to read go in lockstep. -/
abbrev Feed.Keeps (F : Feed) (act act' : Reading α) : Prop :=
  Lockstep (fun c => F.lost c.source) F.rel F.rel act act' fun _ => F.rel

/-! ## Links -/

/-- How two consoles differ that begin the same lines. -/
structure Link where
  /-- the console on the left goes together with that on the right -/
  rel : Console → Console → Prop
  /-- from this source of the console on the left there is no way back -/
  lost : Source → Prop
  /-- the hosts that may attend -/
  hosts : Attendant → Attendant → Prop
  rest : ∀ {c c'}, rel c c' → c'.source.rest = c.source.rest
  moves : ∀ {c c'} (taken taken' rest : List Char), rel c c' →
    rel { c with source.taken := taken, source.rest := rest }
      { c' with source.taken := taken', source.rest := rest }
  writes : ∀ {c c'} (voice : Voice) (text : String), rel c c' →
    rel { c with transcript := c.transcript.write voice text }
      { c' with transcript := c'.transcript.write voice text }
  refills : ∀ {host host' c c'}, hosts host host' → rel c c' → c.source.rest = [] →
    Locked (fun c => lost c.source) rel (fun _ => rel) (Reading.refill host c)
      (Reading.refill host' c')
  lost_moves : ∀ {s} (taken rest : List Char), lost s → lost { s with taken := taken, rest := rest }
  lost_refills : ∀ host {c : Console}, lost c.source →
    Gone (fun c => lost c.source) (Reading.refill host c)

namespace Link

/-- A link in which nothing is ever lost. -/
def lossless (rel : Console → Console → Prop) (hosts : Attendant → Attendant → Prop)
    (rest : ∀ {c c'}, rel c c' → c'.source.rest = c.source.rest)
    (moves : ∀ {c c'} (taken taken' rest : List Char), rel c c' →
      rel { c with source.taken := taken, source.rest := rest }
        { c' with source.taken := taken', source.rest := rest })
    (writes : ∀ {c c'} (voice : Voice) (text : String), rel c c' →
      rel { c with transcript := c.transcript.write voice text }
        { c' with transcript := c'.transcript.write voice text })
    (refills : ∀ {host host' c c'}, hosts host host' → rel c c' →
      Agree rel (fun _ => rel) (Reading.refill host c) (Reading.refill host' c')) : Link where
  rel := rel
  lost _ := False
  hosts := hosts
  rest := rest
  moves := moves
  writes := writes
  refills hhosts h _ := .inr (refills hhosts h)
  lost_moves _ _ h := h
  lost_refills _ _ h := h.elim

variable {L : Link} {take? : Source → Option (α × Source)} {host host' : Attendant}

/-- Two ways to read go in lockstep. -/
abbrev Keeps (L : Link) (act act' : Reading α) : Prop :=
  Lockstep (fun c => L.lost c.source) L.rel L.rel act act' fun _ => L.rel

theorem rel_skipLine {c c' : Console} (h : L.rel c c') :
    L.rel { c with source := c.source.skipLine } { c' with source := c'.source.skipLine } :=
  L.moves (c.source.rest.reverse ++ c.source.taken) (c'.source.rest.reverse ++ c'.source.taken) [] h

/-- What is lost stays lost, however far one reads. -/
theorem gone_seek (htake : Reading.ByLine take?) (n : Nat) {c : Console} (hc : L.lost c.source) :
    Gone (fun c => L.lost c.source) (Reading.seek host take? n c) := by
  obtain ⟨split, hsplit⟩ := htake
  induction n generalizing c with
  | zero => exact .inr hc
  | succ n ih =>
    cases hfound : take? c.source with
    | some found =>
      rw [Reading.seek_of_take n hfound]
      rw [hsplit] at hfound
      obtain ⟨piece, -, rfl⟩ := Option.map_eq_some_iff.mp hfound
      exact L.lost_moves _ _ hc
    | none =>
      have hrefill := L.lost_refills host (c := { c with source := c.source.skipLine })
        (L.lost_moves _ _ hc)
      simp only [Reading.seek, bind_apply, get_apply, hfound, modify_apply]
      cases hrun : Reading.refill host { c with source := c.source.skipLine } with
      | error stop c₁ =>
        rw [hrun] at hrefill
        exact hrefill
      | ok _ c₁ =>
        rw [hrun] at hrefill
        exact ih hrefill

/-- What is sought is found in lockstep. -/
theorem keeps_seek (htake : Reading.ByLine take?) (hhosts : L.hosts host host') (n : Nat) :
    L.Keeps (Reading.seek host take? n) (Reading.seek host' take? n) := by
  induction n with
  | zero => exact lockstep_throw fun _ _ h => h
  | succ n ih =>
    refine ⟨fun c hc => gone_seek htake _ hc, fun c c' hc => ?_⟩
    obtain ⟨split, hsplit⟩ := htake
    have hleft := hsplit c.source
    have hright := hsplit c'.source
    rw [L.rest hc] at hright
    cases hpiece : split c.source.rest with
    | some piece =>
      rw [hpiece] at hleft hright
      rw [Reading.seek_of_take n hleft, Reading.seek_of_take n hright]
      exact .inr (.ok (L.moves _ _ _ hc))
    | none =>
      rw [hpiece] at hleft hright
      have hrest : Lockstep (fun c => L.lost c.source) L.rel
          (fun c c' => L.rel c c' ∧ c.source.rest = [])
          (Reading.refill host >>= fun _ => Reading.seek host take? n)
          (Reading.refill host' >>= fun _ => Reading.seek host' take? n) fun _ => L.rel :=
        Lockstep.bind ⟨fun c hc => L.lost_refills host hc,
          fun c c' hc => L.refills hhosts hc.1 hc.2⟩ fun _ => ih
      have hboth := hrest.along { c with source := c.source.skipLine }
        { c' with source := c'.source.skipLine } ⟨rel_skipLine hc, rfl⟩
      have hopen {host : Attendant} {c : Console} (hnone : take? c.source = none) :
          Reading.seek host take? (n + 1) c =
            (Reading.refill host >>= fun _ => Reading.seek host take? n)
              { c with source := c.source.skipLine } := by
        simp only [Reading.seek, bind_of_ok (get_apply _), hnone]
        rfl
      rw [hopen hleft, hopen hright]
      exact hboth

/-- Reading with as many lines as there are goes in lockstep. -/
theorem locked_seek (htake : Reading.ByLine take?) (hhosts : L.hosts host host') {c c' : Console}
    (hc : L.rel c c') :
    Locked (fun c => L.lost c.source) L.rel (fun _ => L.rel)
      (Reading.seek host take? (c.source.linesLeft + 1) c)
      (Reading.seek host' take? (c'.source.linesLeft + 1) c') := by
  have hmax := (keeps_seek htake hhosts
    (max c.source.linesLeft c'.source.linesLeft + 1)).along c c' hc
  rw [Reading.seek_of_bound (k := c.source.linesLeft + 1) (by omega) (by omega),
    Reading.seek_of_bound (c := c') (k := c'.source.linesLeft + 1) (by omega) (by omega)] at hmax
  exact hmax

/-- **Tokens are taken in lockstep.** -/
theorem nextToken (L : Link) (hhosts : L.hosts host host') :
    L.Keeps (Reading.nextToken host) (Reading.nextToken host') :=
  ⟨fun _ hc => gone_seek Reading.takeToken?_byLine _ hc,
    fun _ _ hc => locked_seek Reading.takeToken?_byLine hhosts hc⟩

/-- **Characters are taken in lockstep.** -/
theorem nextChar (L : Link) (hhosts : L.hosts host host') :
    L.Keeps (Reading.nextChar host) (Reading.nextChar host') :=
  ⟨fun _ hc => gone_seek Reading.takeChar?_byLine _ hc,
    fun _ _ hc => locked_seek Reading.takeChar?_byLine hhosts hc⟩

/-- Consoles that begin the same lines are consoles from which the same is taken. -/
def feed (L : Link) : Feed where
  rel := L.rel
  lost := L.lost
  hosts := L.hosts
  writes := L.writes
  skips h := .inr (rel_skipLine h)
  tokens hhosts h := (L.nextToken hhosts).along _ _ h
  chars hhosts h := (L.nextChar hhosts).along _ _ h
  lost_skips h := L.lost_moves _ _ h
  lost_tokens _ _ h := gone_seek Reading.takeToken?_byLine _ h
  lost_chars _ _ h := gone_seek Reading.takeChar?_byLine _ h

end Link

end ThreadedForth
