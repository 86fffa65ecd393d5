import ThreadedForth.Proofs.Machine.Link
import ThreadedForth.Proofs.Text.Lines

/-!
# What a source delivers

The characters that are taken from a source one after the other up to the end of the input, and the
tokens (`Reading.Delivers`). As long as the lines to come are fed, or are all that a stream holds
(`Reading.Upcoming`), they are those of the current line and of the lines to come
(`Reading.delivers_chars`, `Reading.delivers_tokens`). Where a token is sought, lines without one
are passed over (`Reading.nextToken_pass`).
-/

namespace ThreadedForth

/-- All that is taken until the input ends. -/
inductive Reading.Delivers {α : Type} (next : Reading α) : Console → List α → Prop
  | done {c c' : Console} (hend : next c = .error .endOfInput c') : Delivers next c []
  | more {c c' : Console} {x : α} {xs : List α} (hnext : next c = .ok x c')
    (hrest : Delivers next c' xs) : Delivers next c (x :: xs)

/-- A reader on a stream with these lines. -/
def Reader.ofLines (ls : List String) : Reader := ⟨ls.map .line, false, false⟩

/-- These lines are to come after the current one: they were fed, or they are what a stream holds.
-/
def Source.Upcoming (s : Source) (ls : List String) : Prop :=
  s.pending = ls ∧ s.reader = none ∨ s.pending = [] ∧ s.reader = some (.ofLines ls)

namespace Reading

open ThreadedForth.Action

variable {α : Type} {take? : Source → Option (α × Source)} {host : Attendant} {c c' : Console}
  {s : Source} {line : String} {ls : List String}

/-- How the next line is begun. -/
theorem refill_of_upcoming (host : Attendant) (h : c.source.Upcoming (line :: ls)) :
    ∃ s, refill host c = .ok () { c with source := s } ∧ s.Upcoming ls ∧
      s.rest = line.toList ++ ['\n'] ∧ s.lineCount = c.source.lineCount + 1 := by
  rcases h with ⟨hpending, hreader⟩ | ⟨hpending, hreader⟩
  · exact ⟨_, refill_of_pending hpending, .inl ⟨rfl, hreader⟩, rfl, rfl⟩
  · refine ⟨{ c.source with reader := some (.ofLines ls) }.beginLine line, ?_,
      .inr ⟨hpending, rfl⟩, rfl, rfl⟩
    simp only [refill, bind_apply, get_apply, hpending, hreader, set_apply]
    rfl

/-- No line is begun where none is to come. -/
theorem refill_of_nothing (host : Attendant) (h : c.source.Upcoming []) :
    ∃ s, refill host c = .error .endOfInput { c with source := s } ∧ s.Upcoming [] ∧
      s.rest = c.source.rest ∧ s.lineCount = c.source.lineCount := by
  rcases h with ⟨hpending, hreader⟩ | ⟨hpending, hreader⟩
  · exact ⟨_, refill_at_end hpending hreader, .inl ⟨hpending, hreader⟩, rfl, rfl⟩
  · refine ⟨{ c.source with reader := some (.ofLines []) }, ?_, .inr ⟨hpending, rfl⟩, rfl, rfl⟩
    simp only [refill, bind_apply, get_apply, hpending, hreader, set_apply]
    rfl

/-! ## From line to line -/

section Lines

/-- The lines to seek in are those that are left, the current one included. -/
abbrev seekNext (host : Attendant) (take? : Source → Option (α × Source)) : Reading α :=
  fun c => seek host take? (c.source.linesLeft + 1) c

/-- Nothing is left to be taken in the current line, and the next one is begun. -/
theorem seekNext_of_refill (htake : take? c.source = none)
    (hrefill : refill host { c with source := c.source.skipLine } = .ok () c') :
    seekNext host take? c = seekNext host take? c' := by
  have hless : c'.source.linesLeft < c.source.linesLeft :=
    linesLeft_of_refill (c := { c with source := c.source.skipLine }) hrefill
  have hopen : seekNext host take? c = seek host take? c.source.linesLeft c' := by
    simp only [seekNext, seek, bind_apply, get_apply, htake, modify_apply, hrefill]
  rw [hopen]
  exact seek_of_bound hless (Nat.lt_succ_self _)

theorem Delivers.congr {next : Reading α} {xs : List α} (h : next c = next c')
    (hdelivers : Delivers next c' xs) : Delivers next c xs := by
  cases hdelivers with
  | done hend => exact .done (h.trans hend)
  | more hnext hrest => exact .more (h.trans hnext) hrest

/-- What is taken from a line, piece by piece. -/
structure Yields (take? : Source → Option (α × Source)) (yields : List Char → List α) : Prop where
  none : ∀ {s : Source}, take? s = none → yields s.rest = []
  some : ∀ {s s' : Source} {x : α}, take? s = some (x, s') →
    yields s.rest = x :: yields s'.rest ∧ s'.rest.length < s.rest.length ∧
      ∀ ls, s.Upcoming ls → s'.Upcoming ls

variable {yields : List Char → List α}

/-- The current line is taken first. -/
theorem delivers_rest (hyields : Yields take? yields) {xs : List α}
    (hxs : ∀ c : Console, c.source.Upcoming ls → take? c.source = none →
      Delivers (seekNext host take?) c xs) {c : Console} (h : c.source.Upcoming ls) :
    Delivers (seekNext host take?) c (yields c.source.rest ++ xs) := by
  induction hlength : c.source.rest.length using Nat.strong_induction_on generalizing c with
  | _ n ih =>
    cases htake : take? c.source with
    | none =>
      rw [hyields.none htake]
      exact hxs c h htake
    | some found =>
      obtain ⟨hfirst, hless, hupcoming⟩ := hyields.some htake
      rw [hfirst]
      exact .more (seek_of_take _ htake) (ih _ (hlength ▸ hless) (hupcoming ls h) rfl)

/-- **All lines are taken** in turn. -/
theorem delivers_lines (hyields : Yields take? yields) (host : Attendant)
    (h : c.source.Upcoming ls) :
    Delivers (seekNext host take?) c
      (yields c.source.rest ++ ls.flatMap fun l => yields (l.toList ++ ['\n'])) := by
  induction ls generalizing c with
  | nil =>
    refine delivers_rest hyields (fun c hc htake => ?_) h
    obtain ⟨s, hrefill, -⟩ :=
      refill_of_nothing (c := { c with source := c.source.skipLine }) host hc
    have hend : seekNext host take? c = .error .endOfInput { c with source := s } := by
      simp only [seekNext, seek, bind_apply, get_apply, htake, modify_apply, hrefill]
    exact .done hend
  | cons line ls ih =>
    refine delivers_rest hyields (fun c hc htake => ?_) h
    obtain ⟨s, hrefill, hupcoming, hrest, -⟩ :=
      refill_of_upcoming (c := { c with source := c.source.skipLine }) host hc
    rw [List.flatMap_cons, ← hrest]
    exact .congr (seekNext_of_refill htake hrefill) (ih hupcoming)

end Lines

/-! ## Lines without a token -/

/-- Whether a line holds no token. -/
def IsBlank (l : String) : Prop := ∀ x ∈ l.toList, Source.isDelimiter x = true

theorem seekNext_skipLine (htake : take? c.source = none)
    (hskip : take? c.source.skipLine = none) :
    seekNext host take? c = seekNext host take? { c with source := c.source.skipLine } := by
  have htwice : c.source.skipLine.skipLine = c.source.skipLine := by simp [Source.skipLine]
  simp only [seekNext, seek, bind_apply, get_apply, htake, hskip, modify_apply, htwice]
  rfl

/-- A line without a token is passed over. -/
theorem nextToken_pass {blanks : List String} (hrest : ∀ x ∈ c.source.rest, Source.isDelimiter x = true)
    (hblanks : ∀ l ∈ blanks, IsBlank l) (hp : c.source.pending = blanks ++ ls) :
    ∃ s : Source, s.rest = [] ∧ s.pending = ls ∧ s.reader = c.source.reader ∧
      s.lineCount = c.source.lineCount + blanks.length ∧
      ∀ host, nextToken host c = nextToken host { c with source := s } := by
  induction blanks generalizing c with
  | nil =>
    have htake := Source.takeToken?_of_delimiters hrest
    have hskip : c.source.skipLine.takeToken? = none :=
      Source.takeToken?_of_delimiters (List.forall_mem_nil _)
    exact ⟨c.source.skipLine, rfl, hp, rfl, rfl, fun host => seekNext_skipLine htake hskip⟩
  | cons l blanks ih =>
    obtain ⟨hl, hblanks⟩ := List.forall_mem_cons.mp hblanks
    have hline : ∀ x ∈ l.toList ++ ['\n'], Source.isDelimiter x = true := by
      intro x hx
      rcases List.mem_append.mp hx with hx | hx
      · exact hl x hx
      · rw [List.mem_singleton.mp hx]
        rfl
    let begun : Console :=
      { c with source := { c.source.skipLine with pending := blanks ++ ls }.beginLine l }
    obtain ⟨s, hs, hpending, hreader, hcount, hnext⟩ := ih (c := begun) hline hblanks rfl
    refine ⟨s, hs, hpending, hreader, ?_, fun host => ?_⟩
    · rw [hcount, List.length_cons]
      show c.source.lineCount + 1 + blanks.length = _
      omega
    · have hrefill : refill host { c with source := c.source.skipLine } = .ok () begun :=
        refill_of_pending hp
      exact (seekNext_of_refill (Source.takeToken?_of_delimiters hrest) hrefill).trans (hnext host)

/-! ## Characters and tokens -/

theorem yields_chars : Yields Source.takeChar? id where
  none {s} h := by
    rw [Source.takeChar?] at h
    cases hrest : s.rest with
    | nil => rfl
    | cons x xs =>
      rw [hrest] at h
      cases h
  some {s s' x} h := by
    rw [Source.takeChar?] at h
    cases hrest : s.rest with
    | nil =>
      rw [hrest] at h
      cases h
    | cons y ys =>
      rw [hrest] at h
      cases h
      exact ⟨rfl, Nat.lt_succ_self _, fun _ h => h⟩

/-- The tokens of a line. -/
def tokensOf (cs : List Char) : List String :=
  (Text.tokens Source.isDelimiter cs).map String.ofList

theorem yields_tokens : Yields Source.takeToken? tokensOf where
  none {s} h := by
    simp only [Source.takeToken?, List.span_eq_takeWhile_dropWhile] at h
    split at h
    · next htoken =>
      rw [tokensOf, Text.tokens_of_no_token (List.isEmpty_iff.mp htoken)]
      rfl
    · cases h
  some {s s' x} h := by
    simp only [Source.takeToken?, List.span_eq_takeWhile_dropWhile] at h
    split at h
    · cases h
    · next htoken =>
      cases h
      have hne : (s.rest.dropWhile Source.isDelimiter).takeWhile (! Source.isDelimiter ·) ≠ [] :=
        fun hnil => htoken (hnil ▸ rfl)
      refine ⟨?_, ?_, fun _ h => h⟩
      · rw [tokensOf, ← Text.tokens_dropWhile, Text.tokens_takeWhile hne]
        rfl
      · have hlength := congrArg List.length (List.takeWhile_append_dropWhile
          (p := (! Source.isDelimiter ·)) (l := s.rest.dropWhile Source.isDelimiter))
        have hdrop := (List.dropWhile_suffix Source.isDelimiter (l := s.rest)).length_le
        have htoken := List.length_pos_iff.mpr hne
        rw [List.length_append] at hlength
        show ((s.rest.dropWhile Source.isDelimiter).dropWhile _).length < s.rest.length
        omega

/-- **The characters that are delivered** are those of the lines. -/
theorem delivers_chars (host : Attendant) (h : c.source.Upcoming ls) :
    Delivers (nextChar host) c
      (c.source.rest ++ Text.joined (ls.map String.toList)) := by
  have hlines := delivers_lines yields_chars host h
  rw [Text.joined, List.flatMap_map]
  exact hlines

/-- **The tokens that are delivered** are those of the lines. -/
theorem delivers_tokens (host : Attendant) (h : c.source.Upcoming ls) :
    Delivers (nextToken host) c
      (tokensOf c.source.rest ++ tokensOf (Text.joined (ls.map String.toList))) := by
  have hlines := delivers_lines yields_tokens host h
  rw [tokensOf, tokensOf, Text.tokens_joined rfl, List.flatMap_map, List.map_flatMap]
  exact hlines

end Reading

end ThreadedForth
