import ThreadedForth.Proofs.Source.Delivery

/-!
# The tokens that are to come

Without a reader, the tokens that can be taken from a source are those of the line at hand and of
the fed lines (`Source.tokensToCome`). The next one is the first of them
(`Reading.nextToken_of_tokens`), or none if there are none (`Reading.nextToken_of_no_tokens`). A
text that is fed to a source brings its own (`Session.tokensOfText`).
-/

namespace ThreadedForth

/-- The tokens of the line at hand and of the fed lines. -/
def Source.tokensToCome (s : Source) : List String :=
  Reading.tokensOf s.rest ++ s.pending.flatMap fun l => Reading.tokensOf (l.toList ++ ['\n'])

namespace Reading

variable {c : Console} {token : String} {tokens : List String}

/-- A token that the line at hand holds is the first of those that are to come. -/
theorem tokensToCome_of_take {s : Source} (htake : c.source.takeToken? = some (token, s)) :
    s.reader = c.source.reader ∧ c.source.tokensToCome = token :: s.tokensToCome := by
  obtain ⟨hreader, hpending⟩ := takeToken?_byLine.keeps htake
  refine ⟨hreader, ?_⟩
  rw [Source.tokensToCome, Source.tokensToCome, (yields_tokens.some htake).1, hpending,
    List.cons_append]

/-- Where the line at hand holds no token, the next line is begun. -/
theorem nextToken_of_line {line : String} {lines : List String}
    (htake : c.source.takeToken? = none) (hpending : c.source.pending = line :: lines) :
    ∃ s : Source, s.pending = lines ∧ s.reader = c.source.reader ∧
      s.tokensToCome = c.source.tokensToCome ∧
      ∀ host, nextToken host c = nextToken host { c with source := s } := by
  let s := { c.source.skipLine with pending := lines }.beginLine line
  refine ⟨s, rfl, rfl, ?_, fun host => ?_⟩
  · rw [Source.tokensToCome, Source.tokensToCome, yields_tokens.none htake, hpending,
      List.flatMap_cons]
    rfl
  · have hrefill : refill host { c with source := c.source.skipLine } =
        .ok () { c with source := s } := refill_of_pending hpending
    exact seekNext_of_refill htake hrefill

/-- The token that the line at hand holds is the next one. -/
theorem nextToken_of_take {found : String × Source} (hreader : c.source.reader = none)
    (h : c.source.tokensToCome = token :: tokens) (htake : c.source.takeToken? = some found) :
    ∃ s : Source, s.reader = none ∧ s.tokensToCome = tokens ∧
      ∀ host, nextToken host c = .ok token { c with source := s } := by
  obtain ⟨hkeeps, hcoming⟩ := tokensToCome_of_take htake
  obtain ⟨rfl, rfl⟩ := List.cons.inj (h.symm.trans hcoming)
  exact ⟨found.2, hkeeps.trans hreader, rfl, fun host => seek_of_take _ htake⟩

/-- The next token is the first of those that are to come. -/
theorem nextToken_of_tokens (hreader : c.source.reader = none)
    (h : c.source.tokensToCome = token :: tokens) :
    ∃ s : Source, s.reader = none ∧ s.tokensToCome = tokens ∧
      ∀ host, nextToken host c = .ok token { c with source := s } := by
  induction hpending : c.source.pending generalizing c with
  | nil =>
    cases htake : c.source.takeToken? with
    | some found => exact nextToken_of_take hreader h htake
    | none =>
      rw [Source.tokensToCome, yields_tokens.none htake, hpending] at h
      cases h
  | cons line lines ih =>
    cases htake : c.source.takeToken? with
    | some found => exact nextToken_of_take hreader h htake
    | none =>
      obtain ⟨s, hlines, hkeeps, hcoming, hbegun⟩ := nextToken_of_line htake hpending
      obtain ⟨s', hs', htokens, hnext⟩ :=
        ih (c := { c with source := s }) (hkeeps.trans hreader) (hcoming.trans h) hlines
      exact ⟨s', hs', htokens, fun host => (hbegun host).trans (hnext host)⟩

/-- Where no token is to come, there is no next one. -/
theorem nextToken_of_no_tokens (hreader : c.source.reader = none) (h : c.source.tokensToCome = []) :
    ∃ s : Source, ∀ host, nextToken host c = .error .endOfInput { c with source := s } := by
  have hnone {c : Console} (h : c.source.tokensToCome = []) : c.source.takeToken? = none := by
    cases htake : c.source.takeToken? with
    | none => rfl
    | some found => cases h.symm.trans (tokensToCome_of_take htake).2
  induction hpending : c.source.pending generalizing c with
  | nil => exact ⟨c.source.skipLine, fun host => seek_at_end _ (hnone h) hpending hreader⟩
  | cons line lines ih =>
    obtain ⟨s, hlines, hkeeps, hcoming, hbegun⟩ := nextToken_of_line (hnone h) hpending
    obtain ⟨s', hnext⟩ :=
      ih (c := { c with source := s }) (hkeeps.trans hreader) (hcoming.trans h) hlines
    exact ⟨s', fun host => (hbegun host).trans (hnext host)⟩

end Reading

/-- The tokens of a text that is fed. -/
def Session.tokensOfText (text : String) : List String :=
  (Text.lines text).flatMap fun l => Reading.tokensOf (l.toList ++ ['\n'])

/-- A text that is one token brings this token. -/
theorem Session.tokensOfText_of_token {token : String} (htoken : Source.IsToken token.toList)
    (hline : Text.OneLine token) : tokensOfText token = [token] := by
  have htokens : Text.tokens Source.isDelimiter (token.toList ++ ['\n']) = [token.toList] := by
    rw [Text.tokens_append_cons token.toList [] rfl, Text.tokens_of_token htoken.1 htoken.2]
    rfl
  simp [tokensOfText, Text.lines_of_oneLine htoken.1 hline, Reading.tokensOf, htokens]

/-- A text that is fed to a source without anything left brings its tokens. -/
theorem Source.tokensToCome_feed {s : Source} (h : s.hasPending = false) (text : String) :
    (s.feed text).tokensToCome = Session.tokensOfText text := by
  obtain ⟨hpending, hrest⟩ : s.pending = [] ∧ s.rest = [] := by simpa [hasPending] using h
  have hfed : (s.feed text).pending = Text.lines text := by simp [feed, feedLines, hpending]
  have hempty : (s.feed text).rest = [] := hrest
  rw [tokensToCome, hfed, hempty]
  rfl

end ThreadedForth
