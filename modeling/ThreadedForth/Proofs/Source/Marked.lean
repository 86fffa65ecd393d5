import ThreadedForth.Proofs.Machine.Lockstep
import ThreadedForth.Proofs.Source.Holding

/-!
# The same text up to a mark

Two consoles that hold the same text up to a mark, and different texts behind it
(`Console.UpToMark`). As long as nothing behind the mark is read from the console on the left, the
same is taken from both (`Console.UpToMark.feed`). What has appeared before the user since some
moment is the same as well.
-/

namespace ThreadedForth

open ThreadedForth.Action ThreadedForth.Source

/-- These texts may follow a mark: none on either side, or some on both, and on the right a token
does not go on across the mark. -/
def Marks (u v : List Char) : Prop :=
  u = [] ∧ v = [] ∨ u ≠ [] ∧ ∃ d v', v = d :: v' ∧ isDelimiter d = true

/-- Two consoles at the same place, with the same to come up to a mark. Then the first text is left
on the left, and the second one on the right. The same has appeared on both since they showed these
pieces. -/
structure Console.UpToMark (u v : List Char) (p p' : List (Voice × String)) (c c' : Console) :
    Prop where
  holds : ∃ pre, c.source.Holds (pre ++ u) ∧ c'.source.Holds (pre ++ v)
  fresh : c'.source.rest = [] ↔ c.source.rest = []
  shown : ∃ new, c.transcript.pieces = new ++ p ∧ c'.transcript.pieces = new ++ p'

/-- More was read than is left behind the mark. -/
def Source.Past (u : List Char) (s : Source) : Prop :=
  ∃ text, s.Holds text ∧ text.length < u.length

variable {u v : List Char} {p p' : List (Voice × String)} {c c' : Console} {s : Source}

/-- What is left behind a mark is left behind all that comes before. -/
theorem exists_of_append_eq {pre cs more : List Char} (h : pre ++ u = cs ++ more)
    (hlength : u.length ≤ more.length) : ∃ rest, more = rest ++ u ∧ pre = cs ++ rest := by
  obtain ⟨rest, rfl⟩ : u <:+ more :=
    List.suffix_of_suffix_length_le ⟨pre, h⟩ (List.suffix_append ..) hlength
  rw [← List.append_assoc, List.append_cancel_right_eq] at h
  exact ⟨rest, rfl, h⟩

namespace Console.UpToMark

theorem writes (voice : Voice) (text : String) (h : UpToMark u v p p' c c') :
    UpToMark u v p p' { c with transcript := c.transcript.write voice text }
      { c' with transcript := c'.transcript.write voice text } := by
  obtain ⟨hholds, hfresh, new, hleft, hright⟩ := h
  exact ⟨hholds, hfresh, (voice, text) :: new, congrArg ((voice, text) :: ·) hleft,
    congrArg ((voice, text) :: ·) hright⟩

theorem skips (h : UpToMark u v p p' c c') :
    c.source.skipLine.Past u ∨ UpToMark u v p p' { c with source := c.source.skipLine }
      { c' with source := c'.source.skipLine } := by
  obtain ⟨⟨pre, hleft, hright⟩, hfresh, hshown⟩ := h
  by_cases hrest : c.source.rest = []
  · exact .inr ⟨⟨pre, hleft.skipLine_of_fresh hrest, hright.skipLine_of_fresh (hfresh.mpr hrest)⟩,
      Iff.rfl, hshown⟩
  · obtain ⟨line, more, hline, htext⟩ := hleft.exists_line hrest
    have hskip := (htext ▸ hleft).skipLine hline hrest
    rcases Nat.lt_or_ge more.length u.length with hlt | hge
    · exact .inl ⟨more, hskip, hlt⟩
    · rw [← List.singleton_append, ← List.append_assoc] at htext
      obtain ⟨pre', rfl, rfl⟩ := exists_of_append_eq htext hge
      rw [List.append_assoc, List.append_assoc, List.singleton_append] at hright
      exact .inr ⟨⟨pre', hskip, hright.skipLine hline (mt hfresh.mp hrest)⟩, Iff.rfl, hshown⟩

theorem chars (hmarks : Marks u v) (h : UpToMark u v p p' c c') (host host' : Attendant) :
    Locked (fun c => c.source.Past u) (UpToMark u v p p') (fun _ => UpToMark u v p p')
      (Reading.nextChar host c) (Reading.nextChar host' c') := by
  obtain ⟨⟨pre, hleft, hright⟩, hfresh, hshown⟩ := h
  cases pre with
  | cons x pre =>
    obtain ⟨s, hnext, hs, hrest⟩ := hleft.nextChar host
    obtain ⟨s', hnext', hs', hrest'⟩ := hright.nextChar host'
    rw [hnext, hnext']
    exact .inr (.ok ⟨⟨pre, hs, hs'⟩, hrest'.trans hrest.symm, hshown⟩)
  | nil =>
    rcases hmarks with ⟨rfl, rfl⟩ | ⟨hne, -⟩
    · obtain ⟨s, hnext, hs⟩ := hleft.no_nextChar host
      obtain ⟨s', hnext', hs'⟩ := hright.no_nextChar host'
      rw [hnext, hnext']
      exact .inr (.error ⟨⟨[], hs, hs'⟩, iff_of_true hs'.rest_eq_nil hs.rest_eq_nil, hshown⟩)
    · obtain ⟨x, u, rfl⟩ := List.exists_cons_of_ne_nil hne
      obtain ⟨s, hnext, hs, -⟩ := hleft.nextChar host
      rw [hnext]
      exact .inl ⟨u, hs, Nat.lt_succ_self _⟩

theorem tokens (hmarks : Marks u v) (h : UpToMark u v p p' c c') (host host' : Attendant) :
    Locked (fun c => c.source.Past u) (UpToMark u v p p') (fun _ => UpToMark u v p p')
      (Reading.nextToken host c) (Reading.nextToken host' c') := by
  obtain ⟨⟨pre, hleft, hright⟩, hfresh, hshown⟩ := h
  rcases hleft.lined.exists_token with hall | ⟨gap, token, d, more, htext, hgap, htoken, hd⟩
  · obtain ⟨s, hnext, hs⟩ := hleft.no_nextToken host hall
    rw [hnext]
    rcases hmarks with ⟨rfl, rfl⟩ | ⟨hne, -⟩
    · obtain ⟨s', hnext', hs'⟩ := hright.no_nextToken host' hall
      rw [hnext']
      exact .inr (.error ⟨⟨[], hs, hs'⟩, iff_of_true hs'.rest_eq_nil hs.rest_eq_nil, hshown⟩)
    · exact .inl (.inr ⟨[], hs, List.length_pos_iff.mpr hne⟩)
  · obtain ⟨s, hnext, hs, hrest⟩ := (htext ▸ hleft).nextToken host hgap htoken hd
    rw [hnext]
    rcases Nat.lt_or_ge (d :: more).length u.length with hlt | hge
    · exact .inl ⟨_, hs, hlt⟩
    · rw [← List.append_assoc] at htext
      obtain ⟨pre', hmore, rfl⟩ := exists_of_append_eq htext hge
      rw [List.append_assoc, List.append_assoc] at hright
      -- on the right, too, a delimiter comes behind the token, before the mark or behind it
      obtain ⟨e, rest, hrest', he⟩ : ∃ e rest, pre' ++ v = e :: rest ∧ isDelimiter e = true := by
        cases pre' with
        | cons e pre' =>
          obtain ⟨rfl, -⟩ := List.cons.inj hmore
          exact ⟨_, _, rfl, hd⟩
        | nil =>
          rcases hmarks with ⟨rfl, rfl⟩ | ⟨-, e, v', rfl, he⟩
          · cases hmore
          · exact ⟨e, v', rfl, he⟩
      rw [hrest'] at hright
      obtain ⟨s', hnext', hs', hrest₂⟩ := hright.nextToken host' hgap htoken he
      rw [hnext']
      exact .inr (.ok ⟨⟨pre', hmore ▸ hs, hrest' ▸ hs'⟩, iff_of_false hrest₂ hrest, hshown⟩)

end Console.UpToMark

/-! ## Behind the mark -/

namespace Source.Past

theorem skips (h : s.Past u) : s.skipLine.Past u := by
  obtain ⟨text, hs, hlt⟩ := h
  by_cases hrest : s.rest = []
  · exact ⟨text, hs.skipLine_of_fresh hrest, hlt⟩
  · obtain ⟨line, more, hline, rfl⟩ := hs.exists_line hrest
    refine ⟨more, hs.skipLine hline hrest, ?_⟩
    rw [List.length_append, List.length_cons] at hlt
    omega

theorem chars (h : c.source.Past u) (host : Attendant) :
    Gone (fun c => c.source.Past u) (Reading.nextChar host c) := by
  obtain ⟨text, hs, hlt⟩ := h
  cases text with
  | nil =>
    obtain ⟨s, hnext, hs'⟩ := hs.no_nextChar host
    rw [hnext]
    exact .inr ⟨[], hs', hlt⟩
  | cons x more =>
    obtain ⟨s, hnext, hs', -⟩ := hs.nextChar host
    rw [hnext]
    exact ⟨more, hs', Nat.lt_of_succ_lt hlt⟩

theorem tokens (h : c.source.Past u) (host : Attendant) :
    Gone (fun c => c.source.Past u) (Reading.nextToken host c) := by
  obtain ⟨text, hs, hlt⟩ := h
  rcases hs.lined.exists_token with hall | ⟨gap, token, d, more, rfl, hgap, htoken, hd⟩
  · obtain ⟨s, hnext, hs'⟩ := hs.no_nextToken host hall
    rw [hnext]
    exact .inr ⟨[], hs', Nat.zero_lt_of_lt hlt⟩
  · obtain ⟨s, hnext, hs', -⟩ := hs.nextToken host hgap htoken hd
    rw [hnext]
    refine ⟨d :: more, hs', ?_⟩
    rw [List.length_append, List.length_append] at hlt
    omega

end Source.Past

/-- Consoles from which the same is taken up to a mark. -/
def markedFeed (hmarks : Marks u v) (p p' : List (Voice × String)) : Feed where
  rel := Console.UpToMark u v p p'
  lost := Source.Past u
  hosts _ _ := True
  writes voice text h := h.writes voice text
  skips h := h.skips
  tokens _ h := h.tokens hmarks _ _
  chars _ h := h.chars hmarks _ _
  lost_skips h := h.skips
  lost_tokens host _ h := h.tokens host
  lost_chars host _ h := h.chars host

/-- Machines that are the same but for what they hold behind a mark, and for what had appeared. -/
def marked (hmarks : Marks u v) (p p' : List (Voice × String)) : Coupling :=
  .withReturns (markedFeed hmarks p p') (fun _ _ => true) (fun _ _ => True) (fun _ _ _ _ => trivial)
    fun _ _ _ _ _ => trivial

end ThreadedForth
