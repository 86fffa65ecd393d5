import ThreadedForth.Proofs.Source.Fed

/-!
# The text that a source holds

Where the lines to come were fed, or are all that a stream holds, a source holds one text: what is
left of the line at hand, and each line after it with its line feed (`Source.Holds`). Characters and
tokens are taken from the front of this text, across the ends of lines (`Source.Holds.nextChar`,
`Source.Holds.nextToken`). All that can be seen of the lines besides is whether one is at hand, for
only then there is a rest to be dropped (`Source.Holds.skipLine`).

A text that ends in a line feed can be held in either way (`Source.exists_holds`).
-/

namespace ThreadedForth

open ThreadedForth.Action

namespace Source

/-- What may be left of a line: nothing, or some of its characters and its line feed. -/
def LineRest (cs : List Char) : Prop := cs = [] ∨ ∃ line, '\n' ∉ line ∧ cs = line ++ ['\n']

/-- This text is left of the line at hand and of those to come. -/
structure Holds (s : Source) (text : List Char) : Prop where
  line : LineRest s.rest
  lines : ∃ ls, s.Upcoming ls ∧ (∀ l ∈ ls, '\n' ∉ l.toList) ∧ text = s.rest ++ Taking.text ls

/-- A text whose last line has its line feed. -/
def Lined (text : List Char) : Prop := ∀ x ∈ text.getLast?, x = '\n'

variable {s : Source} {text more gap token cs ds : List Char} {x d : Char} {ls : List String}

/-! ## Lines -/

theorem LineRest.lined (h : LineRest cs) : Lined cs := by
  rcases h with rfl | ⟨line, -, rfl⟩
  · simp [Lined]
  · simp [Lined, eq_comm]

theorem LineRest.of_append (h : LineRest (cs ++ ds)) : LineRest ds := by
  rcases h with hnil | ⟨line, hline, heq⟩
  · exact .inl (List.append_eq_nil_iff.mp hnil).2
  · rcases List.append_eq_append_iff.mp heq with ⟨line', rfl, rfl⟩ | ⟨more, rfl, hmore⟩
    · exact .inr ⟨line', fun h => hline (List.mem_append_right _ h), rfl⟩
    · rcases List.singleton_eq_append_iff.mp hmore with ⟨-, rfl⟩ | ⟨-, rfl⟩
      · exact .inr ⟨[], List.not_mem_nil, rfl⟩
      · exact .inl rfl

theorem LineRest.of_line {line : List Char} (h : '\n' ∉ line) : LineRest (line ++ ['\n']) :=
  .inr ⟨line, h, rfl⟩

/-- The line feed is the last character of a line. -/
theorem LineRest.cons_iff (h : LineRest (x :: cs)) : cs = [] ↔ x = '\n' := by
  rcases h with hnil | ⟨line, hline, heq⟩
  · cases hnil
  · cases line with
    | nil => simp_all
    | cons y line =>
      obtain ⟨rfl, rfl⟩ := List.cons.inj heq
      have hy : x ≠ '\n' := fun h => hline (h ▸ List.mem_cons_self ..)
      simp [hy]

/-- A text comes apart at its first line feed in one way. -/
theorem line_inj {line line' more' : List Char} (hline : '\n' ∉ line) (hline' : '\n' ∉ line')
    (h : line ++ '\n' :: more = line' ++ '\n' :: more') : line = line' ∧ more = more' := by
  rcases List.append_eq_append_iff.mp h with ⟨cs, rfl, hcs⟩ | ⟨cs, rfl, hcs⟩
  · cases cs with
    | nil => simpa using hcs
    | cons x cs =>
      obtain ⟨rfl, -⟩ := List.cons.inj hcs
      exact absurd (List.mem_append_right _ (List.mem_cons_self ..)) hline'
  · cases cs with
    | nil => simpa [eq_comm] using hcs
    | cons x cs =>
      obtain ⟨rfl, -⟩ := List.cons.inj hcs
      exact absurd (List.mem_append_right _ (List.mem_cons_self ..)) hline

theorem Lined.of_append (h : Lined (cs ++ ds)) : Lined ds := by
  intro y hy
  refine h y ?_
  rw [List.getLast?_append, Option.mem_def.mp hy]
  rfl

theorem Lined.append (cs : List Char) (h : Lined ds) (hne : ds ≠ []) : Lined (cs ++ ds) := by
  intro y hy
  rw [List.getLast?_append, List.getLast?_eq_some_getLast hne] at hy
  exact h y (List.getLast?_eq_some_getLast hne ▸ hy)

theorem Lined.tail (h : Lined (x :: cs)) : Lined cs :=
  of_append (show Lined ([x] ++ cs) from h)

/-- A text comes in lines. -/
theorem Lined.exists_lines (h : Lined text) :
    ∃ ls : List String, (∀ l ∈ ls, '\n' ∉ l.toList) ∧ Taking.text ls = text := by
  induction text with
  | nil => exact ⟨[], by simp, rfl⟩
  | cons x cs ih =>
    obtain ⟨ls, hls, rfl⟩ := ih h.tail
    by_cases hx : x = '\n'
    · subst hx
      refine ⟨"" :: ls, List.forall_mem_cons.mpr ⟨by simp, hls⟩, ?_⟩
      rw [Taking.text_cons]
      rfl
    · cases ls with
      | nil => exact absurd (h x rfl) hx
      | cons l ls =>
        obtain ⟨hl, hls⟩ := List.forall_mem_cons.mp hls
        refine ⟨String.ofList (x :: l.toList) :: ls, List.forall_mem_cons.mpr ⟨?_, hls⟩, ?_⟩
        · simpa [hl] using fun h => hx h.symm
        · rw [Taking.text_cons, Taking.text_cons, String.toList_ofList, List.cons_append]

/-- A text that ends in a line feed has a first token, unless it is all delimiters. -/
theorem Lined.exists_token (h : Lined text) :
    (∀ y ∈ text, isDelimiter y = true) ∨
      ∃ gap token d more, text = gap ++ (token ++ d :: more) ∧
        (∀ y ∈ gap, isDelimiter y = true) ∧ IsToken token ∧ isDelimiter d = true := by
  induction text with
  | nil => exact .inl (by simp)
  | cons x cs ih =>
    cases hx : isDelimiter x with
    | true =>
      rcases ih h.tail with hall | ⟨gap, token, d, more, rfl, hgap, htoken, hd⟩
      · exact .inl (List.forall_mem_cons.mpr ⟨hx, hall⟩)
      · exact .inr ⟨x :: gap, token, d, more, rfl, List.forall_mem_cons.mpr ⟨hx, hgap⟩, htoken, hd⟩
    | false =>
      right
      rcases ih h.tail with hall | ⟨gap, token, d, more, rfl, hgap, htoken, hd⟩
      · cases cs with
        | nil =>
          obtain rfl := h x rfl
          exact absurd hx (by decide)
        | cons y cs =>
          exact ⟨[], [x], y, cs, rfl, by simp, ⟨by simp, by simpa using hx⟩,
            hall y (List.mem_cons_self ..)⟩
      · cases gap with
        | nil =>
          refine ⟨[], x :: token, d, more, rfl, by simp, ⟨by simp, ?_⟩, hd⟩
          exact List.forall_mem_cons.mpr ⟨hx, htoken.2⟩
        | cons y gap =>
          exact ⟨[], [x], y, gap ++ (token ++ d :: more), rfl, by simp,
            ⟨by simp, by simpa using hx⟩, hgap y (List.mem_cons_self ..)⟩

namespace Holds

theorem lined (h : s.Holds text) : Lined text := by
  obtain ⟨ls, -, -, rfl⟩ := h.lines
  exact LineEnded.append_text h.line.lined ls

/-- A source holds one text. -/
theorem unique {text' : List Char} (h : s.Holds text) (h' : s.Holds text') : text' = text := by
  obtain ⟨ls, hls, -, rfl⟩ := h.lines
  obtain ⟨ls', hls', -, rfl⟩ := h'.lines
  have hsame : ls' = ls := by
    rcases hls with ⟨hp, hr⟩ | ⟨hp, hr⟩ <;> rcases hls' with ⟨hp', hr'⟩ | ⟨hp', hr'⟩
    · exact hp'.symm.trans hp
    · cases hr.symm.trans hr'
    · cases hr.symm.trans hr'
    · have hreader := Option.some.inj (hr.symm.trans hr')
      have hentries := congrArg Reader.entries hreader
      exact ((List.map_inj_right fun _ _ => Entry.line.inj).mp hentries).symm
  rw [hsame]

/-- Nothing is held that is not at hand or to come. -/
theorem rest_eq_nil (h : s.Holds []) : s.rest = [] := by
  obtain ⟨ls, -, -, htext⟩ := h.lines
  exact (List.append_eq_nil_iff.mp htext.symm).1

/-- Where no line is at hand, there is no rest to be dropped. -/
theorem skipLine_of_fresh (h : s.Holds text) (hrest : s.rest = []) : s.skipLine.Holds text := by
  obtain ⟨ls, hls, hlines, htext⟩ := h.lines
  exact ⟨.inl rfl, ls, hls, hlines, by rw [htext, hrest]; rfl⟩

/-- Of the line at hand its line feed is left at least. -/
theorem exists_line (h : s.Holds text) (hrest : s.rest ≠ []) :
    ∃ line more, '\n' ∉ line ∧ text = line ++ '\n' :: more := by
  obtain ⟨ls, -, -, rfl⟩ := h.lines
  obtain ⟨line, hline, heq⟩ := h.line.resolve_left hrest
  exact ⟨line, Taking.text ls, hline, by rw [heq, List.append_assoc]; rfl⟩

/-- The rest of the line at hand is dropped. -/
theorem skipLine {line : List Char} (h : s.Holds (line ++ '\n' :: more)) (hline : '\n' ∉ line)
    (hrest : s.rest ≠ []) : s.skipLine.Holds more := by
  obtain ⟨ls, hls, hlines, htext⟩ := h.lines
  obtain ⟨line', hline', heq⟩ := h.line.resolve_left hrest
  rw [heq, List.append_assoc, List.singleton_append] at htext
  obtain ⟨-, rfl⟩ := line_inj hline hline' htext
  exact ⟨.inl rfl, ls, hls, hlines, rfl⟩

/-- What is left of the line at hand, and the lines that were fed. -/
theorem of_reader (hreader : s.reader = none) (hline : LineRest s.rest)
    (hlines : ∀ l ∈ s.pending, '\n' ∉ l.toList) : s.Holds (s.rest ++ Taking.text s.pending) :=
  ⟨hline, s.pending, .inl ⟨rfl, hreader⟩, hlines, rfl⟩

end Holds

/-- A text of whole lines can be held, with its first line at hand or not. -/
theorem exists_holds (h : Lined text) (fresh : Prop) (hne : ¬ fresh → text ≠ []) :
    ∃ s : Source, s.Holds text ∧ (s.rest = [] ↔ fresh) := by
  obtain ⟨ls, hls, rfl⟩ := h.exists_lines
  by_cases hfresh : fresh
  · exact ⟨{ pending := ls }, ⟨.inl rfl, ls, .inl ⟨rfl, rfl⟩, hls, rfl⟩, by simp [hfresh]⟩
  · cases ls with
    | nil => exact absurd rfl (hne hfresh)
    | cons l ls =>
      obtain ⟨hl, hls⟩ := List.forall_mem_cons.mp hls
      refine ⟨{ rest := l.toList ++ ['\n'], pending := ls },
        ⟨.of_line hl, ls, .inl ⟨rfl, rfl⟩, hls, ?_⟩, by simp [hfresh]⟩
      rw [Taking.text_cons, List.append_assoc]
      rfl

end Source

/-! ## Taking from the text -/

namespace Source.Holds

open Reading

variable {α : Type} {take? : Source → Option (α × Source)} {c : Console} {x d : Char}
  {text more gap token : List Char} {ls : List String}

/-- Where nothing more is found on the line at hand, the next one is begun. -/
theorem begins {l : String} (host : Attendant) (htake : take? c.source = none)
    (hls : c.source.Upcoming (l :: ls)) :
    ∃ s, seekNext host take? c = seekNext host take? { c with source := s } ∧ s.Upcoming ls ∧
      s.rest = l.toList ++ ['\n'] := by
  obtain ⟨s, hrefill, hs, hrest, -⟩ :=
    refill_of_upcoming (c := { c with source := c.source.skipLine }) host hls
  exact ⟨s, seekNext_of_refill htake hrefill, hs, hrest⟩

/-- Where nothing more is found on the last line, the input is at its end. -/
theorem runsOut (host : Attendant) (htake : take? c.source = none) (hls : c.source.Upcoming []) :
    ∃ s, seekNext host take? c = .error .endOfInput { c with source := s } ∧ s.Holds [] := by
  obtain ⟨s, hrefill, hs, hrest, -⟩ :=
    refill_of_nothing (c := { c with source := c.source.skipLine }) host hls
  have hnone : s.rest = [] := hrest
  refine ⟨s, ?_, .inl hnone, [], hs, by simp, by rw [hnone]; rfl⟩
  simp only [seekNext, seek, bind_apply, get_apply, htake, modify_apply, hrefill]

/-- The first character is taken. With the line feed, the line at hand is used up. -/
theorem nextChar (host : Attendant) (h : c.source.Holds (x :: more)) :
    ∃ s, Reading.nextChar host c = .ok x { c with source := s } ∧ s.Holds more ∧
      (s.rest = [] ↔ x = '\n') := by
  obtain ⟨hline, ls, hls, hlines, htext⟩ := h
  have honLine {c : Console} {ls : List String} {y : Char} {rest : List Char}
      (hrest : c.source.rest = y :: rest) (hline : LineRest c.source.rest)
      (hls : c.source.Upcoming ls) (hlines : ∀ l ∈ ls, '\n' ∉ l.toList)
      (htext : x :: more = c.source.rest ++ Taking.text ls) :
      ∃ s, Reading.nextChar host c = .ok x { c with source := s } ∧ s.Holds more ∧
        (s.rest = [] ↔ x = '\n') := by
    rw [hrest] at hline htext
    obtain ⟨rfl, rfl⟩ := List.cons.inj htext
    have htake : c.source.takeChar? =
        some (x, { c.source with taken := x :: c.source.taken, rest := rest }) := by
      rw [takeChar?, hrest]
    exact ⟨_, seek_of_take _ htake,
      ⟨.of_append (show LineRest ([x] ++ rest) from hline), ls, hls, hlines, rfl⟩, hline.cons_iff⟩
  cases hrest : c.source.rest with
  | cons y rest => exact honLine hrest hline hls hlines htext
  | nil =>
    rw [hrest, List.nil_append] at htext
    cases ls with
    | nil => cases htext
    | cons l ls =>
      obtain ⟨hl, hlines⟩ := List.forall_mem_cons.mp hlines
      have htake : c.source.takeChar? = none := by rw [takeChar?, hrest]
      obtain ⟨s, hbegin, hs, hsrest⟩ := begins host htake hls
      obtain ⟨y, rest, hfirst⟩ : ∃ y rest, s.rest = y :: rest :=
        List.exists_cons_of_ne_nil (by simp [hsrest])
      obtain ⟨s', hnext, hs'⟩ := honLine (c := { c with source := s }) hfirst
        (hsrest ▸ .of_line hl) hs hlines
        (by rw [htext, Taking.text_cons]; simp [hsrest])
      exact ⟨s', hbegin.trans hnext, hs'⟩

/-- There is no character where nothing is held. -/
theorem no_nextChar (host : Attendant) (h : c.source.Holds []) :
    ∃ s, Reading.nextChar host c = .error .endOfInput { c with source := s } ∧ s.Holds [] := by
  obtain ⟨ls, hls, -, htext⟩ := h.lines
  have hrest := h.rest_eq_nil
  cases ls with
  | nil => exact runsOut host (by rw [takeChar?, hrest]) hls
  | cons l ls =>
    rw [Taking.text_cons] at htext
    simp at htext

/-- The first token is taken, and the delimiter behind it is at hand. -/
theorem nextToken (host : Attendant) (h : c.source.Holds (gap ++ (token ++ d :: more)))
    (hgap : ∀ y ∈ gap, isDelimiter y = true) (htoken : IsToken token)
    (hd : isDelimiter d = true) :
    ∃ s, Reading.nextToken host c = .ok (String.ofList token) { c with source := s } ∧
      s.Holds (d :: more) ∧ s.rest ≠ [] := by
  obtain ⟨hline, ls, hls, hlines, htext⟩ := h
  induction ls generalizing c gap with
  | nil =>
    rw [show Taking.text [] = [] from rfl, List.append_nil] at htext
    have htake := takeToken?_of_rest htext.symm hgap htoken (by simpa [Delimited] using hd)
    refine ⟨_, seek_of_take _ htake, ⟨?_, [], hls, hlines, (List.append_nil _).symm⟩, by simp⟩
    rw [← htext, ← List.append_assoc] at hline
    exact hline.of_append
  | cons l ls ih =>
    by_cases hlength : gap.length < c.source.rest.length
    · obtain ⟨rest, hrest, rfl⟩ := rest_of_text hline.lined htext.symm htoken hlength
      have htake := takeToken?_of_rest hrest hgap htoken (by simpa [Delimited] using hd)
      refine ⟨_, seek_of_take _ htake, ⟨?_, l :: ls, hls, hlines, rfl⟩, by simp⟩
      rw [hrest, ← List.append_assoc] at hline
      exact hline.of_append
    · -- the line holds nothing but delimiters
      obtain ⟨gap', rfl⟩ : c.source.rest <+: gap := List.prefix_of_prefix_length_le
        ⟨_, htext.symm⟩ (List.prefix_append ..) (Nat.le_of_not_lt hlength)
      have htake := takeToken?_of_delimiters fun y hy => hgap y (List.mem_append_left _ hy)
      obtain ⟨s, hbegin, hs, hsrest⟩ := begins host htake hls
      obtain ⟨hl, hlines⟩ := List.forall_mem_cons.mp hlines
      rw [List.append_assoc, List.append_cancel_left_eq, Taking.text_cons] at htext
      obtain ⟨s', hnext, hs'⟩ := ih (c := { c with source := s })
        (fun y hy => hgap y (List.mem_append_right _ hy)) (hsrest ▸ .of_line hl) hs hlines
        (by rw [htext]; simp [hsrest])
      exact ⟨s', hbegin.trans hnext, hs'⟩

/-- There is no token among delimiters. -/
theorem no_nextToken (host : Attendant) (h : c.source.Holds text)
    (hall : ∀ y ∈ text, isDelimiter y = true) :
    ∃ s, Reading.nextToken host c = .error .endOfInput { c with source := s } ∧ s.Holds [] := by
  obtain ⟨hline, ls, hls, hlines, rfl⟩ := h
  have htake := takeToken?_of_delimiters (s := c.source) fun y hy =>
    hall y (List.mem_append_left _ hy)
  induction ls generalizing c with
  | nil => exact runsOut host htake hls
  | cons l ls ih =>
    obtain ⟨s, hbegin, hs, hsrest⟩ := begins host htake hls
    obtain ⟨hl, hlines⟩ := List.forall_mem_cons.mp hlines
    have hall' : ∀ y ∈ s.rest ++ Taking.text ls, isDelimiter y = true := by
      intro y hy
      refine hall y (List.mem_append_right _ ?_)
      rw [Taking.text_cons]
      rw [hsrest, List.append_assoc] at hy
      exact hy
    obtain ⟨s', hnext, hs'⟩ := ih (c := { c with source := s }) (hsrest ▸ .of_line hl) hs hlines
      hall' (takeToken?_of_delimiters fun y hy => hall' y (List.mem_append_left _ hy))
    exact ⟨s', hbegin.trans hnext, hs'⟩

end Source.Holds

end ThreadedForth
