import ThreadedForth.Proofs.Source.Account

/-!
# Lines that were fed

What is read from the current line and from the lines that were fed, as one sequence of characters
with a line feed after each line (`Source.fed`). As long as it lasts, the reader is not asked
(`Reading.passes_of_fed`, `Reading.nextToken_of_fed`).

Behind it the reader may give more, until the input ends. If it gives no line with a certain
character before (`Reader.Lacks`), then this character is not read (`Reading.delivers_of_lacks`).
-/

namespace ThreadedForth

open ThreadedForth.Action

/-- The characters that are left of the current line and of the lines that were fed. -/
def Source.fed (s : Source) : List Char := s.rest ++ Source.Taking.text s.pending

theorem Source.Taking.text_cons (l : String) (ls : List String) :
    text (l :: ls) = l.toList ++ '\n' :: text ls := by
  simp [text, Text.joined]

namespace Reading

variable {host : Attendant} {c : Console} {x d : Char} {xs more gap token : List Char}

/-! ## Characters and tokens of fed lines -/

/-- Where the current line is used up, the next one is begun. -/
theorem seekNext_of_pending {α : Type} {take? : Source → Option (α × Source)} {l : String}
    {ls : List String} (htake : take? c.source = none) (hp : c.source.pending = l :: ls) :
    ∃ s : Source, (∀ host, seekNext host take? c = seekNext host take? { c with source := s }) ∧
      s.rest = l.toList ++ ['\n'] ∧ s.pending = ls ∧ s.reader = c.source.reader :=
  ⟨_, fun _ => seekNext_of_refill htake (refill_of_pending hp), rfl, rfl, rfl⟩

/-- The next character is the first one of those that were fed. -/
theorem nextChar_of_fed (hfed : c.source.fed = x :: more) :
    ∃ s, (∀ host, nextChar host c = .ok x { c with source := s }) ∧ s.fed = more ∧
      s.reader = c.source.reader := by
  have hline {c : Console} {y : Char} {rest : List Char} (hrest : c.source.rest = y :: rest)
      (hfed : c.source.fed = x :: more) :
      ∃ s, (∀ host, nextChar host c = .ok x { c with source := s }) ∧ s.fed = more ∧
        s.reader = c.source.reader := by
    obtain ⟨rfl, hmore⟩ : y = x ∧ rest ++ Source.Taking.text c.source.pending = more := by
      simpa [Source.fed, hrest] using hfed
    have htake : c.source.takeChar? =
        some (y, { c.source with taken := y :: c.source.taken, rest := rest }) := by
      rw [Source.takeChar?, hrest]
    exact ⟨_, fun host => seek_of_take _ htake, hmore, rfl⟩
  cases hrest : c.source.rest with
  | cons y rest => exact hline hrest hfed
  | nil =>
    have htake : c.source.takeChar? = none := by rw [Source.takeChar?, hrest]
    rw [Source.fed, hrest, List.nil_append] at hfed
    cases hp : c.source.pending with
    | nil => simp [hp, Source.Taking.text, Text.joined] at hfed
    | cons l ls =>
      obtain ⟨s₁, hbegin, hrest₁, hpending₁, hreader₁⟩ := seekNext_of_pending htake hp
      have hfed₁ : s₁.fed = x :: more := by
        rw [← hfed, Source.fed, hrest₁, hpending₁, hp, Source.Taking.text_cons]
        simp
      obtain ⟨y, rest, hfirst⟩ : ∃ y rest, s₁.rest = y :: rest :=
        List.exists_cons_of_ne_nil (by simp [hrest₁])
      obtain ⟨s, hnext, hmore, hreader⟩ := hline (c := { c with source := s₁ }) hfirst hfed₁
      exact ⟨s, fun host => (hbegin host).trans (hnext host), hmore, hreader.trans hreader₁⟩

/-- Fed characters are taken one after the other. -/
theorem passes_of_fed (hfed : c.source.fed = xs ++ more) :
    ∃ s, (∀ host, Passes (nextChar host) c xs { c with source := s }) ∧ s.fed = more ∧
      s.reader = c.source.reader := by
  induction xs generalizing c with
  | nil => exact ⟨c.source, fun _ => .nil c, hfed, rfl⟩
  | cons x xs ih =>
    obtain ⟨s₁, hnext, hfed₁, hreader₁⟩ := nextChar_of_fed hfed
    obtain ⟨s, hrest, hmore, hreader⟩ := ih (c := { c with source := s₁ }) hfed₁
    exact ⟨s, fun host => .cons (hnext host) (hrest host), hmore, hreader.trans hreader₁⟩

/-- A token that begins on a line ends there, since the line ends in a delimiter. -/
theorem rest_of_text {rest tail : List Char} (hended : ∀ y ∈ rest.getLast?, y = '\n')
    (htext : rest ++ tail = gap ++ (token ++ d :: more)) (htoken : Source.IsToken token)
    (hlength : gap.length < rest.length) :
    ∃ rest', rest = gap ++ (token ++ d :: rest') ∧ rest' ++ tail = more := by
  have hrest : rest <+: rest ++ tail := List.prefix_append ..
  have hgap : gap <+: rest ++ tail := ⟨_, htext.symm⟩
  have hboth : gap ++ token <+: rest ++ tail := ⟨d :: more, by rw [htext, List.append_assoc]⟩
  have hlt : (gap ++ token).length < rest.length := by
    by_contra hge
    -- the line feed would belong to the token
    obtain ⟨v, hv⟩ := List.prefix_of_prefix_length_le hrest hboth (Nat.le_of_not_lt hge)
    obtain ⟨u, hu⟩ := List.prefix_of_prefix_length_le hgap hrest (Nat.le_of_lt hlength)
    obtain rfl : u ++ v = token := by
      rwa [← hu, List.append_assoc, List.append_cancel_left_eq] at hv
    have hne : u ≠ [] := by
      rintro rfl
      simp [← hu] at hlength
    have hend : u.getLast hne = '\n' := hended _ (by
      rw [← hu, List.getLast?_append, List.getLast?_eq_some_getLast hne]
      rfl)
    have hnone := htoken.2 _ (List.mem_append_left v (List.getLast_mem hne))
    rw [hend] at hnone
    exact absurd hnone (by decide)
  obtain ⟨w, hw⟩ := List.prefix_of_prefix_length_le hboth hrest (Nat.le_of_lt hlt)
  rw [← hw, List.append_assoc, List.append_assoc, List.append_cancel_left_eq,
    List.append_cancel_left_eq] at htext
  cases w with
  | nil => simp [← hw] at hlt
  | cons y rest' =>
    obtain ⟨rfl, hmore⟩ := List.cons.inj htext
    exact ⟨rest', by rw [← hw, List.append_assoc], hmore⟩

/-- The next token is the first one of the fed lines. The delimiter behind it is left. -/
theorem nextToken_of_fed (hended : c.source.LineEnded)
    (hfed : c.source.fed = gap ++ (token ++ d :: more))
    (hgap : ∀ y ∈ gap, Source.isDelimiter y = true) (htoken : Source.IsToken token)
    (hd : Source.isDelimiter d = true) :
    ∃ s, (∀ host, nextToken host c = .ok (String.ofList token) { c with source := s }) ∧
      s.fed = d :: more ∧ s.reader = c.source.reader := by
  have hline {c : Console} {gap : List Char} (hended : c.source.LineEnded)
      (hfed : c.source.fed = gap ++ (token ++ d :: more))
      (hgap : ∀ y ∈ gap, Source.isDelimiter y = true)
      (hlength : gap.length < c.source.rest.length) :
      ∃ s, (∀ host, nextToken host c = .ok (String.ofList token) { c with source := s }) ∧
        s.fed = d :: more ∧ s.reader = c.source.reader := by
    obtain ⟨rest, hrest, hmore⟩ := rest_of_text hended hfed htoken hlength
    have htake := Source.takeToken?_of_rest hrest hgap htoken (by simpa [Source.Delimited] using hd)
    exact ⟨_, fun host => seek_of_take _ htake, congrArg (d :: ·) hmore, rfl⟩
  induction hpending : c.source.pending generalizing c gap with
  | nil =>
    refine hline hended hfed hgap ?_
    have hrest : c.source.rest = gap ++ (token ++ d :: more) := by
      simpa [Source.fed, hpending, Source.Taking.text, Text.joined] using hfed
    rw [hrest, List.length_append, List.length_append, List.length_cons]
    omega
  | cons l ls ih =>
    by_cases hlength : gap.length < c.source.rest.length
    · exact hline hended hfed hgap hlength
    · -- the line holds nothing but delimiters
      obtain ⟨gap', rfl⟩ : c.source.rest <+: gap := List.prefix_of_prefix_length_le
        (List.prefix_append ..) ⟨_, hfed.symm⟩ (Nat.le_of_not_lt hlength)
      have htake := Source.takeToken?_of_delimiters fun y hy => hgap y (List.mem_append_left _ hy)
      obtain ⟨s₁, hbegin, hrest₁, hpending₁, hreader₁⟩ := seekNext_of_pending htake hpending
      have hfed₁ : s₁.fed = gap' ++ (token ++ d :: more) := by
        rw [Source.fed, List.append_assoc, List.append_cancel_left_eq, hpending,
          Source.Taking.text_cons] at hfed
        rw [← hfed, Source.fed, hrest₁, hpending₁, List.append_assoc, List.singleton_append]
      have hended₁ : s₁.LineEnded := by
        intro y hy
        simpa [hrest₁, eq_comm] using hy
      obtain ⟨s, hnext, hmore, hreader⟩ := ih (c := { c with source := s₁ }) hended₁ hfed₁
        (fun y hy => hgap y (List.mem_append_right _ hy)) hpending₁
      exact ⟨s, fun host => (hbegin host).trans (hnext host), hmore, hreader.trans hreader₁⟩

end Reading

/-! ## The end of the input -/

/-- Up to the end of the input, none of the lines that a reader gives has this character. -/
def Reader.Lacks (attended : Bool) (host : Attendant) (x : Char) : List Entry → Prop
  | [] | .close :: _ => True
  | .interrupt :: es => Lacks attended host x es
  | .line l :: es =>
    match if attended then host.answer l else none with
    | none => x ∉ l.toList ∧ Lacks attended host x es
    | some (.ok _) => Lacks attended host x es
    | some (.error stop) => stop = .endOfInput

/-- This character does not come before the input ends. -/
structure Source.Lacks (host : Attendant) (x : Char) (s : Source) : Prop where
  fed : x ∉ s.fed
  reader : ∀ r, s.reader = some r → Reader.Lacks r.attended host x r.entries

/-- A reader that is asked gives a line without the character, or the input is at its end. -/
theorem Reader.lacks_deliver {r : Reader} {host : Attendant} {x : Char} {es : List Entry}
    {t : Transcript} (h : Lacks r.attended host x es) :
    match (r.deliver host es t).outcome with
    | .ok l => x ∉ l.toList ∧ Lacks r.attended host x (r.deliver host es t).entries
    | .error stop => stop = .endOfInput := by
  induction es generalizing t with
  | nil => rfl
  | cons e es ih =>
    cases e with
    | close => rfl
    | interrupt => exact ih h
    | line l =>
      rw [Lacks] at h
      rw [deliver]
      cases hanswer : (if r.attended then host.answer l else none) with
      | none =>
        rw [hanswer] at h
        exact h
      | some outcome =>
        rw [hanswer] at h
        cases outcome with
        | ok report => exact ih h
        | error stop => exact h

namespace Reading

variable {host : Attendant} {c : Console} {x : Char}

/-- A line is begun that lacks the character like those that come after it, or there is none. -/
theorem lacks_refill (hx : x ≠ '\n') (h : c.source.Lacks host x) (hrest : c.source.rest = []) :
    match refill host c with
    | .ok _ c' => c'.source.Lacks host x
    | .error stop _ => stop = .endOfInput := by
  cases hp : c.source.pending with
  | cons l ls =>
    rw [refill_of_pending hp]
    refine ⟨?_, h.reader⟩
    have hfed := h.fed
    rw [Source.fed, hrest, List.nil_append, hp, Source.Taking.text_cons] at hfed
    simpa [Source.fed, Source.beginLine] using hfed
  | nil =>
    cases hr : c.source.reader with
    | none =>
      rw [refill_at_end hp hr]
    | some r =>
      have hdeliver := Reader.lacks_deliver (t := c.transcript) (h.reader r hr)
      rw [refill_of_reader hp hr]
      dsimp only
      cases hd : (r.deliver host r.entries c.transcript).outcome with
      | ok l =>
        rw [hd] at hdeliver
        refine ⟨?_, ?_⟩
        · have hl := hdeliver.1
          simpa [Source.fed, Source.beginLine, hp, hx, Source.Taking.text, Text.joined] using hl
        · rintro r' ⟨⟩
          exact hdeliver.2
      | error stop =>
        rw [hd] at hdeliver
        exact hdeliver

/-- The characters up to the end of the input are without this one. -/
theorem delivers_of_lacks (hx : x ≠ '\n') (h : c.source.Lacks host x) :
    ∃ xs, Delivers (nextChar host) c xs ∧ x ∉ xs := by
  -- the lines are used up one by one, and each of them character by character
  induction hlines : c.source.linesLeft using Nat.strong_induction_on generalizing c with
  | _ n ih =>
    induction hrest : c.source.rest generalizing c with
    | nil =>
      have htake : c.source.takeChar? = none := by rw [Source.takeChar?, hrest]
      have hskip : c.source.skipLine.Lacks host x := by
        refine ⟨fun hmem => h.fed ?_, h.reader⟩
        rw [Source.fed, hrest]
        exact hmem
      have hrefill := lacks_refill (c := { c with source := c.source.skipLine }) hx hskip rfl
      cases hrun : refill host { c with source := c.source.skipLine } with
      | ok _ c₁ =>
        rw [hrun] at hrefill
        have hfewer := linesLeft_of_refill (c := { c with source := c.source.skipLine }) hrun
        obtain ⟨xs, hdelivers, hxs⟩ := ih _ (hlines ▸ hfewer) hrefill rfl
        exact ⟨xs, .congr (seekNext_of_refill htake hrun) hdelivers, hxs⟩
      | error stop c₁ =>
        rw [hrun] at hrefill
        obtain rfl := hrefill
        have hend : seekNext host Source.takeChar? c = .error .endOfInput c₁ := by
          simp only [seekNext, seek, bind_apply, get_apply, htake, modify_apply, hrun]
        exact ⟨[], .done hend, List.not_mem_nil⟩
    | cons y rest ih' =>
      have htake : c.source.takeChar? =
          some (y, { c.source with taken := y :: c.source.taken, rest := rest }) := by
        rw [Source.takeChar?, hrest]
      have hfed := h.fed
      rw [Source.fed, hrest, List.cons_append, List.mem_cons, not_or] at hfed
      obtain ⟨xs, hdelivers, hxs⟩ := ih'
        (c := { c with source := { c.source with taken := y :: c.source.taken, rest := rest } })
        ⟨hfed.2, h.reader⟩ hlines rfl
      exact ⟨y :: xs, .more (seek_of_take _ htake) hdelivers,
        fun hmem => (List.mem_cons.mp hmem).elim hfed.1 hxs⟩

end Reading

end ThreadedForth
