import Mathlib.Data.List.TakeDrop
import Mathlib.Data.List.TakeWhile
import ThreadedForth.Machine.Thread
import ThreadedForth.Proofs.Machine.Triple

/-!
# Reading a line

What the words get that take from the input: the next token of the line that is at hand
(`Action.nextToken_of_rest`) or of the one that was fed next (`Action.nextToken_of_pending`), and
nothing once the lines are used up (`Action.nextToken_at_end`). A text without line ends is one line
(`Text.lines_of_oneLine`).

Reading stops at the end of the input, or where a host that attends to the reader stops instead of
answering a line (`Reading.nextToken_stops`, `Reading.nextChar_stops`). Without a reader nothing is
left then (`Reading.ensures_seek_alone`).
-/

namespace ThreadedForth

namespace Source

/-- These characters make a token: there are some, and none of them separates tokens. -/
def IsToken (cs : List Char) : Prop := cs ≠ [] ∧ ∀ c ∈ cs, isDelimiter c = false

instance (cs : List Char) : Decidable (IsToken cs) :=
  have := List.decidableBAll (fun c => isDelimiter c = false) cs
  instDecidableAnd

/-- A token that stands before these characters ends there. -/
def Delimited (cs : List Char) : Prop := ∀ c ∈ cs.head?, isDelimiter c = true

variable {s : Source} {gap token rest : List Char}

/-- Past delimiters a token is taken up to the next delimiter. -/
theorem takeToken?_of_rest (hs : s.rest = gap ++ (token ++ rest))
    (hgap : ∀ c ∈ gap, isDelimiter c = true) (htoken : IsToken token) (hrest : Delimited rest) :
    s.takeToken? = some (String.ofList token,
      { s with taken := token.reverse ++ (gap.reverse ++ s.taken), rest := rest }) := by
  obtain ⟨hne, hall⟩ := htoken
  have hgap' : s.rest.span isDelimiter = (gap, token ++ rest) := by
    rw [List.span_eq_takeWhile_dropWhile, hs, List.takeWhile_append_of_pos hgap,
      List.dropWhile_append_of_pos hgap]
    cases token with
    | nil => exact absurd rfl hne
    | cons c cs =>
      have hc := hall c (List.mem_cons_self ..)
      simp [hc]
  have htoken' : (token ++ rest).span (! isDelimiter ·) = (token, rest) := by
    have hpos : ∀ c ∈ token, (! isDelimiter c) = true := fun c hc => by rw [hall c hc]; rfl
    rw [List.span_eq_takeWhile_dropWhile, List.takeWhile_append_of_pos hpos,
      List.dropWhile_append_of_pos hpos]
    cases rest with
    | nil => simp
    | cons c cs =>
      have hc : isDelimiter c = true := hrest c rfl
      simp [hc]
  have hempty : token.isEmpty = false := by simpa using hne
  simp only [takeToken?, hgap', htoken', hempty]
  rfl

/-- Delimiters alone hold no token. -/
theorem takeToken?_of_delimiters (hs : ∀ c ∈ s.rest, isDelimiter c = true) :
    s.takeToken? = none := by
  have hspan : s.rest.span isDelimiter = (s.rest, []) := by
    rw [List.span_eq_takeWhile_dropWhile, List.takeWhile_eq_self_iff.mpr hs,
      List.dropWhile_eq_nil_iff.mpr hs]
  simp only [takeToken?, hspan]
  rfl

end Source

namespace Reading

open ThreadedForth.Action

variable {α : Type} {host : Attendant} {take? : Source → Option (α × Source)} {c : Console}
  {s : Source} {x : α} {line : String} {lines : List String}

/-- What is sought is taken from the line that is at hand. -/
theorem seek_of_take (bound : Nat) (h : take? c.source = some (x, s)) :
    seek host take? (bound + 1) c = .ok x { c with source := s } := by
  simp only [seek, bind_apply, get_apply, h, modify_apply, pure_apply]

/-- The next line is a fed one. -/
theorem refill_of_pending (hp : c.source.pending = line :: lines) :
    refill host c = .ok () { c with
      source := { c.source with pending := lines }.beginLine line } := by
  simp [refill, bind_apply, hp]

/-- There is no next line. -/
theorem refill_at_end (hp : c.source.pending = []) (hr : c.source.reader = none) :
    refill host c = .error .endOfInput c := by
  simp [refill, bind_apply, hp, hr]

/-- The line that is at hand is used up, and the next one is begun. -/
theorem seek_of_pending (host : Attendant) (bound : Nat) (h : take? c.source = none)
    (hp : c.source.pending = line :: lines) :
    seek host take? (bound + 1) c =
      seek host take? bound { c with
        source := { c.source.skipLine with pending := lines }.beginLine line } := by
  have hrefill : refill host { c with source := c.source.skipLine } =
      .ok () { c with source := { c.source.skipLine with pending := lines }.beginLine line } :=
    refill_of_pending hp
  simp [seek, bind_apply, h, hrefill]

/-- The line that is at hand is used up, and there is no other. -/
theorem seek_at_end (bound : Nat) (h : take? c.source = none) (hp : c.source.pending = [])
    (hr : c.source.reader = none) :
    seek host take? (bound + 1) c = .error .endOfInput { c with source := c.source.skipLine } := by
  have hrefill : refill host { c with source := c.source.skipLine } =
      .error .endOfInput { c with source := c.source.skipLine } := refill_at_end hp hr
  simp [seek, bind_apply, h, hrefill]

/-- These are taken one after the other, and then this console is left. -/
inductive Passes (next : Reading α) : Console → List α → Console → Prop
  | nil (c : Console) : Passes next c [] c
  | cons {c c₁ c' : Console} {x : α} {xs : List α} (hnext : next c = .ok x c₁)
      (rest : Passes next c₁ xs c') : Passes next c (x :: xs) c'

/-- The next characters are those of the line that is at hand. -/
theorem passes_of_rest (host : Attendant) {cs rest : List Char} (hs : c.source.rest = cs ++ rest) :
    Passes (nextChar host) c cs { c with
      source := { c.source with taken := cs.reverse ++ c.source.taken, rest := rest } } := by
  induction cs generalizing c with
  | nil =>
    have hsame : { c with source := { c.source with taken := c.source.taken, rest := rest } } = c :=
      by rw [← List.nil_append rest, ← hs]
    rw [List.reverse_nil, List.nil_append, hsame]
    exact .nil c
  | cons x cs ih =>
    have htake : c.source.takeChar? = some (x,
        { c.source with taken := x :: c.source.taken, rest := cs ++ rest }) := by
      rw [Source.takeChar?, hs]
      rfl
    have hrest := ih (c := { c with
      source := { c.source with taken := x :: c.source.taken, rest := cs ++ rest } }) rfl
    rw [List.reverse_cons, List.append_assoc]
    exact .cons (seek_of_take _ htake) hrest

/-! ## Why reading stops -/

/-- The host attends to the reader. -/
def Attended (c : Console) : Prop := ∃ r, c.source.reader = some r ∧ r.attended = true

/-- Reading stops at the end of the input, or with the host. -/
def StopsWith (host : Attendant) (attended : Prop) (stop : Stop) : Prop :=
  stop = .endOfInput ∨ attended ∧ ∃ line, host.answer line = some (.error stop)

theorem deliver_stops {r : Reader} {es : List Entry} {t : Transcript} {stop : Stop}
    (h : (r.deliver host es t).outcome = .error stop) :
    StopsWith host (r.attended = true) stop := by
  induction es generalizing t with
  | nil => exact .inl (Except.error.inj h).symm
  | cons e es ih =>
    cases e with
    | close => exact .inl (Except.error.inj h).symm
    | interrupt => exact ih h
    | line l =>
      rw [Reader.deliver] at h
      cases hattended : r.attended with
      | false =>
        rw [hattended] at h
        cases h
      | true =>
        rw [hattended, if_pos rfl] at h
        cases hanswer : host.answer l with
        | none =>
          rw [hanswer] at h
          cases h
        | some outcome =>
          rw [hanswer] at h
          cases outcome with
          | ok report => exact hattended ▸ ih h
          | error stop' =>
            cases h
            exact .inr ⟨rfl, l, hanswer⟩

section Stopping

variable {attended : Prop} {r : Reader} {stop : Stop}

theorem set_apply (c c' : Console) : (set c' : Reading PUnit) c = .ok ⟨⟩ c' := rfl

/-- The reader gives no line. -/
theorem refill_of_error (hp : c.source.pending = []) (hr : c.source.reader = some r)
    (hd : (r.deliver host r.entries c.transcript).outcome = .error stop) :
    ∃ c', refill host c = .error stop c' := by
  simp only [refill, bind_apply, get_apply, hp, hr, set_apply, hd]
  exact ⟨_, rfl⟩

/-- The reader gives the next line, and is still the same. -/
theorem refill_of_ok (hp : c.source.pending = []) (hr : c.source.reader = some r)
    (hd : (r.deliver host r.entries c.transcript).outcome = .ok line) :
    ∃ entries c', refill host c = .ok () c' ∧
      c'.source.reader = some { r with entries := entries } := by
  simp only [refill, bind_apply, get_apply, hp, hr, set_apply, hd]
  exact ⟨_, _, rfl, rfl⟩

theorem ensures_refill (host : Attendant) :
    Ensures (fun c => Attended c → attended) (refill host) (fun _ c => Attended c → attended)
      (fun stop _ => StopsWith host attended stop) := by
  intro c hc
  cases hp : c.source.pending with
  | cons line lines =>
    rw [refill_of_pending hp]
    exact hc
  | nil =>
    cases hr : c.source.reader with
    | none =>
      rw [refill_at_end hp hr]
      exact .inl rfl
    | some r =>
      have hattended : r.attended = true → attended := fun h => hc ⟨r, hr, h⟩
      cases hd : (r.deliver host r.entries c.transcript).outcome with
      | error stop =>
        obtain ⟨c', hrefill⟩ := refill_of_error hp hr hd
        rw [hrefill]
        exact (deliver_stops hd).imp id fun ⟨h, hanswer⟩ => ⟨hattended h, hanswer⟩
      | ok line =>
        obtain ⟨entries, c', hrefill, hreader⟩ := refill_of_ok hp hr hd
        rw [hrefill]
        rintro ⟨r', hr', h⟩
        obtain rfl := Option.some.inj (hreader.symm.trans hr')
        exact hattended h

theorem ensures_seek (host : Attendant) (take? : Source → Option (α × Source)) (bound : Nat) :
    Ensures (fun c => Attended c → attended) (seek host take? bound) (fun _ _ => True)
      (fun stop _ => StopsWith host attended stop) := by
  induction bound with
  | zero => exact ensures_throw fun _ _ => .inl rfl
  | succ n ih =>
    refine ensures_get_bind fun c hc => ?_
    cases take? c.source with
    | some found =>
      exact (ensures_modify (Q := fun _ _ => True) fun _ _ => trivial).bind fun _ =>
        ensures_pure fun _ _ => trivial
    | none =>
      refine (ensures_modify (Q := fun _ c' => Attended c' → attended) ?_).bind fun _ =>
        (ensures_refill host).bind fun _ => ih
      rintro c' rfl
      exact hc

/-- Why there is no next token. -/
theorem nextToken_stops {c' : Console} (h : nextToken host c = .error stop c') :
    StopsWith host (Attended c) stop := by
  have hseek := ensures_seek host Source.takeToken? (c.source.linesLeft + 1) c id
  have hsame : nextToken host c = seek host Source.takeToken? (c.source.linesLeft + 1) c := rfl
  rw [← hsame, h] at hseek
  exact hseek

/-- Why there is no next character. -/
theorem nextChar_stops {c' : Console} (h : nextChar host c = .error stop c') :
    StopsWith host (Attended c) stop := by
  have hseek := ensures_seek host Source.takeChar? (c.source.linesLeft + 1) c id
  have hsame : nextChar host c = seek host Source.takeChar? (c.source.linesLeft + 1) c := rfl
  rw [← hsame, h] at hseek
  exact hseek

end Stopping

/-! ## Reading without a reader -/

section Alone

/-- What is taken depends on what is left of the current line, and nothing else of the source is
changed: some of it is taken and some is left. -/
def ByLine (take? : Source → Option (α × Source)) : Prop :=
  ∃ split : List Char → Option (α × List Char × List Char), ∀ s : Source, take? s =
    (split s.rest).map fun found =>
      (found.1, { s with taken := found.2.1 ++ s.taken, rest := found.2.2 })

theorem takeToken?_byLine : ByLine Source.takeToken? := by
  refine ⟨fun cs =>
    let rest := cs.dropWhile Source.isDelimiter
    let token := rest.takeWhile (! Source.isDelimiter ·)
    if token.isEmpty then none
    else some (String.ofList token, token.reverse ++ (cs.takeWhile Source.isDelimiter).reverse,
      rest.dropWhile (! Source.isDelimiter ·)), fun s => ?_⟩
  simp only [Source.takeToken?, List.span_eq_takeWhile_dropWhile]
  split
  · rfl
  · rw [Option.map_some, List.append_assoc]

theorem takeChar?_byLine : ByLine Source.takeChar? := by
  refine ⟨fun cs => cs.head?.map fun c => (c, [c], cs.tail), fun s => ?_⟩
  rw [Source.takeChar?]
  cases s.rest <;> rfl

theorem ByLine.keeps (htake : ByLine take?) {s' : Source} (h : take? s = some (x, s')) :
    s'.reader = s.reader ∧ s'.pending = s.pending := by
  obtain ⟨split, hsplit⟩ := htake
  rw [hsplit] at h
  obtain ⟨found, -, hfound⟩ := Option.map_eq_some_iff.mp h
  cases hfound
  exact ⟨rfl, rfl⟩

/-- Without a reader, reading stops at the end of the input only, where nothing is left. -/
theorem ensures_seek_alone (htake : ByLine take?) (host : Attendant) (bound : Nat) :
    Ensures (fun c => c.source.reader = none ∧ c.source.pending.length < bound)
      (seek host take? bound) (fun _ c => c.source.reader = none)
      (fun stop c => c.source.reader = none ∧ stop = .endOfInput ∧
        c.source.hasPending = false) := by
  induction bound with
  | zero => exact ensures_throw fun c hc => absurd hc.2 (Nat.not_lt_zero _)
  | succ n ih =>
    rintro c ⟨hreader, hlength⟩
    cases hfound : take? c.source with
    | some found =>
      rw [seek_of_take n hfound]
      exact (htake.keeps hfound).1.trans hreader
    | none =>
      cases hpending : c.source.pending with
      | nil =>
        rw [seek_at_end n hfound hpending hreader]
        exact ⟨hreader, rfl, by simp [Source.hasPending, Source.skipLine, hpending]⟩
      | cons line lines =>
        rw [seek_of_pending host n hfound hpending]
        rw [hpending, List.length_cons] at hlength
        exact ih _ ⟨hreader, Nat.lt_of_succ_lt_succ hlength⟩

end Alone

end Reading

namespace Action

open Source

variable {m : Machine} {gap token rest : List Char} {line : String} {lines : List String}

/-- The next token is taken from the line that is at hand. -/
theorem nextToken_of_rest (hr : m.console.source.rest = gap ++ (token ++ rest))
    (hgap : ∀ c ∈ gap, isDelimiter c = true) (htoken : IsToken token) (hrest : Delimited rest) :
    nextToken m = .ok (String.ofList token) { m with
      console := { m.console with
        source := { m.console.source with
          taken := token.reverse ++ (gap.reverse ++ m.console.source.taken), rest := rest } } } := by
  have htake := takeToken?_of_rest hr hgap htoken hrest
  have hread (host : Attendant) : Reading.nextToken host m.console =
      .ok (String.ofList token) { m.console with
        source := { m.console.source with
          taken := token.reverse ++ (gap.reverse ++ m.console.source.taken), rest := rest } } :=
    Reading.seek_of_take _ htake
  simp only [nextToken, bind_apply, get_apply, onConsole, hread]

/-- The next token is taken from the line that was fed next. -/
theorem nextToken_of_pending (hr : ∀ c ∈ m.console.source.rest, isDelimiter c = true)
    (hp : m.console.source.pending = line :: lines)
    (hline : line.toList ++ ['\n'] = gap ++ (token ++ rest))
    (hgap : ∀ c ∈ gap, isDelimiter c = true) (htoken : IsToken token) (hrest : Delimited rest) :
    ∃ s, nextToken m = .ok (String.ofList token) { m with
        console := { m.console with source := s } } ∧
      s.rest = rest ∧ s.pending = lines ∧ s.reader = m.console.source.reader := by
  let begun := { m.console.source.skipLine with pending := lines }.beginLine line
  have htake := takeToken?_of_rest (s := begun) hline hgap htoken hrest
  obtain ⟨left, hleft⟩ : ∃ left, m.console.source.linesLeft = left + 1 :=
    ⟨m.console.source.linesLeft - 1, by rw [linesLeft, hp, List.length_cons]; omega⟩
  have hread (host : Attendant) : Reading.nextToken host m.console =
      .ok (String.ofList token) { m.console with
        source := { begun with taken := token.reverse ++ (gap.reverse ++ begun.taken),
                               rest := rest } } := by
    have hseek := Reading.seek_of_pending host (left + 1) (takeToken?_of_delimiters hr) hp
    rw [Reading.seek_of_take left htake] at hseek
    rw [← hseek, ← hleft]
    rfl
  refine ⟨{ begun with
    taken := token.reverse ++ (gap.reverse ++ begun.taken), rest := rest }, ?_, rfl, rfl, rfl⟩
  simp only [nextToken, bind_apply, get_apply, onConsole, hread]

/-- There is no next token once the line is used up and no other is to come. -/
theorem nextToken_at_end (hr : ∀ c ∈ m.console.source.rest, isDelimiter c = true)
    (hp : m.console.source.pending = []) (hreader : m.console.source.reader = none) :
    nextToken m = .error .endOfInput { m with
      console := { m.console with source := m.console.source.skipLine } } := by
  -- the host has no part in it, since there is no reader
  have hread (host : Attendant) : Reading.nextToken host m.console =
      .error .endOfInput { m.console with source := m.console.source.skipLine } :=
    Reading.seek_at_end _ (takeToken?_of_delimiters hr) hp hreader
  simp only [nextToken, bind_apply, get_apply, onConsole, hread]

end Action

namespace Text

/-- Characters that end no line go in front of the first line of what follows. -/
theorem splitLines_append {cs : List Char} (ds : List Char) (hne : cs ≠ [])
    (hcs : ∀ c ∈ cs, CharSet.lineEnds.contains c = false) :
    splitLines (cs ++ ds) = (cs ++ (splitLines ds).headD []) :: (splitLines ds).tail := by
  induction cs with
  | nil => exact absurd rfl hne
  | cons c cs ih =>
    have hc := hcs c (List.mem_cons_self ..)
    have hnot : c ≠ '\r' := by
      rintro rfl
      exact absurd hc (by decide)
    rw [List.cons_append, splitLines]
    · rw [if_neg (by simp [hc])]
      cases cs with
      | nil => cases hds : splitLines ds <;> simp [hds]
      | cons d cs =>
        rw [ih (by simp) fun x hx => hcs x (List.mem_cons_of_mem _ hx)]
        rfl
    · rintro - rfl
      exact absurd rfl hnot

theorem splitLines_of_one_line {cs : List Char} (hne : cs ≠ [])
    (hcs : ∀ c ∈ cs, CharSet.lineEnds.contains c = false) : splitLines cs = [cs] := by
  simpa [splitLines] using splitLines_append [] hne hcs

/-- A text without line ends. -/
def OneLine (text : String) : Prop := ∀ c ∈ text.toList, CharSet.lineEnds.contains c = false

instance (text : String) : Decidable (OneLine text) :=
  List.decidableBAll (fun c => CharSet.lineEnds.contains c = false) text.toList

@[simp] theorem oneLine_append {s t : String} : OneLine (s ++ t) ↔ OneLine s ∧ OneLine t := by
  simp [OneLine, or_imp, forall_and]

/-- A text without line ends goes in front of the first line of the text that follows. -/
theorem lines_append {s : String} (t : String) (hne : s.toList ≠ []) (hs : OneLine s) :
    lines (s ++ t) = (s ++ (lines t).headD "") :: (lines t).tail := by
  rw [lines, String.toList_append, splitLines_append _ hne hs, lines]
  cases splitLines t.toList <;> simp

/-- A text without line ends is one line. -/
theorem lines_of_oneLine {text : String} (hne : text.toList ≠ []) (ht : OneLine text) :
    lines text = [text] := by
  rw [lines, splitLines_of_one_line hne ht]
  simp

end Text

end ThreadedForth
