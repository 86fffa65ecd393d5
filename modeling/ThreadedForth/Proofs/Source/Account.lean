import ThreadedForth.Proofs.Source.Delivery
import ThreadedForth.Proofs.Source.Silence

/-!
# What becomes of the input

Characters and tokens may be asked of a source, and lines fed to it, in any order (`Source.Call`).
Each call accounts for what it takes (`Source.Accounts`): the lines that it begins, fed ones before
those of the reader, and the characters, of which it passes over delimiters only. From one call to
the next nothing is lost and nothing comes twice (`Source.input_is_accounted_for`).

A call that found nothing can be made again. Lines that are fed in between are then read as if they
had been there before, behind those that the call has used up (`Source.Resumes`).
-/

namespace ThreadedForth

open ThreadedForth.Action

/-! ## Readers -/

namespace Reader

/-- The lines that a reader gives to the program, one after the other. -/
def passes (attended : Bool) (host : Attendant) : List Entry → List String
  | [] => []
  | .line l :: es =>
    match if attended then host.answer l else none with
    | none => l :: passes attended host es
    | some _ => passes attended host es
  | _ :: es => passes attended host es

/-- The input is not closed before all lines are given, and the host never stops. -/
def Orderly (attended : Bool) (host : Attendant) (es : List Entry) : Prop :=
  ∀ e ∈ es, e ≠ .close ∧ ∀ l stop, e = .line l → attended = true →
    host.answer l ≠ some (.error stop)

variable {r : Reader} {host : Attendant} {es : List Entry} {t : Transcript}

theorem entries_deliver (r : Reader) (host : Attendant) (es : List Entry) (t : Transcript) :
    (r.deliver host es t).entries <:+ es := by
  induction es generalizing t with
  | nil => exact List.suffix_refl _
  | cons e es ih =>
    cases e with
    | close => exact List.suffix_cons _ _
    | interrupt => exact (ih _).trans (List.suffix_cons _ _)
    | line l =>
      rw [deliver]
      split
      · exact List.suffix_cons _ _
      · exact (ih _).trans (List.suffix_cons _ _)
      · exact List.suffix_cons _ _

/-- A reader that is asked gives the next line, or none. -/
theorem passes_deliver (r : Reader) (host : Attendant) (es : List Entry) (t : Transcript) :
    match (r.deliver host es t).outcome with
    | .ok line => passes r.attended host es =
        line :: passes r.attended host (r.deliver host es t).entries
    | .error _ => passes r.attended host es =
        passes r.attended host (r.deliver host es t).entries := by
  induction es generalizing t with
  | nil => rfl
  | cons e es ih =>
    cases e with
    | close => rfl
    | interrupt => exact ih _
    | line l =>
      rw [deliver, passes]
      cases hanswer : (if r.attended then host.answer l else none) with
      | none => rfl
      | some outcome =>
        cases outcome with
        | ok report => exact ih _
        | error stop => rfl

/-- An orderly reader gives no line only where it has given all. -/
theorem Orderly.deliver_error (h : Orderly r.attended host es) {stop : Stop}
    (hd : (r.deliver host es t).outcome = .error stop) :
    stop = .endOfInput ∧ (r.deliver host es t).entries = [] := by
  induction es generalizing t with
  | nil => exact ⟨(Except.error.inj hd).symm, rfl⟩
  | cons e es ih =>
    obtain ⟨⟨hclose, hstops⟩, hes⟩ := List.forall_mem_cons.mp h
    cases e with
    | close => exact absurd rfl hclose
    | interrupt => exact ih hes hd
    | line l =>
      rw [deliver] at hd ⊢
      cases hanswer : (if r.attended then host.answer l else none) with
      | none =>
        rw [hanswer] at hd
        cases hd
      | some outcome =>
        rw [hanswer] at hd
        cases outcome with
        | ok report => exact ih hes hd
        | error stop' =>
          cases hattended : r.attended with
          | false => simp [hattended] at hanswer
          | true =>
            rw [hattended, if_pos rfl] at hanswer
            exact absurd hanswer (hstops l stop' rfl hattended)

end Reader

namespace Source

/-! ## Accounts -/

/-- The lines that the reader of a source is still to give. -/
def toRead (host : Attendant) (s : Source) : List String :=
  match s.reader with
  | none => []
  | some r => Reader.passes r.attended host r.entries

/-- The reader of a source, if there is one, gives its lines until none is left. -/
def Orderly (host : Attendant) (s : Source) : Prop :=
  ∀ r, s.reader = some r → Reader.Orderly r.attended host r.entries

/-- What is taken from a source. -/
structure Taking where
  /-- the lines that were begun and had been fed -/
  fed : List String
  /-- the lines that were begun and came from the reader -/
  read : List String
  /-- the characters -/
  chars : List Char

namespace Taking

/-- Nothing. -/
def nothing : Taking := ⟨[], [], []⟩

/-- One taking after another. -/
def andThen (t t' : Taking) : Taking := ⟨t.fed ++ t'.fed, t.read ++ t'.read, t.chars ++ t'.chars⟩

/-- The lines that were begun, in order. -/
def lines (t : Taking) : List String := t.fed ++ t.read

/-- The characters of these lines, with a line feed after each line. -/
def text (ls : List String) : List Char := Text.joined (ls.map String.toList)

theorem text_append (ls ls' : List String) : text (ls ++ ls') = text ls ++ text ls' := by
  simp [text, Text.joined]

theorem text_ends (ls : List String) : ∀ c ∈ (text ls).getLast?, c = '\n' := by
  rcases List.eq_nil_or_concat ls with rfl | ⟨before, l, rfl⟩
  · simp [text, Text.joined]
  · simp [text, Text.joined, eq_comm]

end Taking

open Taking

/-- What is taken from a source to leave another one. -/
structure Takes (host : Attendant) (s : Source) (t : Taking) (s' : Source) : Prop where
  pending : s.pending = t.fed ++ s'.pending
  reader : s.toRead host = t.read ++ s'.toRead host
  /-- the reader is asked only when no fed line is left -/
  order : t.read ≠ [] → s'.pending = []
  lineCount : s'.lineCount = s.lineCount + t.lines.length
  chars : s.rest ++ text t.lines = t.chars ++ s'.rest
  /-- the current line is the one that was begun last -/
  buffer : s'.buffer = match t.lines.getLast? with
    | none => s.buffer
    | some l => String.ofList (l.toList ++ ['\n'])

/-- What is left of a line ends in its line feed. -/
def LineEnded (s : Source) : Prop := ∀ c ∈ s.rest.getLast?, c = '\n'

variable {host : Attendant} {s s₁ s' : Source} {t t' : Taking}

theorem LineEnded.append_text (hs : s.LineEnded) (ls : List String) :
    ∀ c ∈ (s.rest ++ text ls).getLast?, c = '\n' := by
  intro c hc
  rw [List.getLast?_append, Option.mem_def, Option.or_eq_some_iff] at hc
  rcases hc with htext | ⟨-, hrest⟩
  · exact text_ends ls c htext
  · exact hs c hrest

namespace Takes

theorem refl (host : Attendant) (s : Source) : Takes host s .nothing s where
  pending := rfl
  reader := rfl
  order h := absurd rfl h
  lineCount := rfl
  chars := by simp [nothing, lines, text, Text.joined]
  buffer := rfl

theorem lines_andThen (h : Takes host s t s₁) (h' : Takes host s₁ t' s') :
    (t.andThen t').lines = t.lines ++ t'.lines := by
  by_cases hread : t.read = []
  · simp [lines, andThen, hread]
  · have hpending := h'.pending
    rw [h.order hread, eq_comm, List.append_eq_nil_iff] at hpending
    simp [lines, andThen, hpending.1]

theorem trans (h : Takes host s t s₁) (h' : Takes host s₁ t' s') :
    Takes host s (t.andThen t') s' where
  pending := by rw [h.pending, h'.pending, ← List.append_assoc]; rfl
  reader := by rw [h.reader, h'.reader, ← List.append_assoc]; rfl
  order hread := by
    by_cases hlast : t'.read = []
    · have hfirst : t.read ≠ [] := fun hnil => hread (by simp [andThen, hnil, hlast])
      have hpending := h'.pending
      rw [h.order hfirst, eq_comm, List.append_eq_nil_iff] at hpending
      exact hpending.2
    · exact h'.order hlast
  lineCount := by
    rw [h'.lineCount, h.lineCount, lines_andThen h h', List.length_append, Nat.add_assoc]
  chars := by
    rw [lines_andThen h h', text_append, ← List.append_assoc, h.chars, List.append_assoc, h'.chars,
      ← List.append_assoc]
    rfl
  buffer := by
    rw [lines_andThen h h', h'.buffer]
    cases hlines : t'.lines with
    | nil => rw [List.append_nil, ← h.buffer]; rfl
    | cons l ls => simp [List.getLast?_append, List.getLast?_cons]

theorem lineEnded (h : Takes host s t s') (hs : s.LineEnded) : s'.LineEnded := by
  intro c hc
  refine hs.append_text t.lines c ?_
  rw [h.chars, List.getLast?_append, hc, Option.some_or]
  rfl

/-- Something of the current line is taken. -/
theorem piece {piece rest : List Char} (h : s.rest = piece ++ rest) :
    Takes host s ⟨[], [], piece⟩ { s with taken := piece.reverse ++ s.taken, rest := rest } where
  pending := rfl
  reader := rfl
  order hread := absurd rfl hread
  lineCount := rfl
  chars := by simp [lines, text, Text.joined, h]
  buffer := by simp [lines, Source.buffer, h]

/-- The current line is used up. -/
theorem skipLine (host : Attendant) (s : Source) : Takes host s ⟨[], [], s.rest⟩ s.skipLine :=
  piece (List.append_nil _).symm

/-- A line is begun that was fed. -/
theorem begin {l : String} {ls : List String} (hrest : s.rest = []) (hp : s.pending = l :: ls) :
    Takes host s ⟨[l], [], []⟩ ({ s with pending := ls }.beginLine l) where
  pending := hp
  reader := rfl
  order hread := absurd rfl hread
  lineCount := rfl
  chars := by simp [lines, text, Text.joined, hrest, beginLine]
  buffer := by simp [lines, Source.buffer, beginLine]

/-- A line is begun that the reader gave. -/
theorem receive {l : String} {r : Reader} (hrest : s.rest = []) (hp : s.pending = [])
    (hr : s.toRead host = l :: Reader.passes r.attended host r.entries) :
    Takes host s ⟨[], [l], []⟩ ({ s with reader := some r }.beginLine l) where
  pending := rfl
  reader := hr
  order _ := hp
  lineCount := rfl
  chars := by simp [lines, text, Text.joined, hrest, beginLine]
  buffer := by simp [lines, Source.buffer, beginLine]

end Takes

/-- Lines that are fed once nothing is left are read as if they had been there before, behind those
that were used up. -/
def Resumes {α : Type} (act : Reading α) (s : Source) (t : Taking) (s' : Source) : Prop :=
  ∀ more shown,
    act ⟨{ s with pending := s.pending ++ t.read ++ more, reader := s'.reader }, shown⟩ =
      act ⟨s'.feedLines more, shown⟩

end Source

/-! ## Seeking -/

namespace Reading

open Source Taking

variable {α : Type} {take? : Source → Option (α × Source)} {skip : Char → Prop}
  {fits : α → List Char → List Char → Prop} {host : Attendant} {c : Console}

theorem ByLine.none_of_rest {s s' : Source} (htake : ByLine take?) (h : take? s = none)
    (hrest : s'.rest = s.rest) : take? s' = none := by
  obtain ⟨split, hsplit⟩ := htake
  rw [hsplit, Option.map_eq_none_iff] at h ⊢
  rw [hrest, h]

/-- What a line is taken apart into: what may be passed over where nothing is found, and what fits a
find, between the characters that it takes and those that it leaves. -/
structure Pieces (take? : Source → Option (α × Source)) (skip : Char → Prop)
    (fits : α → List Char → List Char → Prop) : Prop where
  byLine : ByLine take?
  skips : ∀ {s}, take? s = none → ∀ c ∈ s.rest, skip c
  ended : ∀ {s : Source}, s.rest = [] → take? s = none
  finds : ∀ {s s' x}, take? s = some (x, s') → ∃ piece rest, s.rest = piece ++ rest ∧
    s' = { s with taken := piece.reverse ++ s.taken, rest := rest } ∧ fits x piece rest

/-- Between two lines the next one is begun, a fed one or one from the reader, or there is none. -/
theorem refill_takes (host : Attendant) (hrest : c.source.rest = []) :
    match refill host c with
    | .ok _ c' => ∃ l ls reader t, c'.source =
          { c.source with pending := ls, reader := reader }.beginLine l ∧
        c.source.pending ++ t.read = l :: ls ∧ t.chars = [] ∧ Takes host c.source t c'.source ∧
        (c.source.Orderly host → c'.source.Orderly host)
    | .error stop c' => ∃ reader, c'.source = { c.source with reader := reader } ∧
        c.source.pending = [] ∧ Takes host c.source .nothing c'.source ∧
        (c.source.Orderly host → stop = .endOfInput ∧ c'.source.toRead host = []) := by
  cases hp : c.source.pending with
  | cons l ls =>
    rw [refill_of_pending hp]
    exact ⟨l, ls, c.source.reader, _, rfl, by simp, rfl, .begin hrest hp, id⟩
  | nil =>
    cases hr : c.source.reader with
    | none =>
      rw [refill_at_end hp hr]
      refine ⟨c.source.reader, rfl, rfl, .refl host c.source, fun _ => ⟨rfl, ?_⟩⟩
      rw [toRead, hr]
    | some r =>
      rw [refill_of_reader hp hr]
      have hpasses := r.passes_deliver host r.entries c.transcript
      have hentries := r.entries_deliver host r.entries c.transcript
      have hread : c.source.toRead host = Reader.passes r.attended host r.entries := by
        rw [toRead, hr]
      dsimp only
      cases hd : (r.deliver host r.entries c.transcript).outcome with
      | ok l =>
        rw [hd] at hpasses
        refine ⟨l, [],
          some { r with entries := (r.deliver host r.entries c.transcript).entries }, _, ?_, rfl, rfl,
          .receive hrest hp (hread.trans hpasses), ?_⟩
        · rw [← hp]
        · rintro horderly r' ⟨⟩ e he
          exact horderly r hr e (hentries.subset he)
      | error stop =>
        rw [hd] at hpasses
        refine ⟨some _, rfl, rfl, ⟨rfl, hread.trans hpasses, fun h => absurd rfl h, rfl, ?_, rfl⟩,
          fun horderly => ?_⟩
        · simp [Taking.nothing, Taking.lines, Taking.text, Text.joined]
        · obtain ⟨rfl, hnone⟩ := (horderly r hr).deliver_error hd
          exact ⟨rfl, by simp [toRead, hnone, Reader.passes]⟩

section Resuming

variable {s s' : Source} {t t₁ t' : Taking} {l : String} {ls : List String} {reader : Option Reader}

/-- Where no line is left, the call goes on with the first line that is fed. -/
theorem resumes_end (htake : ByLine take?) (hnone : take? s = none)
    (hended : take? s.skipLine = none) (hp : s.pending = []) (ht : t.read = []) :
    Resumes (seekNext host take?) s t { s.skipLine with reader := reader } := by
  intro more shown
  have hpending : s.pending ++ t.read ++ more = more := by rw [hp, ht]; rfl
  have hfed : Source.feedLines { s.skipLine with reader := reader } more =
      Source.skipLine { s with pending := more, reader := reader } := by
    simp [feedLines, Source.skipLine, hp]
  rw [hpending, hfed]
  exact seekNext_skipLine (htake.none_of_rest hnone rfl) (htake.none_of_rest hended rfl)

/-- A line that was begun comes first both times. -/
theorem resumes_begin (htake : ByLine take?) (hnone : take? s = none)
    (hnext : s.pending ++ t.read = l :: ls)
    (hrest : Resumes (seekNext host take?)
      ({ s.skipLine with pending := ls, reader := reader }.beginLine l) t₁ s')
    (ht : t'.read = t.read ++ t₁.read) : Resumes (seekNext host take?) s t' s' := by
  intro more shown
  have hpending : s.pending ++ t'.read ++ more = l :: (ls ++ t₁.read ++ more) := by
    rw [ht, ← List.append_assoc, hnext]
    simp
  rw [hpending, ← hrest more shown]
  exact seekNext_of_refill (htake.none_of_rest hnone rfl) (refill_of_pending rfl)

end Resuming

/-- What comes of seeking: a find behind what may be passed over, or all is used up. -/
def Sought (take? : Source → Option (α × Source)) (skip : Char → Prop)
    (fits : α → List Char → List Char → Prop) (host : Attendant) (s : Source) :
    EStateM.Result Stop Console α → Prop
  | .ok x c' => ∃ t gap piece, Takes host s t c'.source ∧ t.chars = gap ++ piece ∧
      (∀ ch ∈ gap, skip ch) ∧ fits x piece c'.source.rest
  | .error stop c' => ∃ t, Takes host s t c'.source ∧ (∀ ch ∈ t.chars, skip ch) ∧
      c'.source.rest = [] ∧ c'.source.pending = [] ∧
      (s.Orderly host → stop = .endOfInput ∧ c'.source.toRead host = []) ∧
      Resumes (seekNext host take?) s t c'.source

/-- **To seek takes what is passed over and what is found, and nothing else.** -/
theorem seek_takes (h : Pieces take? skip fits) {n : Nat} (hn : c.source.linesLeft < n) :
    Sought take? skip fits host c.source (seek host take? n c) := by
  induction n generalizing c with
  | zero => exact absurd hn (Nat.not_lt_zero _)
  | succ n ih =>
    cases hfound : take? c.source with
    | some found =>
      obtain ⟨piece, rest, hsplit, hs, hfits⟩ := h.finds hfound
      rw [seek_of_take n hfound, hs]
      exact ⟨_, [], piece, .piece hsplit, rfl, List.forall_mem_nil _, hfits⟩
    | none =>
      have hskip := Takes.skipLine host c.source
      have hskips := h.skips hfound
      have hrefill := refill_takes (c := { c with source := c.source.skipLine }) host rfl
      simp only [seek, bind_apply, get_apply, hfound, modify_apply]
      cases hrun : refill host { c with source := c.source.skipLine } with
      | error stop c' =>
        rw [hrun] at hrefill
        obtain ⟨reader, hs, hp, htakes, hends⟩ := hrefill
        refine ⟨_, hskip.trans htakes, ?_, by rw [hs]; rfl, by rw [hs]; exact hp, hends, ?_⟩
        · simpa [Taking.andThen, Taking.nothing] using hskips
        · rw [hs]
          exact resumes_end h.byLine hfound (h.ended rfl) hp rfl
      | ok _ c₁ =>
        rw [hrun] at hrefill
        obtain ⟨l, ls, reader, t, hs, hnext, hchars, htakes, horderly⟩ := hrefill
        have hbegun := hskip.trans htakes
        have hfewer : c₁.source.linesLeft < c.source.linesLeft :=
          linesLeft_of_refill (c := { c with source := c.source.skipLine }) hrun
        have hrest := ih (c := c₁) (by omega)
        show Sought _ _ _ _ _ (seek host take? n c₁)
        cases hseek : seek host take? n c₁ with
        | ok x c' =>
          rw [hseek] at hrest
          obtain ⟨t', gap, piece, htakes', hchars', hgap, hfits⟩ := hrest
          refine ⟨_, c.source.rest ++ gap, piece, hbegun.trans htakes', ?_, ?_, hfits⟩
          · simp [Taking.andThen, hchars, hchars']
          · exact List.forall_mem_append.mpr ⟨hskips, hgap⟩
        | error stop c' =>
          rw [hseek] at hrest
          obtain ⟨t', htakes', hgap, hend, hpending, hends, hresumes⟩ := hrest
          refine ⟨_, hbegun.trans htakes', ?_, hend, hpending, fun ho => hends (horderly ho), ?_⟩
          · simpa [Taking.andThen, hchars] using List.forall_mem_append.mpr ⟨hskips, hgap⟩
          · rw [hs] at hresumes
            exact resumes_begin h.byLine hfound hnext hresumes rfl

theorem seekNext_takes (h : Pieces take? skip fits) :
    Sought take? skip fits host c.source (seekNext host take? c) :=
  seek_takes h (Nat.lt_succ_self _)

/-- A character is taken as it comes. -/
theorem pieces_char : Pieces takeChar? (fun _ => False) fun x piece _ => piece = [x] where
  byLine := takeChar?_byLine
  skips {s} h := by
    rw [takeChar?] at h
    cases hrest : s.rest with
    | nil => simp
    | cons c cs =>
      rw [hrest] at h
      cases h
  ended {s} h := by rw [takeChar?, h]
  finds {s s' x} h := by
    rw [takeChar?] at h
    cases hrest : s.rest with
    | nil =>
      rw [hrest] at h
      cases h
    | cons c cs =>
      rw [hrest] at h
      cases h
      exact ⟨[x], cs, rfl, rfl, rfl⟩

/-- A token is taken from behind the delimiters before it, up to the one after it. -/
def FitsToken (text : String) (piece rest : List Char) : Prop :=
  ∃ gap token, text = String.ofList token ∧ piece = gap ++ token ∧
    (∀ c ∈ gap, isDelimiter c = true) ∧ IsToken token ∧ Delimited rest

theorem pieces_token : Pieces takeToken? (isDelimiter · = true) FitsToken where
  byLine := takeToken?_byLine
  skips {s} h c hc := by
    simp only [takeToken?, List.span_eq_takeWhile_dropWhile] at h
    split at h
    · next htoken =>
      have hnone : s.rest.dropWhile isDelimiter = [] := by
        cases hrest : s.rest.dropWhile isDelimiter with
        | nil => rfl
        | cons d ds =>
          have hd := List.head?_dropWhile_not isDelimiter s.rest
          rw [hrest] at hd htoken
          simp_all
      exact List.dropWhile_eq_nil_iff.mp hnone c hc
    · cases h
  ended {s} h := takeToken?_of_delimiters (by simp [h])
  finds {s s' x} h := by
    simp only [takeToken?, List.span_eq_takeWhile_dropWhile] at h
    split at h
    · cases h
    · next htoken =>
      cases h
      let gap := s.rest.takeWhile isDelimiter
      let token := (s.rest.dropWhile isDelimiter).takeWhile (! isDelimiter ·)
      let rest := (s.rest.dropWhile isDelimiter).dropWhile (! isDelimiter ·)
      have hgap : ∀ c ∈ gap, isDelimiter c = true := fun c hc => List.mem_takeWhile_imp hc
      have hplain : ∀ c ∈ token, isDelimiter c = false := fun c hc => by
        simpa using List.mem_takeWhile_imp hc
      refine ⟨gap ++ token, rest, ?_, ?_, gap, token, rfl, rfl, hgap,
        ⟨fun hnil => htoken (List.isEmpty_iff.mpr hnil), hplain⟩, fun c hc => ?_⟩
      · rw [List.append_assoc, List.takeWhile_append_dropWhile, List.takeWhile_append_dropWhile]
      · rw [List.reverse_append, List.append_assoc]
      · have hstop := List.head?_dropWhile_not (! isDelimiter ·) (s.rest.dropWhile isDelimiter)
        rw [show List.head? _ = some c from hc] at hstop
        simpa using hstop

end Reading

/-! ## Calls -/

namespace Source

open Reading Taking

/-- What can be asked of a source. -/
inductive Call
  | char
  | token
  | feed (lines : List String)

/-- What is given in reply. -/
inductive Reply
  | char (c : Char)
  | token (text : String)
  | fed

/-- The lines that a call feeds. -/
def Call.lines : Call → List String
  | .feed ls => ls
  | _ => []

/-- Does what a call asks for. -/
def Call.perform (host : Attendant) : Call → Reading Reply
  | .char => do return .char (← nextChar host)
  | .token => do return .token (← nextToken host)
  | .feed ls => do
    modify fun c => { c with source := c.source.feedLines ls }
    return .fed

/-- A call, and what came of it. -/
structure Exchange where
  call : Call
  before : Console
  outcome : Except Stop Reply
  after : Console

/-- Makes a call. -/
def Call.exchange (call : Call) (host : Attendant) (c : Console) : Exchange :=
  match call.perform host c with
  | .ok reply c' => ⟨call, c, .ok reply, c'⟩
  | .error stop c' => ⟨call, c, .error stop, c'⟩

@[simp] theorem Call.call_exchange (call : Call) (host : Attendant) (c : Console) :
    (call.exchange host c).call = call := by
  rw [exchange]
  cases call.perform host c <;> rfl

@[simp] theorem Call.before_exchange (call : Call) (host : Attendant) (c : Console) :
    (call.exchange host c).before = c := by
  rw [exchange]
  cases call.perform host c <;> rfl

/-- Makes calls one after the other, whatever becomes of each. -/
def serve (host : Attendant) : List Call → Console → List Exchange × Console
  | [], c => ([], c)
  | call :: calls, c =>
    let e := call.exchange host c
    let served := serve host calls e.after
    (e :: served.1, served.2)

/-- What the outcome of a call says of what was taken, where a source is left. -/
def Call.Gives : Call → Except Stop Reply → Taking → Source → Prop
  | .feed _, outcome, t, _ => outcome = .ok .fed ∧ t = .nothing
  | .char, .ok reply, t, _ => ∃ c, reply = .char c ∧ t.chars = [c]
  | .token, .ok reply, t, s' => ∃ gap token, reply = .token (String.ofList token) ∧
      t.chars = gap ++ token ∧ (∀ c ∈ gap, isDelimiter c = true) ∧ IsToken token ∧
      ∃ c rest, s'.rest = c :: rest ∧ isDelimiter c = true
  | _, .error _, t, s' => (∀ c ∈ t.chars, isDelimiter c = true) ∧ s'.rest = [] ∧ s'.pending = []

/-- What was taken accounts for what came of a call. -/
structure Accounts (host : Attendant) (e : Exchange) (t : Taking) : Prop where
  takes : Takes host (e.before.source.feedLines e.call.lines) t e.after.source
  gives : e.call.Gives e.outcome t e.after.source
  position : e.after.source.position ≤ e.after.source.buffer.length
  /-- the call goes on as long as there are lines -/
  ends : ∀ stop, e.outcome = .error stop → e.before.source.Orderly host →
    stop = .endOfInput ∧ e.after.source.toRead host = []
  /-- and can be made again -/
  resumes : ∀ stop, e.outcome = .error stop →
    Resumes (e.call.perform host) e.before.source t e.after.source

variable {host : Attendant} {c : Console}

theorem Resumes.bind {α β : Type} {act : Reading α} {f : α → Reading β} {s s' : Source} {t : Taking}
    (h : Resumes act s t s') : Resumes (act >>= f) s t s' :=
  fun more shown => bind_of_eq (h more shown)

/-- Behind a token something is left of the line, the line feed at least. -/
theorem rest_of_token {s s' : Source} {t : Taking} {cs token : List Char} (hs : s.LineEnded)
    (htakes : Takes host s t s') (hchars : t.chars = cs ++ token) (htoken : IsToken token) :
    s'.rest ≠ [] := by
  intro hnil
  obtain ⟨before, c, rfl⟩ := (List.eq_nil_or_concat token).resolve_left htoken.1
  have hlast : c = '\n' := by
    refine hs.append_text t.lines c ?_
    rw [htakes.chars, hnil, hchars]
    simp
  have hc : isDelimiter c = false := htoken.2 c (by simp)
  rw [hlast] at hc
  cases hc

/-- A call that seeks accounts for what it takes, if its find and its end are as they should be. -/
theorem accounts_of_pieces {α : Type} {take? : Source → Option (α × Source)} {skip : Char → Prop}
    {fits : α → List Char → List Char → Prop} (h : Pieces take? skip fits) {call : Call}
    {reply : α → Reply} (hlines : call.lines = [])
    (hcall : call.perform host = seekNext host take? >>= fun x => pure (reply x))
    (hfound : ∀ {x t gap piece s'}, Takes host c.source t s' → t.chars = gap ++ piece →
      (∀ ch ∈ gap, skip ch) → fits x piece s'.rest → call.Gives (.ok (reply x)) t s')
    (hended : ∀ {stop t s'}, (∀ ch ∈ t.chars, skip ch) → s'.rest = [] → s'.pending = [] →
      call.Gives (.error stop) t s') : ∃ t, Accounts host (call.exchange host c) t := by
  have hsought : Sought take? skip fits host c.source (seekNext host take? c) := seekNext_takes h
  have hsame : c.source.feedLines call.lines = c.source := by simp [hlines, feedLines]
  rw [Call.exchange, hcall, bind_apply]
  cases hseek : seekNext host take? c with
  | ok x c' =>
    rw [hseek] at hsought
    obtain ⟨t, gap, piece, htakes, hchars, hgap, hfits⟩ := hsought
    exact ⟨t, hsame.symm ▸ htakes, hfound htakes hchars hgap hfits, position_le_length _,
      by rintro _ ⟨⟩, by rintro _ ⟨⟩⟩
  | error stop c' =>
    rw [hseek] at hsought
    obtain ⟨t, htakes, hskip, hrest, hp, hends, hresumes⟩ := hsought
    refine ⟨t, hsame.symm ▸ htakes, hended hskip hrest hp, position_le_length _, ?_, fun _ _ => ?_⟩
    · rintro _ ⟨⟩
      exact hends
    · show Resumes (call.perform host) _ _ _
      rw [hcall]
      exact hresumes.bind

/-- **Each call accounts for what it takes.** -/
theorem accounts_exchange (host : Attendant) (hs : c.source.LineEnded) (call : Call) :
    ∃ t, Accounts host (call.exchange host c) t := by
  cases call with
  | feed ls =>
    exact ⟨.nothing, .refl host _, ⟨rfl, rfl⟩, position_le_length _, by rintro _ ⟨⟩,
      by rintro _ ⟨⟩⟩
  | char =>
    refine accounts_of_pieces pieces_char rfl rfl
      (fun {x t gap piece s'} _ hchars hgap hpiece => ?_)
      fun hskip hrest hp => ⟨fun ch hch => (hskip ch hch).elim, hrest, hp⟩
    obtain rfl : gap = [] := List.eq_nil_iff_forall_not_mem.mpr hgap
    exact ⟨x, rfl, hchars.trans hpiece⟩
  | token =>
    refine accounts_of_pieces pieces_token rfl rfl
      (fun {x t skipped piece s'} htakes hchars hskipped hfits => ?_)
      fun hskip hrest hp => ⟨hskip, hrest, hp⟩
    obtain ⟨gap, token, rfl, rfl, hgap, htoken, hbehind⟩ := hfits
    rw [← List.append_assoc] at hchars
    obtain ⟨d, rest, hd⟩ := List.exists_cons_of_ne_nil (rest_of_token hs htakes hchars htoken)
    exact ⟨_, token, rfl, hchars, List.forall_mem_append.mpr ⟨hskipped, hgap⟩, htoken, d, rest, hd,
      hbehind d (by rw [hd]; rfl)⟩

/-- Calls that are made one after the other account for all that they take. -/
theorem accounts_serve (host : Attendant) (hs : c.source.LineEnded) (calls : List Call) :
    let served := serve host calls c
    let s' := served.2.source
    ∃ takings, List.Forall₂ (Accounts host) served.1 takings ∧
      c.source.pending ++ calls.flatMap Call.lines = takings.flatMap Taking.fed ++ s'.pending ∧
      c.source.toRead host = takings.flatMap Taking.read ++ s'.toRead host ∧
      s'.lineCount = c.source.lineCount + (takings.flatMap Taking.lines).length ∧
      c.source.rest ++ text (takings.flatMap Taking.lines) =
        takings.flatMap Taking.chars ++ s'.rest := by
  induction calls generalizing c with
  | nil => exact ⟨[], .nil, by simp [serve], rfl, rfl, by simp [serve, text, Text.joined]⟩
  | cons call calls ih =>
    obtain ⟨t, haccounts⟩ := accounts_exchange host hs call
    have htakes := haccounts.takes
    rw [Call.before_exchange, Call.call_exchange] at htakes
    have hended : LineEnded (c.source.feedLines call.lines) := hs
    obtain ⟨takings, hall, hpending, hread, hcount, hchars⟩ := ih (htakes.lineEnded hended)
    refine ⟨t :: takings, .cons haccounts hall, ?_, ?_, ?_, ?_⟩
    · have hfirst : c.source.pending ++ call.lines = t.fed ++ _ := htakes.pending
      rw [List.flatMap_cons, ← List.append_assoc, hfirst, List.append_assoc, hpending,
        ← List.append_assoc, List.flatMap_cons]
      rfl
    · have hfirst : c.source.toRead host = t.read ++ _ := htakes.reader
      rw [hfirst, hread, ← List.append_assoc, List.flatMap_cons]
      rfl
    · have hfirst : _ = c.source.lineCount + t.lines.length := htakes.lineCount
      rw [List.flatMap_cons, List.length_append, ← Nat.add_assoc, ← hfirst]
      exact hcount
    · have hfirst : c.source.rest ++ text t.lines = t.chars ++ _ := htakes.chars
      rw [List.flatMap_cons, text_append, ← List.append_assoc, hfirst, List.append_assoc, hchars,
        ← List.append_assoc, List.flatMap_cons]
      rfl

/-- **Nothing that is fed or read is lost, and nothing comes twice.** Whatever calls are made on a
new source, each of them accounts for the lines that it begins and the characters that it takes.
Together the lines are those that were fed or that the reader gives, up to those that are left, and
the characters are those of these lines, up to those that are left of the last one. -/
theorem input_is_accounted_for (host : Attendant) (reader : Option Reader) (ls : List String)
    (shown : Transcript) (calls : List Call) :
    let new : Source := { pending := ls, reader := reader }
    let served := serve host calls ⟨new, shown⟩
    let s := served.2.source
    ∃ takings, List.Forall₂ (Accounts host) served.1 takings ∧
      ls ++ calls.flatMap Call.lines = takings.flatMap Taking.fed ++ s.pending ∧
      new.toRead host = takings.flatMap Taking.read ++ s.toRead host ∧
      s.lineCount = (takings.flatMap Taking.lines).length ∧
      text (takings.flatMap Taking.lines) = takings.flatMap Taking.chars ++ s.rest := by
  have hnew : LineEnded { pending := ls, reader := reader } := by simp [LineEnded]
  obtain ⟨takings, hall, hpending, hread, hcount, hchars⟩ :=
    accounts_serve host (c := ⟨{ pending := ls, reader := reader }, shown⟩) hnew calls
  exact ⟨takings, hall, hpending, hread, by simpa using hcount, hchars⟩

/-- A token, the character behind it, then nothing, until a line is fed. -/
example : (serve .silent [.token, .char, .token, .feed ["b c"], .token]
      ⟨{ pending := [" a"] }, {}⟩).1.map Exchange.outcome =
    [.ok (.token "a"), .ok (.char '\n'), .error .endOfInput, .ok .fed, .ok (.token "b")] := by
  rfl

end Source

end ThreadedForth
