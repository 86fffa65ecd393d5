import Mathlib.Algebra.Order.Ring.Nat
import ThreadedForth.Proofs.Host.Answer
import ThreadedForth.Proofs.Machine.Link

/-!
# How far the input has been read

The lines that are still to come (`Source.linesToCome`): those that were fed, and of those that a
reader holds the ones that are not for the host, up to where it closes. Reading begins them in
their order and leaves none out (`Console.Flows`), until none is left (`Console.RunsOut`). Each line
and each character is counted once in what is left (`Source.left`), so what is read makes it less
(`Reading.nextToken_flows`).

All of this is said of the console alone and holds for whatever appears before the user meanwhile,
as long as it is not a report of the session (`Transcript.Unreported`).
-/

namespace ThreadedForth

open ThreadedForth.Action

/-! ## Lines to come -/

/-- Of the lines that a reader is to give those that reach the program. -/
def Reader.linesOf (attended : Bool) : List Entry → List String
  | [] => []
  | .close :: _ => []
  | .interrupt :: es => linesOf attended es
  | .line l :: es =>
    if attended && Host.isCommand l then
      if (Text.words l).head? = some ".bye" then [] else linesOf attended es
    else l :: linesOf attended es

/-- The lines that are still to come. -/
def Source.linesToCome (s : Source) : List String :=
  s.pending ++ match s.reader with
    | none => []
    | some r => Reader.linesOf r.attended r.entries

/-- How much is left: a character counts one, and a line two more than its characters. -/
def Source.left (s : Source) : Nat :=
  s.rest.length + (s.linesToCome.map fun l => l.toList.length + 2).sum

/-- From one transcript to another no fault was reported. -/
def Transcript.Unreported (t t' : Transcript) : Prop :=
  ∃ said, t'.pieces = said ++ t.pieces ∧ ∀ piece ∈ said, piece.1 ≠ .session

namespace Transcript.Unreported

variable {t t₁ t' : Transcript}

theorem refl (t : Transcript) : t.Unreported t := ⟨[], rfl, by simp⟩

theorem trans (h : t.Unreported t₁) (h' : t₁.Unreported t') : t.Unreported t' := by
  obtain ⟨said, hsaid, hnone⟩ := h
  obtain ⟨said', hsaid', hnone'⟩ := h'
  refine ⟨said' ++ said, by rw [hsaid', hsaid, List.append_assoc], fun piece hpiece => ?_⟩
  rcases List.mem_append.mp hpiece with hlate | hearly
  · exact hnone' piece hlate
  · exact hnone piece hearly

theorem write (t : Transcript) {voice : Voice} (h : voice ≠ .session) (text : String) :
    t.Unreported (t.write voice text) :=
  ⟨[(voice, text)], rfl, by simp [h]⟩

end Transcript.Unreported

/-! ## Flowing on -/

namespace Console

/-- From one console to another these lines were begun, in the order in which they were to come. -/
structure Flows (c : Console) (ls : List String) (c' : Console) : Prop where
  lines : c.source.linesToCome = ls ++ c'.source.linesToCome
  lineCount : c'.source.lineCount = c.source.lineCount + ls.length
  /-- where no line was begun, some of the current one was taken -/
  within : ls = [] → c'.source.rest <:+ c.source.rest
  /-- else something is left of the line that was begun last -/
  last : ∀ l ∈ ls.getLast?, c'.source.rest <:+ l.toList ++ ['\n']
  shown : c.transcript.Unreported c'.transcript

/-- From one console on these lines were begun, and no other is to come. -/
structure RunsOut (c : Console) (ls : List String) (c' : Console) : Prop where
  lines : c.source.linesToCome = ls
  lineCount : c'.source.lineCount = c.source.lineCount + ls.length
  rest : c'.source.rest = []
  shown : c.transcript.Unreported c'.transcript

variable {c c₁ c' : Console} {ls ls' : List String}

namespace Flows

theorem refl (c : Console) : c.Flows [] c :=
  ⟨rfl, rfl, fun _ => List.suffix_refl _, by simp, .refl _⟩

theorem trans (h : c.Flows ls c₁) (h' : c₁.Flows ls' c') : c.Flows (ls ++ ls') c' where
  lines := by rw [h.lines, h'.lines, List.append_assoc]
  lineCount := by rw [h'.lineCount, h.lineCount, List.length_append, Nat.add_assoc]
  within hnil := by
    obtain ⟨hls, hls'⟩ := List.append_eq_nil_iff.mp hnil
    exact (h'.within hls').trans (h.within hls)
  last l hl := by
    cases hls' : ls' with
    | nil =>
      rw [hls', List.append_nil] at hl
      exact (h'.within hls').trans (h.last l hl)
    | cons l' later =>
      have hne : ls' ≠ [] := by simp [hls']
      rw [List.getLast?_append_of_ne_nil _ hne] at hl
      exact h'.last l hl
  shown := h.shown.trans h'.shown

theorem runsOut (h : c.Flows ls c₁) (h' : c₁.RunsOut ls' c') : c.RunsOut (ls ++ ls') c' where
  lines := by rw [h.lines, h'.lines]
  lineCount := by rw [h'.lineCount, h.lineCount, List.length_append, Nat.add_assoc]
  rest := h'.rest
  shown := h.shown.trans h'.shown

/-- Something of the current line is taken. -/
theorem takes (c : Console) {piece taken rest : List Char} (h : c.source.rest = piece ++ rest) :
    c.Flows [] { c with source.taken := taken, source.rest := rest } :=
  ⟨rfl, rfl, fun _ => ⟨piece, h.symm⟩, by simp, .refl _⟩

theorem skipLine (c : Console) : c.Flows [] { c with source := c.source.skipLine } :=
  takes c (List.append_nil _).symm

theorem write (c : Console) {voice : Voice} (h : voice ≠ .session) (text : String) :
    c.Flows [] { c with transcript := c.transcript.write voice text } :=
  ⟨rfl, rfl, fun _ => List.suffix_refl _, by simp, .write _ h text⟩

/-- What is left of the line that was begun last is at most that line. -/
theorem length_rest_le (h : c.Flows ls c') (hne : ls ≠ []) :
    c'.source.rest.length + 1 ≤ (ls.map fun l => l.toList.length + 2).sum := by
  obtain ⟨before, l, rfl⟩ := (List.eq_nil_or_concat ls).resolve_left hne
  have hsuffix := (h.last l (by simp)).length_le
  simp only [List.length_append, List.length_singleton] at hsuffix
  simp only [List.concat_eq_append, List.map_append, List.sum_append, List.map_cons, List.map_nil,
    List.sum_cons, List.sum_nil]
  omega

/-- As the input flows, less and less is left of it. -/
theorem left_le (h : c.Flows ls c') : c'.source.left ≤ c.source.left := by
  rw [Source.left, Source.left, h.lines, List.map_append, List.sum_append]
  by_cases hne : ls = []
  · have hsuffix := (h.within hne).length_le
    omega
  · have hrest := h.length_rest_le hne
    omega

/-- A line that was begun is not left. -/
theorem left_lt (h : c.Flows ls c') (hne : ls ≠ []) : c'.source.left < c.source.left := by
  rw [Source.left, Source.left, h.lines, List.map_append, List.sum_append]
  have hrest := h.length_rest_le hne
  omega

/-- Where nothing is left of the current line, nothing is left of it until a line is begun. -/
theorem rest_eq_nil (h : c.Flows ls c') (hls : ls = []) (hrest : c.source.rest = []) :
    c'.source.rest = [] := by
  have hsuffix := h.within hls
  rw [hrest] at hsuffix
  exact List.suffix_nil.mp hsuffix

end Flows

end Console

open Console

/-! ## Reading -/

namespace Reading

variable {α : Type} {take? : Source → Option (α × Source)}

theorem unreported_ask {r : Reader} {host : Attendant} (t : Transcript) :
    t.Unreported (Reader.deliver.ask r host t) := by
  rw [Reader.deliver.ask]
  split_ifs
  · exact .write t (by simp) _
  · exact .refl t

/-- What a reader gives: the first line to come, if there is one. -/
theorem deliver_flows (m : Machine) (r : Reader) (es : List Entry) (t : Transcript) :
    let d := r.deliver m.attendant es t
    t.Unreported d.transcript ∧ match d.outcome with
      | .ok line => Reader.linesOf r.attended es = line :: Reader.linesOf r.attended d.entries
      | .error .endOfInput => Reader.linesOf r.attended es = []
      | .error _ => Reader.linesOf r.attended es = Reader.linesOf r.attended d.entries := by
  induction es generalizing t with
  | nil => exact ⟨unreported_ask t, rfl⟩
  | cons e es ih =>
    cases e with
    | close => exact ⟨unreported_ask t, rfl⟩
    | interrupt =>
      obtain ⟨hshown, hlines⟩ :=
        ih ((Reader.deliver.ask r m.attendant t).write .host interruptNotice)
      exact ⟨((unreported_ask t).trans (.write _ (by simp) _)).trans hshown, hlines⟩
    | line l =>
      rw [Reader.deliver, Reader.linesOf]
      cases hcommand : r.attended && Host.isCommand l with
      | false =>
        have hpasses : (if r.attended then m.attendant.answer l else none) = none := by
          cases hattended : r.attended with
          | false => rfl
          | true =>
            rw [hattended, Bool.true_and] at hcommand
            simp [Machine.attendant, hcommand]
        rw [hpasses]
        exact ⟨unreported_ask t, rfl⟩
      | true =>
        obtain ⟨hattended, hknown⟩ := Bool.and_eq_true_iff.mp hcommand
        have hanswers : (if r.attended then m.attendant.answer l else none) = some (m.answer l) := by
          simp [Machine.attendant, hattended, hknown]
        rw [hanswers, if_pos rfl]
        cases hanswer : m.answer l with
        | ok report =>
          have hgoesOn : (Text.words l).head? ≠ some ".bye" := fun hbye => by
            rw [m.answer_of_bye hbye] at hanswer
            cases hanswer
          rw [if_neg hgoesOn]
          obtain ⟨hshown, hlines⟩ := ih ((Reader.deliver.ask r m.attendant t).write .host report)
          exact ⟨((unreported_ask t).trans (.write _ (by simp) _)).trans hshown, hlines⟩
        | error stop =>
          refine ⟨unreported_ask t, ?_⟩
          by_cases hstop : stop = .endOfInput
          · subst hstop
            exact if_pos (Machine.answer_ends hanswer)
          · have hgoesOn : (Text.words l).head? ≠ some ".bye" := fun hbye => by
              rw [m.answer_of_bye hbye] at hanswer
              cases hanswer
              exact hstop rfl
            rw [if_neg hgoesOn]
            cases stop with
            | endOfInput => exact absurd rfl hstop
            | _ => rfl

/-- What comes of an action that reads: the lines that were begun, or that no other is to come. -/
def Outflow (c : Console) (progress : List String → Console → Prop) :
    EStateM.Result Stop Console α → Prop
  | .ok _ c' => ∃ ls, c.Flows ls c' ∧ progress ls c'
  | .error .endOfInput c' => ∃ ls, c.RunsOut ls c'
  | .error _ c' => ∃ ls, c.Flows ls c'

/-- Between two lines the next one is begun, or there is none. -/
theorem refill_flows (m : Machine) {c : Console} (hrest : c.source.rest = []) :
    Outflow c (fun ls _ => ls ≠ []) (refill m.attendant c) := by
  cases hp : c.source.pending with
  | cons line lines =>
    rw [refill_of_pending hp]
    refine ⟨[line], ⟨?_, rfl, by simp, ?_, .refl _⟩, by simp⟩
    · simp [Source.linesToCome, Source.beginLine, hp]
    · simp [Source.beginLine]
  | nil =>
    cases hr : c.source.reader with
    | none =>
      rw [refill_at_end hp hr]
      exact ⟨[], by simp [Source.linesToCome, hp, hr], rfl, hrest, .refl _⟩
    | some r =>
      obtain ⟨hshown, hlines⟩ := deliver_flows m r r.entries c.transcript
      have hcoming : c.source.linesToCome = Reader.linesOf r.attended r.entries := by
        simp [Source.linesToCome, hp, hr]
      simp only [refill, bind_apply, get_apply, hp, hr, set_apply]
      cases hd : (r.deliver m.attendant r.entries c.transcript).outcome with
      | ok line =>
        rw [hd] at hlines
        refine ⟨[line], ⟨?_, rfl, by simp, ?_, hshown⟩, by simp⟩
        · rw [hcoming, hlines]
          simp [Source.linesToCome, Source.beginLine]
        · simp [Source.beginLine]
      | error stop =>
        rw [hd] at hlines
        cases stop with
        | endOfInput => exact ⟨[], hcoming.trans hlines, rfl, hrest, hshown⟩
        | _ =>
          refine ⟨[], ?_, rfl, fun _ => List.suffix_refl _, by simp, hshown⟩
          rw [hcoming, hlines]
          simp [Source.linesToCome]

/-- What is taken of a line was left of it before. -/
def Splits (take? : Source → Option (α × Source)) : Prop :=
  ∀ {s s' : Source} {x : α}, take? s = some (x, s') →
    ∃ piece taken rest, piece ≠ [] ∧ s.rest = piece ++ rest ∧
      s' = { s with taken := taken, rest := rest }

theorem takeChar?_splits : Splits Source.takeChar? := by
  intro s s' x h
  rw [Source.takeChar?] at h
  cases hrest : s.rest with
  | nil =>
    rw [hrest] at h
    cases h
  | cons c cs =>
    rw [hrest] at h
    cases h
    exact ⟨[x], x :: s.taken, cs, by simp, rfl, rfl⟩

theorem takeToken?_splits : Splits Source.takeToken? := by
  intro s s' x h
  simp only [Source.takeToken?, List.span_eq_takeWhile_dropWhile] at h
  split_ifs at h with htoken
  cases h
  refine ⟨s.rest.takeWhile Source.isDelimiter ++
      (s.rest.dropWhile Source.isDelimiter).takeWhile (! Source.isDelimiter ·), _, _, ?_, ?_, rfl⟩
  · simp only [List.isEmpty_iff] at htoken
    exact List.append_ne_nil_of_right_ne_nil _ htoken
  · rw [List.append_assoc, List.takeWhile_append_dropWhile, List.takeWhile_append_dropWhile]

/-- Something was taken, of the current line or of one that was begun. -/
def Advances (c : Console) (ls : List String) (c' : Console) : Prop :=
  c'.source.left < c.source.left ∧ (ls = [] → c.source.rest ≠ [])

/-- What is sought is found some lines on, and then less is left, or no line is to come. -/
theorem seek_flows (htake : Splits take?) (m : Machine) {n : Nat} {c : Console}
    (hn : c.source.linesLeft < n) :
    Outflow c (Advances c) (seek m.attendant take? n c) := by
  induction n generalizing c with
  | zero => exact absurd hn (Nat.not_lt_zero _)
  | succ n ih =>
    cases hfound : take? c.source with
    | some found =>
      obtain ⟨x, s⟩ := found
      obtain ⟨piece, taken, rest, hpiece, hsplit, rfl⟩ := htake hfound
      rw [seek_of_take n hfound]
      refine ⟨[], .takes c hsplit, ?_, fun _ => by simp [hsplit, hpiece]⟩
      have hlength : 0 < piece.length := List.length_pos_iff.mpr hpiece
      simp only [Source.left, hsplit, List.length_append]
      exact Nat.add_lt_add_right (by omega) _
    | none =>
      have hskip := Flows.skipLine c
      have hrefill := refill_flows m (c := { c with source := c.source.skipLine }) rfl
      simp only [seek, bind_apply, get_apply, hfound, modify_apply]
      cases hrun : refill m.attendant { c with source := c.source.skipLine } with
      | error stop c₁ =>
        rw [hrun] at hrefill
        cases stop with
        | endOfInput => exact hrefill.imp fun ls h => hskip.runsOut h
        | _ => exact hrefill.imp fun ls h => hskip.trans h
      | ok _ c₁ =>
        rw [hrun] at hrefill
        obtain ⟨ls, hflows, hne⟩ := hrefill
        have hbegun : c.Flows ls c₁ := hskip.trans hflows
        have hfewer : c₁.source.linesLeft < c.source.linesLeft :=
          linesLeft_of_refill (c := { c with source := c.source.skipLine }) hrun
        have hrest := ih (c := c₁) (by omega)
        show Outflow c _ (seek m.attendant take? n c₁)
        cases hseek : seek m.attendant take? n c₁ with
        | ok x c' =>
          rw [hseek] at hrest
          obtain ⟨ls', hflows', hless, -⟩ := hrest
          refine ⟨ls ++ ls', hbegun.trans hflows', hless.trans (hbegun.left_lt hne), fun hnil => ?_⟩
          exact absurd (List.append_eq_nil_iff.mp hnil).1 hne
        | error stop c' =>
          rw [hseek] at hrest
          cases stop with
          | endOfInput =>
            obtain ⟨ls', hout⟩ := hrest
            exact ⟨_, hbegun.runsOut hout⟩
          | _ =>
            obtain ⟨ls', hflows'⟩ := hrest
            exact ⟨_, hbegun.trans hflows'⟩

/-- **To take a token uses up some of the input**, or the input is at its end. -/
theorem nextToken_flows (m : Machine) :
    Outflow m.console (Advances m.console) (nextToken m.attendant m.console) :=
  seek_flows takeToken?_splits m (Nat.lt_succ_self _)

/-- **To take a character uses up some of the input**, or the input is at its end. -/
theorem nextChar_flows (m : Machine) :
    Outflow m.console (Advances m.console) (nextChar m.attendant m.console) :=
  seek_flows takeChar?_splits m (Nat.lt_succ_self _)

end Reading

end ThreadedForth
