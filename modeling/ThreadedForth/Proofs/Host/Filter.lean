import Mathlib.Data.List.Forall2
import ThreadedForth.Proofs.Host.Answer

/-!
# What the host lets through

A reader to which the host attends gives the program the lines that are no commands, and no others
(`Reader.filter_passes_other_lines`). The commands between two of these lines are answered when the
second one is asked for, each of them once. `.bye` ends the input as a closed input does, and what
stands behind it is not read.
-/

namespace ThreadedForth

/-! ## Entries -/

namespace Entry

/-- The line, if it is one for the program. -/
def passing : Entry → Option String
  | .line l => if Host.isCommand l then none else some l
  | .interrupt | .close => none

/-- Whether the input ends here: it is closed, or the user says `.bye`. -/
def ends : Entry → Bool
  | .line l => (Text.words l).head? = some ".bye"
  | .interrupt => false
  | .close => true

/-- What the host says to an entry. -/
def report (m : Machine) : Entry → Except Stop String
  | .line l => m.answer l
  | .interrupt => .ok interruptNotice
  | .close => .error .endOfInput

/-- The entries before the end of the input. -/
def spoken (es : List Entry) : List Entry := es.takeWhile (! ·.ends)

/-- The lines for the program. -/
def lines (es : List Entry) : List String := (spoken es).filterMap passing

/-- The other entries: those before the first line for the program, those between it and the second
one, and so on to those after the last one. -/
def gaps (es : List Entry) : List (List Entry) := (spoken es).splitOnP (·.passing.isSome)

variable {m : Machine} {e : Entry} {es : List Entry} {l : String}

theorem passing_of_ends (h : e.ends = true) : e.passing = none := by
  cases e with
  | line l =>
    have hhead : (Text.words l).head? = some ".bye" := of_decide_eq_true h
    have hcommand : Host.isCommand l = true := by
      obtain ⟨arguments, hwords⟩ := List.head?_eq_some_iff.mp hhead
      rw [Host.isCommand, hwords]
      rfl
    rw [passing, if_pos hcommand]
  | interrupt => rfl
  | close => rfl

@[simp] theorem spoken_of_ends (h : e.ends = true) : spoken (e :: es) = [] := by
  simp [spoken, h]

@[simp] theorem spoken_of_not_ends (h : e.ends = false) : spoken (e :: es) = e :: spoken es := by
  simp [spoken, h]

theorem ends_of_passing (h : e.passing = some l) : e.ends = false := by
  cases hends : e.ends with
  | false => rfl
  | true => cases (passing_of_ends hends).symm.trans h

theorem gaps_ne_nil (es : List Entry) : gaps es ≠ [] := List.splitOnP_ne_nil _ _

theorem gaps_of_ends (h : e.ends = true) : gaps (e :: es) = [[]] := by
  rw [gaps, spoken_of_ends h, List.splitOnP_nil]

theorem gaps_of_passing (h : e.passing = some l) : gaps (e :: es) = [] :: gaps es := by
  rw [gaps, spoken_of_not_ends (ends_of_passing h), List.splitOnP_cons_eq_if_modifyHead, h]
  rfl

theorem gaps_of_not_passing (h : e.passing = none) (hends : e.ends = false) :
    gaps (e :: es) = (gaps es).modifyHead (e :: ·) := by
  rw [gaps, spoken_of_not_ends hends, List.splitOnP_cons_eq_if_modifyHead, h]
  rfl

/-- Blank lines are for the program. -/
theorem passing_of_blank (h : Text.words l = []) : passing (.line l) = some l := by
  rw [passing, Host.isCommand, h]
  rfl

end Entry

/-! ## Deliveries -/

namespace Reader

variable {r : Reader} {m : Machine} {e : Entry} {es : List Entry} {t : Transcript} {l text : String}

/-- The prompt, if one is shown. -/
def prompts (r : Reader) (m : Machine) : List (Voice × String) :=
  if r.prompting then [(.prompt, m.prompt)] else []

/-- What the host puts before the user for an entry that the program does not see. -/
def remarks (m : Machine) (e : Entry) : List (Voice × String) :=
  match e.report m with
  | .ok text => [(.host, text)]
  | .error _ => []

/-- What appears, in order, while the program waits for a line and these entries come before it. -/
def shown (r : Reader) (m : Machine) (gap : List Entry) : List (Voice × String) :=
  gap.flatMap (fun e => r.prompts m ++ remarks m e) ++ r.prompts m

/-- What successive calls deliver. Each of them comes when the machine and the transcript are as
given. -/
def calls (r : Reader) : List (Machine × Transcript) → List Entry → List Delivery
  | [], _ => []
  | (m, t) :: later, es =>
    let d := r.deliver m.attendant es t
    d :: r.calls later d.entries

theorem ask_pieces (r : Reader) (m : Machine) (t : Transcript) :
    (deliver.ask r m.attendant t).pieces = (r.prompts m).reverse ++ t.pieces := by
  rw [deliver.ask, prompts]
  cases r.prompting <;> rfl

theorem deliver_of_passing (h : e.passing = some l) :
    r.deliver m.attendant (e :: es) t = ⟨.ok l, es, deliver.ask r m.attendant t⟩ := by
  cases e with
  | line l' =>
    rw [Entry.passing] at h
    split_ifs at h with hcommand
    obtain rfl := Option.some.inj h
    simp [deliver, Machine.attendant, hcommand]
  | interrupt => cases h
  | close => cases h

/-- A line that is no line for the program is answered by the host. -/
theorem answer_of_not_passing {l : String} (h : (Entry.line l).passing = none) :
    m.attendant.answer l = some (m.answer l) := by
  rw [Entry.passing] at h
  split_ifs at h with hcommand
  exact if_pos hcommand

theorem deliver_of_ends (hr : r.attended = true) (h : e.ends = true) :
    r.deliver m.attendant (e :: es) t =
      ⟨.error .endOfInput, es, deliver.ask r m.attendant t⟩ := by
  cases e with
  | line l =>
    have hbye : m.answer l = .error .endOfInput := m.answer_of_bye (of_decide_eq_true h)
    rw [deliver, if_pos hr, answer_of_not_passing (Entry.passing_of_ends h), hbye]
  | interrupt => cases h
  | close => rfl

theorem deliver_of_report (hr : r.attended = true) (h : e.passing = none) (hends : e.ends = false)
    (htext : e.report m = .ok text) :
    r.deliver m.attendant (e :: es) t =
      r.deliver m.attendant es ((deliver.ask r m.attendant t).write .host text) := by
  cases e with
  | line l =>
    have hanswer : m.answer l = .ok text := htext
    rw [deliver, if_pos hr, answer_of_not_passing h, hanswer]
  | interrupt =>
    cases htext
    rfl
  | close => cases hends

/-- An entry that the host has dealt with has been asked for and reported on. -/
theorem shown_cons (htext : e.report m = .ok text) (gap : List Entry) :
    (r.shown m (e :: gap)).reverse ++ t.pieces =
      (r.shown m gap).reverse ++ ((deliver.ask r m.attendant t).write .host text).pieces := by
  simp [shown, remarks, htext, Transcript.write, ask_pieces]

/-! ## Successive calls -/

/-- The host can deal with these entries. -/
def Handles (m : Machine) (gap : List Entry) : Prop := ∀ e ∈ gap, ∃ text, e.report m = .ok text

section Calls

variable {later states : List (Machine × Transcript)}

/-- A call is as good as one where the first entry has been dealt with already. -/
theorem calls_of_report (hr : r.attended = true) (h : e.passing = none) (hends : e.ends = false)
    (htext : e.report m = .ok text) :
    r.calls ((m, t) :: later) (e :: es) =
      r.calls ((m, (deliver.ask r m.attendant t).write .host text) :: later) es := by
  rw [calls, calls, deliver_of_report hr h hends htext]

/-- The last call comes where the input ends. -/
theorem calls_at_end {d : Delivery} (hd : r.deliver m.attendant es t = d) :
    r.calls [(m, t)] es = [d] := by
  rw [calls, hd, calls]

/-- What the calls give, what appears meanwhile, and what is left. -/
structure Filters (r : Reader) (states : List (Machine × Transcript)) (es : List Entry) : Prop where
  outcomes : (r.calls states es).map (·.outcome) =
    (Entry.lines es).map .ok ++ [.error .endOfInput]
  pieces : (r.calls states es).map (·.transcript.pieces) =
    List.zipWith (fun state gap => (r.shown state.1 gap).reverse ++ state.2.pieces) states
      (Entry.gaps es)
  left : (r.calls states es).getLast?.map (·.entries) = some (es.dropWhile (! ·.ends)).tail

theorem filters_nil : r.Filters [(m, t)] [] where
  outcomes := rfl
  pieces := by simp [calls, deliver, Entry.gaps, Entry.spoken, shown, ask_pieces]
  left := rfl

theorem filters_of_ends (hr : r.attended = true) (h : e.ends = true) :
    r.Filters [(m, t)] (e :: es) where
  outcomes := by simp [calls_at_end (deliver_of_ends hr h), Entry.lines, Entry.spoken_of_ends h]
  pieces := by simp [calls_at_end (deliver_of_ends hr h), Entry.gaps_of_ends h, shown, ask_pieces]
  left := by simp [calls_at_end (deliver_of_ends hr h), h]

theorem Filters.of_passing (h : e.passing = some l) (hlater : r.Filters later es)
    (hne : later ≠ []) : r.Filters ((m, t) :: later) (e :: es) where
  outcomes := by
    have hlines : Entry.lines (e :: es) = l :: Entry.lines es := by
      simp [Entry.lines, Entry.spoken_of_not_ends (Entry.ends_of_passing h), h]
    rw [calls, deliver_of_passing h, hlines, List.map_cons, hlater.outcomes]
    rfl
  pieces := by
    rw [calls, deliver_of_passing h, Entry.gaps_of_passing h, List.map_cons, hlater.pieces]
    simp [shown, ask_pieces]
  left := by
    have hdrop : (e :: es).dropWhile (! ·.ends) = es.dropWhile (! ·.ends) := by
      simp [Entry.ends_of_passing h]
    obtain ⟨state, rest, rfl⟩ := List.exists_cons_of_ne_nil hne
    rw [calls, deliver_of_passing h, hdrop, ← hlater.left]
    rfl

theorem Filters.of_report (hr : r.attended = true) (h : e.passing = none) (hends : e.ends = false)
    (htext : e.report m = .ok text)
    (hes : r.Filters ((m, (deliver.ask r m.attendant t).write .host text) :: later) es) :
    r.Filters ((m, t) :: later) (e :: es) where
  outcomes := by
    have hlines : Entry.lines (e :: es) = Entry.lines es := by
      simp [Entry.lines, Entry.spoken_of_not_ends hends, h]
    rw [calls_of_report hr h hends htext, hlines, hes.outcomes]
  pieces := by
    obtain ⟨gap, gaps, hgaps⟩ := List.exists_cons_of_ne_nil (Entry.gaps_ne_nil es)
    rw [calls_of_report hr h hends htext, Entry.gaps_of_not_passing h hends, hes.pieces, hgaps,
      List.modifyHead_cons, List.zipWith_cons_cons, List.zipWith_cons_cons, shown_cons htext]
  left := by
    have hdrop : (e :: es).dropWhile (! ·.ends) = es.dropWhile (! ·.ends) := by simp [hends]
    rw [calls_of_report hr h hends htext, hdrop, hes.left]

/-- The calls take one gap after the other. -/
theorem filters (hr : r.attended = true) (es : List Entry)
    (hstates : List.Forall₂ (fun state gap => Handles state.1 gap) states (Entry.gaps es)) :
    r.Filters states es := by
  induction es generalizing states with
  | nil =>
    obtain ⟨⟨m, t⟩, rest, -, hrest, rfl⟩ := List.forall₂_cons_right_iff.mp hstates
    obtain rfl := List.forall₂_nil_right_iff.mp hrest
    exact filters_nil
  | cons e es ih =>
    cases hends : e.ends with
    | true =>
      rw [Entry.gaps_of_ends hends] at hstates
      obtain ⟨⟨m, t⟩, rest, -, hrest, rfl⟩ := List.forall₂_cons_right_iff.mp hstates
      obtain rfl := List.forall₂_nil_right_iff.mp hrest
      exact filters_of_ends hr hends
    | false =>
      cases hpass : e.passing with
      | some l =>
        rw [Entry.gaps_of_passing hpass] at hstates
        obtain ⟨⟨m, t⟩, rest, -, hrest, rfl⟩ := List.forall₂_cons_right_iff.mp hstates
        have hne : rest ≠ [] := by
          rintro rfl
          exact Entry.gaps_ne_nil es (List.forall₂_nil_left_iff.mp hrest)
        exact (ih hrest).of_passing hpass hne
      | none =>
        -- the entry joins the gap that the call has before it without the entry
        obtain ⟨gap, gaps, hgaps⟩ := List.exists_cons_of_ne_nil (Entry.gaps_ne_nil es)
        rw [Entry.gaps_of_not_passing hpass hends, hgaps, List.modifyHead_cons] at hstates
        obtain ⟨⟨m, t⟩, rest, hhandles, hrest, rfl⟩ := List.forall₂_cons_right_iff.mp hstates
        obtain ⟨⟨text, htext⟩, hgap⟩ := List.forall_mem_cons.mp hhandles
        refine .of_report hr hpass hends htext (ih ?_)
        rw [hgaps]
        exact .cons hgap hrest

/-- **The host filters its commands and nothing else.** Let a reader be called in any states of the
machine and of the transcript, once for each line for the program and once more, and let the host be
able to deal with the entries between them. Then the calls give these lines, in order and unchanged,
and in the end that the input is at its end. What appears during each call are the prompts and the
answers to the entries between the lines, each once and in order. The entries behind the one that
ends the input are left. Blank lines are given. -/
theorem filter_passes_other_lines (hr : r.attended = true) (es : List Entry)
    {states : List (Machine × Transcript)}
    (hstates : List.Forall₂ (fun state gap => Handles state.1 gap) states (Entry.gaps es)) :
    (r.calls states es).map (·.outcome) = (Entry.lines es).map .ok ++ [.error .endOfInput] ∧
      (r.calls states es).map (·.transcript.pieces) =
        List.zipWith (fun state gap => (r.shown state.1 gap).reverse ++ state.2.pieces) states
          (Entry.gaps es) ∧
      (r.calls states es).getLast?.map (·.entries) = some (es.dropWhile (! ·.ends)).tail ∧
      ∀ l, .line l ∈ Entry.spoken es → Text.words l = [] → l ∈ Entry.lines es := by
  obtain ⟨houtcomes, hpieces, hleft⟩ := filters hr es hstates
  refine ⟨houtcomes, hpieces, hleft, fun l hl hwords => ?_⟩
  exact List.mem_filterMap.mpr ⟨.line l, hl, Entry.passing_of_blank hwords⟩

end Calls

/-- A reader of a few lines, the last of them behind `.bye`. -/
def sessionReader : Reader :=
  { entries := [.line "1 2 +", .line "  .stack", .line "", .line "DUP", .line ".here", .line ".bye",
      .line "99"]
    attended := true
    prompting := true }

/-- The states in which it is called. -/
def sessionStates : List (Machine × Transcript) :=
  [({}, {}), ({ data := [.int 3] }, {}), ({ data := [.int 3] }, {}),
    ({ data := [.int 3, .int 3] }, ⟨[(.program, "3 ")]⟩)]

/-- The lines between the commands are given, and the commands are answered. -/
theorem session_filters :
    sessionReader.attended = true ∧
      List.Forall₂ (fun state gap => Handles state.1 gap) sessionStates
        (Entry.gaps sessionReader.entries) ∧
      (sessionReader.calls sessionStates sessionReader.entries).map (·.outcome) =
        [.ok "1 2 +", .ok "", .ok "DUP", .error .endOfInput] ∧
      (sessionReader.calls sessionStates sessionReader.entries).map (·.transcript.pieces) =
        [[(.prompt, "ok> ")], [(.prompt, "ok> "), (.host, "<1> 3 \n"), (.prompt, "ok> ")],
          [(.prompt, "ok> ")],
          [(.prompt, "ok> "), (.host, "HERE=1 LATEST=None STATE=IMMEDIATE\n"), (.prompt, "ok> "),
            (.program, "3 ")]] ∧
      (sessionReader.calls sessionStates sessionReader.entries).getLast?.map (·.entries) =
        some [.line "99"] := by
  have hstates : List.Forall₂ (fun state gap => Handles state.1 gap) sessionStates
      (Entry.gaps sessionReader.entries) := by
    have hgaps : Entry.gaps sessionReader.entries =
        [[], [.line "  .stack"], [], [.line ".here"]] := rfl
    have hnone (m : Machine) : Handles m [] := fun e he => absurd he List.not_mem_nil
    have hone {m : Machine} {e : Entry} (h : ∃ text, e.report m = .ok text) : Handles m [e] :=
      List.forall_mem_singleton.mpr h
    rw [hgaps]
    exact .cons (hnone _) (.cons (hone ⟨_, rfl⟩) (.cons (hnone _) (.cons (hone ⟨_, rfl⟩) .nil)))
  have hattended : sessionReader.attended = true := rfl
  obtain ⟨houtcomes, hpieces, hleft, -⟩ :=
    filter_passes_other_lines hattended sessionReader.entries hstates
  exact ⟨hattended, hstates, houtcomes, hpieces.trans (by decide +kernel), hleft⟩

end Reader

end ThreadedForth
