import ThreadedForth.Proofs.Memory.Search
import ThreadedForth.Proofs.Session.Insertion

/-!
# Unknown tokens

A token that is neither the name of a word nor a numeral may stand wherever the outermost loop of
`QUIT` asks for a token, in either mode, so even in a definition that is being compiled. It is
reported in one line, and else the session comes to the same as without it
(`Session.unknown_tokens_are_harmless`). It is all in the search, which comes to the end of the
dictionary and changes nothing, and for which nothing else need be known of the dictionary.

This takes that the loop of `QUIT` is whole there, as it does for comments: where a program has
overwritten the distance that the loop goes back, more is shown than the report
(`unknown_token_shows_more_where_quit_is_patched`).
-/

namespace ThreadedForth

open ThreadedForth.Action ThreadedForth.Source

/-- A token can be added here that is neither the name of a word nor a numeral, with spaces around
it. The report of it is what is shown. -/
inductive Machine.TakesUnknown (x : Machine) : Addition → List Char → Prop
  | token {token : String} {w : List Char} (htoken : IsToken token.toList)
    (hfind : x.memory.find token = .ok none) (hread : Numeral.read? token = none) :
    TakesUnknown x ⟨' ' :: (token.toList ++ [' ']), [(.program, s!"unknown token: {token}\n")]⟩ w

/-- An unknown token is reported, and nothing else is done about it. -/
theorem interpretToken_of_unknown {e : Cell → Action Unit} {x : Machine} {token : String}
    (hfind : x.memory.find token = .ok none) (hread : Numeral.read? token = none) :
    interpretToken e token x = .ok () { x with
      console := { x.console with transcript :=
        x.console.transcript.write .program s!"unknown token: {token}\n" }
      log := ⟨.warning, .machine,
        s!"unknown token {Text.quoted token} (line {x.console.source.lineCount})"⟩ :: x.log } := by
  simp only [interpretToken, bind_apply, ask_apply, hfind, hread]
  rfl

/-- **Unknown tokens are harmless** but for their report. -/
theorem harmless_unknown : Session.Harmless Machine.TakesUnknown where
  starts := by
    rintro x a w ⟨⟩
    exact ⟨' ', _, rfl, rfl⟩
  traceable := by
    rintro x a w ⟨-, hfind, -⟩ -
    exact Memory.label_eq_ok_of_find_none hfind
  passes := by
    rintro x a w restart depth back x' ⟨htoken, hfind, hread⟩ hasks hloops hx'
    rename_i token
    have ht : Traceable x := fun _ => Memory.label_eq_ok_of_find_none hfind
    have hgap : ∀ y ∈ [' '], isDelimiter y = true := List.forall_mem_singleton.mpr rfl
    have htext : ' ' :: (token.toList ++ [' ']) ++ w = [' '] ++ (token.toList ++ ' ' :: w) := by
      simp
    rw [htext] at hx'
    obtain ⟨y, hpath, hy, hshown⟩ := Session.path_of_token (' ' :: w)
      [(.program, s!"unknown token: {token}\n")] restart back hasks hloops ht hx' hgap
      htoken rfl fun x₁ hx₁ _ => by
        have hmemory : x₁.memory = x.memory := hx₁.memory
        have hrun := interpretToken_of_unknown (e := execute 0) (hmemory ▸ hfind) hread
        rw [String.ofList_toList]
        exact ⟨0, _, hrun, ⟨rfl, rfl, rfl, rfl, hx₁.holds⟩, rfl⟩
    exact ⟨y, ' ' :: w, hpath, hy, hshown, [' '], [], w, rfl, rfl, hgap, by simp⟩

/-- **Unknown tokens are harmless.** Whatever the lines are of a session, tokens that are unknown
there may be inserted in any places where the outermost loop of `QUIT` asks for a token, in either
mode. The session comes to an end with them if and only if it does without them; then it has the
same rounds, with the same faults, and it leaves the same stacks, the same memory and the same mode.
It has shown the same but for the reports of these tokens, each of them where the token is read. -/
theorem Session.unknown_tokens_are_harmless {restart : Bool} {m : Machine} {text : List Char}
    {edits : List Edit} {s : Source}
    (h : Edited restart Machine.TakesUnknown .between m text edits) (hs : s.Holds text)
    (hfresh : s.rest = [] ↔ m.console.source.rest = []) :
    RunsAlike restart m { m with console.source := s } fun last last' =>
      last.Agrees last' ∧
      Shown edits m.console.transcript.pieces m.console.transcript.pieces
        last.console.transcript.pieces last'.console.transcript.pieces :=
  h.runsAlike harmless_unknown hs hfresh

section Known

open Kernel Session

/-- The lines with unknown tokens: one in the definition, and one behind it. -/
def strayLines : List String := [": GAP FOO  SPACE ; 12x ", "GAP"]

/-- What the addition of a token is. -/
def unknownAddition (token : String) : Addition :=
  ⟨' ' :: (token.toList ++ [' ']), [(.program, s!"unknown token: {token}\n")]⟩

-- the memory is read cell by cell
set_option maxRecDepth 10000 in
/-- Neither token is known to a booted machine. -/
theorem booted_lacks : ∀ token ∈ ["FOO", "12x"], bootedMemory.find token = .ok none := by
  simp only [List.forall_mem_cons, booted_wellFormed.find_eq]
  exact ⟨rfl, rfl, List.forall_mem_nil _⟩

/-- Both tokens stand where the loop asks for a token. -/
theorem edited_strayLines :
    Edited true Machine.TakesUnknown .between (bootedWith gapLines) (Taking.text strayLines)
      [(gapOpen, unknownAddition "FOO"), (gapClosed, unknownAddition "12x")] := by
  have hopen : gapOpen.memory.find "FOO" = .ok none :=
    (booted_wellFormed.find_withWord_hidden (by decide) (by decide) _ _ _).trans
      (booted_lacks _ (by decide))
  have hclosed : gapClosed.memory.find "12x" = .ok none :=
    (booted_wellFormed.find_withWord (by decide) _ _ (.inl (by decide))).trans
      (booted_lacks _ (by decide))
  exact edited_gapLines Machine.TakesUnknown (unknownAddition "FOO") (unknownAddition "12x")
    (fun w => .token (by decide) hopen (by decide)) (.token (by decide) hclosed (by decide))

/-- The session with the unknown tokens reports them, and else it shows the same. -/
theorem stray_tokens_are_harmless :
    let s : Source := { pending := strayLines }
    (∃ x x', Edited true Machine.TakesUnknown .between (bootedWith gapLines)
      (Taking.text strayLines) [(x, unknownAddition "FOO"), (x', unknownAddition "12x")]) ∧
    s.Holds (Taking.text strayLines) ∧
    (s.rest = [] ↔ (bootedWith gapLines).console.source.rest = []) ∧
    ∃ ends last last', RunsTo true (bootedWith gapLines) ends (.ok ()) last ∧
      RunsTo true (bootedWith strayLines) ends (.ok ()) last' ∧ last.Agrees last' ∧
      last'.console.transcript.pieces = [(.program, " "), (.program, "unknown token: 12x\n"),
        (.program, "unknown token: FOO\n")] := by
  intro s
  have hs : s.Holds (Taking.text strayLines) := .of_reader rfl (.inl rfl) (by decide)
  have hfresh : s.rest = [] ↔ (bootedWith gapLines).console.source.rest = [] := Iff.rfl
  obtain ⟨ends, last, hruns, hpieces⟩ := runsTo_gapLines
  obtain ⟨last', hruns', hagrees, new, hnew, new', hnew', new'', hlast, hlast'⟩ :=
    (Session.unknown_tokens_are_harmless edited_strayLines hs hfresh).along hruns
  refine ⟨⟨_, _, edited_strayLines⟩, hs, hfresh, ends, last, last', hruns, hruns', hagrees, ?_⟩
  -- nothing has been shown before either of them
  have hnone : gapOpen.console.transcript.pieces = [] := rfl
  have hnone' : gapClosed.console.transcript.pieces = [] := rfl
  rw [hnone] at hnew hnew'
  rw [hpieces, hnone', List.append_nil] at hlast
  rw [hnone', List.append_nil] at hnew'
  have hnew : new = [] := (List.append_eq_nil_iff.mp hnew.symm).1
  rw [hlast', ← hlast, ← hnew', hnew]
  rfl

/-- The loop asks for a token in that place too where it has been patched. -/
theorem patched_place_takes_unknown : ∃ x,
    Path true .between (patchingWith ["!"]) [.ok ()] (.within 0 none) x ∧ x.Asks 0 ∧
      x.console.source.Holds "\n".toList ∧
      x.TakesUnknown (unknownAddition "FOO") "\n".toList := by
  have hfind : patched.memory.find "FOO" = .ok none :=
    (find_patched "FOO").trans (booted_lacks _ (by decide))
  exact ⟨patched, path_patched, ⟨rfl, rfl⟩, patched_holds, .token (by decide) hfind (by decide)⟩

/-- An unknown token in a place where the loop of `QUIT` asks for a token, when it does not go back
any more: after each token a space is printed, so that one more is shown besides the report. -/
theorem unknown_token_shows_more_where_quit_is_patched :
    let m := patchingWith ["!"]
    let m' := patchingWith ["! FOO "]
    m.memory.WellFormed bootedHeaders ∧
    (∃ x, Path true .between m [.ok ()] (.within 0 none) x ∧ x.Asks 0 ∧
      x.console.source.Holds "\n".toList ∧
      x.TakesUnknown (unknownAddition "FOO") "\n".toList) ∧
    m.console.source.Holds ("!".toList ++ "\n".toList) ∧
    m'.console.source.Holds ("!".toList ++ ((unknownAddition "FOO").text ++ "\n".toList)) ∧
    (∃ ends last, RunsTo true m ends (.ok ()) last ∧
      last.console.transcript.pieces = [(.program, " ")]) ∧
    (∃ ends last, RunsTo true m' ends (.ok ()) last ∧ last.console.transcript.pieces =
      [(.program, " "), (.program, "unknown token: FOO\n"), (.program, " ")]) ∧
    ¬ RunsAlike true m m' fun last last' => ∃ x, Shown [(x, unknownAddition "FOO")] [] []
      last.console.transcript.pieces last'.console.transcript.pieces := by
  intro m m'
  have hshows : endsWell (fun _ last => last.console.transcript.pieces =
      [(.program, " "), (.program, "unknown token: FOO\n"), (.program, " ")])
      (Session.run 20 true (patchingWith ["! FOO "])) = true := by
    decide +kernel
  obtain ⟨ends', last', hruns', hpieces'⟩ := exists_runsTo_shown hshows
  obtain ⟨ends, last, hruns, hpieces⟩ := runsTo_patching
  refine ⟨booted_wellFormed, patched_place_takes_unknown, .of_reader rfl (.inl rfl) (by decide),
    .of_reader rfl (.inl rfl) (by decide), ⟨ends, last, hruns, hpieces⟩,
    ⟨ends', last', hruns', hpieces'⟩, fun h => ?_⟩
  -- with the report, there would be one piece more than without it
  obtain ⟨x, new, hnew, new', hlast, hlast'⟩ := h.rel hruns hruns'
  rw [hpieces, hnew] at hlast
  rw [hpieces'] at hlast'
  have hlength := congrArg List.length hlast
  have hlength' := congrArg List.length hlast'
  simp only [unknownAddition, List.length_append, List.length_cons, List.length_nil]
    at hlength hlength'
  omega

end Known

end ThreadedForth
