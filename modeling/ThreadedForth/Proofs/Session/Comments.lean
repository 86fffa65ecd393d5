import ThreadedForth.Proofs.Compiler.Booted
import ThreadedForth.Proofs.Session.Insertion
import ThreadedForth.Proofs.Session.Strings

/-!
# Comments

A comment may stand wherever the outermost loop of `QUIT` asks for a token, in either mode, and in
as many places as one likes: `( … )`, which may go on over several lines, and `\ …` at the end of a
line (`Machine.TakesComment`). A session comes to the same with comments as without them, and shows
the same (`Session.comments_are_invisible`).

This takes that the loop of `QUIT` is whole there. A program may overwrite the distance that the
loop goes back, so that something happens between two tokens. Then a comment shows in that it
happens once more (`comment_shows_where_quit_is_patched`).
-/

namespace ThreadedForth

open ThreadedForth.Action ThreadedForth.Source

/-- A comment can be added here, in front of this text. Its word is that of the kernel, it is
closed, and dispatches can be logged if they are to be. -/
inductive Machine.TakesComment (x : Machine) : Addition → List Char → Prop
  | bracketed {c w : List Char} (hc : ')' ∉ c) (ht : Traceable x)
    (hword : x.memory.NamesImmediate "(" [.native (.primitive (.text .comment))])
    (hkey : x.memory.Intact (.input .key)) :
    TakesComment x ⟨" ( ".toList ++ (c ++ ") ".toList), []⟩ w
  | line {c blanks more : List Char} (hc : '\n' ∉ c) (ht : Traceable x)
    (hword : x.memory.NamesImmediate "\\" [.native (.primitive (.text .lineComment))])
    (hline : '\n' ∉ blanks) (hblanks : ∀ y ∈ blanks, isDelimiter y = true) :
    TakesComment x ⟨" \\ ".toList ++ c, []⟩ (blanks ++ '\n' :: more)

variable {x x₁ : Machine} {a : Addition} {c w more : List Char} {header : Int} {b : Nat}

/-- Characters are taken one after the other from the text that a source holds. -/
theorem Source.Holds.passes {c : Console} {xs : List Char} (host : Attendant)
    (h : c.source.Holds (xs ++ more)) :
    ∃ s, Reading.Passes (Reading.nextChar host) c xs { c with source := s } ∧ s.Holds more := by
  induction xs generalizing c with
  | nil => exact ⟨c.source, .nil c, h⟩
  | cons y xs ih =>
    obtain ⟨s, hnext, hs, -⟩ := h.nextChar host
    obtain ⟨s', hrest, hs'⟩ := ih (c := { c with source := s }) hs
    exact ⟨s', .cons hnext hrest, hs'⟩

/-- The word of a bracketed comment reads up to the bracket. -/
theorem execute_comment (ht : Traceable x₁) (hkey : x₁.memory.Intact (.input .key))
    (hcode : x₁.memory.get (.int (header + headerSize)) =
      .ok (.native (.primitive (.text .comment))))
    (hc : ')' ∉ c) (hholds : x₁.console.source.Holds (c ++ ')' :: more)) (hb : c.length < b + 1) :
    ∃ x₂, execute (b + 2) (.token (header + headerSize)) x₁ = .ok () x₂ ∧ x₁.Stands more x₂ ∧
      x₂.console.transcript = x₁.console.transcript := by
  have hholds : x₁.console.source.Holds ((c ++ [')']) ++ more) := by simpa using hholds
  obtain ⟨s, hpasses, hs⟩ := hholds.passes x₁.attendant
  have hattains : Attains (execute (b + 2) (.token (header + headerSize))) x₁ () x₁.data
      { x₁.console with source := s } := by
    refine attains_execute ht hcode fun m₁ hm₁ => ?_
    rw [← hm₁.attendant, ← hm₁.console] at hpasses
    have hread : Attains (readUntil (execute (b + 1)) ')' (b + 1) []) m₁ _ _ _ :=
      attains_readUntil (hm₁.traceable ht) (hm₁.memory ▸ hkey) hc hpasses b hb
    rw [hm₁.data, hm₁.console] at hread
    exact hread.bind fun m₂ hm₂ => hm₂.data ▸ hm₂.console ▸ attains_pure ()
  obtain ⟨x₂, hrun, hx₂⟩ := hattains
  refine ⟨x₂, hrun, ⟨?_, hx₂.tracing, hx₂.remarks, hx₂.returns, ?_⟩, ?_⟩
  · rw [Machine.core, Machine.core, hx₂.data, hx₂.memory, hx₂.mode, hx₂.ip]
  · rw [hx₂.console]
    exact hs
  · rw [hx₂.console]

/-- The word of a comment at the end of a line drops the rest of the line. -/
theorem execute_lineComment (ht : Traceable x₁)
    (hcode : x₁.memory.get (.int (header + headerSize)) =
      .ok (.native (.primitive (.text .lineComment))))
    (hc : '\n' ∉ c) (hholds : x₁.console.source.Holds (c ++ '\n' :: more))
    (hrest : x₁.console.source.rest ≠ []) (b : Nat) :
    ∃ x₂, execute (b + 1) (.token (header + headerSize)) x₁ = .ok () x₂ ∧ x₁.Stands more x₂ ∧
      x₂.console.transcript = x₁.console.transcript := by
  obtain ⟨log, hexecute, -⟩ := execute_of_perform b ht hcode
  exact ⟨_, hexecute _ rfl rfl, ⟨rfl, rfl, rfl, rfl, hholds.skipLine hc hrest⟩, rfl⟩

/-- **Comments are harmless** where they fit. -/
theorem harmless_comments : Session.Harmless Machine.TakesComment where
  starts h := by
    cases h with
    | bracketed => exact ⟨' ', _, rfl, rfl⟩
    | line => exact ⟨' ', _, rfl, rfl⟩
  traceable h := by
    cases h with
    | bracketed _ ht => exact ht
    | line _ ht => exact ht
  passes := by
    intro x a w restart depth back x' hfits hasks hloops hx'
    have hgap : ∀ y ∈ [' '], isDelimiter y = true := List.forall_mem_singleton.mpr rfl
    cases hfits with
    | @bracketed c _ hc ht hword hkey =>
      obtain ⟨header, ⟨hfind, hcode⟩, himmediate⟩ := hword
      have htext : " ( ".toList ++ (c ++ ") ".toList) ++ w =
          [' '] ++ (['('] ++ ' ' :: (c ++ ')' :: ' ' :: w)) := by simp
      rw [htext] at hx'
      obtain ⟨y, hpath, hy, hshown⟩ := Session.path_of_token (' ' :: w) [] restart back
        hasks hloops ht hx' hgap (by decide) rfl fun x₁ hx₁ _ => by
          have hmemory : x₁.memory = x.memory := hx₁.memory
          have hc' : ')' ∉ ' ' :: c := by simp [hc]
          obtain ⟨x₂, hrun, hx₂, hsame⟩ := execute_comment (hx₁.traceable ht) (hmemory ▸ hkey)
            (hmemory ▸ hcode.1) hc' hx₁.holds (Nat.lt_succ_self _)
          have htoken := interpretToken_of_immediate (e := execute (c.length + 3))
            (hmemory ▸ hfind) (hmemory ▸ himmediate)
          exact ⟨_, x₂, htoken.trans hrun, hx₂, congrArg Transcript.pieces hsame⟩
      exact ⟨y, ' ' :: w, hpath, hy, hshown, [' '], [], w, rfl, rfl, hgap, by simp⟩
    | @line c blanks more hc ht hword hline hblanks =>
      obtain ⟨header, ⟨hfind, hcode⟩, himmediate⟩ := hword
      have htext : " \\ ".toList ++ c ++ (blanks ++ '\n' :: more) =
          [' '] ++ (['\\'] ++ ' ' :: (c ++ (blanks ++ '\n' :: more))) := by simp
      rw [htext] at hx'
      obtain ⟨y, hpath, hy, hshown⟩ := Session.path_of_token more [] restart back
        hasks hloops ht hx' hgap (by decide) rfl fun x₁ hx₁ hrest => by
          have hmemory : x₁.memory = x.memory := hx₁.memory
          have hc' : '\n' ∉ ' ' :: (c ++ blanks) := by simp [hc, hline]
          have hholds : x₁.console.source.Holds (' ' :: (c ++ blanks) ++ '\n' :: more) := by
            simpa using hx₁.holds
          obtain ⟨x₂, hrun, hx₂, hsame⟩ := execute_lineComment (hx₁.traceable ht)
            (hmemory ▸ hcode.1) hc' hholds hrest 0
          have htoken := interpretToken_of_immediate (e := execute 1)
            (hmemory ▸ hfind) (hmemory ▸ himmediate)
          exact ⟨_, x₂, htoken.trans hrun, hx₂, congrArg Transcript.pieces hsame⟩
      refine ⟨y, more, hpath, hy, hshown, [], blanks ++ ['\n'], more, rfl, by simp, by simp, ?_⟩
      rintro y hy
      rcases List.mem_append.mp hy with hy | hy
      · exact hblanks y hy
      · obtain rfl := List.mem_singleton.mp hy
        rfl

/-- **Comments are invisible.** Whatever the lines are of a session, comments may be inserted in any
places where the outermost loop of `QUIT` asks for a token, in either mode. The session comes to an
end with them if and only if it does without them; then it has the same rounds, with the same
faults, and it leaves the same stacks, the same memory and the same mode, and has shown the same. -/
theorem Session.comments_are_invisible {restart : Bool} {m : Machine} {text : List Char}
    {edits : List Edit} {s : Source}
    (h : Edited restart Machine.TakesComment .between m text edits) (hs : s.Holds text)
    (hfresh : s.rest = [] ↔ m.console.source.rest = []) :
    RunsAlike restart m { m with console.source := s } fun last last' =>
      last.Agrees last' ∧ last'.console.transcript = last.console.transcript := by
  refine (h.runsAlike harmless_comments hs hfresh).imp fun last last' ⟨hagrees, hshown⟩ => ?_
  have hnothing : ∀ e ∈ edits, e.2.shown = [] := by
    rintro ⟨x, a⟩ he
    obtain ⟨w, hfits⟩ := h.exists_fits _ he
    cases hfits <;> rfl
  have hpieces := hshown.eq hnothing
  exact ⟨hagrees, congrArg Transcript.mk hpieces⟩

/-! ## Known comments -/

section Known

open Kernel Session

-- the memory is read cell by cell
set_option maxRecDepth 10000 in
/-- The words for comments are found on a booted machine. -/
theorem booted_comments :
    bootedMemory.NamesImmediate "(" [.native (.primitive (.text .comment))] ∧
      bootedMemory.NamesImmediate "\\" [.native (.primitive (.text .lineComment))] :=
  ⟨⟨header (.text .comment), ⟨(booted_wellFormed.find_eq _).trans rfl, by decide⟩, rfl⟩,
    header (.text .lineComment), ⟨(booted_wellFormed.find_eq _).trans rfl, by decide⟩, rfl⟩

/-- The lines with comments: one in the definition, which goes on over the end of the line, and one
behind it. -/
def commentedLines : List String := [": GAP ( ", "-- )  SPACE ; \\ shown", "GAP"]

/-- Both comments stand where the loop asks for a token. -/
theorem edited_commentedLines :
    Edited true Machine.TakesComment .between (bootedWith gapLines) (Taking.text commentedLines)
      [(gapOpen, ⟨" ( \n-- ) ".toList, []⟩), (gapClosed, ⟨" \\ shown".toList, []⟩)] := by
  have hopen : gapOpen.memory.Extends bootedMemory :=
    booted_wellFormed.extends_withWord "GAP" (by decide) []
  have hclosed : gapClosed.memory.Extends bootedMemory :=
    booted_wellFormed.extends_withWord "GAP" (by decide) [.token 516, exitToken]
  have hbracket : gapOpen.memory.NamesImmediate "(" [.native (.primitive (.text .comment))] :=
    booted_comments.1.of_find hopen
      (booted_wellFormed.find_withWord_hidden (by decide) (by decide) _ _ _)
  have hline : gapClosed.memory.NamesImmediate "\\" [.native (.primitive (.text .lineComment))] :=
    booted_comments.2.of_find hclosed
      (booted_wellFormed.find_withWord (by decide) _ _ (.inl (by decide)))
  have hkey : gapOpen.memory.Intact (.input .key) :=
    hopen.retains _ _ (booted_hasCompiler.primitives _ (by decide))
  have hfits : gapClosed.TakesComment ⟨" \\ ".toList ++ "shown".toList, []⟩
      ([] ++ '\n' :: "GAP\n".toList) :=
    .line (by decide) nofun hline (by decide) (List.forall_mem_nil _)
  exact edited_gapLines Machine.TakesComment
    ⟨" ( ".toList ++ ("\n-- ".toList ++ ") ".toList), []⟩ ⟨" \\ ".toList ++ "shown".toList, []⟩
    (fun w => .bracketed (by decide) nofun hbracket hkey) hfits

/-- The session with the comments shows the same. -/
theorem gap_comments_are_invisible :
    let s : Source := { pending := commentedLines }
    (∃ x x', Edited true Machine.TakesComment .between (bootedWith gapLines)
      (Taking.text commentedLines)
      [(x, ⟨" ( \n-- ) ".toList, []⟩), (x', ⟨" \\ shown".toList, []⟩)]) ∧
    s.Holds (Taking.text commentedLines) ∧
    (s.rest = [] ↔ (bootedWith gapLines).console.source.rest = []) ∧
    ∃ ends last last', RunsTo true (bootedWith gapLines) ends (.ok ()) last ∧
      RunsTo true (bootedWith commentedLines) ends (.ok ()) last' ∧
      last.Agrees last' ∧ last'.console.transcript.pieces = [(.program, " ")] := by
  intro s
  have hs : s.Holds (Taking.text commentedLines) := .of_reader rfl (.inl rfl) (by decide)
  have hfresh : s.rest = [] ↔ (bootedWith gapLines).console.source.rest = [] := Iff.rfl
  obtain ⟨ends, last, hruns, hpieces⟩ := runsTo_gapLines
  obtain ⟨last', hruns', hagrees, hshown⟩ :=
    (Session.comments_are_invisible edited_commentedLines hs hfresh).along hruns
  exact ⟨⟨_, _, edited_commentedLines⟩, hs, hfresh, ends, last, last', hruns, hruns', hagrees,
    (congrArg Transcript.pieces hshown).trans hpieces⟩

-- the memory is read cell by cell
set_option maxRecDepth 10000 in
/-- The loop asks for a token there, and a comment could stand in its place. -/
theorem patched_place_takes_comment : ∃ x,
    Path true .between (patchingWith ["!"]) [.ok ()] (.within 0 none) x ∧ x.Asks 0 ∧
      x.tracing = false ∧ x.console.source.Holds "\n".toList ∧
      x.TakesComment ⟨" ( c ) ".toList, []⟩ "\n".toList := by
  have hfind : bootedMemory.find "(" = .ok (some (.int (header (.text .comment)))) :=
    (booted_wellFormed.find_eq _).trans rfl
  have hword : patched.memory.NamesImmediate "(" [.native (.primitive (.text .comment))] :=
    ⟨_, ⟨(find_patched _).trans hfind, by decide +kernel⟩, by decide +kernel⟩
  exact ⟨patched, path_patched, ⟨rfl, rfl⟩, rfl, patched_holds,
    .bracketed (c := "c ".toList) (by decide) nofun hword (by decide +kernel)⟩

/-- A comment in a place where the loop of `QUIT` asks for a token, when it does not go back any
more: after each token a space is printed, so that there is one more with the comment. -/
theorem comment_shows_where_quit_is_patched :
    let m := patchingWith ["!"]
    let m' := patchingWith ["! ( c ) "]
    (∃ x, Path true .between m [.ok ()] (.within 0 none) x ∧ x.Asks 0 ∧ x.tracing = false ∧
      x.console.source.Holds "\n".toList ∧ x.TakesComment ⟨" ( c ) ".toList, []⟩ "\n".toList) ∧
    m.console.source.Holds ("!".toList ++ "\n".toList) ∧
    m'.console.source.Holds ("!".toList ++ (" ( c ) ".toList ++ "\n".toList)) ∧
    (∃ ends last, RunsTo true m ends (.ok ()) last ∧
      last.console.transcript.pieces = [(.program, " ")]) ∧
    (∃ ends last, RunsTo true m' ends (.ok ()) last ∧
      last.console.transcript.pieces = [(.program, " "), (.program, " ")]) ∧
    ¬ RunsAlike true m m' fun last last' =>
      last'.console.transcript = last.console.transcript := by
  intro m m'
  have hshows : endsWell (fun _ last => last.console.transcript.pieces =
      [(.program, " "), (.program, " ")])
      (Session.run 20 true (patchingWith ["! ( c ) "])) = true := by
    decide +kernel
  obtain ⟨ends', last', hruns', hpieces'⟩ := exists_runsTo_shown hshows
  obtain ⟨ends, last, hruns, hpieces⟩ := runsTo_patching
  refine ⟨patched_place_takes_comment, .of_reader rfl (.inl rfl) (by decide),
    .of_reader rfl (.inl rfl) (by decide), ⟨ends, last, hruns, hpieces⟩,
    ⟨ends', last', hruns', hpieces'⟩, fun h => ?_⟩
  have hsame := congrArg Transcript.pieces (h.rel hruns hruns')
  rw [hpieces, hpieces'] at hsame
  cases hsame

end Known

end ThreadedForth
