import ThreadedForth.Proofs.Session.Lockstep
import ThreadedForth.Proofs.Source.Delivery

/-!
# Texts that are fed and texts that are streamed

A text may be fed, or a stream may hold it (`Console.fed`, `Console.streaming`). Both deliver the
same characters exactly if only line feeds end lines in it, and the same tokens exactly if nothing
but line feeds and carriage returns does (`feed_agrees_with_stream`). A form feed, for one, ends a
line of a text that is fed, but in a stream it belongs to a token (`form_feed_parts_a_token`).

Where the same lines are to come, fed or streamed, whole sessions go in lockstep (`sameLines`).
-/

namespace ThreadedForth

open ThreadedForth.Action

/-! ## The same lines to come -/

/-- Two consoles at the same place, with the same lines to come. -/
structure Console.SameLines (c c' : Console) : Prop where
  upcoming : ∃ ls, c.source.Upcoming ls ∧ c'.source.Upcoming ls
  rest : c'.source.rest = c.source.rest
  lineCount : c'.source.lineCount = c.source.lineCount
  transcript : c'.transcript = c.transcript

namespace Console.SameLines

variable {c c' : Console}

theorem symm (h : c.SameLines c') : c'.SameLines c :=
  ⟨h.upcoming.imp fun _ hls => hls.symm, h.rest.symm, h.lineCount.symm, h.transcript.symm⟩

theorem refill (h : c.SameLines c') (host host' : Attendant) :
    Agree SameLines (fun _ => SameLines) (Reading.refill host c) (Reading.refill host' c') := by
  obtain ⟨ls, hleft, hright⟩ := h.upcoming
  cases ls with
  | nil =>
    obtain ⟨s, hs, hupcoming, hrest, hcount⟩ := Reading.refill_of_nothing host hleft
    obtain ⟨s', hs', hupcoming', hrest', hcount'⟩ := Reading.refill_of_nothing host' hright
    rw [hs, hs']
    exact .error ⟨⟨[], hupcoming, hupcoming'⟩, hrest'.trans (h.rest.trans hrest.symm),
      hcount'.trans (h.lineCount.trans hcount.symm), h.transcript⟩
  | cons line ls =>
    obtain ⟨s, hs, hupcoming, hrest, hcount⟩ := Reading.refill_of_upcoming host hleft
    obtain ⟨s', hs', hupcoming', hrest', hcount'⟩ := Reading.refill_of_upcoming host' hright
    rw [hs, hs']
    exact .ok ⟨⟨ls, hupcoming, hupcoming'⟩, hrest'.trans hrest.symm,
      hcount'.trans ((congrArg (· + 1) h.lineCount).trans hcount.symm), h.transcript⟩

end Console.SameLines

/-- Consoles with the same lines to come deliver the same. -/
def sameLinesLink : Link :=
  .lossless Console.SameLines (fun _ _ => True) (fun h => h.rest)
    (fun _ _ _ h => ⟨h.upcoming, rfl, h.lineCount, h.transcript⟩)
    (fun voice text h =>
      ⟨h.upcoming, h.rest, h.lineCount, congrArg (·.write voice text) h.transcript⟩)
    fun _ h => h.refill _ _

/-- Machines that are the same but for where the lines come from. -/
def sameLines : Coupling :=
  .withReturns sameLinesLink.feed (fun _ _ => true) (fun _ _ => True) (fun _ _ _ _ => trivial)
    fun _ _ _ _ _ => trivial

theorem sameLines_symm {m m' : Machine} (h : sameLines.Rel m m') : sameLines.Rel m' m :=
  ⟨h.core.symm, h.tracing.symm, h.remarks.symm, h.back.symm, Console.SameLines.symm h.console⟩

/-! ## Sessions -/

/-- Two machines in the same state, after sessions in which the same has appeared before the user.
-/
structure Machine.Alike (m m' : Machine) : Prop extends m.SameState m' where
  transcript : m'.console.transcript = m.console.transcript

/-- The outcomes are the same and the machines alike, or neither run has come to an end. -/
def Session.SameEnd (left right : EStateM.Result Stop Machine Unit) : Prop :=
  Agree Machine.Alike (fun _ => Machine.Alike) left right ∨
    (∃ m, left = .error .exhausted m) ∧ ∃ m, right = .error .exhausted m

theorem alike_of_sameLines {m m' : Machine} (h : sameLines.Rel m m') : m.Alike m' :=
  ⟨h.sameState h.back h.console.lineCount, h.console.transcript⟩

theorem run_locked (bound : Nat) (restart : Bool) :
    sameLines.Keeps (Session.run bound restart) (Session.run bound restart) := by
  have hquit : sameLines.Keeps (execute bound Kernel.quitToken)
      (execute bound Kernel.quitToken) :=
    executeWatched_true bound Kernel.quitToken ▸ sameLines.execute bound Kernel.quitToken
  rw [Session.run, Session.runWithin_eq_drive]
  exact Coupling.keeps_drive hquit rfl restart bound

/-- Where the same lines are to come, sessions end the same. -/
theorem run_sameEnd (bound : Nat) (restart : Bool) {m m' : Machine} (h : sameLines.Rel m m') :
    Session.SameEnd (Session.run bound restart m) (Session.run bound restart m') := by
  have hlocked := (run_locked bound restart).along
  rcases hlocked m m' h with hgone | hagree
  · -- the relation is symmetric, so the run on the right may be taken for the one on the left
    rcases hlocked m' m (sameLines_symm h) with hgone' | hagree
    · exact .inr ⟨hgone.exhausted fun _ => id, hgone'.exhausted fun _ => id⟩
    · refine .inl (Agree.symm (hagree.imp (fun _ _ hm => ?_) fun _ _ _ hm => ?_))
      · exact alike_of_sameLines (sameLines_symm hm)
      · exact alike_of_sameLines (sameLines_symm hm)
  · exact .inl (hagree.imp (fun _ _ => alike_of_sameLines) fun _ _ _ => alike_of_sameLines)

/-! ## Feeding and streaming -/

namespace Console

/-- The console with a text that was fed to it, and with no reader. -/
def fed (c : Console) (text : String) : Console :=
  { c with source := { c.source with pending := [], reader := none }.feed text }

/-- The console with a reader on a stream that holds a text. -/
def streaming (c : Console) (text : String) : Console :=
  { c with source := { c.source with
      pending := [], reader := some (.ofLines (Text.streamLines text)) } }

theorem upcoming_fed (c : Console) (text : String) :
    (c.fed text).source.Upcoming (Text.lines text) := .inl ⟨rfl, rfl⟩

theorem upcoming_streaming (c : Console) (text : String) :
    (c.streaming text).source.Upcoming (Text.streamLines text) := .inr ⟨rfl, rfl⟩

theorem sameLines_fed (c : Console) {text : String}
    (h : ∀ x ∈ text.toList, CharSet.lineEnds.contains x = true → x = '\n') :
    (c.fed text).SameLines (c.streaming text) := by
  have hlines : Text.lines text = Text.streamLines text := by
    rw [Text.lines, Text.streamLines, Text.splitLines_eq_splitStream h]
  exact ⟨⟨_, c.upcoming_fed text, hlines ▸ c.upcoming_streaming text⟩, rfl, rfl, rfl⟩

end Console

namespace Text

/-- The characters of the lines that are fed. -/
theorem joined_lines (text : String) :
    joined ((lines text).map String.toList) = joined (splitLines text.toList) := by
  simp [lines]

theorem joined_streamLines (text : String) :
    joined ((streamLines text).map String.toList) = joined (splitStream text.toList) := by
  simp [streamLines]

/-- The lines have the same characters if only line feeds end lines. -/
theorem joined_splitLines_iff (cs : List Char) :
    joined (splitLines cs) = joined (splitStream cs) ↔
      ∀ c ∈ cs, CharSet.lineEnds.contains c = true → c = '\n' := by
  refine ⟨fun h c hc hend => ?_, fun h => by rw [splitLines_eq_splitStream h]⟩
  have hfilter := congrArg (List.filter fun c => ! decide (c = '\n')) h
  rw [(broken_splitLines cs).filter_joined (p := (· = '\n')) rfl,
    (broken_splitStream cs).filter_joined (p := (· = '\n')) rfl] at hfilter
  by_contra hne
  have hmem : c ∈ cs.filter fun c => ! (decide (c = '\n') || decide (c = '\n')) := by
    simpa [hne] using hc
  rw [← hfilter] at hmem
  simp [hend] at hmem

/-- Of the characters that end lines, line feeds and carriage returns separate tokens. -/
theorem isDelimiter_of_lineEnd {c : Char} (h : CharSet.lineEnds.contains c = true) :
    Source.isDelimiter c = true ↔ c = '\n' ∨ c = '\r' := by
  have hcode (d : Char) : c = d ↔ c.toNat = d.toNat :=
    ⟨congrArg Char.toNat, fun h => Char.ext (UInt32.toNat_inj.mp h)⟩
  rw [CharSet.contains_eq_true_iff] at h
  rw [Source.isDelimiter, CharSet.contains_eq_true_iff, hcode, hcode]
  simp only [CharSet.lineEnds, CharSet.delimiters, List.mem_cons, List.not_mem_nil, or_false,
    exists_eq_or_imp, exists_eq_left] at h ⊢
  have hfeed : '\n'.toNat = 10 := rfl
  have hreturn : '\r'.toNat = 13 := rfl
  omega

/-- The lines have the same tokens if those characters separate tokens that end lines. -/
theorem tokens_splitLines_iff (cs : List Char) :
    tokens Source.isDelimiter (joined (splitLines cs)) =
        tokens Source.isDelimiter (joined (splitStream cs)) ↔
      ∀ c ∈ cs, CharSet.lineEnds.contains c = true → c = '\n' ∨ c = '\r' := by
  rw [(broken_splitLines cs).tokens_joined rfl, (broken_splitStream cs).tokens_joined rfl]
  refine ⟨fun h c hc hend => ?_, fun h => tokens_congr fun c hc => ?_⟩
  · have hflatten := congrArg List.flatten h
    rw [flatten_tokens, flatten_tokens] at hflatten
    rw [← isDelimiter_of_lineEnd hend]
    by_contra hnot
    have hfeed : c ≠ '\n' := fun heq => hnot ((isDelimiter_of_lineEnd hend).mpr (.inl heq))
    have hmem : c ∈ cs.filter fun c => ! (Source.isDelimiter c || decide (c = '\n')) := by
      simpa [hfeed, Bool.eq_false_iff.mpr hnot] using hc
    rw [← hflatten] at hmem
    simp [hend] at hmem
  · cases hend : CharSet.lineEnds.contains c with
    | true => rw [(isDelimiter_of_lineEnd hend).mpr (h c hc hend), Bool.true_or, Bool.true_or]
    | false =>
      have hfeed : c ≠ '\n' := by
        rintro rfl
        exact absurd hend (by decide)
      rw [decide_eq_false hfeed]

end Text

open Reading

/-- **Feeding and streaming a text.** The same characters are delivered exactly if only line feeds
end lines in the text, and the same tokens exactly if only line feeds and carriage returns do. If
only line feeds do, whole sessions end the same. -/
theorem feed_agrees_with_stream (text : String) (c : Console) (host : Attendant) :
    (∃ xs ys, Delivers (nextChar host) (c.fed text) xs ∧
      Delivers (nextChar host) (c.streaming text) ys ∧
      (xs = ys ↔ ∀ x ∈ text.toList, CharSet.lineEnds.contains x = true → x = '\n')) ∧
    (∃ xs ys, Delivers (nextToken host) (c.fed text) xs ∧
      Delivers (nextToken host) (c.streaming text) ys ∧
      (xs = ys ↔
        ∀ x ∈ text.toList, CharSet.lineEnds.contains x = true → x = '\n' ∨ x = '\r')) ∧
    ((∀ x ∈ text.toList, CharSet.lineEnds.contains x = true → x = '\n') →
      ∀ (m : Machine) (bound : Nat) (restart : Bool),
        Session.SameEnd (Session.run bound restart { m with console := c.fed text })
          (Session.run bound restart { m with console := c.streaming text })) := by
  refine ⟨⟨_, _, delivers_chars host (c.upcoming_fed text),
    delivers_chars host (c.upcoming_streaming text), ?_⟩, ⟨_, _,
    delivers_tokens host (c.upcoming_fed text),
    delivers_tokens host (c.upcoming_streaming text), ?_⟩, fun h m bound restart => ?_⟩
  · rw [Text.joined_lines, Text.joined_streamLines, ← Text.joined_splitLines_iff]
    exact List.append_right_inj _
  · rw [Text.joined_lines, Text.joined_streamLines, ← Text.tokens_splitLines_iff]
    refine (List.append_right_inj _).trans (List.map_inj_right fun cs ds hcs => ?_)
    exact String.ofList_injective hcs
  · exact run_sameEnd bound restart ⟨rfl, rfl, rfl, rfl, c.sameLines_fed h⟩

/-- A form feed ends a line of a text that is fed, and so the token before it. In a stream it is
part of the token. -/
theorem form_feed_parts_a_token :
    Delivers (nextToken .silent) (({} : Console).fed "a\x0cb") ["a", "b"] ∧
      Delivers (nextToken .silent) (({} : Console).streaming "a\x0cb") ["a\x0cb"] := by
  refine ⟨?_, ?_⟩
  · exact delivers_tokens .silent (({} : Console).upcoming_fed "a\x0cb")
  · exact delivers_tokens .silent (({} : Console).upcoming_streaming "a\x0cb")

end ThreadedForth
