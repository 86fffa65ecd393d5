import ThreadedForth.Proofs.Compiler.Booted
import ThreadedForth.Proofs.Compiler.Definition
import ThreadedForth.Proofs.Session.Lockstep
import ThreadedForth.Proofs.Session.Record
import ThreadedForth.Proofs.Session.Waiting

/-!
# Lines in chunks

A list of lines may be interpreted at once by a session, or cut into chunks that are interpreted one
after another. Each chunk is a run of `QUIT` of its own, which is ended at the end of its lines and
leaves the thread. As long as the cuts are where the loop of `QUIT` itself waits for the next token,
and `QUIT` can be started there anew (`Cuts`), it makes no difference (`chunks_agree`).

The session and the run on one chunk go in lockstep (`cutOff`). The session has more lines to come,
and the bottom of its return stack may be another, but that makes no difference before the run stops
at the end of its lines (`takeSteps_cutOff`). Then comes the next chunk, by induction on the cuts
(`Cuts.serve`).

A program may overwrite the code field of `QUIT`. The loop that is running does not look at it
again, but the next chunk does (`overwritten_quit_parts_chunks`).
-/

namespace ThreadedForth

open ThreadedForth.Action ThreadedForth.Session

/-! ## The two runs in lockstep -/

/-- Two consoles at the same place. On the left more lines are to come after those on the right, and
more had appeared before. -/
structure Console.CutOff (later : List String) (before : List (Voice × String)) (c c' : Console) :
    Prop where
  pending : c.source.pending = c'.source.pending ++ later
  alone : c.source.reader = none
  alone' : c'.source.reader = none
  rest : c'.source.rest = c.source.rest
  lineCount : c'.source.lineCount = c.source.lineCount
  pieces : c.transcript.pieces = c'.transcript.pieces ++ before

theorem Console.CutOff.refill {later : List String} {before : List (Voice × String)}
    {c c' : Console} (h : c.CutOff later before c') (host host' : Attendant) :
    Locked (fun c => c.source.reader = none ∧ c.source.pending.length < later.length)
      (Console.CutOff later before) (fun _ => Console.CutOff later before)
      (Reading.refill host c) (Reading.refill host' c') := by
  cases hright : c'.source.pending with
  | cons line lines =>
    have hleft : c.source.pending = line :: (lines ++ later) := by rw [h.pending, hright]; rfl
    rw [Reading.refill_of_pending hleft, Reading.refill_of_pending hright]
    exact .inr (.ok ⟨rfl, h.alone, h.alone', rfl, congrArg (· + 1) h.lineCount, h.pieces⟩)
  | nil =>
    have hleft : c.source.pending = later := by rw [h.pending, hright]; rfl
    cases later with
    | nil =>
      rw [Reading.refill_at_end hleft h.alone, Reading.refill_at_end hright h.alone']
      exact .inr (.error h)
    | cons line lines =>
      -- on the left the first of the later lines is begun, and the runs part
      rw [Reading.refill_of_pending hleft]
      exact .inl ⟨h.alone, Nat.lt_succ_self _⟩

/-- Consoles that deliver the same until the lines on the right are used up. -/
def cutLink (later : List String) (before : List (Voice × String)) : Link where
  rel := Console.CutOff later before
  lost s := s.reader = none ∧ s.pending.length < later.length
  hosts _ _ := True
  rest h := h.rest
  moves _ _ _ h := ⟨h.pending, h.alone, h.alone', rfl, h.lineCount, h.pieces⟩
  writes voice text h := ⟨h.pending, h.alone, h.alone', h.rest, h.lineCount,
    congrArg ((voice, text) :: ·) h.pieces⟩
  refills _ h _ := h.refill _ _
  lost_moves _ _ h := h
  lost_refills host {c} h := by
    cases hp : c.source.pending with
    | nil =>
      rw [Reading.refill_at_end hp h.1]
      exact .inr h
    | cons line lines =>
      rw [Reading.refill_of_pending hp]
      have hless := h.2
      rw [hp] at hless
      exact ⟨h.1, Nat.lt_of_succ_lt hless⟩

/-- The test of a dispatch that it does not take away the entry that `QUIT` has left at the bottom
of the return stack. -/
def keepsEntry : Watch := fun x m =>
  ! (m.behaviour x = some (.primitive (.thread .exit)) && m.returns.length ≤ 1)

/-- Two return stacks with the same entries, but for the one at the bottom. -/
def SameAbove (r r' : List (Option Int)) : Prop :=
  ∃ above entry entry', r = above ++ [entry] ∧ r' = above ++ [entry']

/-- Machines that are the same until the lines on the right are used up. -/
def cutOff (later : List String) (before : List (Voice × String)) : Coupling where
  feed := (cutLink later before).feed
  back := SameAbove
  watch := keepsEntry
  allows n m := n = .primitive (.thread .exit) → 1 < m.returns.length
  allowed {addr n m} current log hwatch hcell hexit := by
    subst hexit
    have hbehaviour : m.behaviour (.token addr) = some (.primitive (.thread .exit)) := by
      rw [Machine.behaviour, hcell]
    simpa [keepsEntry, hbehaviour] using hwatch
  depth := by
    rintro r r' ⟨above, entry, entry', rfl, rfl⟩
    rw [List.length_append, List.length_append]
    rfl
  enters := by
    rintro r r' ip ⟨above, entry, entry', rfl, rfl⟩
    exact ⟨ip :: above, entry, entry', rfl, rfl⟩
  exits := by
    rintro m ip ip' r r' hallows hreturns ⟨above, entry, entry', hleft, hright⟩
    have hdeep := hallows rfl
    rw [hreturns] at hdeep
    cases above with
    | nil =>
      obtain ⟨-, rfl⟩ := List.cons.inj hleft
      exact absurd hdeep (Nat.lt_irrefl 1)
    | cons top above =>
      obtain ⟨rfl, rfl⟩ := List.cons.inj hleft
      obtain ⟨rfl, rfl⟩ := List.cons.inj hright
      exact ⟨rfl, above, entry, entry', rfl, rfl⟩
  attends _ _ _ _ _ := trivial

/-! ## From cut to cut -/

/-- A machine has interpreted the same as one on the left that waits for these lines. -/
structure Machine.CaughtUp (ls : List String) (m m' : Machine) : Prop extends m.Resembles m' where
  lineCount : m'.console.source.lineCount + m'.console.source.pending.length + ls.length =
    m.console.source.lineCount + m.console.source.pending.length

section Stretches

variable {c c' d : Machine} {ls later : List String} {bound k : Nat}

/-- What is taken from the lines on the right goes in lockstep with what is taken on the left. -/
theorem cutOff_rel_of_awaits {s s' : Source} (ip addr addr' : Int) (log log' : List LogRecord)
    (hc : c.Awaits (ls ++ later)) (hd : d.Awaits ls) (hsame : c.CaughtUp later d)
    (hpieces : d.console.transcript.pieces = [])
    (hs : c.console.source.Passes s (ls ++ later)) (hs' : d.console.source.Passes s' ls) :
    (cutOff later c.console.transcript.pieces).Rel
      { c with
        ip := some (ip + 1), current := some addr, log := log,
        console := { c.console with source := s } }
      { d with
        ip := some (ip + 1), current := some addr', log := log',
        console := { d.console with source := s' } } := by
  obtain ⟨back, hback⟩ := List.length_eq_one_iff.mp hc.entry
  obtain ⟨back', hback'⟩ := List.length_eq_one_iff.mp hd.entry
  refine ⟨?_, hsame.tracing, hsame.remarks, ⟨[], back, back', hback, hback'⟩, ?_⟩
  · simp [Machine.core, hsame.data, hsame.memory, hsame.mode]
  · have hcount := hs.lineCount
    have hcount' := hs'.lineCount
    have hlines := hsame.lineCount
    rw [List.length_append] at hcount
    refine ⟨hs.pending.trans (congrArg (· ++ later) hs'.pending.symm), hs.alone, hs'.alone,
      hs'.rest.trans hs.rest.symm, ?_, by rw [hpieces]; rfl⟩
    show s'.lineCount = s.lineCount
    omega

/-- Where the left side waits for the later lines, the right side has come to the end of its own. -/
theorem cutOff_awaits {before : List (Voice × String)} (h : (cutOff later before).Rel c d)
    (hc : c.Awaits later) : d.Awaits [] := by
  obtain ⟨ip, addr, hip, hcell, hnative, hnote⟩ := hc.interprets
  obtain ⟨blanks, hpending, hblanks⟩ := hc.upcoming
  have hmemory := memory_of_core h.core
  have hleft : d.console.source.pending = blanks := by
    rw [h.console.pending] at hpending
    exact List.append_cancel_right hpending
  exact {
    entry := ((cutOff later before).depth h.back).trans hc.entry
    interprets := ⟨ip, addr, (ip_of_core h.core).trans hip, hmemory ▸ hcell, hmemory ▸ hnative,
      fun htracing => hmemory ▸ hnote (h.tracing ▸ htracing)⟩
    alone := h.console.alone'
    rest := h.console.rest ▸ hc.rest
    upcoming := ⟨blanks, by rw [hleft, List.append_nil], hblanks⟩ }

theorem cutOff_caughtUp {before : List (Voice × String)} (h : (cutOff later before).Rel c d) :
    c.CaughtUp later d := by
  refine ⟨⟨data_of_core h.core, memory_of_core h.core, mode_of_core h.core, h.tracing,
    h.remarks⟩, ?_⟩
  rw [h.console.lineCount, h.console.pending, List.length_append]
  omega

/-- A token is taken and interpreted, and more steps are taken. -/
def readOn (invoke : Cell → Action Unit) (bound k : Nat) (next : Cell → Action Unit) :
    Action Unit := do
  interpretToken (executeWith invoke bound) (← nextToken)
  takeSteps next 0 k

theorem keeps_readOn (later : List String) (before : List (Voice × String)) (bound k : Nat) :
    (cutOff later before).Lockstep
      ((cutOff later before).Admits (.primitive (.input .interpret)))
      (readOn (invokeWatched keepsEntry bound) bound k (invokeWatched keepsEntry (bound + 1)))
      (readOn (invoke bound) bound k (invoke (bound + 1))) fun _ => (cutOff later before).Rel := by
  refine (Coupling.keeps_nextToken rfl).bind fun name => Lockstep.bind ?_ fun _ =>
    Coupling.keeps_takeSteps ((cutOff later before).invoke (bound + 1)) 0 k
  exact Coupling.keeps_interpretToken ((cutOff later before).execute bound) name

/-- The steps from where `QUIT` waits. -/
theorem Machine.Awaits.takeSteps (h : c.Awaits ls) (bound k : Nat) (watch : Watch)
    (hwatch : ∀ x m', m'.behaviour x = some (.primitive (.input .interpret)) → watch x m' = true) :
    ∃ s ip addr log, c.ip = some ip ∧ c.console.source.Passes s ls ∧
      Action.takeSteps (invokeWatched watch (bound + 1)) 0 (k + 1) c =
        readOn (invokeWatched watch bound) bound k (invokeWatched watch (bound + 1))
          { c with
            ip := some (ip + 1), current := some addr, log := log,
            console := { c.console with source := s } } := by
  obtain ⟨s, ip, addr, log, hip, hs, hstep⟩ := h.step bound watch hwatch
  refine ⟨s, ip, addr, log, hip, hs, ?_⟩
  rw [takeSteps_of_deeper h.deep, bind_apply, hstep, ← bind_apply, readOn, bind_assoc]

/-- **A stretch up to a cut.** The steps on the left that lead from one cut to the next one are
steps on the right as well, which lead to the end of its lines. -/
theorem takeSteps_cutOff (hc : c.Awaits (ls ++ later)) (hd : d.Awaits ls) (hip : d.ip = c.ip)
    (hsame : c.CaughtUp later d) (hpieces : d.console.transcript.pieces = [])
    (hsteps : takeSteps (invokeWatched keepsEntry (bound + 1)) 0 k c = .ok () c')
    (hc' : c'.Awaits later) :
    ∃ d', takeSteps (invoke (bound + 1)) 0 k d = .ok () d' ∧ d'.Awaits [] ∧ c'.CaughtUp later d' ∧
      c'.console.transcript.pieces =
        d'.console.transcript.pieces ++ c.console.transcript.pieces := by
  obtain ⟨blanks', hpending', hblanks'⟩ := hc'.upcoming
  cases k with
  | zero =>
    -- no step is taken, so all lines up to the cut are without a token
    cases hsteps
    obtain ⟨blanks, hpending, -⟩ := hc.upcoming
    obtain ⟨waiting, hwaiting, hwaits⟩ := hd.upcoming
    have hpassed : blanks' = blanks ++ ls := by
      rw [hpending', ← List.append_assoc] at hpending
      exact List.append_cancel_right hpending
    refine ⟨d, rfl, { hd with upcoming := ⟨waiting ++ ls, ?_, fun l hl => ?_⟩ }, hsame, ?_⟩
    · rw [hwaiting, List.append_nil]
    · rcases List.mem_append.mp hl with hl | hl
      · exact hwaits l hl
      · exact hblanks' l (hpassed ▸ List.mem_append_right _ hl)
    · rw [hpieces]
      rfl
  | succ k =>
    have hinterpret (x : Cell) (m : Machine)
        (h : m.behaviour x = some (.primitive (.input .interpret))) : keepsEntry x m = true := by
      rw [keepsEntry, h]
      rfl
    obtain ⟨s, ip, addr, log, hleftIp, hs, hleft⟩ := hc.takeSteps bound k keepsEntry hinterpret
    obtain ⟨s', ip', addr', log', hrightIp, hs', hright⟩ :=
      hd.takeSteps bound k (fun _ _ => true) fun _ _ _ => rfl
    obtain rfl : ip' = ip := Option.some.inj (hrightIp.symm.trans (hip.trans hleftIp))
    simp only [invokeWatched_true] at hright
    have hboth := (keeps_readOn later c.console.transcript.pieces bound k).along _ _
      ⟨cutOff_rel_of_awaits ip' addr addr' log log' hc hd hsame hpieces hs hs', fun h => by cases h⟩
    rw [← hleft, hsteps, ← hright] at hboth
    rcases hboth with hlost | hagree
    · -- at the cut all later lines are still to come
      have hless : c'.console.source.pending.length < later.length := hlost.2
      rw [hpending', List.length_append] at hless
      omega
    · generalize takeSteps (invoke (bound + 1)) 0 (k + 1) d = right at hagree
      cases hagree with
      | @ok _ _ d' hrel => exact ⟨d', rfl, cutOff_awaits hrel hc', cutOff_caughtUp hrel,
          hrel.console.pieces⟩

end Stretches

/-! ## Chunks -/

/-- The text of a chunk of lines, with a line feed after each. -/
def chunkText (ls : List String) : String := String.join (ls.map (· ++ "\n"))

theorem lines_chunkText {ls : List String} (hls : ∀ l ∈ ls, Text.OneLine l) :
    Text.lines (chunkText ls) = ls := by
  have hchars : (chunkText ls).toList = Text.joined (ls.map String.toList) := by
    simp [chunkText, Text.joined, String.toList_join, List.flatMap_map]
  rw [Text.lines, hchars, Text.splitLines_joined (by simpa [Text.OneLine] using hls)]
  simp

/-- Nothing is left to be read, and no thread to go back to. -/
structure Machine.AtRest (m : Machine) : Prop where
  returns : m.returns = []
  rest : m.console.source.rest = []
  pending : m.console.source.pending = []
  alone : m.console.source.reader = none

section Chunks

variable {c c' r : Machine} {ls later : List String} {bound k : Nat}

theorem Machine.Starts.congr (h : c.Starts) (hmemory : r.memory = c.memory)
    (htracing : r.tracing = c.tracing) : r.Starts :=
  ⟨hmemory ▸ h.enters, fun ht => hmemory ▸ h.noted (htracing ▸ ht)⟩

/-- The machine as `QUIT` finds it when a chunk is interpreted. -/
def Machine.fedChunk (m : Machine) (ls : List String) : Machine :=
  { m with console := {
      source := { m.console.source.feed (chunkText ls) with reader := none }, transcript := {} } }

theorem Machine.AtRest.pending_fedChunk (hr : r.AtRest) (hls : ∀ l ∈ ls, Text.OneLine l) :
    (r.fedChunk ls).console.source.pending = ls := by
  show r.console.source.pending ++ Text.lines (chunkText ls) = ls
  rw [hr.pending, lines_chunkText hls]
  rfl

/-- `QUIT`, started for a chunk, waits for its lines just where it waits on the left. -/
theorem invoke_fedChunk (bound : Nat) (hr : r.AtRest) (hc : c.Awaits (ls ++ later))
    (hip : c.ip = some (Kernel.quitHeader + 4)) (hstarts : c.Starts)
    (hsame : c.CaughtUp (ls ++ later) r) (hls : ∀ l ∈ ls, Text.OneLine l) :
    ∃ d, invoke (bound + 1) Kernel.quitToken (r.fedChunk ls) = .ok () d ∧ d.Awaits ls ∧
      d.ip = c.ip ∧ c.CaughtUp later d ∧ d.console.transcript = {} := by
  have hpending := hr.pending_fedChunk hls
  have hmemory : (r.fedChunk ls).memory = c.memory := hsame.memory
  obtain ⟨log, hstart⟩ := (hstarts.congr (r := r.fedChunk ls) hmemory hsame.tracing).invoke bound
  obtain ⟨ip, addr, hwaits, hcell, hnative, hnote⟩ := hc.interprets
  refine ⟨_, hstart, ?_, hip.symm, ⟨⟨hsame.data, hmemory, hsame.mode, hsame.tracing,
    hsame.remarks⟩, ?_⟩, rfl⟩
  · exact {
      entry := congrArg (fun r => r.length + 1) hr.returns
      interprets := ⟨ip, addr, hip.symm.trans hwaits, hmemory ▸ hcell, hmemory ▸ hnative,
        fun htracing => hmemory ▸ hnote (hsame.tracing ▸ htracing)⟩
      alone := rfl
      rest := fun x hx => absurd (hr.rest ▸ hx) List.not_mem_nil
      upcoming := ⟨[], hpending, List.forall_mem_nil _⟩ }
  · have hcount := hsame.lineCount
    rw [hr.pending, List.length_append] at hcount
    show r.console.source.lineCount + (r.fedChunk ls).console.source.pending.length +
      later.length = _
    rw [hpending, ← hcount, List.length_nil]
    omega

/-- **A chunk is interpreted** as its lines are on the left, from one cut to the next one. -/
theorem interpretText_chunk (sink : Sink) (hr : r.AtRest) (hc : c.Awaits (ls ++ later))
    (hip : c.ip = some (Kernel.quitHeader + 4)) (hstarts : c.Starts)
    (hsame : c.CaughtUp (ls ++ later) r) (hls : ∀ l ∈ ls, Text.OneLine l)
    (hsteps : takeSteps (invokeWatched keepsEntry (bound + 1)) 0 k c = .ok () c')
    (hk : k ≤ bound) (hc' : c'.Awaits later) :
    ∃ r' added, interpretText (bound + 1) sink (chunkText ls) r =
        .ok (if sink = .writeOnly then "" else (Transcript.mk added).printed) r' ∧
      r'.AtRest ∧ c'.CaughtUp later r' ∧
      c'.console.transcript.pieces = added ++ c.console.transcript.pieces ∧
      r'.console.transcript = if sink = .separate then r.console.transcript
        else r.console.transcript.append ⟨added⟩ := by
  obtain ⟨d, hstart, hd, hdip, hcaught, hnone⟩ :=
    invoke_fedChunk bound hr hc hip hstarts hsame hls
  obtain ⟨d', hreach, hd', hcaught', hpieces⟩ :=
    takeSteps_cutOff hc hd hdip hcaught (by rw [hnone]) hsteps hc'
  obtain ⟨e, hrun, hresembles, htranscript, hpasses⟩ :=
    execute_of_awaits (m := r.fedChunk ls) hr.returns hstart (reaches_of_takeSteps hreach) hk hd'
  have hinterpreted := interpretText_of_fed rfl (interpretFed_of_end rfl hrun) sink
  refine ⟨_, e.console.transcript.pieces, hinterpreted,
    ⟨rfl, hpasses.rest, hpasses.pending, hr.alone⟩, ⟨hcaught'.toResembles.trans
      ⟨hresembles.data, hresembles.memory, hresembles.mode, hresembles.tracing,
        hresembles.remarks⟩, ?_⟩, ?_, rfl⟩
  · have hcount := hpasses.lineCount
    show e.console.source.lineCount + e.console.source.pending.length + later.length = _
    rw [← hcaught'.lineCount, ← hcount, hpasses.pending]
  · rw [htranscript]
    exact hpieces

end Chunks

/-- The lines that are to come are cut into chunks: `QUIT` waits for the first of them, could be
started anew, and comes in some steps, in which its entry stays on the return stack, to where it
waits for the next one. After the last one it waits for lines that do not come. -/
inductive Cuts (bound : Nat) : Nat → Machine → List (List String) → Prop
  | last {m : Machine} (hm : m.Awaits []) : Cuts bound 0 m []
  | next {m m' : Machine} {k n : Nat} {ls : List String} {chunks : List (List String)}
    (hm : m.Awaits (ls ++ chunks.flatten)) (hip : m.ip = some (Kernel.quitHeader + 4))
    (hstarts : m.Starts)
    (hsteps : takeSteps (invokeWatched keepsEntry bound) 0 k m = .ok () m')
    (hrest : Cuts bound n m' chunks) : Cuts bound (k + n) m (ls :: chunks)

theorem reaches_of_watched {bound k : Nat} {m m' : Machine}
    (hsteps : takeSteps (invokeWatched keepsEntry bound) 0 k m = .ok () m') :
    Reaches (invoke bound) 0 k m m' := by
  have happroximates := takeSteps_approximates (invokeWatched_approximates keepsEntry bound) 0 k
  exact reaches_of_takeSteps (happroximates.of_ok hsteps)

theorem printed_append (t later : Transcript) :
    (t.append later).printed = t.printed ++ later.printed := by
  simp [Transcript.printed, Transcript.textOf, Transcript.append, List.filterMap_append]

namespace Cuts

variable {bound n : Nat} {c r : Machine} {chunks : List (List String)}

theorem awaits (h : Cuts bound n c chunks) : c.Awaits chunks.flatten := by
  cases h with
  | last hm => exact hm
  | next hm _ _ _ _ => exact hm

/-- The loop comes to where it waits for lines that do not come. -/
theorem reaches (h : Cuts bound n c chunks) :
    ∃ c', Reaches (invoke bound) 0 n c c' ∧ c'.Awaits [] := by
  induction h with
  | last hm => exact ⟨_, .refl _, hm⟩
  | next _ _ _ hsteps _ ih =>
    obtain ⟨c', hreaches, hc'⟩ := ih
    exact ⟨c', (reaches_of_watched hsteps).trans hreaches, hc'⟩

/-- Chunk by chunk the same is interpreted. -/
theorem serve (sink : Sink) (h : Cuts (bound + 1) n c chunks) (hn : n ≤ bound) (hr : r.AtRest)
    (hsame : c.CaughtUp chunks.flatten r) (hlines : ∀ ls ∈ chunks, ∀ l ∈ ls, Text.OneLine l) :
    ∃ texts r' c' added,
      Session.serve (bound + 1) (chunks.map fun ls => .interpret sink (chunkText ls)) r =
        .ok (texts.map .ok) r' ∧ Reaches (invoke (bound + 1)) 0 n c c' ∧ c'.Awaits [] ∧ r'.AtRest ∧
      c'.CaughtUp [] r' ∧ c'.console.transcript.pieces = added ++ c.console.transcript.pieces ∧
      (r'.console.transcript = if sink = .separate then r.console.transcript
        else r.console.transcript.append ⟨added⟩) ∧
      (sink ≠ .writeOnly → String.join texts = (Transcript.mk added).printed) := by
  induction h generalizing r with
  | last hm =>
    refine ⟨[], r, _, [], rfl, .refl _, hm, hr, hsame, rfl, ?_, fun _ => rfl⟩
    split <;> rfl
  | @next m m₁ k n ls chunks hm hip hstarts hsteps hrest ih =>
    obtain ⟨hls, hlines⟩ := List.forall_mem_cons.mp hlines
    obtain ⟨r₁, first, hfirst, hr₁, hsame₁, hpieces₁, htranscript₁⟩ :=
      interpretText_chunk sink hr hm hip hstarts hsame hls hsteps (by omega) hrest.awaits
    obtain ⟨texts, r', c', added, hserve, hreaches, hc', hr', hsame', hpieces, htranscript,
        hjoin⟩ :=
      ih (by omega) hr₁ hsame₁ hlines
    refine ⟨(if sink = .writeOnly then "" else (Transcript.mk first).printed) :: texts, r', c',
      added ++ first, ?_, (reaches_of_watched hsteps).trans hreaches, hc', hr', hsame', ?_, ?_,
      fun hsink => ?_⟩
    · simp only [List.map_cons, Session.serve, bind_apply, observe, Request.perform, hfirst, hserve,
        pure_apply]
    · rw [hpieces, hpieces₁, List.append_assoc]
    · rw [htranscript, htranscript₁]
      split
      · rfl
      · simp [Transcript.append, List.append_assoc]
    · rw [String.join_cons, hjoin hsink, if_neg hsink]
      exact (printed_append ⟨first⟩ ⟨added⟩).symm

end Cuts

/-! ## The whole input -/

/-- The machine with more lines to come. -/
def Machine.feedLines (m : Machine) (ls : List String) : Machine :=
  { m with console.source := m.console.source.feedLines ls }

/-- `QUIT` can be started, and its run is cut into chunks. -/
def CutsInto (bound : Nat) (chunks : List (List String)) (m : Machine) : Prop :=
  m.Starts ∧ ∃ n c, invoke bound Kernel.quitToken m = .ok () c ∧ Cuts bound n c chunks

/-- A session that comes to its end has not been given up. -/
theorem execute_of_run {bound : Nat} {restart : Bool} {m m' m₁ : Machine}
    (hrun : Session.run bound restart m = .ok () m') :
    execute bound Kernel.quitToken m ≠ .error .exhausted m₁ := by
  intro hgiven
  cases bound with
  | zero => cases hrun
  | succ b =>
    rw [Session.run, runWithin, bind_apply, observe, hgiven] at hrun
    cases hrun

/-- A session whose input ends is closed. -/
theorem run_of_endOfInput {bound : Nat} {restart : Bool} {m m' e : Machine}
    (h : execute (bound + 1) Kernel.quitToken m = .error .endOfInput e)
    (hrun : Session.run (bound + 1) restart m = .ok () m') :
    m'.data = e.data ∧ m'.returns = [] ∧ m'.memory = e.memory ∧ m'.mode = e.mode ∧
      m'.console = e.console := by
  rw [Session.run, runWithin, bind_apply, observe, h] at hrun
  cases hrun
  exact ⟨rfl, rfl, rfl, rfl, rfl⟩

/-- The loop waits for lines that do not come before its steps are used up. -/
theorem Cuts.bounded {bound n : Nat} {m c : Machine} {chunks : List (List String)}
    (hcuts : Cuts (bound + 1) n c chunks) (hreturns : m.returns = [])
    (hstart : invoke (bound + 1) Kernel.quitToken m = .ok () c)
    (hends : ∀ m', execute (bound + 1) Kernel.quitToken m ≠ .error .exhausted m') : n ≤ bound := by
  obtain ⟨c', hreaches, -⟩ := hcuts.reaches
  have hloop : Ends (invoke (bound + 1)) 0 (bound + 1) c := by
    intro m' hgiven
    refine hends m' ?_
    rw [execute, executeWith_apply, hreturns]
    exact bind_of_error ((bind_of_ok hstart).trans hgiven)
  obtain ⟨hle, hrest⟩ := hloop.after hreaches
  by_contra hnot
  obtain rfl : n = bound + 1 := by omega
  rw [Nat.sub_self] at hrest
  exact hrest c' rfl

/-- **Lines in chunks.** If a session comes to the end of its lines, and they are cut where `QUIT`
waits and could be started, then the same comes of one chunk after another: the same stack, memory,
mode and number of lines, and the same output in all, in the transcript and in the texts that are
given back, as far as the sink gives it to either. -/
theorem chunks_agree {bound : Nat} {restart : Bool} (sink : Sink) {m₀ m : Machine}
    {chunks : List (List String)} (hrest : m₀.AtRest)
    (hlines : ∀ ls ∈ chunks, ∀ l ∈ ls, Text.OneLine l)
    (hrun : Session.run bound restart (m₀.feedLines chunks.flatten) = .ok () m)
    (hcuts : CutsInto bound chunks (m₀.feedLines chunks.flatten)) :
    ∃ texts m', Session.serve bound (chunks.map fun ls => .interpret sink (chunkText ls)) m₀ =
        .ok (texts.map .ok) m' ∧ m.SameState m' ∧
      (sink ≠ .separate → m'.console.transcript = m.console.transcript) ∧
      (sink ≠ .writeOnly →
        m.console.transcript.printed = m₀.console.transcript.printed ++ String.join texts) := by
  obtain ⟨hstarts, n, c, hstart, hcuts⟩ := hcuts
  cases bound with
  | zero => cases hrun
  | succ b =>
    have hreturns : (m₀.feedLines chunks.flatten).returns = [] := hrest.returns
    have hn := hcuts.bounded hreturns hstart fun _ => execute_of_run hrun
    obtain ⟨log, hstart'⟩ := hstarts.invoke b
    have hc := (EStateM.Result.ok.inj (hstart.symm.trans hstart')).2
    have hsame : c.CaughtUp chunks.flatten m₀ := by
      rw [hc]
      refine ⟨⟨rfl, rfl, rfl, rfl, rfl⟩, ?_⟩
      show _ = m₀.console.source.lineCount + (m₀.console.source.pending ++ chunks.flatten).length
      rw [List.length_append, Nat.add_assoc]
    have hpieces₀ : c.console.transcript = m₀.console.transcript := by
      rw [hc]
      rfl
    obtain ⟨texts, r', c', added, hserve, hreaches, hc', hr', hsame', hpieces, htranscript,
        hjoin⟩ :=
      hcuts.serve sink hn hrest hsame hlines
    obtain ⟨e, hend, hresembles, htranscript', hpasses⟩ :=
      execute_of_awaits hreturns hstart hreaches hn hc'
    obtain ⟨hdata, hnone, hmemory, hmode, hconsole⟩ := run_of_endOfInput hend hrun
    have hwritten : m.console.transcript = m₀.console.transcript.append ⟨added⟩ := by
      rw [hconsole, htranscript', Transcript.append, ← hpieces₀, ← hpieces]
    refine ⟨texts, r', hserve, ⟨?_, ?_, ?_, ?_, ?_⟩, fun hsink => ?_, fun hsink => ?_⟩
    · rw [hsame'.data, hdata, hresembles.data]
    · rw [hr'.returns, hnone]
    · rw [hsame'.memory, hmemory, hresembles.memory]
    · rw [hsame'.mode, hmode, hresembles.mode]
    · have hcount := hsame'.lineCount
      have hcount' := hpasses.lineCount
      rw [hr'.pending] at hcount
      rw [hconsole]
      exact hcount.trans hcount'.symm
    · rw [htranscript, if_neg hsink, hwritten]
    · rw [hwritten, printed_append, hjoin hsink]

open Kernel

/-- A definition that is begun in one chunk and ended in the next. -/
theorem definition_in_chunks :
    let m₀ : Machine := { memory := bootedMemory }
    let chunks := [[": X"], [";"]]
    ∃ m, m₀.AtRest ∧ (∀ ls ∈ chunks, ∀ l ∈ ls, Text.OneLine l) ∧
      Session.run 20 true (m₀.feedLines chunks.flatten) = .ok () m ∧
      CutsInto 20 chunks (m₀.feedLines chunks.flatten) ∧
      ∃ texts m', Session.serve 20 (chunks.map fun ls => .interpret .shared (chunkText ls)) m₀ =
          .ok (texts.map .ok) m' ∧ m.SameState m' ∧
        (Sink.shared ≠ .separate → m'.console.transcript = m.console.transcript) ∧
        (Sink.shared ≠ .writeOnly →
          m.console.transcript.printed = m₀.console.transcript.printed ++ String.join texts) := by
  intro m₀ chunks
  have hrest : m₀.AtRest := ⟨rfl, rfl, rfl, rfl⟩
  have hlines : ∀ ls ∈ chunks, ∀ l ∈ ls, Text.OneLine l := by decide
  have hends : endsWell (fun _ _ => True) (Session.run 20 true
      (Machine.feedLines { memory := bootedMemory } [": X", ";"])) = true := by
    decide +kernel
  have henters : (Machine.feedLines { memory := bootedMemory } [": X", ";"]).behaviour quitToken =
      some .enter := by
    decide +kernel
  have hwaits : endsWell (fun _ c => c.waitsFor [": X", ";"] &&
      (c.behaviour quitToken = some .enter : Bool) &&
      endsWell (fun _ c => c.waitsFor [";"] && (c.behaviour quitToken = some .enter : Bool) &&
        endsWell (fun _ c => c.waitsFor []) (takeSteps (invokeWatched keepsEntry 20) 0 2 c))
      (takeSteps (invokeWatched keepsEntry 20) 0 2 c))
      (invoke 20 quitToken (Machine.feedLines { memory := bootedMemory } [": X", ";"])) = true := by
    decide +kernel
  obtain ⟨_, m, hrun, -⟩ := exists_of_endsWell hends
  obtain ⟨_, c, hstart, hwaits⟩ := exists_of_endsWell hwaits
  obtain ⟨hc, hwaits⟩ := Bool.and_eq_true_iff.mp hwaits
  obtain ⟨hc, henters₀⟩ := Bool.and_eq_true_iff.mp hc
  obtain ⟨_, c₁, hsteps₁, hwaits⟩ := exists_of_endsWell hwaits
  obtain ⟨hc₁, hwaits⟩ := Bool.and_eq_true_iff.mp hwaits
  obtain ⟨hc₁, henters₁⟩ := Bool.and_eq_true_iff.mp hc₁
  obtain ⟨_, c₂, hsteps₂, hc₂⟩ := exists_of_endsWell hwaits
  obtain ⟨hc, hip, hsilent⟩ := awaits_of_waitsFor hc
  obtain ⟨hc₁, hip₁, hsilent₁⟩ := awaits_of_waitsFor hc₁
  have hcuts : CutsInto 20 chunks (m₀.feedLines chunks.flatten) :=
    ⟨starts_of_silent rfl henters, _, c, hstart,
      .next hc hip (starts_of_silent hsilent (of_decide_eq_true henters₀)) hsteps₁
        (.next hc₁ hip₁ (starts_of_silent hsilent₁ (of_decide_eq_true henters₁)) hsteps₂
          (.last (awaits_of_waitsFor hc₂).1))⟩
  exact ⟨m, hrest, hlines, hrun, hcuts, chunks_agree .shared hrest hlines hrun hcuts⟩

/-- A program may overwrite the code field of `QUIT`, at 363. The loop that is running goes on and
waits for the next line, but when that is a chunk of its own `QUIT` cannot be started for it. -/
theorem overwritten_quit_parts_chunks :
    let m₀ : Machine := { data := [.int 363, .int 0], memory := bootedMemory }
    (∃ c c₁, invoke 20 quitToken (m₀.feedLines ["!", ""]) = .ok () c ∧ c.Awaits ["!", ""] ∧
        takeSteps (invokeWatched keepsEntry 20) 0 2 c = .ok () c₁ ∧ c₁.Awaits [""]) ∧
      (∃ m, Session.run 20 true (m₀.feedLines ["!", ""]) = .ok () m ∧ m.data = []) ∧
      ∃ m, Session.interpretText 20 .shared (chunkText ["!"]) m₀ = .ok "" m ∧
        ∃ m', Session.interpretText 20 .shared (chunkText [""]) m =
          .error (.fault (.noCodeField 363)) m' := by
  intro m₀
  have hwaits : endsWell (fun _ c => c.waitsFor ["!", ""] &&
      endsWell (fun _ c => c.waitsFor [""]) (takeSteps (invokeWatched keepsEntry 20) 0 2 c))
      (invoke 20 quitToken (Machine.feedLines
        { data := [.int 363, .int 0], memory := bootedMemory } ["!", ""])) = true := by
    decide +kernel
  have hwhole : endsWell (fun _ m => m.data = []) (Session.run 20 true
      (Machine.feedLines { data := [.int 363, .int 0], memory := bootedMemory } ["!", ""])) =
        true := by
    decide +kernel
  have hparts : endsWell (fun printed m => printed = "" ∧
      reason (Session.interpretText 20 .shared (chunkText [""]) m) =
        some (.fault (.noCodeField 363)))
      (Session.interpretText 20 .shared (chunkText ["!"])
        { data := [.int 363, .int 0], memory := bootedMemory }) = true := by
    decide +kernel
  obtain ⟨_, c, hstart, hwaits⟩ := exists_of_endsWell hwaits
  obtain ⟨hc, hwaits⟩ := Bool.and_eq_true_iff.mp hwaits
  obtain ⟨_, c₁, hsteps, hc₁⟩ := exists_of_endsWell hwaits
  obtain ⟨_, m, hrun, hdata⟩ := exists_of_endsWell hwhole
  obtain ⟨_, m', hfirst, htest⟩ := exists_of_endsWell hparts
  obtain ⟨rfl, hreason⟩ := of_decide_eq_true htest
  exact ⟨⟨c, c₁, hstart, (awaits_of_waitsFor hc).1, hsteps, (awaits_of_waitsFor hc₁).1⟩,
    ⟨m, hrun, of_decide_eq_true hdata⟩, m', hfirst, exists_of_reason hreason⟩

end ThreadedForth
