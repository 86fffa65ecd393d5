import ThreadedForth.Proofs.Compiler.Booted
import ThreadedForth.Proofs.Compiler.Pass
import ThreadedForth.Proofs.Host.Answer
import ThreadedForth.Proofs.Session.Lockstep

/-!
# Commands between the lines

Commands to the host may be typed between the lines of a session (`Inserted`). As long as the host
can answer them whenever the program reads, they only observe: the session comes to the same end,
and all that appears in addition is the answer to each of them, with the prompt before it
(`commands_only_observe`).

The host may be unable to answer. The command `.see` fails on a header without a code field, and as
the host answers in the midst of a read, it is the program that fails then
(`see_bare_header_fails`).
-/

namespace ThreadedForth

open ThreadedForth.Action

/-- More lines stand between those that a user gives. -/
inductive Inserted : List String → List Entry → List Entry → Prop
  | nil : Inserted [] [] []
  | same {ls : List String} {es es' : List Entry} (e : Entry) (h : Inserted ls es es') :
    Inserted ls (e :: es) (e :: es')
  | added {ls : List String} {es es' : List Entry} (l : String) (h : Inserted ls es es') :
    Inserted (l :: ls) es (.line l :: es')

/-- What appears in addition where these lines, last first, are answered: a prompt, if there are
prompts, and the answer. -/
inductive Answered (prompting : Bool) :
    List String → List (Voice × String) → List (Voice × String) → Prop
  | refl (ps : List (Voice × String)) : Answered prompting [] ps ps
  | same {ls : List String} {ps ps' : List (Voice × String)} (piece : Voice × String)
    (h : Answered prompting ls ps ps') : Answered prompting ls (piece :: ps) (piece :: ps')
  | added {ls : List String} {ps ps' : List (Voice × String)} {l text : String} (m : Machine)
    (htext : m.answer l = .ok text) (h : Answered prompting ls ps ps') :
    Answered prompting (l :: ls) ps
      ((.host, text) :: ((if prompting then [(.prompt, m.prompt)] else []) ++ ps'))

/-- What the program and the session say is not changed. -/
theorem Answered.filter_eq {prompting : Bool} {ls : List String} {ps ps' : List (Voice × String)}
    (h : Answered prompting ls ps ps') :
    ps'.filter (fun piece => piece.1 = .program || piece.1 = .session) =
      ps.filter fun piece => piece.1 = .program || piece.1 = .session := by
  induction h with
  | refl ps => rfl
  | same piece _ ih => rw [List.filter_cons, List.filter_cons, ih]
  | added m _ _ ih => cases prompting <;> simpa using ih

namespace Attendant

/-- Whether the line is for the host and it has an answer. -/
def canAnswer (host : Attendant) (l : String) : Bool :=
  match host.answer l with
  | some (.ok _) => true
  | _ => false

theorem canAnswer_iff {host : Attendant} {l : String} :
    host.canAnswer l = true ↔ ∃ text, host.answer l = some (.ok text) := by
  rw [canAnswer]
  split
  · next text h => exact ⟨fun _ => ⟨text, h⟩, fun _ => rfl⟩
  · next h => exact ⟨fun hfalse => absurd hfalse Bool.false_ne_true, fun ⟨text, ht⟩ => absurd ht (h text)⟩

/-- The host has an answer to each of these lines. -/
def Answers (host : Attendant) (ls : List String) : Prop := ∀ l ∈ ls, host.canAnswer l = true

end Attendant

/-! ## Consoles -/

/-- Two consoles at the same place, where more lines are typed on the right. -/
structure Console.MoreTyped (prompting : Bool) (ls : List String) (c c' : Console) : Prop where
  rest : c'.source.rest = c.source.rest
  pending : c'.source.pending = c.source.pending
  lineCount : c'.source.lineCount = c.source.lineCount
  typed : ∃ es es' answered left, c.source.reader = some ⟨es, true, prompting⟩ ∧
    c'.source.reader = some ⟨es', true, prompting⟩ ∧ answered.reverse ++ left = ls ∧
    Inserted left es es' ∧ Answered prompting answered c.transcript.pieces c'.transcript.pieces

section Deliveries

variable {prompting : Bool} {held held' : List Entry} {m : Machine} {answered left : List String}
  {es es' : List Entry} {t t' : Transcript}

/-- The transcript once a reader to which the host attends is asked for a line. -/
abbrev asked (held : List Entry) (prompting : Bool) (host : Attendant) (t : Transcript) : Transcript :=
  Reader.deliver.ask ⟨held, true, prompting⟩ host t

theorem Answered.asked (host : Attendant) (ht : Answered prompting answered t.pieces t'.pieces) :
    Answered prompting answered (asked held prompting host t).pieces
      (asked held' prompting host t').pieces := by
  cases prompting with
  | true => exact .same _ ht
  | false => exact ht

/-- An answer appears behind the prompt. -/
theorem Answered.answer (held : List Entry) {l text : String}
    (htext : m.attendant.answer l = some (.ok text))
    (ht : Answered prompting answered t.pieces t'.pieces) :
    Answered prompting (l :: answered) t.pieces
      ((ThreadedForth.asked held prompting m.attendant t').write .host text).pieces := by
  have hanswer : m.answer l = .ok text := by
    simp only [Machine.attendant] at htext
    split at htext
    · exact Option.some.inj htext
    · cases htext
  have hadded := Answered.added m hanswer ht
  cases prompting with
  | true => exact hadded
  | false => exact hadded

/-- A delivery on the left and one on the right give the same, but that some of these lines have
been answered on the right. -/
def Delivered (prompting : Bool) (ls : List String) (d d' : Delivery) : Prop :=
  d'.outcome = d.outcome ∧ ∃ answered left, answered.reverse ++ left = ls ∧
    Inserted left d.entries d'.entries ∧
    Answered prompting answered d.transcript.pieces d'.transcript.pieces

/-- Readers give the same, once the host has answered the lines before it. -/
theorem Inserted.deliver (h : Inserted left es es') (hanswers : m.attendant.Answers left)
    (ht : Answered prompting answered t.pieces t'.pieces) :
    Delivered prompting (answered.reverse ++ left)
      (Reader.deliver ⟨held, true, prompting⟩ m.attendant es t)
      (Reader.deliver ⟨held', true, prompting⟩ m.attendant es' t') := by
  induction h generalizing answered t t' with
  | nil => exact ⟨rfl, answered, [], rfl, .nil, ht.asked _⟩
  | @same left es es' e h ih =>
    cases e with
    | close => exact ⟨rfl, answered, left, rfl, h, ht.asked _⟩
    | interrupt => exact ih hanswers (.same _ (ht.asked _))
    | line l =>
      rw [Reader.deliver, Reader.deliver, if_pos rfl]
      cases m.attendant.answer l with
      | none => exact ⟨rfl, answered, left, rfl, h, ht.asked _⟩
      | some outcome =>
        cases outcome with
        | ok report => exact ih hanswers (.same _ (ht.asked _))
        | error stop => exact ⟨rfl, answered, left, rfl, h, ht.asked _⟩
  | @added left es es' l h ih =>
    obtain ⟨hanswer, hanswers⟩ := List.forall_mem_cons.mp hanswers
    obtain ⟨text, htext⟩ := Attendant.canAnswer_iff.mp hanswer
    have hrest := ih hanswers (ht.answer held' htext)
    rw [List.reverse_cons, List.append_assoc] at hrest
    have hopen : Reader.deliver ⟨held', true, prompting⟩ m.attendant (.line l :: es') t' =
        Reader.deliver ⟨held', true, prompting⟩ m.attendant es'
          ((ThreadedForth.asked held' prompting m.attendant t').write .host text) := by
      rw [Reader.deliver, if_pos rfl, htext]
    rw [hopen]
    exact hrest

end Deliveries

theorem Console.MoreTyped.refill {prompting : Bool} {ls : List String} {m : Machine}
    {c c' : Console} (h : c.MoreTyped prompting ls c') (hanswers : m.attendant.Answers ls) :
    Agree (Console.MoreTyped prompting ls) (fun _ => Console.MoreTyped prompting ls)
      (Reading.refill m.attendant c) (Reading.refill m.attendant c') := by
  obtain ⟨es, es', answered, left, hr, hr', rfl, hinserted, ht⟩ := h.typed
  cases hp : c.source.pending with
  | cons line lines =>
    rw [Reading.refill_of_pending hp, Reading.refill_of_pending (h.pending.trans hp)]
    exact .ok ⟨rfl, rfl, congrArg (· + 1) h.lineCount,
      es, es', answered, left, hr, hr', rfl, hinserted, ht⟩
  | nil =>
    have hleft : m.attendant.Answers left := fun l hl => hanswers l (List.mem_append_right _ hl)
    obtain ⟨houtcome, answered₁, left₁, hls, hinserted₁, ht₁⟩ : Delivered prompting
        (answered.reverse ++ left) (Reader.deliver ⟨es, true, prompting⟩ m.attendant es c.transcript)
        (Reader.deliver ⟨es', true, prompting⟩ m.attendant es' c'.transcript) :=
      hinserted.deliver hleft ht
    simp only [Reading.refill, bind_apply, get_apply, hp, h.pending.trans hp, hr, hr',
      Reading.set_apply, houtcome]
    cases (Reader.deliver ⟨es, true, prompting⟩ m.attendant es c.transcript).outcome with
    | error stop =>
      exact .error ⟨h.rest, rfl, h.lineCount,
        _, _, answered₁, left₁, rfl, rfl, hls, hinserted₁, ht₁⟩
    | ok line =>
      exact .ok ⟨rfl, rfl, congrArg (· + 1) h.lineCount,
        _, _, answered₁, left₁, rfl, rfl, hls, hinserted₁, ht₁⟩

theorem Console.MoreTyped.writes {prompting : Bool} {ls : List String} {c c' : Console}
    (voice : Voice) (text : String) (h : c.MoreTyped prompting ls c') :
    Console.MoreTyped prompting ls { c with transcript := c.transcript.write voice text }
      { c' with transcript := c'.transcript.write voice text } := by
  obtain ⟨es, es', answered, left, hr, hr', hls, hinserted, ht⟩ := h.typed
  exact ⟨h.rest, h.pending, h.lineCount, es, es', answered, left, hr, hr', hls, hinserted,
    .same _ ht⟩

/-- A host that has an answer to each of these lines, on both sides. -/
def AnswersBoth (ls : List String) (host host' : Attendant) : Prop :=
  host' = host ∧ host.Answers ls ∧ ∃ m : Machine, host = m.attendant

theorem AnswersBoth.refill {prompting : Bool} {ls : List String} {host host' : Attendant}
    {c c' : Console} (hhosts : AnswersBoth ls host host') (h : c.MoreTyped prompting ls c') :
    Agree (Console.MoreTyped prompting ls) (fun _ => Console.MoreTyped prompting ls)
      (Reading.refill host c) (Reading.refill host' c') := by
  obtain ⟨rfl, hanswers, m, rfl⟩ := hhosts
  exact h.refill hanswers

/-- Consoles on which the lines of a session are typed, with these lines between them on the right.
-/
def insertedLink (prompting : Bool) (ls : List String) : Link :=
  .lossless (Console.MoreTyped prompting ls) (AnswersBoth ls) (fun h => h.rest)
    (fun _ _ _ h => ⟨rfl, h.pending, h.lineCount, h.typed⟩) Console.MoreTyped.writes
    AnswersBoth.refill

/-! ## Sessions -/

/-- The test of a dispatch that the host can answer these lines if the word reads. -/
def answering (ls : List String) : Watch := fun x m =>
  match m.behaviour x with
  | none => true
  | some n => ! n.reads || ls.all m.attendant.canAnswer

theorem answers_of_answering {ls : List String} {addr : Int} {n : Native} {m : Machine}
    (hwatch : answering ls (.token addr) m = true)
    (hcell : m.memory.get (.int addr) = .ok (.native n)) (hreads : n.reads = true) :
    m.attendant.Answers ls := by
  have hbehaviour : m.behaviour (.token addr) = some n := by rw [Machine.behaviour, hcell]
  rw [answering, hbehaviour] at hwatch
  simpa [hreads, Attendant.Answers] using hwatch

theorem answers_of_noted {ls : List String} {addr : Int} {n : Native} {m : Machine}
    (current : Option Int) (log : List LogRecord) (hwatch : answering ls (.token addr) m = true)
    (hcell : m.memory.get (.int addr) = .ok (.native n)) (hreads : n.reads = true) :
    Attendant.Answers (Machine.attendant { m with current := current, log := log }) ls := by
  have hsame : Machine.attendant { m with current := current, log := log } = m.attendant :=
    Machine.attendant_congr rfl rfl rfl rfl rfl
  rw [hsame]
  exact answers_of_answering hwatch hcell hreads

/-- Machines that are the same but for the lines that are typed between the others on the right. -/
def inserted (prompting : Bool) (ls : List String) : Coupling :=
  .withReturns (insertedLink prompting ls).feed (answering ls)
    (fun n m => n.reads = true → m.attendant.Answers ls) answers_of_noted
    fun {_ m _} hreads hallows hcore hremarks hreturns =>
      ⟨Machine.attendant_congr (data_of_core hcore) hreturns (memory_of_core hcore)
        (mode_of_core hcore) hremarks, hallows hreads, m, rfl⟩

/-- The machine with a reader to which the host attends. -/
def Machine.attended (m : Machine) (prompting : Bool) (entries : List Entry) : Machine :=
  { m with console.source.reader := some ⟨entries, true, prompting⟩ }

theorem inserted_attended (m : Machine) (prompting : Bool) {ls : List String}
    {es es' : List Entry} (h : Inserted ls es es') :
    (inserted prompting ls).Rel (m.attended prompting es) (m.attended prompting es') :=
  ⟨rfl, rfl, rfl, rfl, rfl, rfl, rfl, es, es', [], ls, rfl, rfl, rfl, h, .refl _⟩

/-- Two machines in the same state, after sessions in which the program and the session have said
the same. The answers to some of these lines, from the first one on, have appeared in addition. -/
structure Machine.Observed (prompting : Bool) (ls : List String) (m m' : Machine) : Prop
    extends m.SameState m' where
  said : m'.console.transcript.pieces.filter
      (fun piece => piece.1 = .program || piece.1 = .session) =
    m.console.transcript.pieces.filter fun piece => piece.1 = .program || piece.1 = .session
  answered : ∃ answered left, answered.reverse ++ left = ls ∧
    Answered prompting answered m.console.transcript.pieces m'.console.transcript.pieces

theorem observed_of_inserted {prompting : Bool} {ls : List String} {m m' : Machine}
    (h : (inserted prompting ls).Rel m m') : m.Observed prompting ls m' := by
  obtain ⟨-, -, answered, left, -, -, hls, -, ht⟩ := h.console.typed
  exact ⟨h.sameState h.back h.console.lineCount, ht.filter_eq, answered, left, hls, ht⟩

/-- The session comes to its end, and whenever a word reads the host can answer these lines. -/
def Session.AnswersThroughout (bound : Nat) (restart : Bool) (ls : List String) (m : Machine) :
    Prop :=
  ∀ m', drive (executeWatched (answering ls) bound Kernel.quitToken) restart bound m ≠
    .error .exhausted m'

/-- Whether a line is a command that has an answer in every state. -/
def IsShown (l : String) : Prop :=
  ∃ command arguments, Text.words l = command :: arguments ∧
    command ∈ [".help", ".stack", ".rstack", ".here"]

/-- These commands can be answered throughout every session that comes to its end. -/
theorem answersThroughout_of_shown {bound : Nat} {restart : Bool} {ls : List String} {m : Machine}
    (hls : ∀ l ∈ ls, IsShown l) (hrun : ∀ m', Session.run bound restart m ≠ .error .exhausted m') :
    Session.AnswersThroughout bound restart ls m := by
  have hwatch : answering ls = fun _ _ => true := by
    funext x m
    have hall : ls.all m.attendant.canAnswer = true := by
      refine List.all_eq_true.mpr fun l hl => Attendant.canAnswer_iff.mpr ?_
      obtain ⟨command, arguments, hwords, hcommand⟩ := hls l hl
      exact m.answer_of_shown hwords hcommand
    rw [answering, hall]
    cases m.behaviour x with
    | none => rfl
    | some n => exact Bool.or_true _
  intro m' hgiven
  rw [hwatch, executeWatched_true, ← Session.runWithin_eq_drive] at hgiven
  exact hrun m' hgiven

/-- **Commands only observe.** A session with commands between its lines comes to the same end as
the session without them, as long as the host can answer them whenever a word reads. -/
theorem commands_only_observe (bound : Nat) (restart prompting : Bool) (m : Machine)
    {ls : List String} {es es' : List Entry} (hinserted : Inserted ls es es')
    (hanswers : Session.AnswersThroughout bound restart ls (m.attended prompting es)) :
    Agree (Machine.Observed prompting ls) (fun _ => Machine.Observed prompting ls)
      (Session.run bound restart (m.attended prompting es))
      (Session.run bound restart (m.attended prompting es')) := by
  have hquit : (inserted prompting ls).Keeps
      (executeWatched (answering ls) bound Kernel.quitToken) (execute bound Kernel.quitToken) :=
    (inserted prompting ls).execute bound Kernel.quitToken
  have hlocked := (Coupling.keeps_drive hquit rfl restart bound).along _ _
    (inserted_attended m prompting hinserted)
  rw [Session.run, Session.runWithin_eq_drive]
  rcases Session.drive_approximates
      (executeWatched_approximates (answering ls) bound Kernel.quitToken) restart bound
      (m.attended prompting es) with hsame | ⟨m₁, hgiven⟩
  · rw [← hsame]
    rcases hlocked with hgone | hagree
    · obtain ⟨m₁, hgiven⟩ := hgone.exhausted fun _ => id
      exact absurd hgiven (hanswers m₁)
    · exact hagree.imp (fun _ _ => observed_of_inserted) fun _ _ _ => observed_of_inserted
  · exact absurd hgiven (hanswers m₁)

open Kernel

/-- The data stack can be shown after the line `1 2`. -/
theorem stack_command_observes :
    Inserted [".stack"] [.line "1 2"] [.line "1 2", .line ".stack"] ∧
      Session.AnswersThroughout 10 true [".stack"]
        (Machine.attended { memory := bootedMemory } false [.line "1 2"]) ∧
      Agree (Machine.Observed false [".stack"]) (fun _ => Machine.Observed false [".stack"])
        (Session.run 10 true (Machine.attended { memory := bootedMemory } false [.line "1 2"]))
        (Session.run 10 true
          (Machine.attended { memory := bootedMemory } false [.line "1 2", .line ".stack"])) := by
  have hinserted : Inserted [".stack"] [.line "1 2"] [.line "1 2", .line ".stack"] :=
    .same _ (.added _ .nil)
  have hends : endsWell (fun _ _ => True) (Session.run 10 true
      (Machine.attended { memory := bootedMemory } false [.line "1 2"])) = true := by
    decide +kernel
  have hanswers : Session.AnswersThroughout 10 true [".stack"]
      (Machine.attended { memory := bootedMemory } false [.line "1 2"]) := by
    refine answersThroughout_of_shown (List.forall_mem_singleton.mpr ?_) fun m' hgiven => ?_
    · exact ⟨".stack", [], rfl, by decide⟩
    · obtain ⟨_, m₁, hrun, -⟩ := exists_of_endsWell hends
      rw [hrun] at hgiven
      cases hgiven
  exact ⟨hinserted, hanswers, commands_only_observe 10 true false _ hinserted hanswers⟩

/-- A header without a code field cannot be shown. The fault reaches the program, which loses its
stack. -/
theorem see_bare_header_fails :
    (∃ m, Session.run 20 true (Machine.attended { memory := bootedMemory } false
        [.line "5 S\" X\" CREATE"]) = .ok () m ∧ m.data = [.int 5]) ∧
      ∃ m, Session.run 20 true (Machine.attended { memory := bootedMemory } false
        [.line "5 S\" X\" CREATE", .line ".see X"]) = .ok () m ∧ m.data = [] := by
  have hplain : endsWell (fun _ m => m.data = [.int 5]) (Session.run 20 true
      (Machine.attended { memory := bootedMemory } false [.line "5 S\" X\" CREATE"])) = true := by
    decide +kernel
  have hseen : endsWell (fun _ m => m.data = []) (Session.run 20 true
      (Machine.attended { memory := bootedMemory } false
        [.line "5 S\" X\" CREATE", .line ".see X"])) = true := by
    decide +kernel
  obtain ⟨_, m, hrun, hdata⟩ := exists_of_endsWell hplain
  obtain ⟨_, m', hrun', hdata'⟩ := exists_of_endsWell hseen
  exact ⟨⟨m, hrun, of_decide_eq_true hdata⟩, m', hrun', of_decide_eq_true hdata'⟩

end ThreadedForth
