import ThreadedForth.Proofs.Session.Phrases
import ThreadedForth.Proofs.Session.Redefinition

/-!
# Compiled and interpreted texts

What becomes of a text whose tokens make up a phrase is what the phrase means
(`Phrase.evaluates_iff`). The same phrase as the body of a word means the same, so it makes no
difference whether a text is interpreted, or compiled into a word that is run
(`Session.compiling_agrees`).
-/

namespace ThreadedForth

open ThreadedForth.Action

/-! ## What becomes of a text -/

/-- What becomes of a text: what it gives or the fault that stops it, and the data stack and the
transcript after it. -/
@[ext]
structure Evaluation where
  outcome : Except Fault String
  data : List Cell
  transcript : Transcript

/-- With enough steps, this becomes of a text. -/
def Machine.Evaluates (m : Machine) (sink : Sink) (text : String) (e : Evaluation) : Prop :=
  ∃ bound m', m'.data = e.data ∧ m'.console.transcript = e.transcript ∧
    Session.interpretText bound sink text m = endsIn e.outcome m'

/-- How a run ends that does not go on from here. -/
def Status.outcome : Status → Except Fault Unit
  | .failed f => .error f
  | _ => .ok ()

/-- The data stack that is left, if a fault clears it. -/
def Progress.remains (s : Progress) : List Cell :=
  match s.status with
  | .failed _ => []
  | _ => s.data

/-- What becomes of a text that comes to this end, with this data stack and these texts. -/
def Sink.evaluation (sink : Sink) (before : Transcript) (outcome : Except Fault Unit)
    (data : List Cell) (printed : Transcript) : Evaluation where
  outcome := outcome.map fun _ => if sink = .writeOnly then "" else printed.printed
  data := data
  transcript := if sink = .separate then before else before.append printed

/-- What becomes of a text that makes this progress. -/
def Progress.evaluation (s : Progress) (sink : Sink) (before : Transcript) : Evaluation :=
  sink.evaluation before s.status.outcome s.remains s.transcript

/-- The machine with a text that is fed, before anything is printed. -/
def Machine.feed (m : Machine) (text : String) : Machine :=
  { m with console := { source := m.console.source.feed text, transcript := {} } }

/-- The machine without its reader. -/
def Machine.detached (m : Machine) : Machine :=
  { m with console := { m.console with source := { m.console.source with reader := none } } }

variable {m m' : Machine} {sink : Sink} {text : String} {bound : Nat} {e e' : Evaluation}
  {p : Program} {body : Body} {self : Int} {s t : Progress} {hs : List Header}

theorem endsIn_ne_exhausted {α : Type} {outcome : Except Fault α} (m₁ : Machine) :
    endsIn outcome m' ≠ .error .exhausted m₁ := by
  cases outcome <;> simp [endsIn]

theorem endsIn_inj {α : Type} {outcome outcome' : Except Fault α}
    (h : endsIn outcome m = endsIn outcome' m') : outcome = outcome' ∧ m = m' := by
  cases outcome <;> cases outcome' <;> cases h <;> exact ⟨rfl, rfl⟩

/-- Only one thing becomes of a text. -/
theorem Machine.Evaluates.unique (h : m.Evaluates sink text e) (h' : m.Evaluates sink text e') :
    e = e' := by
  obtain ⟨bound, m₁, hdata, htranscript, hrun⟩ := h
  obtain ⟨bound', m₂, hdata', htranscript', hrun'⟩ := h'
  have hsame := Session.interpretText_unique (hrun ▸ endsIn_ne_exhausted)
    (hrun' ▸ endsIn_ne_exhausted)
  obtain ⟨houtcome, rfl⟩ := endsIn_inj (hrun.symm.trans (hsame.trans hrun'))
  exact Evaluation.ext houtcome (hdata.symm.trans hdata') (htranscript.symm.trans htranscript')

/-! ## From `QUIT` to a text -/

namespace Session

/-- A fault drops what is left of the fed lines, and resets the machine. -/
theorem interpretFed_of_fault {f : Fault}
    (h : execute bound Kernel.quitToken m.detached = .error (.fault f) m') :
    interpretFed bound m = .error (.fault f) { m' with
      data := [], returns := [], mode := .immediate, ip := none, current := none,
      console := { m'.console with source :=
        { m'.console.source with reader := m.console.source.reader }.clear.skipLine } } := by
  rw [Machine.detached] at h
  simp only [interpretFed, bind_apply, get_apply, setReader, modifySource, modify_apply, observe, h,
    reset, fail_apply]

/-- Fed lines are exhausted when `QUIT` is. -/
theorem interpretFed_of_exhausted
    (h : execute bound Kernel.quitToken m.detached = .error .exhausted m') :
    ∃ m₁, interpretFed bound m = .error .exhausted m₁ := by
  rw [Machine.detached] at h
  simp [interpretFed, bind_apply, setReader, modifySource, observe, h, settle]

/-- Fed lines come to the end that `QUIT` comes to on them. -/
theorem interpretFed_of_quit
    (hquit : execute bound Kernel.quitToken m.detached = .error t.status.stop m')
    (hdata : t.status.stop = .endOfInput → m'.data = t.data) :
    ∃ m₁, m₁.data = t.remains ∧ m₁.console.transcript = m'.console.transcript ∧
      interpretFed bound m = endsIn t.status.outcome m₁ := by
  cases hstatus : t.status with
  | failed f =>
    rw [hstatus] at hquit
    refine ⟨_, ?_, ?_, interpretFed_of_fault hquit⟩
    · rw [Progress.remains, hstatus]
    · rfl
  | running | left =>
    rw [hstatus] at hquit hdata
    refine ⟨_, ?_, ?_, interpretFed_of_end rfl hquit⟩
    · rw [Progress.remains, hstatus]
      exact hdata rfl
    · rfl

/-- A text that is stopped does not lose what was printed. -/
theorem interpretText_of_stop {stop : Stop} (h : interpretFed bound (m.feed text) = .error stop m')
    (sink : Sink) :
    interpretText bound sink text m = .error stop { m' with
      console.transcript := if sink = .separate then m.console.transcript
        else m.console.transcript.append m'.console.transcript } := by
  rw [Machine.feed] at h
  simp only [interpretText, bind_apply, get_apply, setTranscript, modifySource, modify_apply,
    observe, h, settle, throw_apply]

/-- A text comes to the end that the lines come to that are fed. -/
theorem evaluates_of_fed {outcome : Except Fault Unit}
    (h : interpretFed bound (m.feed text) = endsIn outcome m') (sink : Sink) :
    m.Evaluates sink text
      (sink.evaluation m.console.transcript outcome m'.data m'.console.transcript) := by
  refine ⟨bound, { m' with
    console.transcript := if sink = .separate then m.console.transcript
      else m.console.transcript.append m'.console.transcript }, rfl, rfl, ?_⟩
  cases outcome with
  | ok u => exact interpretText_of_fed rfl h sink
  | error f => exact interpretText_of_stop h sink

end Session

section Phrases

variable (hw : m.memory.WellFormed hs) (hc : m.memory.HasInterpreter) (hmode : m.mode = .immediate)
  (hidle : m.console.source.hasPending = false) (hp : p.HeldBy m.memory)
  (h : Phrase m.memory p (Session.tokensOfText text) body)

include hmode hidle in
/-- A text that is fed brings its tokens, and nothing has been done yet. -/
theorem interpreting_feed (text : String) :
    Interpreting m.memory ⟨m.ip, m.returns⟩ (.start m.data) (Session.tokensOfText text)
      (m.feed text).detached :=
  ⟨rfl, rfl, rfl, hmode, rfl, Source.tokensToCome_feed hidle text, rfl, rfl⟩

include hw hc hmode hidle hp h

/-- What becomes of a text whose tokens make up a phrase is what the phrase means. -/
theorem Phrase.evaluates_iff (self : Int) : m.Evaluates sink text e ↔
    ∃ t, Means p self body (.start m.data) t ∧ e = t.evaluation sink m.console.transcript := by
  have hfed := interpreting_feed hmode hidle text
  have hof {t : Progress} (hmeans : Means p self body (.start m.data) t) :
      m.Evaluates sink text (t.evaluation sink m.console.transcript) := by
    obtain ⟨b, m', hquit, htranscript, hdata⟩ :=
      h.execute_quit (m := (m.feed text).detached) hc hw.label_eq_ok hfed hp rfl hmeans
    obtain ⟨m₁, hremains, hprinted, hrun⟩ := Session.interpretFed_of_quit hquit hdata
    have hevaluates := Session.evaluates_of_fed hrun sink
    rwa [hremains, hprinted, htranscript] at hevaluates
  constructor
  · intro he
    obtain ⟨t, hmeans⟩ : ∃ t, Means p self body (.start m.data) t := by
      obtain ⟨bound, m', -, -, hrun⟩ := he
      have hends (m₁ : Machine) :
          execute bound Kernel.quitToken (m.feed text).detached ≠ .error .exhausted m₁ := by
        intro hstop
        obtain ⟨m₂, hexhausted⟩ := Session.interpretFed_of_exhausted hstop
        have hlost := Session.interpretText_of_stop hexhausted sink
        exact endsIn_ne_exhausted _ (hrun.symm.trans hlost)
      exact h.means_of_quit hc hw.label_eq_ok hfed hp rfl hends
    exact ⟨t, hmeans, he.unique (hof hmeans)⟩
  · rintro ⟨t, hmeans, rfl⟩
    exact hof hmeans

end Phrases

/-! ## Compiling and running -/

/-- What becomes of a text does not depend on whether its last word has been left. -/
theorem Progress.evaluation_back (s : Progress) (sink : Sink) (before : Transcript) :
    s.back.evaluation sink before = s.evaluation sink before := by
  cases hs : s.status <;>
    simp [Progress.evaluation, Progress.remains, Progress.transcript, Progress.back,
      Status.outcome, hs]

/-- The word with a phrase as its body means what the phrase means. -/
theorem Phrase.means_called_iff {q : Program} {memory : Memory} {tokens : List String}
    {here code : Int} (h : Phrase memory p tokens body) (hwithin : p.Within q)
    (hclosed : ∀ addr b, p addr = some (.thread b) → b.ClosedIn p)
    (hself : q code = some (.thread body)) (hs : s.status = .running) :
    Means q here (.seq (.call code) .empty) s t ↔ ∃ u, Means p code body s u ∧ t = u.back := by
  rw [means_seq_iff]
  constructor
  · rintro ⟨u, hcall, hrest⟩
    obtain rfl := means_empty_iff.mp hrest
    obtain ⟨v, hv, rfl⟩ := (means_thread_iff hs hself).mp hcall
    exact ⟨v, (h.means_iff hwithin hclosed).mp hv, rfl⟩
  · rintro ⟨u, hu, rfl⟩
    have hbody : Means q code body s u := (h.means_iff hwithin hclosed).mpr hu
    exact ⟨u.back, (means_thread_iff hs hself).mpr ⟨u, hbody, rfl⟩, .empty⟩

/-- The name of a word that is defined is a phrase, which runs this word. -/
theorem Phrase.of_name {old : Memory} {name phrase : String} (hw : old.WellFormed hs)
    (hname : Lexeme name) :
    Phrase (old.define (.colon name phrase body)) (p.add (old.here + headerSize) body)
      (Session.tokensOfText name) (.seq (.call (old.here + headerSize)) .empty) := by
  have hcode : p.add (old.here + headerSize) body (old.here + headerSize) ≠ none := by
    rw [Program.add_self]
    exact Option.some_ne_none _
  rw [Session.tokensOfText_of_token hname.isToken hname.oneLine]
  exact .cons (.call hname (hw.find_define rfl) (hw.isImmediate_define _) hcode) .nil

/-- **Compiling and running agrees with interpreting.** A text of numerals and words can be compiled
into the body of a word, and what becomes of the name of this word is what becomes of the text. -/
theorem Session.compiling_agrees {name line : String} (hw : m.memory.WellFormed hs)
    (hc : m.memory.CanCompile body) (hmode : m.mode = .immediate)
    (hidle : m.console.source.hasPending = false) (hp : p.HeldBy m.memory)
    (hphrase : Phrase m.memory p (tokensOfText line) body) (hname : Lexeme name)
    (sink sink' : Sink) :
    ∃ m₁, (∃ k, ∀ b ≥ k, interpretText b sink'
        (": " ++ name ++ phraseText (tokensOfText line) ++ " ;") m = .ok "" m₁) ∧
      ∀ e, m₁.Evaluates sink name e ↔ m.Evaluates sink line e := by
  let d : Definition := .colon name (phraseText (tokensOfText line)) body
  have hfits : d.Fits m.memory := .colon hname hphrase.spelled hc
  obtain ⟨k, hruns⟩ := hfits.interpretText hw hmode hidle sink'
  obtain ⟨m₁, hrun, hm₁⟩ := hruns k (Nat.le_refl k)
  refine ⟨m₁, ⟨k, fun b hb => (interpretText_approximates hb sink' _).of_ok hrun⟩, fun e => ?_⟩
  -- the new word joins the program, and means what the phrase means
  let code : Int := m.memory.here + headerSize
  let q := p.add code body
  have hmemory : m₁.memory = m.memory.define d := hm₁.memory
  have hw₁ : m₁.memory.WellFormed _ := hmemory ▸ hw.define d
  have hc₁ : m₁.memory.HasInterpreter :=
    hmemory ▸ hc.toHasInterpreter.of_extends (hw.extends_define d)
  have hq : q.HeldBy m₁.memory := hmemory ▸ hp.define hw hphrase.closedIn name _
  have hself : q code = some (.thread body) := Program.add_self p code body
  have hnamed : Phrase m₁.memory q (tokensOfText name) (.seq (.call code) .empty) :=
    hmemory ▸ .of_name hw hname
  have hfresh : (m.memory.here : Int) ≤ code := Int.le_add_of_nonneg_right (by decide)
  have hwithin : p.Within q := Program.within_add (hp.eq_none_of_here_le hfresh)
  have hdata : m₁.data = m.data := hm₁.data
  rw [hnamed.evaluates_iff hw₁ hc₁ hm₁.mode hm₁.idle hq code,
    hphrase.evaluates_iff hw hc.toHasInterpreter hmode hidle hp code, hdata, hm₁.transcript]
  have hcall (t : Progress) : Means q code (.seq (.call code) .empty) (.start m.data) t ↔
      ∃ u, Means p code body (.start m.data) u ∧ t = u.back :=
    hphrase.means_called_iff hwithin hp.closed hself rfl
  constructor
  · rintro ⟨t, ht, rfl⟩
    obtain ⟨u, hu, rfl⟩ := (hcall t).mp ht
    exact ⟨u, hu, u.evaluation_back sink _⟩
  · rintro ⟨u, hu, rfl⟩
    exact ⟨u.back, (hcall u.back).mpr ⟨u, hu, rfl⟩, (u.evaluation_back sink _).symm⟩

/-! ## A text that fails on its way, and machines that compile something else -/

open Kernel

/-- What `7 . 0 /` is as a body. -/
def refusalBody : Body :=
  .seq (.literal (.int 7)) (.seq (.call 296) (.seq (.literal (.int 0)) (.seq (.call 88) .empty)))

/-- A booted machine with two on the data stack. -/
def refusalMachine : Machine := { data := [.int 2], memory := bootedMemory }

-- the memory is read cell by cell
set_option maxRecDepth 10000 in
theorem refusal_phrase :
    Phrase refusalMachine.memory program (Session.tokensOfText "7 . 0 /") refusalBody := by
  have hfind (token : String) := booted_wellFormed.find_eq token
  have htokens : Session.tokensOfText "7 . 0 /" = ["7", ".", "0", "/"] := by decide
  rw [htokens]
  have hseven : Word bootedMemory program "7" (.literal (.int 7)) :=
    .numeral ⟨by decide, by decide⟩ ((hfind "7").trans rfl) rfl
  have hdot : Word bootedMemory program "." (.call (293 + headerSize)) :=
    .call ⟨by decide, by decide⟩ ((hfind ".").trans rfl) rfl (by decide)
  have hzero : Word bootedMemory program "0" (.literal (.int 0)) :=
    .numeral ⟨by decide, by decide⟩ ((hfind "0").trans rfl) rfl
  have hdivide : Word bootedMemory program "/" (.call (85 + headerSize)) :=
    .call ⟨by decide, by decide⟩ ((hfind "/").trans rfl) rfl (by decide)
  exact .cons hseven (.cons hdot (.cons hzero (.cons hdivide .nil)))

/-- As the body of a word this prints seven, and then fails as it does when it is interpreted. -/
theorem Session.refusal_compiles :
    refusalMachine.memory.WellFormed bootedHeaders ∧ refusalMachine.memory.CanCompile refusalBody ∧
      program.HeldBy refusalMachine.memory ∧
      Phrase refusalMachine.memory program (Session.tokensOfText "7 . 0 /") refusalBody ∧
      Lexeme "refuse" ∧
      ∃ m₁, (∃ k, ∀ b ≥ k, Session.interpretText b .shared ": refuse 7 . 0 / ;" refusalMachine =
          .ok "" m₁) ∧
        m₁.Evaluates .shared "refuse"
          ⟨.error (.divisionByZero "/"), [], ⟨[(.program, "7 ")]⟩⟩ := by
  have hc : refusalMachine.memory.CanCompile refusalBody := booted_hasCompiler.canCompile _
  have hp : program.HeldBy refusalMachine.memory := program_heldBy booted_intact
  have hname : Lexeme "refuse" := ⟨by decide, by decide⟩
  refine ⟨booted_wellFormed, hc, hp, refusal_phrase, hname, ?_⟩
  obtain ⟨m₁, hdefines, hagrees⟩ := Session.compiling_agrees booted_wellFormed hc rfl rfl hp
    refusal_phrase hname .shared .shared
  have hmeans : Means program 0 refusalBody (.start [.int 2])
      ⟨.failed (.divisionByZero "/"), [], ["7 "]⟩ := by
    have hdot : Means program 0 (.call 296) (.start [.int 7, .int 2])
        ⟨.running, [.int 2], ["7 "]⟩ := .calculation (c := .output .dot) rfl rfl
    have hdivide : Means program 0 (.call 88) ⟨.running, [.int 0, .int 2], ["7 "]⟩
        ⟨.failed (.divisionByZero "/"), [], ["7 "]⟩ := .calculation (c := .arithmetic .div) rfl rfl
    exact .seq (.literal rfl) (.seq hdot (.seq (.literal rfl) (.seq hdivide .empty)))
  refine ⟨m₁, hdefines, (hagrees _).mpr ?_⟩
  rw [refusal_phrase.evaluates_iff booted_wellFormed hc.toHasInterpreter rfl rfl hp 0]
  exact ⟨_, hmeans, rfl⟩

/-- How a run comes to an end, if it does. -/
def verdict : EStateM.Result Stop Machine String → Option (Except Fault String × Machine)
  | .ok text m => some (.ok text, m)
  | .error (.fault f) m => some (.error f, m)
  | .error _ _ => none

theorem eq_endsIn_of_verdict {result : EStateM.Result Stop Machine String}
    {outcome : Except Fault String} (h : verdict result = some (outcome, m)) :
    result = endsIn outcome m := by
  cases result with
  | ok text m' =>
    cases h
    rfl
  | error stop m' =>
    cases stop <;> cases h
    rfl

/-- Booted machines with something in the way of `: ? CR ;`: a line waits to be read that begins a
comment; `;` or `:` are other words; the link of `CR` or the code field of `CREATE` is written
over. -/
def hinderedMachines : List Machine :=
  [{ memory := bootedMemory, console := { source := { pending := ["("] } } },
    { memory := bootedMemory.define (.colon ";" " 5" (.literal (.int 5))) },
    { memory := bootedMemory.define (.colon ":" "" .empty) },
    { memory := bootedMemory.write 521 (.int 9999) },
    { memory := bootedMemory.write 216 (.int 0) }]

/-- Once `: ? CR ;` has been interpreted, `?` does not come to the end that `CR` comes to. -/
def comesApart (m : Machine) : Bool :=
  match verdict (Session.interpretText 30 .shared ": ? CR ;" m) with
  | none => false
  | some (_, m₁) =>
    match verdict (Session.interpretText 30 .shared "?" m₁),
      verdict (Session.interpretText 30 .shared "CR" m) with
    | some (outcome, _), some (outcome', _) => outcome ≠ outcome'
    | _, _ => false

theorem hinderedMachines_come_apart : hinderedMachines.Forall fun m => comesApart m = true :=
  ⟨by decide +kernel, by decide +kernel, by decide +kernel, by decide +kernel, by decide +kernel⟩

theorem Session.compiling_comes_apart :
    hinderedMachines.Forall fun m => m.mode = .immediate ∧ m.returns = [] ∧ ∃ bound outcome m₁,
      Session.interpretText bound .shared ": ? CR ;" m = endsIn outcome m₁ ∧
        ¬ ∀ e, m₁.Evaluates .shared "?" e ↔ m.Evaluates .shared "CR" e := by
  have hidle : ∀ m ∈ hinderedMachines, m.mode = .immediate ∧ m.returns = [] := by decide
  rw [List.forall_iff_forall_mem]
  intro m hm
  obtain ⟨hmode, hreturns⟩ := hidle m hm
  have hruns := List.forall_iff_forall_mem.mp hinderedMachines_come_apart m hm
  unfold comesApart at hruns
  split at hruns
  · cases hruns
  · next outcome m₁ hdefines =>
    refine ⟨hmode, hreturns, 30, outcome, m₁, eq_endsIn_of_verdict hdefines, fun hsame => ?_⟩
    split at hruns
    · next outcome₁ m₂ outcome₂ m₃ hcalls htext =>
      let e : Evaluation := ⟨outcome₁, m₂.data, m₂.console.transcript⟩
      let e' : Evaluation := ⟨outcome₂, m₃.data, m₃.console.transcript⟩
      have hcompiled : m₁.Evaluates .shared "?" e :=
        ⟨30, m₂, rfl, rfl, eq_endsIn_of_verdict hcalls⟩
      have hinterpreted : m.Evaluates .shared "CR" e' :=
        ⟨30, m₃, rfl, rfl, eq_endsIn_of_verdict htext⟩
      have heq : e = e' := ((hsame e).mp hcompiled).unique hinterpreted
      exact of_decide_eq_true hruns (congrArg Evaluation.outcome heq)
    · cases hruns

end ThreadedForth
