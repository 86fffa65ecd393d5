import ThreadedForth.CommandLine.Run
import ThreadedForth.Proofs.Session.Boot
import ThreadedForth.Proofs.Session.Rounds

/-!
# What a call of the program runs

A call that names files or codes, and does not ask for standard input, queues the lines of all of
them behind the bootstrap. One file that cannot be read ends it before any line is interpreted
(`Call.Refuses`). Else all lines are run as one session, and the exit code tells how that ended
(`Call.RunsAll`). There is no third case (`Call.runs_all_or_nothing`).
-/

namespace ThreadedForth.CommandLine

open ThreadedForth.Action

/-! ## Files that can be read -/

/-- The text of a file, with uniform line ends. -/
def fileText (read : String → Except FileError ByteArray) (name : String) : Option String :=
  match read name with
  | .error _ => none
  | .ok content => (String.fromUTF8? content).map Text.uniformLineEnds

/-- A file is a text, or the system reports why it cannot be read. -/
def Legible (read : String → Except FileError ByteArray) (name : String) : Prop :=
  (∃ e report, read name = .error e ∧ e.report? = some report) ∨
    ∃ content text, read name = .ok content ∧ String.fromUTF8? content = some text

/-- The lines of texts, one text after the other. -/
def linesOfAll (texts : List String) : List String := texts.flatMap Text.lines

/-- The machine with lines in its queue, and with a log of its own. -/
def queued (m : Machine) (lines : List String) (log : List LogRecord) : Machine :=
  { m with
    console := { m.console with source := m.console.source.feedLines lines }
    log := log }

section Queue

variable {read : String → Except FileError ByteArray} {name text : String} {names : List String}

theorem queued_queued (m : Machine) (ls ls' : List String) (log log' : List LogRecord) :
    queued (queued m ls log) ls' log' = queued m (ls ++ ls') log' := by
  simp [queued, Source.feedLines, List.append_assoc]

theorem feed_eq_queued (m : Machine) (text : String) :
    modifySource (·.feed text) m = .ok () (queued m (Text.lines text) m.log) := rfl

/-- A file that can be read is queued. -/
theorem feedFiles_cons_of_text (names : List String) (h : fileText read name = some text)
    (m : Machine) :
    ∃ log, feedFiles read (name :: names) m =
      feedFiles read names (queued m (Text.lines text) log) := by
  cases hread : read name with
  | error e => simp [fileText, hread] at h
  | ok content =>
    simp only [fileText, hread, Option.map_eq_some_iff] at h
    obtain ⟨raw, hraw, rfl⟩ := h
    refine ⟨⟨.info, .host, s!"queued {name}"⟩ :: m.log, ?_⟩
    simp only [feedFiles, hread, hraw]
    rfl

/-- A file that cannot be read ends the queueing. -/
theorem feedFiles_cons_of_unreadable (names : List String) (hlegible : Legible read name)
    (h : fileText read name = none) (m : Machine) :
    ∃ log, feedFiles read (name :: names) m = .ok (some 2) (queued m [] log) := by
  rcases hlegible with ⟨e, ⟨number, reason⟩, hread, hreport⟩ | ⟨content, text, hread, htext⟩
  · refine ⟨⟨.error, .host,
      s!"cannot read {name}: [Errno {number}] {reason}: {Text.quoted name}"⟩ :: m.log, ?_⟩
    have hsame : queued m [] = fun log => { m with log := log } := by
      funext log
      simp [queued, Source.feedLines]
    simp only [feedFiles, hread, hreport, hsame]
    rfl
  · simp [fileText, hread, htext] at h

/-- If all files can be read, all their lines are queued, and nothing else happens. -/
theorem feedFiles_of_texts {texts : List String} (h : names.map (fileText read) = texts.map some)
    (m : Machine) :
    ∃ log, feedFiles read names m = .ok none (queued m (linesOfAll texts) log) := by
  induction names generalizing texts m with
  | nil =>
    obtain rfl : texts = [] := by simpa using h.symm
    exact ⟨m.log, by simp [feedFiles, queued, linesOfAll, Source.feedLines]⟩
  | cons name names ih =>
    obtain _ | ⟨text, texts⟩ := texts
    · cases h
    · obtain ⟨hfirst, hlater⟩ := List.cons.inj h
      obtain ⟨log, hcons⟩ := feedFiles_cons_of_text names hfirst m
      obtain ⟨log', hrest⟩ := ih hlater (queued m (Text.lines text) log)
      exact ⟨log', by rw [hcons, hrest, queued_queued]; rfl⟩

/-- If a file cannot be read, only lines of the files before it are queued. -/
theorem feedFiles_of_unreadable (hlegible : ∀ name ∈ names, Legible read name)
    (h : ∃ name ∈ names, fileText read name = none) (m : Machine) :
    ∃ lines log, feedFiles read names m = .ok (some 2) (queued m lines log) := by
  induction names generalizing m with
  | nil => simp at h
  | cons name names ih =>
    obtain ⟨hfirst, hlater⟩ := List.forall_mem_cons.mp hlegible
    cases htext : fileText read name with
    | none =>
      obtain ⟨log, hcons⟩ := feedFiles_cons_of_unreadable names hfirst htext m
      exact ⟨[], log, hcons⟩
    | some text =>
      have hrest : ∃ name ∈ names, fileText read name = none := by simpa [htext] using h
      obtain ⟨log, hcons⟩ := feedFiles_cons_of_text names htext m
      obtain ⟨lines, log', hfeed⟩ := ih hlater hrest (queued m (Text.lines text) log)
      exact ⟨Text.lines text ++ lines, log', by rw [hcons, hfeed, queued_queued]⟩

/-- Codes are queued as they are. -/
theorem feedCodes_map_some (codes : List String) (m : Machine) :
    feedCodes (codes.map some) m = .ok () (queued m (linesOfAll codes) m.log) := by
  induction codes generalizing m with
  | nil => simp [feedCodes, queued, linesOfAll, Source.feedLines]
  | cons code codes ih =>
    rw [List.map_cons, feedCodes, bind_of_ok (feed_eq_queued m code), ih, queued_queued]
    rfl

/-- Files that can all be read have their texts. -/
theorem exists_texts (h : ∀ name ∈ names, fileText read name ≠ none) :
    ∃ texts : List String, names.map (fileText read) = texts.map some := by
  induction names with
  | nil => exact ⟨[], rfl⟩
  | cons name names ih =>
    obtain ⟨hfirst, hlater⟩ := List.forall_mem_cons.mp h
    obtain ⟨text, htext⟩ := Option.ne_none_iff_exists'.mp hfirst
    obtain ⟨texts, htexts⟩ := ih hlater
    exact ⟨text :: texts, by rw [List.map_cons, htext, htexts, List.map_cons]⟩

end Queue

/-! ## Exit codes -/

/-- The exit code for the outcome of a session. -/
def exitOf : Except Stop Unit → Except Stop Nat
  | .ok () => .ok 0
  | .error (.fault _) => .ok 1
  | .error stop => .error stop

/-- The outcome of an action with its machine, whatever it is. -/
theorem runToExit_of_run {bound : Nat} {restart : Bool} {m last : Machine}
    {outcome : Except Stop Unit}
    (h : observe (Session.run bound restart) m = .ok outcome last) :
    ∃ log, observe (runToExit bound restart) m = .ok (exitOf outcome) { last with log := log } := by
  simp only [observe, runToExit, bind_of_ok h]
  cases outcome with
  | ok => exact ⟨last.log, rfl⟩
  | error stop =>
    cases stop with
    | fault f => exact ⟨⟨.debug, .host, s!"session stopped by {f.kind.name}"⟩ :: last.log, rfl⟩
    | endOfInput | defect | exhausted => exact ⟨last.log, rfl⟩

/-! ## The call as a whole -/

/-- The machine that a call begins with. -/
abbrev Options.machine (os : Options) : Machine := { Kernel.machine with tracing := os.trace }

/-- A call refuses its files: nothing of them is interpreted, and nothing is shown. -/
structure Call.Refuses (c : Call) (os : Options) (bound : Nat) (booted : Machine) : Prop where
  unreadable : ∃ name ∈ os.files, fileText c.read name = none
  exit : (c.answer bound).exit = .ok 2
  transcript : (c.answer bound).transcript = {}
  /-- lines of the files before the one that cannot be read are in the queue -/
  machine : ∃ lines log, after (c.act bound os) os.machine = queued booted lines log

/-- A call runs lines as one session, and ends as that session does. -/
structure Call.Runs (c : Call) (os : Options) (bound : Nat) (booted : Machine)
    (lines : List String) (log : List LogRecord) (rounds : List Session.Round)
    (outcome : Except Stop Unit) (last : Machine) : Prop where
  driven : Session.Driven bound (! os.noRestart) bound (queued booted lines log) rounds outcome last
  run : observe (Session.run bound (! os.noRestart)) (queued booted lines log) = .ok outcome last
  exit : (c.answer bound).exit = exitOf outcome
  transcript : (c.answer bound).transcript = last.console.transcript
  machine : ∃ log, after (c.act bound os) os.machine = { last with log := log }
  /-- the exit code is one if and only if a fault stops the session -/
  fails_iff : (c.answer bound).exit = .ok 1 ↔
    os.noRestart = true ∧ ∃ r ∈ rounds, r.Faulted
  /-- the session is stopped by the first fault -/
  first : ∀ f, outcome = .error (.fault f) → ∃ before start finish,
    rounds = before ++ [⟨start, .error (.fault f), finish⟩] ∧ (∀ r ∈ before, ¬ r.Faulted) ∧
      last = finish.afterFault f

/-- A call runs the lines of all its files and then those of all its codes. -/
def Call.RunsAll (c : Call) (os : Options) (codes : List String) (bound : Nat)
    (booted : Machine) : Prop :=
  ∃ texts log rounds outcome last, os.files.map (fileText c.read) = texts.map some ∧
    c.Runs os bound booted (linesOfAll (texts ++ codes)) log rounds outcome last

section Calls

variable {c : Call} {os : Options} {codes : List String} {bound : Nat} {booted : Machine}

theorem exit_eq_one_iff {outcome : Except Stop Unit} :
    exitOf outcome = .ok 1 ↔ ∃ f, outcome = .error (.fault f) := by
  match outcome with
  | .ok () => simp [exitOf]
  | .error (.fault f) => simp [exitOf]
  | .error .endOfInput | .error (.defect _) | .error .exhausted => simp [exitOf]

theorem Call.answer_of_ok (hargs : parseArguments c.arguments = .ok os) {code : Nat} {m : Machine}
    (hact : c.act bound os os.machine = .ok code m) :
    (c.answer bound).exit = .ok code ∧ (c.answer bound).transcript = m.console.transcript ∧
      after (c.act bound os) os.machine = m := by
  simp only [answer, hargs, after, hact, and_self]

theorem Call.answer_of_error (hargs : parseArguments c.arguments = .ok os) {stop : Stop}
    {m : Machine} (hact : c.act bound os os.machine = .error stop m) :
    (c.answer bound).exit = .error stop ∧ (c.answer bound).transcript = m.console.transcript ∧
      after (c.act bound os) os.machine = m := by
  simp only [answer, hargs, after, hact, and_self]

theorem Call.refuses (hargs : parseArguments c.arguments = .ok os)
    (hlegible : ∀ name ∈ os.files, Legible c.read name)
    (hboot : Session.boot bound os.machine = .ok () booted) (hbooted : booted.Booted os.trace)
    (hnone : ∃ name ∈ os.files, fileText c.read name = none) :
    c.Refuses os bound booted := by
  obtain ⟨lines, log, hfeed⟩ := feedFiles_of_unreadable hlegible hnone booted
  have hact : c.act bound os os.machine = .ok 2 (queued booted lines log) := by
    rw [act, bind_of_ok hboot, bind_of_ok hfeed]
    rfl
  obtain ⟨hexit, htranscript, hafter⟩ := answer_of_ok hargs hact
  refine ⟨hnone, hexit, ?_, lines, log, hafter⟩
  show _ = ({} : Console).transcript
  rw [htranscript, ← hbooted.console]
  rfl

theorem Call.runs (hargs : parseArguments c.arguments = .ok os) (hinput : os.readsInput = false)
    (hcodes : os.codes = codes.map some)
    (hboot : Session.boot bound os.machine = .ok () booted) {texts : List String}
    (htexts : os.files.map (fileText c.read) = texts.map some) :
    ∃ log rounds outcome last,
      c.Runs os bound booted (linesOfAll (texts ++ codes)) log rounds outcome last := by
  obtain ⟨log, hfiles⟩ := feedFiles_of_texts htexts booted
  obtain ⟨rounds, outcome, last, hdriven⟩ := Session.exists_driven bound (! os.noRestart) bound
    (queued booted (linesOfAll (texts ++ codes)) log)
  obtain ⟨log', hrun⟩ := runToExit_of_run hdriven.run
  have hfed : feedCodes os.codes (queued booted (linesOfAll texts) log) =
      .ok () (queued booted (linesOfAll (texts ++ codes)) log) := by
    rw [hcodes, feedCodes_map_some, queued_queued, linesOfAll, linesOfAll, ← List.flatMap_append]
    rfl
  have hact : c.act bound os os.machine = runToExit bound (! os.noRestart)
      (queued booted (linesOfAll (texts ++ codes)) log) := by
    rw [act, bind_of_ok hboot, bind_of_ok hfiles]
    simp only [bind_of_ok hfed, hinput]
    rfl
  have hends : (c.answer bound).exit = exitOf outcome ∧
      (c.answer bound).transcript = last.console.transcript ∧
      after (c.act bound os) os.machine = { last with log := log' } := by
    rw [observe] at hrun
    split at hrun
    · rename_i code m hcode
      obtain ⟨hexit, rfl⟩ := EStateM.Result.ok.inj hrun
      exact hexit ▸ answer_of_ok hargs (hact.trans hcode)
    · rename_i stop m hstop
      obtain ⟨hexit, rfl⟩ := EStateM.Result.ok.inj hrun
      exact hexit ▸ answer_of_error hargs (hact.trans hstop)
  obtain ⟨hexit, htranscript, hafter⟩ := hends
  refine ⟨log, rounds, outcome, last, hdriven, hdriven.run, hexit, htranscript, ⟨log', hafter⟩, ?_,
    ?_⟩
  · rw [hexit, exit_eq_one_iff]
    constructor
    · rintro ⟨f, rfl⟩
      obtain ⟨hrestart, before, start, finish, rfl, -, -⟩ := hdriven.last_of_fault
      exact ⟨by simpa using hrestart, _, List.mem_append_right _ (List.mem_singleton_self _),
        f, rfl⟩
    · rintro ⟨hnoRestart, hfaulted⟩
      rw [hnoRestart] at hdriven
      exact hdriven.fails_of_faulted hfaulted
  · rintro f rfl
    exact hdriven.last_of_fault.2

/-- **A call runs all of its files and codes, or nothing.** With steps enough for the bootstrap,
a call that names files or codes and does not ask for standard input either cannot read one of its
files, or runs the lines of all files and codes in order. -/
theorem Call.runs_all_or_nothing (c : Call) {os : Options} {codes : List String}
    (hargs : parseArguments c.arguments = .ok os) (hinteractive : os.interactive = false)
    (hcodes : os.codes = codes.map some) (hsome : os.files ≠ [] ∨ codes ≠ [])
    (hlegible : ∀ name ∈ os.files, Legible c.read name) :
    ∃ k, ∀ bound ≥ k, ∃ booted, Session.boot bound os.machine = .ok () booted ∧
      booted.Booted os.trace ∧ (c.Refuses os bound booted ∨ c.RunsAll os codes bound booted) := by
  obtain ⟨k, hboots⟩ := Session.boot_ends os.trace
  refine ⟨k, fun bound hbound => ?_⟩
  obtain ⟨booted, hboot, hbooted⟩ := hboots bound hbound
  refine ⟨booted, hboot, hbooted, ?_⟩
  have hinput : os.readsInput = false := by
    simp only [Options.readsInput, hinteractive, hcodes, Bool.false_or, Bool.and_eq_false_iff,
      List.isEmpty_eq_false_iff, ne_eq, List.map_eq_nil_iff]
    exact hsome
  by_cases hnone : ∃ name ∈ os.files, fileText c.read name = none
  · exact .inl (refuses hargs hlegible hboot hbooted hnone)
  · obtain ⟨texts, htexts⟩ : ∃ texts : List String, os.files.map (fileText c.read) = texts.map some :=
      exists_texts fun name hname hfile => hnone ⟨name, hname, hfile⟩
    obtain ⟨log, rounds, outcome, last, hruns⟩ := runs hargs hinput hcodes hboot htexts
    exact .inr ⟨texts, log, rounds, outcome, last, htexts, hruns⟩

/-- A file and a code are one program. -/
theorem Call.runs_all_of_file_and_code :
    let c : Call :=
      { arguments := ["a.fs", "-e", "2 ."], read := fun _ => .ok "1 .".toUTF8, input := .stream "" }
    let os : Options := { files := ["a.fs"], codes := [some "2 ."] }
    parseArguments c.arguments = .ok os ∧ Legible c.read "a.fs" ∧
      ∃ k, ∀ bound ≥ k, ∃ booted, Session.boot bound os.machine = .ok () booted ∧
        booted.Booted false ∧ c.RunsAll os ["2 ."] bound booted := by
  intro c os
  have hargs : parseArguments c.arguments = .ok os := rfl
  have htext : fileText c.read "a.fs" = some "1 ." := by decide +kernel
  have hlegible : Legible c.read "a.fs" := .inr ⟨_, "1 .", rfl, by decide +kernel⟩
  have hcodes : os.codes = ["2 ."].map some := rfl
  obtain ⟨k, hruns⟩ := c.runs_all_or_nothing hargs rfl hcodes (.inr (by simp))
    (by simpa [os] using hlegible)
  refine ⟨hargs, hlegible, k, fun bound hbound => ?_⟩
  obtain ⟨booted, hboot, hbooted, hrefuses | hall⟩ := hruns bound hbound
  · obtain ⟨name, hname, hnone⟩ := hrefuses.unreadable
    obtain rfl : name = "a.fs" := by simpa [os] using hname
    rw [htext] at hnone
    cases hnone
  · exact ⟨booted, hboot, hbooted, hall⟩

end Calls

end ThreadedForth.CommandLine
