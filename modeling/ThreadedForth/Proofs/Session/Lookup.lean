import ThreadedForth.Proofs.Compiler.Bootstrap
import ThreadedForth.Proofs.Host.Answer
import ThreadedForth.Proofs.Machine.Line
import ThreadedForth.Proofs.Session.Agreement
import ThreadedForth.Proofs.Session.Streams
import ThreadedForth.Proofs.Session.Waiting

/-!
# Looking a word up

A word may be run by its name, or its header may be looked up and its execution token given to
`EXECUTE`. Both come to the same, with the same rest of the line to read, whatever the word does
(`Session.looks_up_as_named`). When `EXECUTE` enters the word, the machine is the one on which
`INTERPRET` would run it, but for what was taken of the line (`sameLeft`), and one entry deeper,
which only the bound on the number of steps can tell.
-/

namespace ThreadedForth

open ThreadedForth.Action

/-! ## The same line to read -/

/-- Two consoles with the same left to read, however much was taken of the line at hand. -/
structure Console.SameLeft (c c' : Console) : Prop where
  rest : c'.source.rest = c.source.rest
  pending : c'.source.pending = c.source.pending
  lineCount : c'.source.lineCount = c.source.lineCount
  reader : c'.source.reader = c.source.reader
  transcript : c'.transcript = c.transcript

theorem Console.SameLeft.refill {c c' : Console} (h : c.SameLeft c') (host : Attendant) :
    Agree SameLeft (fun _ => SameLeft) (Reading.refill host c) (Reading.refill host c') := by
  cases hpending : c.source.pending with
  | cons line lines =>
    rw [Reading.refill_of_pending hpending, Reading.refill_of_pending (h.pending.trans hpending)]
    exact .ok ⟨rfl, rfl, congrArg (· + 1) h.lineCount, h.reader, h.transcript⟩
  | nil =>
    have hpending' := h.pending.trans hpending
    cases hreader : c.source.reader with
    | none =>
      rw [Reading.refill_at_end hpending hreader,
        Reading.refill_at_end hpending' (h.reader.trans hreader)]
      exact .error h
    | some r =>
      simp only [Reading.refill, bind_apply, get_apply, hpending, hpending', hreader,
        h.reader.trans hreader, h.transcript, Reading.set_apply]
      cases (r.deliver host r.entries c.transcript).outcome with
      | error stop => exact .error ⟨h.rest, rfl, h.lineCount, rfl, rfl⟩
      | ok line =>
        exact .ok ⟨rfl, rfl, congrArg (· + 1) h.lineCount, rfl, rfl⟩

/-- Consoles with the same left to read deliver the same. -/
def sameLeftLink : Link :=
  .lossless Console.SameLeft (fun host host' => host' = host) (fun h => h.rest)
    (fun _ _ _ h => ⟨rfl, h.pending, h.lineCount, h.reader, h.transcript⟩)
    (fun voice text h =>
      ⟨h.rest, h.pending, h.lineCount, h.reader, congrArg (·.write voice text) h.transcript⟩)
    fun hhosts h => hhosts ▸ h.refill _

/-- Machines that are the same but for what was taken of the line at hand. -/
def sameLeft : Coupling :=
  .withReturns sameLeftLink.feed (fun _ _ => true) (fun _ _ => True) (fun _ _ _ _ => trivial)
    fun _ _ hcore hremarks hreturns => Machine.attendant_congr (data_of_core hcore) hreturns
      (memory_of_core hcore) (mode_of_core hcore) hremarks

theorem sameLeft_symm {m m' : Machine} (h : sameLeft.Rel m m') : sameLeft.Rel m' m :=
  ⟨h.core.symm, h.tracing.symm, h.remarks.symm, h.back.symm, h.console.rest.symm,
    h.console.pending.symm, h.console.lineCount.symm, h.console.reader.symm,
    h.console.transcript.symm⟩

/-- Two machines that have come from one machine to the same data and the same rest of the line. -/
theorem Machine.Later.sameLeft {m m₁ m₂ : Machine} {data : List Cell} {rest : List Char}
    (h : m.Later data rest m₁) (h' : m.Later data rest m₂) : sameLeft.Rel m₁ m₂ where
  core := by
    rw [Machine.core, Machine.core, h.data, h'.data, h.memory, h'.memory, h.mode, h'.mode, h.ip,
      h'.ip]
  tracing := h'.tracing.trans h.tracing.symm
  remarks := h'.remarks.trans h.remarks.symm
  back := h'.returns.trans h.returns.symm
  console := ⟨h'.rest.trans h.rest.symm, h'.pending.trans h.pending.symm,
    h'.lineCount.trans h.lineCount.symm, h'.reader.trans h.reader.symm,
    h'.transcript.trans h.transcript.symm⟩

/-- The runs have the same outcome, on machines with the same left to read. -/
abbrev Alongside {α : Type} (left right : EStateM.Result Stop Machine α) : Prop :=
  Agree sameLeft.Rel (fun _ => sameLeft.Rel) left right

variable {m m' n n' m₁ m₂ : Machine} {x : Cell} {token line : String} {ls : List String}
  {b bound k depth : Nat} {data : List Cell} {rest : List Char} {code : Int} {header : Cell}

theorem execute_alongside (bound : Nat) (x : Cell) :
    sameLeft.Keeps (execute bound x) (execute bound x) := by
  have hkeeps := sameLeft.execute bound x
  rwa [show sameLeft.watch = fun _ _ => true from rfl, executeWatched_true] at hkeeps

theorem returnTo_alongside (bound depth k : Nat) :
    sameLeft.Keeps (returnTo (invoke bound) depth k) (returnTo (invoke bound) depth k) := by
  refine Coupling.keeps_returnTo (fun x => ?_) depth k
  have hkeeps := sameLeft.invoke bound x
  rwa [show sameLeft.watch = fun _ _ => true from rfl, invokeWatched_true] at hkeeps

/-! ## A text and its lines -/

section Texts

variable {text text' : String}

theorem Session.interpretFed_alongside
    (hreader : m'.console.source.reader = m.console.source.reader)
    (h : Alongside (execute b Kernel.quitToken m.detached)
      (execute bound Kernel.quitToken m'.detached)) :
    Alongside (interpretFed b m) (interpretFed bound m') := by
  rw [Machine.detached, Machine.detached] at h
  simp only [interpretFed, bind_apply, get_apply, setReader, modifySource, modify_apply, observe,
    hreader]
  generalize execute b Kernel.quitToken _ = left at h ⊢
  generalize execute bound Kernel.quitToken _ = right at h ⊢
  cases h with
  | ok hrel =>
    exact .ok ⟨hrel.core, hrel.tracing, hrel.remarks, hrel.back, hrel.console.rest,
      hrel.console.pending, hrel.console.lineCount, rfl, hrel.console.transcript⟩
  | @error stop m₁ m₂ hrel =>
    cases stop with
    | endOfInput =>
      have hcore : ({ m₂ with returns := [], ip := none } : Machine).core =
          ({ m₁ with returns := [], ip := none } : Machine).core :=
        congrArg (fun k : Core => { k with ip := none }) hrel.core
      exact .ok ⟨hcore, hrel.tracing, hrel.remarks, rfl, hrel.console.rest,
        hrel.console.pending, hrel.console.lineCount, rfl, hrel.console.transcript⟩
    | fault f =>
      have hcore := congrArg
        (fun k : Core => { k with data := [], mode := .immediate, ip := none }) hrel.core
      exact .error ⟨hcore, hrel.tracing, hrel.remarks, rfl, rfl, rfl, hrel.console.lineCount, rfl,
        hrel.console.transcript⟩
    | defect d =>
      exact .error ⟨hrel.core, hrel.tracing, hrel.remarks, hrel.back, hrel.console.rest,
        hrel.console.pending, hrel.console.lineCount, rfl, hrel.console.transcript⟩
    | exhausted =>
      exact .error ⟨hrel.core, hrel.tracing, hrel.remarks, hrel.back, hrel.console.rest,
        hrel.console.pending, hrel.console.lineCount, rfl, hrel.console.transcript⟩

/-- Texts go alongside if their runs of `QUIT` do. -/
theorem Session.interpretText_alongside (sink : Sink)
    (h : Alongside (execute b Kernel.quitToken (m.feed text).detached)
      (execute bound Kernel.quitToken (m.feed text').detached)) :
    Alongside (interpretText b sink text m) (interpretText bound sink text' m) := by
  have hfed : Alongside (interpretFed b (m.feed text)) (interpretFed bound (m.feed text')) :=
    interpretFed_alongside rfl h
  have hopen (b : Nat) (text : String) : interpretText b sink text m =
      (observe (interpretFed b) >>= fun outcome => do
        let printed := (← get).console.transcript
        setTranscript (if sink = .separate then m.console.transcript
          else m.console.transcript.append printed)
        settle outcome
        return if sink = .writeOnly then "" else printed.printed) (m.feed text) := rfl
  rw [hopen, hopen]
  simp only [bind_apply, observe]
  generalize interpretFed b (m.feed text) = left at hfed
  generalize interpretFed bound (m.feed text') = right at hfed
  cases hfed with
  | @ok u m₁ m₂ hrel =>
    have htranscript := hrel.console.transcript
    simp only [get_apply, setTranscript, modify_apply, settle, pure_apply, htranscript]
    exact .ok ⟨hrel.core, hrel.tracing, hrel.remarks, hrel.back, hrel.console.rest,
      hrel.console.pending, hrel.console.lineCount, hrel.console.reader, rfl⟩
  | @error stop m₁ m₂ hrel =>
    have htranscript := hrel.console.transcript
    simp only [get_apply, setTranscript, modify_apply, settle, throw_apply, htranscript]
    exact .error ⟨hrel.core, hrel.tracing, hrel.remarks, hrel.back, hrel.console.rest,
      hrel.console.pending, hrel.console.lineCount, hrel.console.reader, rfl⟩

end Texts

/-! ## A word inside of `EXECUTE` -/

/-- Runs a word to its end that another one has entered. -/
def executeInside (b : Nat) (x : Cell) : Action Unit := do
  let ip := (← get).ip
  let depth := (← get).returns.length
  invoke b x
  returnTo (invoke (b + 1)) depth (b + 1)
  modify fun m => { m with ip := ip }

/-- It is run as by itself, with a bound in between. -/
theorem execute_approximates_inside (b : Nat) (x : Cell) :
    Approximates (execute b x) (executeInside b x) :=
  approximates_bind (approximates_refl _) fun _ => approximates_bind (approximates_refl _) fun _ =>
    approximates_bind (approximates_refl _) fun _ =>
      approximates_bind (returnTo_approximates (invoke_approximates (Nat.le_succ b)) _
        (Nat.le_succ b)) fun _ => approximates_refl _

theorem executeInside_approximates (b : Nat) (x : Cell) :
    Approximates (executeInside b x) (execute (b + 1) x) :=
  approximates_bind (approximates_refl _) fun _ => approximates_bind (approximates_refl _) fun _ =>
    approximates_bind (invoke_approximates (Nat.le_succ b) x) fun _ => approximates_refl _

/-- `EXECUTE` runs the word whose token it takes. -/
theorem execute_executes (ht : Traceable m) (hi : m.memory.Intact (.thread .execute))
    (hdata : m.data = .token code :: data) (b : Nat) :
    ∃ m₁, m.Later data m.console.source.rest m₁ ∧
      execute (b + 1) (Kernel.token (.thread .execute)) m =
        executeInside b (.token code) m₁ := by
  obtain ⟨log, hinvoke⟩ := invoke_of_native b ht hi
  refine ⟨{ m with
    data := data, current := some (Kernel.codeField (.thread .execute)), log := log },
    ⟨rfl, rfl, rfl, rfl, rfl, rfl, rfl, rfl, rfl, rfl, rfl, rfl⟩, ?_⟩
  have hpop : DataAction.popToken ThreadWord.execute.name m.data = .ok code data := by
    rw [hdata]
    rfl
  have hpopped : popToken ThreadWord.execute.name
      { m with current := some (Kernel.codeField (.thread .execute)), log := log } =
      .ok code { m with
        data := data, current := some (Kernel.codeField (.thread .execute)), log := log } := by
    rw [popToken, onData, hpop]
  have hentered : invoke (b + 1) (Kernel.token (.thread .execute)) m = invoke b (.token code)
      { m with data := data, current := some (Kernel.codeField (.thread .execute)), log := log } :=
    hinvoke.trans (bind_of_ok hpopped)
  rw [execute, executeWith_apply]
  simp only [executeInside, bind_apply, get_apply, hentered]
  cases invoke b (.token code) { m with
    data := data, current := some (Kernel.codeField (.thread .execute)), log := log } <;> rfl

/-! ## Rounds of `QUIT` -/

/-- What the loop does once it asks for a token. -/
def fromRequest (b depth k : Nat) : Action Unit :=
  (nextToken >>= interpretToken (execute b)) >>= fun _ => returnTo (invoke (b + 1)) depth k

/-- What the loop does when it runs a word, and then goes on up to its end. -/
def fromWord (word : Action Unit) (b depth k : Nat) (ip : Option Int) : Action Unit :=
  (word >>= fun _ => returnTo (invoke b) depth k) >>= fun _ => modify fun m => { m with ip := ip }

theorem fromWord_approximates {word word' : Action Unit} (hword : Approximates word word')
    {b b' k k' : Nat} (hb : b ≤ b') (hk : k ≤ k') (depth : Nat) (ip : Option Int) :
    Approximates (fromWord word b depth k ip) (fromWord word' b' depth k' ip) :=
  approximates_bind (approximates_bind hword fun _ =>
    returnTo_approximates (invoke_approximates hb) depth hk) fun _ => approximates_refl _

theorem fromWord_alongside {word : Action Unit} (hword : sameLeft.Keeps word word)
    (b depth k : Nat) (ip : Option Int) :
    sameLeft.Keeps (fromWord word b depth k ip) (fromWord word b depth k ip) :=
  (hword.bind fun _ => returnTo_alongside b depth k).bind fun _ =>
    Coupling.keeps_local (local_setPointer ip)

/-- A search for the name of a primitive finds it. -/
def Memory.Finds (memory : Memory) (p : Primitive) : Prop :=
  ∃ h, memory.find p.name = .ok (some h) ∧ h.plus headerSize = .ok (Kernel.codeField p)

/-- The words by which another word is looked up and run. -/
def lookupWords : List Primitive :=
  [.text .text, .compiler .find, .compiler .toCode, .thread .execute]

/-- Nothing is in the way of looking words up: outside of a definition, and with no dispatch logged,
the interpreter is whole, and the words of a look-up are found. -/
structure Machine.CanLookUp (m : Machine) : Prop where
  mode : m.mode = .immediate
  silent : m.tracing = false
  quit : m.memory.HasCode (Kernel.quitHeader + 3) (.native .enter :: Kernel.quitBody)
  intact : ∀ p ∈ [.input .interpret, .thread .branch, .input .key] ++ lookupWords,
    m.memory.Intact p
  found : ∀ p ∈ lookupWords, m.memory.Finds p

/-- The machine in the thread of `QUIT`, past a request, with a line begun for it. -/
def Machine.opened (m : Machine) (line : String) (ls : List String) : Machine :=
  { m with
    returns := m.ip :: m.returns, ip := some (Kernel.quitHeader + 5),
    console.source := { m.console.source with pending := ls }.beginLine line }

namespace Machine.CanLookUp

theorem traceable (h : m.CanLookUp) : Traceable m := by
  intro htracing
  rw [h.silent] at htracing
  cases htracing

theorem congr (h : m.CanLookUp) (hmode : m'.mode = m.mode) (htracing : m'.tracing = m.tracing)
    (hmemory : m'.memory = m.memory) : m'.CanLookUp where
  mode := hmode.trans h.mode
  silent := htracing.trans h.silent
  quit := hmemory ▸ h.quit
  intact := hmemory ▸ h.intact
  found := hmemory ▸ h.found

theorem later (h : m.CanLookUp) (hm : m.Later data rest m') : m'.CanLookUp :=
  h.congr hm.mode hm.tracing hm.memory

/-- A token in immediate mode is run, if it names a word. -/
theorem interpretToken (h : m.CanLookUp) (hfind : m.memory.find token = .ok (some header))
    (hcode : header.plus headerSize = .ok code) (e : Cell → Action Unit) :
    interpretToken e token m = e (.token code) m := by
  simp only [Action.interpretToken, bind_apply, ask_apply, hfind, hcode, liftM_ok, get_apply,
    h.mode, if_true]

/-- The loop of `QUIT` is started, and asks for its first token, with which the next line begins. -/
theorem opens (h : m.CanLookUp) (hrest : m.console.source.rest = [])
    (hpending : m.console.source.pending = line :: ls) (b : Nat) :
    ∃ n, (m.opened line ls).Later m.data (line.toList ++ ['\n']) n ∧
      execute (b + 1) Kernel.quitToken m =
        (fromRequest b m.returns.length b >>= fun _ =>
          modify fun m' => { m' with ip := m.ip }) n := by
  obtain ⟨log, hstart⟩ := invoke_of_native b h.traceable h.quit.1
  let m₁ : Machine := { m with
    current := some (Kernel.quitHeader + 3), log := log, returns := m.ip :: m.returns,
    ip := some (Kernel.quitHeader + 3 + 1) }
  have ht₁ : Traceable m₁ := h.traceable
  have hinterpret : m₁.memory.Intact (.input .interpret) := h.intact _ (by decide)
  obtain ⟨log₁, hstep⟩ := stepWith_of_native b ht₁ rfl h.quit.2.1 hinterpret
  let n : Machine := { m.opened line ls with
    ip := some (Kernel.quitHeader + 3 + 1 + 1),
    current := some (Kernel.header (.input .interpret) + 3), log := log₁ }
  have htoken : nextToken { m₁ with
      ip := some (Kernel.quitHeader + 3 + 1 + 1),
      current := some (Kernel.header (.input .interpret) + 3), log := log₁ } = nextToken n := by
    refine nextToken_congr fun host => ?_
    have hnone : m.console.source.takeToken? = none :=
      Source.takeToken?_of_delimiters (by simp [hrest])
    exact Reading.seekNext_of_refill hnone (Reading.refill_of_pending hpending)
  have hloop : returnTo (invoke (b + 1)) m.returns.length (b + 1) m₁ =
      fromRequest b m.returns.length b n := by
    rw [returnTo_of_deeper (Nat.lt_succ_self _)]
    exact bind_of_eq (hstep.trans (bind_of_eq htoken))
  refine ⟨n, ⟨rfl, rfl, rfl, rfl, rfl, ?_, rfl, rfl, rfl, rfl, rfl, rfl⟩, ?_⟩
  · exact congrArg some (by omega)
  · rw [execute, executeWith_apply]
    exact bind_of_eq ((bind_of_ok hstart).trans hloop)

/-- A round of `QUIT` leads to the next request. -/
theorem turns (h : n.CanLookUp) (hip : n.ip = some (Kernel.quitHeader + 5))
    (hd : depth < n.returns.length)
    (hturn : Proceeds (nextToken >>= Action.interpretToken (execute b)) n () data rest) :
    ∃ n', n.Later data rest n' ∧ ∀ k, fromRequest b depth (k + 2) n = fromRequest b depth k n' := by
  obtain ⟨m₁, hrun, hm₁⟩ := hturn
  have h₁ := h.later hm₁
  obtain ⟨-, hinterpret, hbranch, hdistance, -⟩ := h₁.quit
  have haddr : Kernel.quitHeader + 3 + 1 + 1 = Kernel.quitHeader + 5 := by omega
  rw [haddr] at hbranch hdistance
  have hwhole : m₁.memory.Intact (.thread .branch) := h₁.intact _ (by decide)
  obtain ⟨log, hstep⟩ := stepWith_of_native b h₁.traceable (hm₁.ip.trans hip) hbranch hwhole
  -- the branch leads back to where the token was asked for
  let m₂ : Machine := { m₁ with
    ip := some (Kernel.quitHeader + 5 + 1 + -2),
    current := some (Kernel.header (.thread .branch) + 3), log := log }
  have hback : stepWith (invoke (b + 1)) m₁ = .ok () m₂ := hstep.trans (jump_apply _ rfl hdistance)
  have hask : m₂.ip = some (Kernel.quitHeader + 3 + 1) := congrArg some (by omega)
  have hentry : m₂.memory.Intact (.input .interpret) := h₁.intact _ (by decide)
  obtain ⟨log₂, hstep₂⟩ := stepWith_of_native b (m := m₂) h₁.traceable hask hinterpret hentry
  have hdeep : depth < m₁.returns.length := hm₁.returns ▸ hd
  refine ⟨{ m₁ with
    ip := some (Kernel.quitHeader + 3 + 1 + 1),
    current := some (Kernel.header (.input .interpret) + 3), log := log₂ },
    { hm₁ with ip := (congrArg some haddr).trans hip.symm }, fun k => ?_⟩
  rw [fromRequest, bind_of_ok hrun, returnTo_of_deeper hdeep, bind_of_ok hback]
  exact (returnTo_of_deeper (m := m₂) hdeep).trans (bind_of_eq hstep₂)

/-- A word of the look-up is read and run. -/
theorem interprets (h : n.CanLookUp) {p : Primitive} (hp : p ∈ lookupWords) {gap : List Char}
    (hgap : ∀ c ∈ gap, Source.isDelimiter c = true)
    (hs : n.console.source.rest = gap ++ (p.name.toList ++ ' ' :: rest)) {rest' : List Char}
    (hperform : ∀ m₁, n.Later n.data (' ' :: rest) m₁ →
      Proceeds (p.perform (invoke b) (execute b) b) m₁ () data rest') :
    Proceeds (nextToken >>= Action.interpretToken (execute (b + 1))) n () data rest' := by
  have htoken : ∀ p ∈ lookupWords, Source.IsToken p.name.toList := by decide
  have htake := proceeds_nextToken (htoken p hp) hgap
    (delimited_space rest) hs
  rw [String.ofList_toList] at htake
  refine htake.bind fun m₁ hm₁ => ?_
  have h₁ := h.later hm₁
  obtain ⟨header, hfind, hcode⟩ := h₁.found p hp
  have hwhole : m₁.memory.Intact p := h₁.intact _ (List.mem_append_right _ hp)
  obtain ⟨m', hrun, hm'⟩ := proceeds_execute h₁.traceable hwhole fun m₂ hm₂ =>
    hperform m₂ (hm₁.data ▸ hm₁.rest ▸ hm₁.trans hm₂)
  exact ⟨m', (h₁.interpretToken hfind hcode _).trans hrun, hm'⟩

/-- The text behind `S"` is pushed. -/
theorem reads_text (h : n.CanLookUp) {gap t : List Char}
    (hgap : ∀ c ∈ gap, Source.isDelimiter c = true) (hquote : '"' ∉ t) (hb : t.length ≤ b)
    (hs : n.console.source.rest = gap ++ ("S\"".toList ++ ' ' :: (t ++ '"' :: rest))) :
    Proceeds (nextToken >>= Action.interpretToken (execute (b + 1 + 1))) n ()
      (.text (String.ofList t) :: n.data) rest := by
  refine h.interprets (p := .text .text) (by decide) hgap hs fun m₁ hm₁ => ?_
  have h₁ := h.later hm₁
  have hkey : m₁.memory.Intact (.input .key) := h₁.intact _ (by decide)
  rw [← hm₁.data]
  refine (proceeds_readText h₁.traceable hkey hquote hm₁.rest b (by omega)).bind fun m₂ hm₂ => ?_
  have hliteral : literal (.text (String.ofList t)) m₂ = push (.text (String.ofList t)) m₂ := by
    simp only [literal, bind_apply, get_apply, (h₁.later hm₂).mode]
  obtain ⟨m', hpush, hm'⟩ := proceeds_push (m := m₂) (.text (String.ofList t))
  exact ⟨m', hliteral.trans hpush, hm₂.data ▸ hm₂.rest ▸ hm'⟩

/-- `FIND` looks a name up. -/
theorem looks_up (h : n.CanLookUp) {gap : List Char}
    (hgap : ∀ c ∈ gap, Source.isDelimiter c = true) {name : String}
    (hdata : n.data = .text name :: data) (hfind : n.memory.find name = .ok (some header))
    (hs : n.console.source.rest = gap ++ ("FIND".toList ++ ' ' :: rest)) :
    Proceeds (nextToken >>= Action.interpretToken (execute (b + 1))) n () (header :: data)
      (' ' :: rest) := by
  refine h.interprets (p := .compiler .find) (by decide) hgap hs fun m₁ hm₁ => ?_
  have hpop : DataAction.popText CompilerWord.find.name m₁.data = .ok name data := by
    rw [hm₁.data, hdata]
    rfl
  rw [← hm₁.rest]
  refine (proceeds_onData hpop).bind fun m₂ hm₂ => ?_
  have hfind₂ : m₂.memory.find name = .ok (some header) := by rw [hm₂.memory, hm₁.memory, hfind]
  rw [← hm₂.data, ← hm₂.rest]
  refine (proceeds_ask hfind₂).bind fun m₃ hm₃ => ?_
  rw [← hm₃.data, ← hm₃.rest]
  exact proceeds_push _

/-- `>CFA` makes an execution token of a header. -/
theorem makes_token (h : n.CanLookUp) {gap : List Char}
    (hgap : ∀ c ∈ gap, Source.isDelimiter c = true) {addr : Int} (hdata : n.data = header :: data)
    (hint : header.int? = some addr)
    (hs : n.console.source.rest = gap ++ (">CFA".toList ++ ' ' :: rest)) :
    Proceeds (nextToken >>= Action.interpretToken (execute (b + 1))) n ()
      (.token (addr + headerSize) :: data) (' ' :: rest) := by
  refine h.interprets (p := .compiler .toCode) (by decide) hgap hs fun m₁ hm₁ => ?_
  have hpop : DataAction.popInt CompilerWord.toCode.name m₁.data = .ok addr data := by
    rw [hm₁.data, hdata]
    simp [DataAction.popInt, DataAction.pop, bind_apply, Cell.expectInt, hint]
    rfl
  rw [← hm₁.rest]
  refine (proceeds_onData hpop).bind fun m₂ hm₂ => ?_
  rw [← hm₂.data, ← hm₂.rest]
  exact proceeds_push _

/-! ## The two ways -/

section Ways

variable {w : String} {tail : List Char} {addr : Int}

/-- The word is run by its name. -/
theorem runs_named (h : m.CanLookUp) (hrest : m.console.source.rest = [])
    (hpending : m.console.source.pending = line :: ls) (htoken : Source.IsToken w.toList)
    (hline : line.toList ++ ['\n'] = w.toList ++ ' ' :: tail)
    (hfind : m.memory.find w = .ok (some header)) (hint : header.int? = some addr) (b : Nat) :
    ∃ n, (m.opened line ls).Later m.data (' ' :: tail) n ∧
      execute (b + 1) Kernel.quitToken m =
        fromWord (execute b (.token (addr + headerSize))) (b + 1) m.returns.length b m.ip n := by
  obtain ⟨n, hn, hrun⟩ := h.opens hrest hpending b
  have hgap : ∀ c ∈ ([] : List Char), Source.isDelimiter c = true := by simp
  obtain ⟨n₁, hread, hn₁⟩ :=
    proceeds_nextToken htoken hgap (delimited_space tail) (hn.rest.trans hline)
  rw [String.ofList_toList] at hread
  have hm := hn.trans hn₁
  have hfind₁ : n₁.memory.find w = .ok (some header) := by
    rw [hm.memory]
    exact hfind
  have h₁ : n₁.CanLookUp := h.congr hm.mode hm.tracing hm.memory
  have htoken : (nextToken >>= Action.interpretToken (execute b)) n =
      execute b (.token (addr + headerSize)) n₁ :=
    (bind_of_ok hread).trans
      (h₁.interpretToken hfind₁ (Memory.plus_of_number (Memory.number?_of_int? hint) headerSize) _)
  exact ⟨n₁, hn.data ▸ hm, hrun.trans (bind_of_eq (bind_of_eq htoken))⟩

/-- The word is looked up, and its token is given to `EXECUTE`. -/
theorem runs_found (h : m.CanLookUp) (hrest : m.console.source.rest = [])
    (hpending : m.console.source.pending = line :: ls) (hquote : '"' ∉ w.toList)
    (hline : line.toList ++ ['\n'] = "S\"".toList ++ ' ' :: (w.toList ++ '"' ::
      ([' '] ++ ("FIND".toList ++ ' ' :: (">CFA".toList ++ ' ' ::
        ("EXECUTE".toList ++ ' ' :: tail))))))
    (hfind : m.memory.find w = .ok (some header)) (hint : header.int? = some addr) {k : Nat}
    (hk : w.toList.length ≤ k) :
    ∃ n, (m.opened line ls).Later m.data (' ' :: tail) n ∧
      execute (k + 7) Kernel.quitToken m =
        fromWord (executeInside (k + 5) (.token (addr + headerSize))) (k + 7) m.returns.length k
          m.ip n := by
  obtain ⟨n, hn, hrun⟩ := h.opens hrest hpending (k + 6)
  have hnone : ∀ c ∈ ([] : List Char), Source.isDelimiter c = true := by simp
  have hspace : ∀ c ∈ [' '], Source.isDelimiter c = true := List.forall_mem_singleton.mpr rfl
  have hdeep {n' : Machine} {data : List Cell} {rest : List Char}
      (hn' : (m.opened line ls).Later data rest n') : m.returns.length < n'.returns.length := by
    rw [hn'.returns]
    exact Nat.lt_succ_self _
  have hcan {n' : Machine} {data : List Cell} {rest : List Char}
      (hn' : (m.opened line ls).Later data rest n') : n'.CanLookUp :=
    h.congr hn'.mode hn'.tracing hn'.memory
  have hfinds {n' : Machine} {data : List Cell} {rest : List Char}
      (hn' : (m.opened line ls).Later data rest n') : n'.memory.find w = .ok (some header) := by
    rw [hn'.memory]
    exact hfind
  -- one round for each of the first three words
  obtain ⟨n₁, hn₁, hround₁⟩ := (hcan hn).turns hn.ip (hdeep hn)
    ((hcan hn).reads_text (b := k + 4) hnone hquote (by omega) (hn.rest.trans hline))
  have hm₁ := hn.trans hn₁
  rw [String.ofList_toList] at hn₁ hm₁
  obtain ⟨n₂, hn₂, hround₂⟩ := (hcan hm₁).turns hm₁.ip (hdeep hm₁)
    ((hcan hm₁).looks_up (b := k + 5) hspace hm₁.data (hfinds hm₁) hm₁.rest)
  have hm₂ := hm₁.trans hn₂
  obtain ⟨n₃, hn₃, hround₃⟩ := (hcan hm₂).turns hm₂.ip (hdeep hm₂)
    ((hcan hm₂).makes_token (b := k + 5) hspace hm₂.data hint hm₂.rest)
  have hm₃ := hm₂.trans hn₃
  -- the fourth runs the word
  have htoken : Source.IsToken "EXECUTE".toList := by decide
  obtain ⟨n₄, hread, hn₄⟩ := proceeds_nextToken htoken hspace
    (delimited_space tail) hm₃.rest
  have hm₄ := hm₃.trans hn₄
  obtain ⟨header', hfind', hcode'⟩ := (hcan hm₄).found (.thread .execute) (by decide)
  obtain ⟨n₅, hn₅, hexecutes⟩ := execute_executes (hcan hm₄).traceable
    ((hcan hm₄).intact _ (by decide)) (hn₄.data.trans hm₃.data) (k + 5)
  have hword : (nextToken >>= Action.interpretToken (execute (k + 6))) n₃ =
      executeInside (k + 5) (.token (addr + headerSize)) n₅ :=
    (bind_of_ok hread).trans (((hcan hm₄).interpretToken hfind' hcode' _).trans hexecutes)
  have hrounds : fromRequest (k + 6) m.returns.length (k + 6) n =
      fromRequest (k + 6) m.returns.length k n₃ :=
    (hround₁ (k + 4)).trans ((hround₂ (k + 2)).trans (hround₃ k))
  refine ⟨n₅, hn.data ▸ hm₄.rest ▸ hm₄.trans hn₅, hrun.trans (bind_of_eq ?_)⟩
  exact hrounds.trans (bind_of_eq hword)

end Ways

end Machine.CanLookUp

/-! ## The same course -/

/-- Two machines in the same state, where the same is left to read and the same has appeared. -/
structure Machine.SamePlace (m m' : Machine) : Prop extends m.Alike m' where
  rest : m'.console.source.rest = m.console.source.rest
  pending : m'.console.source.pending = m.console.source.pending

/-- Two runs, for each bound on the number of steps, come to the same end, or neither does. -/
def SameCourse {α : Type} (left right : Nat → EStateM.Result Stop Machine α) : Prop :=
  (∀ b, (∀ m, left b ≠ .error .exhausted m) → ∃ k,
    Agree Machine.SamePlace (fun _ => Machine.SamePlace) (left b) (right k)) ∧
  ∀ k, (∀ m, right k ≠ .error .exhausted m) → ∃ b,
    Agree Machine.SamePlace (fun _ => Machine.SamePlace) (left b) (right k)

theorem samePlace_of_sameLeft (h : sameLeft.Rel m m') : m.SamePlace m' where
  toSameState := h.sameState h.back h.console.lineCount
  transcript := h.console.transcript
  rest := h.console.rest
  pending := h.console.pending

theorem Alongside.samePlace {α : Type} {left right : EStateM.Result Stop Machine α}
    (h : Alongside left right) :
    Agree Machine.SamePlace (fun _ => Machine.SamePlace) left right :=
  h.imp (fun _ _ => samePlace_of_sameLeft) fun _ _ _ => samePlace_of_sameLeft

theorem Alongside.flip {α : Type} {left right : EStateM.Result Stop Machine α}
    (h : Alongside left right) : Alongside right left :=
  Agree.symm (h.imp (fun _ _ => sameLeft_symm) fun _ _ _ => sameLeft_symm)

theorem Alongside.ends {α : Type} {left right : EStateM.Result Stop Machine α}
    (h : Alongside left right) (hends : ∀ m, left ≠ .error .exhausted m) :
    ∀ m, right ≠ .error .exhausted m := by
  rintro m rfl
  cases h with
  | error h => exact hends _ rfl

/-- What goes in lockstep goes alongside, where it comes to an end. -/
theorem alongside_of_keeps {act : Action Unit} (hact : sameLeft.Keeps act act)
    (h : sameLeft.Rel m m') (hends : ∀ m₁, act m ≠ .error .exhausted m₁) :
    Alongside (act m) (act m') := by
  refine (hact.along m m' h).resolve_left fun hgone => ?_
  obtain ⟨m₁, hstop⟩ := hgone.exhausted fun _ => id
  exact hends m₁ hstop

namespace Session

variable {w r : String} {sink : Sink} {addr : Int}

/-- The text that looks a word up and runs it. -/
def lookupText (w : String) : String := "S\" " ++ w ++ "\" FIND >CFA EXECUTE"

/-- A text that comes to an end does so because its run of `QUIT` does. -/
theorem execute_ends {text : String}
    (h : ∀ m₁, interpretText b sink text m ≠ .error .exhausted m₁) :
    ∀ m₁, execute b Kernel.quitToken (m.feed text).detached ≠ .error .exhausted m₁ := by
  intro m₁ hquit
  obtain ⟨m₂, hfed⟩ := interpretFed_of_exhausted hquit
  exact h _ (interpretText_of_stop hfed sink)

/-- The machine in the thread of `QUIT`, with one line of a text begun, nothing left of it, and the
other ones to come. -/
def begun (m : Machine) (ls : List String) : Machine :=
  { m with
    returns := m.ip :: m.returns, ip := some (Kernel.quitHeader + 5),
    console := {
      source := { pending := ls, lineCount := m.console.source.lineCount + 1 }, transcript := {} } }

theorem later_begun {text : String}
    (hn : ((m.feed text).detached.opened line ls).Later data rest n) :
    (begun m ls).Later data rest n :=
  ⟨hn.data, hn.rest, hn.returns, hn.memory, hn.mode, hn.ip, hn.tracing, hn.remarks, hn.pending,
    hn.lineCount, hn.reader, hn.transcript⟩

section Ways

variable (h : m.CanLookUp) (hidle : m.console.source.hasPending = false)
  (hfind : m.memory.find w = .ok (some header)) (hint : header.int? = some addr)

include h hidle hfind hint

/-- A word that is named in front of a text. -/
theorem named_run (htoken : Source.IsToken w.toList) (hone : Text.OneLine w) (r : String)
    (b : Nat) :
    ∃ n, (begun m (Text.lines r).tail).Later m.data
        (' ' :: (((Text.lines r).headD "").toList ++ ['\n'])) n ∧
      execute (b + 1) Kernel.quitToken (m.feed (w ++ " " ++ r)).detached =
        fromWord (execute b (.token (addr + headerSize))) (b + 1) m.returns.length b m.ip n := by
  obtain ⟨hpending, hrest⟩ : m.console.source.pending = [] ∧ m.console.source.rest = [] := by
    simpa [Source.hasPending] using hidle
  have hne : (w ++ " ").toList ≠ [] := by simp
  have hlines := Text.lines_append r hne (Text.oneLine_append.mpr ⟨hone, by decide⟩)
  have hfed : (m.feed (w ++ " " ++ r)).detached.console.source.pending =
      (w ++ " " ++ (Text.lines r).headD "") :: (Text.lines r).tail := by
    show m.console.source.pending ++ Text.lines (w ++ " " ++ r) = _
    rw [hpending, hlines, List.nil_append]
  have hcan : (m.feed (w ++ " " ++ r)).detached.CanLookUp := h.congr rfl rfl rfl
  have hchars : (w ++ " " ++ (Text.lines r).headD "").toList ++ ['\n'] =
      w.toList ++ ' ' :: (((Text.lines r).headD "").toList ++ ['\n']) := by simp
  obtain ⟨n, hn, hrun⟩ := hcan.runs_named hrest hfed htoken hchars hfind hint b
  exact ⟨n, later_begun hn, hrun⟩

/-- A word that is looked up in front of a text. -/
theorem lookup_run (hone : Text.OneLine w) (hquote : '"' ∉ w.toList) (r : String) {k : Nat}
    (hk : w.toList.length ≤ k) :
    ∃ n, (begun m (Text.lines r).tail).Later m.data
        (' ' :: (((Text.lines r).headD "").toList ++ ['\n'])) n ∧
      execute (k + 7) Kernel.quitToken (m.feed (lookupText w ++ " " ++ r)).detached =
        fromWord (executeInside (k + 5) (.token (addr + headerSize))) (k + 7) m.returns.length k
          m.ip n := by
  obtain ⟨hpending, hrest⟩ : m.console.source.pending = [] ∧ m.console.source.rest = [] := by
    simpa [Source.hasPending] using hidle
  have hne : (lookupText w ++ " ").toList ≠ [] := by simp
  have hline : Text.OneLine (lookupText w ++ " ") := by
    simp only [lookupText, Text.oneLine_append]
    exact ⟨⟨⟨by decide, hone⟩, by decide⟩, by decide⟩
  have hlines := Text.lines_append r hne hline
  have hfed : (m.feed (lookupText w ++ " " ++ r)).detached.console.source.pending =
      (lookupText w ++ " " ++ (Text.lines r).headD "") :: (Text.lines r).tail := by
    show m.console.source.pending ++ Text.lines (lookupText w ++ " " ++ r) = _
    rw [hpending, hlines, List.nil_append]
  have hcan : (m.feed (lookupText w ++ " " ++ r)).detached.CanLookUp := h.congr rfl rfl rfl
  have hchars : (lookupText w ++ " " ++ (Text.lines r).headD "").toList ++ ['\n'] =
      "S\"".toList ++ ' ' :: (w.toList ++ '"' :: ([' '] ++ ("FIND".toList ++
        ' ' :: (">CFA".toList ++ ' ' :: ("EXECUTE".toList ++
          ' ' :: (((Text.lines r).headD "").toList ++ ['\n'])))))) := by
    simp [lookupText]
  obtain ⟨n, hn, hrun⟩ := hcan.runs_found hrest hfed hquote hchars hfind hint hk
  exact ⟨n, later_begun hn, hrun⟩

/-- If the word by its name comes to an end, so does the look-up. -/
theorem lookup_follows (htoken : Source.IsToken w.toList) (hone : Text.OneLine w)
    (hquote : '"' ∉ w.toList) (r : String) (hends : ∀ m₁,
      execute (b + 1) Kernel.quitToken (m.feed (w ++ " " ++ r)).detached ≠ .error .exhausted m₁) :
    Alongside (execute (b + 1) Kernel.quitToken (m.feed (w ++ " " ++ r)).detached)
      (execute (b + w.toList.length + 7) Kernel.quitToken
        (m.feed (lookupText w ++ " " ++ r)).detached) := by
  obtain ⟨n, hn, hnamed⟩ := named_run h hidle hfind hint htoken hone r b
  obtain ⟨n', hn', hlookup⟩ :=
    lookup_run h hidle hfind hint hone hquote r (Nat.le_add_left w.toList.length b)
  rw [hnamed] at hends ⊢
  have hbeside := alongside_of_keeps
    (fromWord_alongside (execute_alongside b _) (b + 1) m.returns.length b m.ip)
    (hn.sameLeft hn') hends
  have hword : Approximates (execute b (.token (addr + headerSize)))
      (executeInside (b + w.toList.length + 5) (.token (addr + headerSize))) :=
    (execute_approximates (by omega) _).trans (execute_approximates_inside _ _)
  rw [hlookup, ← (fromWord_approximates hword (show b + 1 ≤ b + w.toList.length + 7 by omega)
    (Nat.le_add_right b w.toList.length) m.returns.length m.ip).eq_of_ends (hbeside.ends hends)]
  exact hbeside

/-- If the look-up comes to an end, so does the word by its name. -/
theorem named_follows (htoken : Source.IsToken w.toList) (hone : Text.OneLine w)
    (hquote : '"' ∉ w.toList) (r : String) (hk : w.toList.length ≤ k) (hends : ∀ m₁,
      execute (k + 7) Kernel.quitToken (m.feed (lookupText w ++ " " ++ r)).detached ≠
        .error .exhausted m₁) :
    Alongside (execute (k + 7) Kernel.quitToken (m.feed (w ++ " " ++ r)).detached)
      (execute (k + 7) Kernel.quitToken (m.feed (lookupText w ++ " " ++ r)).detached) := by
  obtain ⟨n, hn, hnamed⟩ := named_run h hidle hfind hint htoken hone r (k + 6)
  obtain ⟨n', hn', hlookup⟩ := lookup_run h hidle hfind hint hone hquote r hk
  have hsame := (fromWord_approximates
    (executeInside_approximates (k + 5) (.token (addr + headerSize))) (Nat.le_refl (k + 7))
    (show k ≤ k + 6 by omega) m.returns.length m.ip).eq_of_ends (hlookup ▸ hends)
  rw [hlookup, hsame] at hends ⊢
  rw [hnamed]
  exact (alongside_of_keeps
    (fromWord_alongside (execute_alongside (k + 6) _) (k + 7) m.returns.length (k + 6) m.ip)
    (hn'.sameLeft hn) hends).flip

end Ways

/-- **Looking a word up and executing it is running it by its name**, in front of any text. -/
theorem looks_up_as_named (h : m.CanLookUp) (hidle : m.console.source.hasPending = false)
    (htoken : Source.IsToken w.toList) (hone : Text.OneLine w) (hquote : '"' ∉ w.toList)
    (hfind : m.memory.find w = .ok (some header)) (hint : header.int? = some addr) (sink : Sink)
    (r : String) :
    SameCourse (fun b => interpretText b sink (w ++ " " ++ r) m)
      (fun b => interpretText b sink (lookupText w ++ " " ++ r) m) := by
  constructor
  · intro b hends
    have hquit := execute_ends hends
    obtain _ | b := b
    · exact absurd rfl (hquit _)
    · exact ⟨b + w.toList.length + 7, (interpretText_alongside sink
        (lookup_follows h hidle hfind hint htoken hone hquote r hquit)).samePlace⟩
  · intro b hends
    -- a bound that is large enough for the text that is looked up
    let k := b + w.toList.length
    have hmore : interpretText b sink (lookupText w ++ " " ++ r) m =
        interpretText (k + 7) sink (lookupText w ++ " " ++ r) m :=
      (interpretText_approximates (show b ≤ k + 7 by omega) _ _).eq_of_ends hends
    refine ⟨k + 7, ?_⟩
    beta_reduce at hends ⊢
    rw [hmore] at hends ⊢
    exact (interpretText_alongside sink (named_follows h hidle hfind hint htoken hone hquote r
      (Nat.le_add_left _ b) (execute_ends hends))).samePlace

open Kernel in
/-- `:` is looked up and run in front of the rest of a definition. -/
theorem looks_up_colon :
    Kernel.machine.CanLookUp ∧ Kernel.machine.console.source.hasPending = false ∧
      Source.IsToken ":".toList ∧ Text.OneLine ":" ∧ '"' ∉ ":".toList ∧
      memory.find ":" = .ok (some (.int colonHeader)) ∧
      (Cell.int colonHeader).int? = some colonHeader ∧
      SameCourse (fun b => interpretText b .shared (":" ++ " " ++ "TWICE 2 * ;\n4 TWICE") machine)
        (fun b => interpretText b .shared (lookupText ":" ++ " " ++ "TWICE 2 * ;\n4 TWICE")
          machine) := by
  have hfinds : ∀ p ∈ lookupWords, memory.find p.name = .ok (some (.int (header p))) := by
    simp only [kernel_wellFormed.find_eq]
    decide +kernel
  have hcan : machine.CanLookUp := {
    mode := rfl
    silent := rfl
    quit := kernel_primitives.2
    intact := by decide +kernel
    found := fun p hp => ⟨_, hfinds p hp, rfl⟩ }
  have hfind : memory.find ":" = .ok (some (.int colonHeader)) := by
    rw [kernel_wellFormed.find_eq]
    decide +kernel
  exact ⟨hcan, rfl, by decide, by decide, by decide, hfind, rfl,
    looks_up_as_named hcan rfl (by decide) (by decide) (by decide) hfind rfl .shared
      "TWICE 2 * ;\n4 TWICE"⟩

/-- The memory of the kernel, with most of its words taken out of the chain of headers. -/
def shortMemory : Memory :=
  ((Kernel.memory.write Kernel.quitHeader.toNat (.int (Kernel.header (.text .text)))).write
    (Kernel.header (.text .text)).toNat (.int (Kernel.header (.compiler .toCode)))).write
    (Kernel.header (.compiler .find)).toNat (.int (Kernel.header (.thread .execute)))

/-- Machines with a word that is not run by its token as by its name: a link of the dictionary is a
Boolean, and it leads to the word; the name of the word takes two lines; a line waits that begins a
text; `QUIT` returns after one word; `INTERPRET` only takes words; the code field of `BRANCH` is
written over. -/
def oddMachines : List (Machine × String) :=
  [({ memory := shortMemory.write 5 (.bool true) }, "EXIT"),
    ({ memory := shortMemory.write 2 (.text "A\x0cB") }, "A\x0cB"),
    ({ memory := shortMemory, console := { source := { pending := ["S\""] } } }, "EXIT"),
    ({ memory := shortMemory.write (Kernel.quitHeader + 5).toNat Kernel.exitToken }, "EXIT"),
    ({ memory := shortMemory.write (Kernel.header (.input .interpret) + 3).toNat
        (.native (.primitive (.input .word))) }, "EXIT"),
    ({ memory := shortMemory.write (Kernel.header (.thread .branch) + 3).toNat (.int 0) }, "EXIT")]

/-- Two runs come to ends that can be told apart. -/
def partWays (left right : EStateM.Result Stop Machine String) : Bool :=
  match verdict left, verdict right with
  | some (outcome, m), some (outcome', m') => outcome ≠ outcome' || m.data ≠ m'.data ||
      m.console.transcript.pieces ≠ m'.console.transcript.pieces
  | _, _ => false

theorem verdict_of_partWays {left right : EStateM.Result Stop Machine String}
    (h : partWays left right = true) :
    (∀ m, left ≠ .error .exhausted m) ∧ ∀ m, right ≠ .error .exhausted m := by
  constructor
  · rintro m rfl
    exact Bool.false_ne_true h
  · rintro m rfl
    unfold partWays at h
    split at h
    · next hverdict => cases hverdict
    · cases h

theorem not_partWays_of_agree {left right : EStateM.Result Stop Machine String}
    (h : Agree Machine.SamePlace (fun _ => Machine.SamePlace) left right) :
    partWays left right = false := by
  cases h with
  | ok h => simp [partWays, verdict, h.data, h.transcript]
  | @error stop m m' h =>
    cases stop with
    | fault f => simp [partWays, verdict, h.data, h.transcript]
    | endOfInput => rfl
    | defect d => rfl
    | exhausted => rfl

/-- Two texts whose runs can be told apart do not take the same course. -/
theorem not_sameCourse {text text' : String}
    (h : partWays (interpretText b sink text m) (interpretText bound sink text' m) = true) :
    ¬ SameCourse (fun b => interpretText b sink text m)
      (fun b => interpretText b sink text' m) := by
  rintro ⟨hfollows, -⟩
  obtain ⟨hleft, hright⟩ := verdict_of_partWays h
  obtain ⟨k, hagree⟩ := hfollows b hleft
  beta_reduce at hagree
  have hends : ∀ m₁, interpretText k sink text' m ≠ .error .exhausted m₁ := by
    intro m₁ hstop
    rw [hstop] at hagree
    generalize interpretText b sink text m = left at hagree hleft
    cases hagree with
    | error => exact hleft _ rfl
  rw [interpretText_unique hends hright] at hagree
  exact Bool.false_ne_true ((not_partWays_of_agree hagree).symm.trans h)

theorem oddMachines_ready : ∀ e ∈ oddMachines, e.1.mode = .immediate ∧ e.1.tracing = false ∧
    (∀ p ∈ .input .key :: lookupWords, e.1.memory.Intact p) ∧
    (∀ p ∈ lookupWords, e.1.memory.find p.name = .ok (some (.int (Kernel.header p)))) ∧
    Source.IsToken e.2.toList ∧ '"' ∉ e.2.toList := by
  decide +kernel

theorem oddMachines_find : oddMachines.all (fun e => match e.1.memory.find e.2 with
    | .ok (some _) => true
    | _ => false) = true := by
  decide +kernel

theorem oddMachines_part : oddMachines.Forall fun e =>
    partWays (interpretText 30 .shared (e.2 ++ " " ++ "") e.1)
      (interpretText 30 .shared (lookupText e.2 ++ " " ++ "") e.1) = true :=
  ⟨by decide +kernel, by decide +kernel, by decide +kernel, by decide +kernel, by decide +kernel,
    by decide +kernel⟩

theorem lookup_goes_astray : oddMachines.Forall fun (m, w) =>
    m.mode = .immediate ∧ m.tracing = false ∧
      (∀ p ∈ .input .key :: lookupWords, m.memory.Intact p) ∧
      (∀ p ∈ lookupWords, m.memory.find p.name = .ok (some (.int (Kernel.header p)))) ∧
      Source.IsToken w.toList ∧ '"' ∉ w.toList ∧ (∃ header, m.memory.find w = .ok (some header)) ∧
      ¬ SameCourse (fun b => interpretText b .shared (w ++ " " ++ "") m)
        (fun b => interpretText b .shared (lookupText w ++ " " ++ "") m) := by
  rw [List.forall_iff_forall_mem]
  rintro ⟨m, w⟩ hm
  obtain ⟨hmode, hsilent, hintact, hfound, htoken, hquote⟩ := oddMachines_ready _ hm
  have hpart := List.forall_iff_forall_mem.mp oddMachines_part _ hm
  refine ⟨hmode, hsilent, hintact, hfound, htoken, hquote, ?_, not_sameCourse hpart⟩
  have hfind := List.all_eq_true.mp oddMachines_find _ hm
  split at hfind
  · next header hheader => exact ⟨header, hheader⟩
  · cases hfind

end Session

end ThreadedForth
