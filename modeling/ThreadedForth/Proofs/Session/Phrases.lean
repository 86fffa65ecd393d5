import ThreadedForth.Proofs.Machine.Stretch
import ThreadedForth.Proofs.Session.Texts
import ThreadedForth.Proofs.Source.Tokens
import ThreadedForth.Proofs.Structured.Execution
import ThreadedForth.Proofs.Structured.Extension

/-!
# Phrases

A phrase is a list of tokens that are numerals and words of a program (`Phrase`). Outside of a
definition `QUIT` takes them one after the other, pushes what the numerals stand for and runs the
words, each to its end. So a run of `QUIT` on these tokens does what the phrase means as the body of
a word (`Phrase.execute_quit`).

The progress of the phrase shows in the machine whenever `QUIT` comes round (`Interpreting`), and
from what a token does (`Word.yields`) it follows what all of them do (`Phrase.rounds`). The other
way round, a run that comes to an end has run each word to its end (`Phrase.means_of_ends`).
-/

namespace ThreadedForth

open ThreadedForth.Action

/-! ## Phrases and bodies -/

/-- A token stands for a part of a body, outside of a definition: a numeral that names no word is a
literal, and a word of the program that is not immediate is a call. -/
inductive Word (m : Memory) (p : Program) : String → Body → Prop
  | numeral {token : String} {n : Int} (htoken : Lexeme token) (hfind : m.find token = .ok none)
      (hread : Numeral.read? token = some n) : Word m p token (.literal (.int n))
  | call {token : String} {header : Int} (htoken : Lexeme token)
      (hfind : m.find token = .ok (some (.int header)))
      (himm : m.isImmediate (.int header) = .ok false) (hcode : p (header + headerSize) ≠ none) :
      Word m p token (.call (header + headerSize))

/-- The tokens of a phrase, and the body that they make. -/
inductive Phrase (m : Memory) (p : Program) : List String → Body → Prop
  | nil : Phrase m p [] .empty
  | cons {token : String} {tokens : List String} {a b : Body} (ha : Word m p token a)
      (hb : Phrase m p tokens b) : Phrase m p (token :: tokens) (.seq a b)

/-- The text of a phrase, as it stands in a definition. -/
def phraseText : List String → String
  | [] => ""
  | token :: tokens => " " ++ token ++ phraseText tokens

section Spelling

variable {m : Memory} {p q : Program} {token : String} {tokens : List String} {a body : Body}
  {self here : Int} {s t : Progress}

theorem Word.spelled (h : Word m p token a) : Spelled m a (" " ++ token) := by
  cases h with
  | numeral htoken hfind hread => exact .numeral htoken hfind hread
  | call htoken hfind himm _ => exact .word htoken hfind himm

theorem Phrase.spelled (h : Phrase m p tokens body) : Spelled m body (phraseText tokens) := by
  induction h with
  | nil => exact .empty
  | cons ha _ ih => exact ha.spelled.seq ih

theorem Phrase.closedIn (h : Phrase m p tokens body) : body.ClosedIn p := by
  induction h with
  | nil => exact List.forall_mem_nil _
  | cons ha _ ih =>
    refine List.forall_mem_append.mpr ⟨?_, ih⟩
    cases ha with
    | numeral => exact List.forall_mem_nil _
    | call _ _ _ hcode => exact List.forall_mem_singleton.mpr hcode

/-- A phrase means the same in any program of which that one is part, and in any word. -/
theorem Phrase.means_iff (h : Phrase m p tokens body) (hwithin : p.Within q)
    (hclosed : ∀ addr b, p addr = some (.thread b) → b.ClosedIn p) :
    Means q self body s t ↔ Means p here body s t := by
  have hword {token : String} {a : Body} {s t : Progress} (ha : Word m p token a) :
      Means q self a s t ↔ Means p here a s t := by
    cases ha with
    | numeral => rw [means_literal_iff, means_literal_iff]
    | call _ _ _ hcode =>
      have hcall := hwithin.means_call_iff (s := s) (t := t) hclosed hcode
      exact ⟨fun h => (hcall.mp h.call_in).call_in, fun h => (hcall.mpr h.call_in).call_in⟩
  induction h generalizing s with
  | nil => rw [means_empty_iff, means_empty_iff]
  | cons ha _ ih => simp only [means_seq_iff, hword ha, ih]

end Spelling

/-! ## What a token does -/

/-- The texts of a progress as a transcript. -/
def Progress.transcript (s : Progress) : Transcript := ⟨s.printed.map (Voice.program, ·)⟩

/-- The machine before it has printed anything. -/
def Machine.unprinted (m : Machine) : Machine :=
  { m with console := { m.console with transcript := {} } }

/-- A machine has made some progress, and these tokens are to be interpreted next. Its thread is at
a place, and nothing else was printed. -/
structure Interpreting (memory : Memory) (here : Place) (s : Progress) (tokens : List String)
    (m : Machine) : Prop where
  data : m.data = s.data
  transcript : m.console.transcript = s.transcript
  memory : m.memory = memory
  mode : m.mode = .immediate
  alone : m.console.source.reader = none
  tokens : m.console.source.tokensToCome = tokens
  ip : m.ip = here.ip
  returns : m.returns = here.returns

section Tokens

variable {memory : Memory} {p : Program} {here : Place} {s t : Progress} {token : String}
  {tokens : List String} {m m' : Machine} {a : Body} {self : Int} {bound : Nat}

theorem Interpreting.traceable (hm : Interpreting memory here s tokens m)
    (hlabels : ∀ code, ∃ name, memory.label code = .ok name) : Traceable m :=
  fun _ => hm.memory ▸ hlabels

theorem Interpreting.stands (hm : Interpreting memory here s tokens m) :
    Stands m.unprinted s ⟨m.ip, m.returns⟩ m := by
  refine ⟨⟨hm.data, ?_, rfl, rfl, rfl⟩, rfl, rfl⟩
  have htranscript : m.console.transcript = ⟨s.printed.map (Voice.program, ·) ++ []⟩ := by
    rw [hm.transcript, List.append_nil]
    rfl
  rw [Machine.unprinted, Console.printing, ← htranscript]

theorem Interpreting.of_stands (hm : Interpreting memory here s tokens m)
    (h : Stands m.unprinted t ⟨m.ip, m.returns⟩ m') : Interpreting memory here t tokens m' where
  data := h.data
  transcript := by
    rw [h.console]
    exact congrArg Transcript.mk (List.append_nil _)
  memory := h.memory.trans hm.memory
  mode := h.mode.trans hm.mode
  alone := by
    rw [h.console]
    exact hm.alone
  tokens := by
    rw [h.console]
    exact hm.tokens
  ip := h.ip.trans hm.ip
  returns := h.returns.trans hm.returns

/-- A numeral that names no word is pushed. -/
theorem Interpreting.numeral_yields (hm : Interpreting memory here s tokens m)
    (hs : s.status = .running) {e : Cell → Action Unit} {n : Int}
    (hfind : memory.find token = .ok none) (hread : Numeral.read? token = some n) :
    Yields (interpretToken e token) m.unprinted ⟨m.ip, m.returns⟩
      { s with data := .int n :: s.data } m := by
  have hfind' : m.memory.find token = .ok none := hm.memory ▸ hfind
  have hrun : interpretToken e token m = .ok () { m with data := .int n :: m.data } := by
    simp [interpretToken, bind_apply, ask_apply, hfind', hread, literal, hm.mode, push]
  refine .running hs hrun ⟨⟨?_, hm.stands.console, rfl, rfl, rfl⟩, rfl, rfl⟩
  rw [hm.data]

/-- A word is run to its end outside of a definition. -/
theorem Interpreting.interpretToken_of_word (hm : Interpreting memory here s tokens m)
    {e : Cell → Action Unit} {header : Int} (hfind : memory.find token = .ok (some (.int header))) :
    interpretToken e token m = e (.token (header + headerSize)) m := by
  have hfind' : m.memory.find token = .ok (some (.int header)) := hm.memory ▸ hfind
  simp [interpretToken, bind_apply, ask_apply, hfind', hm.mode, Cell.plus, Cell.number?, Cell.int?]

variable (ha : Word memory p token a) (hp : p.HeldBy memory)
  (hlabels : ∀ code, ∃ name, memory.label code = .ok name)
  (hm : Interpreting memory here s tokens m) (hs : s.status = .running)
include ha hp hlabels hm hs

/-- To interpret a token does what it means. -/
theorem Word.yields (h : Means p self a s t) :
    ∃ bound, Yields (interpretToken (execute bound) token) m.unprinted ⟨m.ip, m.returns⟩ t m := by
  have hp' : p.HeldBy m.unprinted.memory := hm.memory.symm ▸ hp
  have ht : Traceable m.unprinted := hm.traceable hlabels
  cases ha with
  | numeral _ hfind hread =>
    rw [means_literal_iff, if_pos hs] at h
    exact ⟨0, h ▸ hm.numeral_yields hs hfind hread⟩
  | call _ hfind _ _ =>
    obtain ⟨bound, hyields⟩ := h.execute_yields hp' ht hs hm.stands
    exact ⟨bound, hyields.congr (hm.interpretToken_of_word hfind)⟩

/-- A token means something if its interpretation comes to an end. -/
theorem Word.means_of_ends (self : Int)
    (hends : ∀ m₁, interpretToken (execute bound) token m ≠ .error .exhausted m₁) :
    ∃ t, Means p self a s t ∧
      Yields (interpretToken (execute bound) token) m.unprinted ⟨m.ip, m.returns⟩ t m := by
  have hp' : p.HeldBy m.unprinted.memory := hm.memory.symm ▸ hp
  have ht : Traceable m.unprinted := hm.traceable hlabels
  cases ha with
  | numeral _ hfind hread => exact ⟨_, .literal hs, hm.numeral_yields hs hfind hread⟩
  | call _ hfind _ hcode =>
    have hrun := hm.interpretToken_of_word (e := execute bound) hfind
    rw [hrun] at hends
    obtain ⟨t, hmeans, hyields⟩ := execute_yields_of_ends hp' ht hs hm.stands hcode hends
    exact ⟨t, hmeans.call_in, hyields.congr hrun⟩

end Tokens

/-! ## The rounds of `QUIT` -/

/-- The thread of `QUIT` after it has asked for a token. -/
def Place.asked (returns : List (Option Int)) : Place := ⟨some (Kernel.quitHeader + 4 + 1), returns⟩

/-- Steps of the loop take a machine to some progress, with these tokens to be interpreted next, or
it fails as the progress says. -/
inductive Rounds (bound depth : Nat) (memory : Memory) (returns : List (Option Int)) (t : Progress)
    (tokens : List String) (m : Machine) : Prop
  | running {n : Nat} {m' : Machine} (hs : t.status = .running)
      (hsteps : takeSteps (invoke bound) depth n m = .ok () m')
      (hm : Interpreting memory (.quit returns) t tokens m')
  | failed {n : Nat} {f : Fault} {m' : Machine} (hs : t.status = .failed f)
      (hsteps : takeSteps (invoke bound) depth n m = .error (.fault f) m')
      (htranscript : m'.console.transcript = t.transcript)

section Rounds

variable {memory : Memory} {p : Program} {returns : List (Option Int)} {s t u : Progress}
  {token : String} {tokens later : List String} {m m' : Machine} {a body : Body} {self : Int}
  {bound bound' depth n : Nat}

theorem Rounds.mono (h : Rounds bound depth memory returns t tokens m) (hb : bound ≤ bound') :
    Rounds bound' depth memory returns t tokens m := by
  have hsame (n : Nat) := takeSteps_approximates (invoke_approximates hb) depth n
  cases h with
  | running hs hsteps hm => exact .running hs ((hsame _).of_ok hsteps) hm
  | failed hs hsteps htranscript =>
    exact .failed hs (Approximates.of_error (hsame _) hsteps (by simp)) htranscript

theorem Rounds.of_takeSteps (hsteps : takeSteps (invoke bound) depth n m = .ok () m')
    (h : Rounds bound depth memory returns t tokens m') :
    Rounds bound depth memory returns t tokens m := by
  cases h with
  | running hs hrest hm => exact .running hs ((takeSteps_append hsteps).trans hrest) hm
  | failed hs hrest htranscript =>
    exact .failed hs ((takeSteps_append hsteps).trans hrest) htranscript

/-- Rounds that have not failed go on. -/
theorem Rounds.andThen (h : Rounds bound depth memory returns t tokens m)
    (hrun : t.status = .running → ∀ m', Interpreting memory (.quit returns) t tokens m' →
      ∃ b, Rounds b depth memory returns u later m')
    (hstop : t.status ≠ .running → u = t) : ∃ b, Rounds b depth memory returns u later m := by
  cases h with
  | @running n _ hs hsteps hm =>
    obtain ⟨b, hrest⟩ := hrun hs _ hm
    have hmore := takeSteps_approximates (invoke_approximates (Nat.le_max_left bound b)) depth n
    exact ⟨max bound b, (hrest.mono (Nat.le_max_right bound b)).of_takeSteps (hmore.of_ok hsteps)⟩
  | failed hs hsteps htranscript =>
    obtain rfl := hstop (by simp [hs])
    exact ⟨bound, .failed hs hsteps htranscript⟩

variable (hc : memory.HasInterpreter) (hlabels : ∀ code, ∃ name, memory.label code = .ok name)
include hc hlabels

/-- A round of `QUIT` begins with `INTERPRET`. -/
theorem Interpreting.asks (hm : Interpreting memory (.quit returns) s tokens m) :
    ∃ m₁, Interpreting memory (.asked returns) s tokens m₁ ∧ ∀ bound,
      stepWith (invoke (bound + 1)) m = (nextToken >>= interpretToken (execute bound)) m₁ := by
  have hcell := hm.memory ▸ hc.quit.2.1
  have hnative := hm.memory ▸ hc.primitives (.input .interpret) (by decide)
  obtain ⟨log, hstep⟩ := stepWith_at_any_bound (hm.traceable hlabels) hm.ip hcell hnative
  refine ⟨{ m with
    ip := some (Kernel.quitHeader + 4 + 1),
    current := some (Kernel.header (.input .interpret) + 3), log := log }, ?_, hstep⟩
  exact ⟨hm.data, hm.transcript, hm.memory, hm.mode, hm.alone, hm.tokens, rfl, hm.returns⟩

/-- `QUIT` takes the next token and interprets it. -/
theorem Interpreting.request (hm : Interpreting memory (.quit returns) s (token :: tokens) m) :
    ∃ m₁, Interpreting memory (.asked returns) s tokens m₁ ∧
      ∀ bound, stepWith (invoke (bound + 1)) m = interpretToken (execute bound) token m₁ := by
  obtain ⟨m₁, hm₁, hask⟩ := hm.asks hc hlabels
  obtain ⟨source, halone, htokens, hnext⟩ := Reading.nextToken_of_tokens hm₁.alone hm₁.tokens
  have htake : nextToken m₁ =
      .ok token { m₁ with console := { m₁.console with source := source } } := by
    rw [nextToken, bind_of_ok (get_apply _), onConsole, hnext]
  refine ⟨{ m₁ with console := { m₁.console with source := source } }, ?_,
    fun bound => (hask bound).trans (bind_of_ok htake)⟩
  exact ⟨hm₁.data, hm₁.transcript, hm₁.memory, hm₁.mode, halone, htokens, hm₁.ip, hm₁.returns⟩

/-- Where no token is left `QUIT` stops. -/
theorem Interpreting.ends (hm : Interpreting memory (.quit returns) s [] m) :
    ∃ m', m'.data = s.data ∧ m'.console.transcript = s.transcript ∧
      ∀ bound, stepWith (invoke (bound + 1)) m = .error .endOfInput m' := by
  obtain ⟨m₁, hm₁, hask⟩ := hm.asks hc hlabels
  obtain ⟨source, hnext⟩ := Reading.nextToken_of_no_tokens hm₁.alone hm₁.tokens
  have hnone : nextToken m₁ =
      .error .endOfInput { m₁ with console := { m₁.console with source := source } } := by
    rw [nextToken, bind_of_ok (get_apply _), onConsole, hnext]
  exact ⟨{ m₁ with console := { m₁.console with source := source } }, hm₁.data, hm₁.transcript,
    fun bound => (hask bound).trans (bind_of_error hnone)⟩

/-- After a token `QUIT` goes back to ask for the next one. -/
theorem Interpreting.back (hm : Interpreting memory (.asked returns) s tokens m) :
    ∃ m₁, Interpreting memory (.quit returns) s tokens m₁ ∧
      ∀ bound, stepWith (invoke (bound + 1)) m = .ok () m₁ := by
  have hbranch := hm.memory ▸ hc.quit.2.2.1
  have hdistance := hm.memory ▸ hc.quit.2.2.2.1
  have hnative := hm.memory ▸ hc.primitives (.thread .branch) (by decide)
  obtain ⟨log, hstep⟩ := stepWith_at_any_bound (hm.traceable hlabels) hm.ip hbranch hnative
  -- the branch after INTERPRET leads back to it
  have hjump := jump_apply (m := { m with
    ip := some (Kernel.quitHeader + 4 + 1 + 1),
    current := some (Kernel.header (.thread .branch) + 3), log := log })
    ThreadWord.branch.name rfl hdistance
  have haddr : Kernel.quitHeader + 4 + 1 + 1 + -2 = Kernel.quitHeader + 4 := by omega
  rw [haddr] at hjump
  refine ⟨_, ?_, fun bound => (hstep bound).trans hjump⟩
  exact ⟨hm.data, hm.transcript, hm.memory, hm.mode, hm.alone, hm.tokens, rfl, hm.returns⟩

variable (hp : p.HeldBy memory) (hs : s.status = .running) (hd : depth < returns.length)
include hp hs hd

/-- A round of `QUIT` does what the token means. -/
theorem Word.rounds (ha : Word memory p token a) (h : Means p self a s t)
    (hm : Interpreting memory (.quit returns) s (token :: tokens) m) :
    ∃ b, Rounds b depth memory returns t tokens m := by
  have hdeep : depth < m.returns.length := hm.returns ▸ hd
  obtain ⟨m₁, hm₁, hask⟩ := hm.request hc hlabels
  obtain ⟨bound, hyields⟩ := ha.yields hp hlabels hm₁ hs h
  refine ⟨bound + 1, ?_⟩
  cases hyields with
  | failed hfailed hrun hshows =>
    refine .failed (n := 1) hfailed
      ((takeSteps_of_deeper hdeep).trans (bind_of_error ((hask bound).trans hrun))) ?_
    rw [hshows.console]
    exact congrArg Transcript.mk (List.append_nil _)
  | @running m₂ hrunning hrun hstands =>
    have hm₂ := hm₁.of_stands hstands
    obtain ⟨m₃, hm₃, hback⟩ := hm₂.back hc hlabels
    have hdeep₂ : depth < m₂.returns.length := hm₂.returns ▸ hd
    refine .running (n := 2) hrunning ?_ hm₃
    rw [takeSteps_of_deeper hdeep, bind_of_ok ((hask bound).trans hrun),
      takeSteps_of_deeper hdeep₂, bind_of_ok (hback bound)]
    rfl

/-- Rounds of `QUIT` do what a phrase means. -/
theorem Phrase.rounds (h : Phrase memory p tokens body) (hmeans : Means p self body s t)
    (hm : Interpreting memory (.quit returns) s tokens m) :
    ∃ b, Rounds b depth memory returns t [] m := by
  induction h generalizing s m with
  | nil =>
    obtain rfl := means_empty_iff.mp hmeans
    exact ⟨0, .running (n := 0) hs rfl hm⟩
  | cons ha _ ih =>
    obtain ⟨u, hfirst, hrest⟩ := means_seq_iff.mp hmeans
    obtain ⟨b, hround⟩ := ha.rounds hc hlabels hp hs hd hfirst hm
    exact hround.andThen (fun hrunning _ hm' => ih hrunning hrest hm') hrest.eq_of_stopped

/-- A phrase means something if the rounds that take its tokens come to an end. -/
theorem Phrase.means_of_ends (h : Phrase memory p tokens body)
    (hm : Interpreting memory (.quit returns) s tokens m)
    (hends : Ends (invoke (bound + 1)) depth n m) : ∃ t, Means p self body s t := by
  induction h generalizing s m n with
  | nil => exact ⟨s, .empty⟩
  | @cons token _ _ _ ha _ ih =>
    have hdeep : depth < m.returns.length := hm.returns ▸ hd
    obtain ⟨m₁, hm₁, hask⟩ := hm.request hc hlabels
    have hword (m₂ : Machine) : interpretToken (execute bound) token m₁ ≠ .error .exhausted m₂ := by
      intro hstop
      have hlater : Ends (invoke (bound + 1)) depth (n + 1) m := hends.mono (Nat.le_succ n)
      refine hlater m₂ ?_
      rw [returnTo_of_deeper hdeep]
      exact bind_of_error ((hask bound).trans hstop)
    obtain ⟨t, hfirst, hyields⟩ := ha.means_of_ends hp hlabels hm₁ hs self hword
    cases hyields with
    | failed hfailed _ _ => exact ⟨t, .seq hfirst (.stopped (by simp [hfailed]))⟩
    | @running m₂ hrunning hrun hstands =>
      have hm₂ := hm₁.of_stands hstands
      obtain ⟨m₃, hm₃, hback⟩ := hm₂.back hc hlabels
      have hdeep₂ : depth < m₂.returns.length := hm₂.returns ▸ hd
      have hreaches := (Reaches.of_step hdeep ((hask bound).trans hrun)).trans
        (Reaches.of_step hdeep₂ (hback bound))
      obtain ⟨u, hrest⟩ := ih hrunning hm₃ (hends.after hreaches).2
      exact ⟨u, .seq hfirst hrest⟩

end Rounds

/-! ## A run of `QUIT` -/

/-- What `QUIT` stops with, when all tokens have been interpreted or one of them failed. -/
def Status.stop : Status → Stop
  | .failed f => .fault f
  | _ => .endOfInput

section Quitting

variable {memory : Memory} {p : Program} {s t : Progress} {tokens : List String} {m : Machine}
  {body : Body} {self : Int} {bound : Nat}
  (hc : memory.HasInterpreter) (hlabels : ∀ code, ∃ name, memory.label code = .ok name)
  (hm : Interpreting memory ⟨m.ip, m.returns⟩ s tokens m)
include hc hlabels hm

/-- `QUIT` is entered. -/
theorem Interpreting.enters :
    ∃ m₁, Interpreting memory (.quit (m.ip :: m.returns)) s tokens m₁ ∧
      ∀ bound, invoke (bound + 1) Kernel.quitToken m = .ok () m₁ := by
  have hfield := hm.memory ▸ hc.quit.1
  obtain ⟨log, hinvoke⟩ := invoke_at_any_bound (hm.traceable hlabels) hfield
  have haddr : Kernel.quitHeader + 3 + 1 = Kernel.quitHeader + 4 := by omega
  refine ⟨{ m with
    current := some (Kernel.quitHeader + 3), log := log, returns := m.ip :: m.returns,
    ip := some (Kernel.quitHeader + 3 + 1) }, ?_, hinvoke⟩
  exact ⟨hm.data, hm.transcript, hm.memory, hm.mode, hm.alone, hm.tokens, congrArg some haddr, rfl⟩

variable (hp : p.HeldBy memory) (hs : s.status = .running) (h : Phrase memory p tokens body)
include hp hs h

/-- A run of `QUIT` does what a phrase means, and stops there. -/
theorem Phrase.execute_quit (hmeans : Means p self body s t) :
    ∃ b m', execute b Kernel.quitToken m = .error t.status.stop m' ∧
      m'.console.transcript = t.transcript ∧ (t.status.stop = .endOfInput → m'.data = t.data) := by
  obtain ⟨m₁, hm₁, henter⟩ := hm.enters hc hlabels
  obtain ⟨b, hrounds⟩ := h.rounds hc hlabels hp hs (Nat.lt_succ_self m.returns.length) hmeans hm₁
  suffices hstops : ∃ k m', takeSteps (invoke (b + 1)) m.returns.length k m₁ =
      .error t.status.stop m' ∧
      m'.console.transcript = t.transcript ∧ (t.status.stop = .endOfInput → m'.data = t.data) by
    obtain ⟨k, m', hsteps, hleaves⟩ := hstops
    have hstop : t.status.stop ≠ .exhausted := by cases t.status <;> simp [Status.stop]
    have hmore := takeSteps_approximates (invoke_approximates (Nat.le_add_right (b + 1) k))
      m.returns.length k
    have hloop := returnTo_of_takeSteps hstop (Approximates.of_error hmore hsteps hstop)
    have hloop' := Approximates.of_error (returnTo_approximates (fun x => approximates_refl _)
      m.returns.length (show k ≤ b + 1 + k by omega)) hloop hstop
    have hstart : invoke (b + 1 + k) Kernel.quitToken m = .ok () m₁ := by
      rw [Nat.add_right_comm]
      exact henter (b + k)
    refine ⟨b + 1 + k, m', ?_, hleaves⟩
    rw [execute, executeWith_apply]
    exact bind_of_error ((bind_of_ok hstart).trans hloop')
  cases hrounds.mono (Nat.le_succ b) with
  | @running n m₂ hrunning hsteps hm₂ =>
    obtain ⟨m', hdata, htranscript, hend⟩ := hm₂.ends hc hlabels
    have hdeep : m.returns.length < m₂.returns.length := hm₂.returns ▸ Nat.lt_succ_self _
    refine ⟨n + 1, m', ?_, htranscript, fun _ => hdata⟩
    rw [takeSteps_append hsteps, takeSteps_of_deeper hdeep, hrunning]
    exact bind_of_error (hend b)
  | @failed n f m' hfailed hsteps htranscript =>
    rw [hfailed]
    exact ⟨n, m', hsteps, htranscript, fun hend => by cases hend⟩

/-- A phrase means something if a run of `QUIT` on its tokens comes to an end. -/
theorem Phrase.means_of_quit
    (hends : ∀ m₁, execute bound Kernel.quitToken m ≠ .error .exhausted m₁) :
    ∃ t, Means p self body s t := by
  cases bound with
  | zero => exact absurd rfl (hends m)
  | succ n =>
    obtain ⟨m₁, hm₁, henter⟩ := hm.enters hc hlabels
    have hloop : Ends (invoke (n + 1)) m.returns.length (n + 1) m₁ := by
      intro m₂ hstop
      refine hends m₂ ?_
      rw [execute, executeWith_apply]
      exact bind_of_error ((bind_of_ok (henter n)).trans hstop)
    exact h.means_of_ends hc hlabels hp hs (Nat.lt_succ_self _) hm₁ hloop

end Quitting

end ThreadedForth
