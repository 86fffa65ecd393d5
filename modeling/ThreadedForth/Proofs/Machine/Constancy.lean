import ThreadedForth.Proofs.Machine.Alteration
import ThreadedForth.Session

/-!
# What no run touches

Words work on the stacks, the memory, the mode, the console, the thread and the log. A part of the
machine that depends on none of them is the same before and after every run (`execute_keeps`), and a
session that interprets texts only does not touch it either (`Session.interpretText_keeps`).
-/

namespace ThreadedForth

open ThreadedForth.Action

variable {α γ : Type} {f : Machine → γ}

/-- A part of the machine on which no word works. -/
structure Machine.Untouched (f : Machine → γ) : Prop where
  data : IgnoresData f
  returns : ∀ (m : Machine) returns, f { m with returns := returns } = f m
  memory : IgnoresMemory f
  mode : IgnoresMode f
  console : IgnoresConsole f
  thread : IgnoresThread f
  log : IgnoresLog f

theorem untouched_tracing : Machine.Untouched Machine.tracing :=
  ⟨fun _ _ => rfl, fun _ _ => rfl, fun _ _ => rfl, fun _ _ => rfl, fun _ _ => rfl, fun _ _ _ => rfl,
    fun _ _ => rfl⟩

theorem untouched_remarks : Machine.Untouched Machine.remarks :=
  ⟨fun _ _ => rfl, fun _ _ => rfl, fun _ _ => rfl, fun _ _ => rfl, fun _ _ => rfl, fun _ _ _ => rfl,
    fun _ _ => rfl⟩

namespace Action

variable (hf : Machine.Untouched f)

include hf

theorem choose_keeps (name : String) : Keeps f (choose name) := by
  refine keeps_bind (keeps_ask _) fun found => ?_
  cases found with
  | none =>
    cases Numeral.read? name with
    | none => exact keeps_bind (keeps_reportUnknown hf.console hf.log name) fun _ => keeps_pure _
    | some n => exact keeps_bind (keeps_literal hf.data hf.memory _) fun _ => keeps_pure _
  | some h =>
    refine keeps_bind (keeps_liftM_stop _) fun code => keeps_bind keeps_get fun m => ?_
    by_cases hmode : m.mode = .immediate
    · rw [if_pos hmode]
      exact keeps_pure _
    · rw [if_neg hmode]
      refine keeps_bind (keeps_ask _) fun immediate => ?_
      cases immediate with
      | true => exact keeps_pure _
      | false => exact keeps_bind (keeps_append hf.memory _) fun _ => keeps_pure _

theorem printText_keeps (text : String) : Keeps f (printText text) := by
  refine keeps_bind keeps_get fun m => ?_
  cases m.mode with
  | compile =>
    exact keeps_bind (keeps_compileLiteral hf.memory _) fun _ => keeps_append hf.memory _
  | immediate => exact keeps_emit hf.console _

section Words

variable {i e : Cell → Action Unit} (hi : ∀ x, Keeps f (i x)) (he : ∀ x, Keeps f (e x))

include he

theorem readUntil_keeps (delimiter : Char) (bound : Nat) (before : List Char) :
    Keeps f (readUntil e delimiter bound before) := by
  induction bound generalizing before with
  | zero => exact keeps_throw _
  | succ n ih =>
    refine keeps_bind (keeps_bind (he _) fun _ => keeps_bind (keeps_onData hf.data _) fun code => ?_)
      fun c => ?_
    · cases characterOf code with
      | ok c => exact keeps_pure _
      | error _ => exact keeps_throw _
    · by_cases hc : c = delimiter
      · rw [if_pos hc]
        exact keeps_pure _
      · rw [if_neg hc]
        exact ih _

theorem readText_keeps (bound : Nat) : Keeps f (readText e bound) :=
  keeps_bind (he _) fun _ => keeps_bind (keeps_onData hf.data _) fun _ =>
    keeps_bind (readUntil_keeps hf he _ _ _) fun _ => keeps_pure _

include hi

/-- What a behaviour does is left alone if the words leave it alone that it runs. -/
theorem perform_keeps (n : Native) (addr : Int) (bound : Nat) :
    Keeps f (n.perform addr i e bound) := by
  cases hn : n.runsWords with
  | false =>
    rw [Native.perform_eq_alone hn]
    exact Native.alone_keeps hf.data hf.returns hf.console hf.thread hn
      (fun w _ => w.keeps hf.data hf.memory)
      (fun w _ => w.keeps hf.data hf.memory hf.mode hf.console) addr
  | true =>
    cases n with
    | primitive p =>
      cases p with
      | thread w =>
        cases w with
        | execute => exact keeps_bind (keeps_onData hf.data _) fun _ => hi _
        | _ => cases hn
      | input w =>
        cases w with
        | interpret =>
          refine keeps_bind (keeps_nextToken hf.console) fun name => ?_
          rw [interpretToken_eq]
          refine keeps_bind (choose_keeps hf name) fun found => ?_
          cases found with
          | none => exact keeps_pure _
          | some x => exact he x
        | _ => cases hn
      | text w =>
        cases w with
        | text =>
          exact keeps_bind (readText_keeps hf he bound) fun _ =>
            keeps_literal hf.data hf.memory _
        | print =>
          exact keeps_bind (readText_keeps hf he bound) fun text => printText_keeps hf text
        | comment => exact keeps_bind (readUntil_keeps hf he _ _ _) fun _ => keeps_pure _
        | lineComment => cases hn
      | _ => cases hn
    | _ => cases hn

end Words

section Runs

variable {i : Cell → Action Unit} (hi : ∀ x, Keeps f (i x))

include hi

theorem returnTo_keeps (depth bound : Nat) : Keeps f (returnTo i depth bound) := by
  induction bound with
  | zero => exact keeps_throw _
  | succ n ih =>
    refine keeps_bind keeps_get fun m => ?_
    by_cases hd : Stack.deeperThan depth m.returns
    · rw [if_pos hd]
      refine keeps_bind (keeps_bind keeps_get fun m' => ?_) fun _ => ih
      cases m'.ip with
      | none => exact keeps_fail _
      | some ip =>
        exact keeps_bind (keeps_ask _) fun x =>
          keeps_bind (keeps_modify fun m => hf.thread m _ m.current) fun _ => hi x
    · rw [if_neg hd]
      exact keeps_pure _

theorem executeWith_keeps (bound : Nat) (x : Cell) : Keeps f (executeWith i bound x) :=
  keeps_bind keeps_get fun _ => keeps_bind keeps_get fun _ => keeps_bind (hi x) fun _ =>
    keeps_bind (returnTo_keeps hf hi _ _) fun _ =>
      keeps_modify fun m => hf.thread m _ m.current

end Runs

theorem invoke_keeps (bound : Nat) (x : Cell) : Keeps f (invoke bound x) := by
  induction bound generalizing x with
  | zero => exact keeps_throw _
  | succ n ih =>
    rw [invoke]
    cases x with
    | token addr =>
      refine keeps_bind (keeps_ask _) fun cell => ?_
      cases cell with
      | native n' =>
        exact keeps_bind (keeps_arrive hf.thread hf.log addr) fun _ =>
          perform_keeps hf ih (executeWith_keeps hf ih n) n' addr n
      | _ => exact keeps_fail _
    | _ => exact keeps_bind keeps_get fun _ => keeps_fail _

/-- **No run touches what no word works on.** -/
theorem execute_keeps (bound : Nat) (x : Cell) : Keeps f (execute bound x) :=
  executeWith_keeps hf (invoke_keeps hf bound) bound x

theorem modifySource_keeps (g : Source → Source) : Keeps f (modifySource g) :=
  keeps_modify fun m => hf.console m _

theorem reset_keeps : Keeps f reset := by
  refine keeps_bind (keeps_modify fun m => ?_) fun _ => modifySource_keeps hf _
  let emptied : Machine := { m with data := [] }
  let returned : Machine := { emptied with returns := [] }
  let immediate : Machine := { returned with mode := .immediate }
  calc f { immediate with ip := none, current := none }
    _ = f immediate := hf.thread immediate none none
    _ = f returned := hf.mode returned .immediate
    _ = f emptied := hf.returns emptied []
    _ = f m := hf.data m []

omit hf in
theorem observe_keeps {act : Action α} (h : Keeps f act) : Keeps f (observe act) := by
  intro m
  have hm := h m
  rw [after] at hm ⊢
  rw [observe]
  cases hrun : act m with
  | ok x m' =>
    rw [hrun] at hm
    exact hm
  | error stop m' =>
    rw [hrun] at hm
    exact hm

omit hf in
theorem settle_keeps (outcome : Except Stop α) : Keeps f (settle outcome) := by
  cases outcome with
  | ok x => exact keeps_pure x
  | error stop => exact keeps_throw stop

end Action

namespace Session

variable (hf : Machine.Untouched f)

include hf

theorem setTranscript_keeps (t : Transcript) : Keeps f (setTranscript t) :=
  keeps_modify fun m => hf.console m _

theorem leaveThread_keeps : Keeps f leaveThread :=
  keeps_modify fun m => (hf.thread { m with returns := [] } none m.current).trans (hf.returns m [])

theorem interpretFed_keeps (bound : Nat) : Keeps f (interpretFed bound) := by
  refine keeps_bind keeps_get fun m => keeps_bind (modifySource_keeps hf _) fun _ =>
    keeps_bind (observe_keeps (execute_keeps hf bound _)) fun outcome =>
      keeps_bind (modifySource_keeps hf _) fun _ => ?_
  cases outcome with
  | ok _ => exact settle_keeps _
  | error stop =>
    cases stop with
    | endOfInput => exact leaveThread_keeps hf
    | fault f =>
      exact keeps_bind (modifySource_keeps hf _) fun _ =>
        keeps_bind (reset_keeps hf) fun _ => keeps_fail _
    | _ => exact settle_keeps _

theorem interpretText_keeps (bound : Nat) (sink : Sink) (text : String) :
    Keeps f (interpretText bound sink text) :=
  keeps_bind keeps_get fun _ => keeps_bind (setTranscript_keeps hf _) fun _ =>
    keeps_bind (modifySource_keeps hf _) fun _ =>
      keeps_bind (observe_keeps (interpretFed_keeps hf bound)) fun outcome =>
        keeps_bind keeps_get fun _ => keeps_bind (setTranscript_keeps hf _) fun _ =>
          keeps_bind (settle_keeps outcome) fun _ => keeps_pure _

end Session

end ThreadedForth
