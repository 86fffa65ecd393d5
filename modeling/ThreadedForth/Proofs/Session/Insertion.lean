import ThreadedForth.Proofs.Machine.Line
import ThreadedForth.Proofs.Memory.Image
import ThreadedForth.Proofs.Session.Progress
import ThreadedForth.Proofs.Session.Turns
import ThreadedForth.Proofs.Source.Marked

/-!
# Texts that are inserted

A text may be inserted into the lines of a session wherever the outermost loop of `QUIT` asks for
its next token (`Session.Edited`), in as many places as one likes. If what is inserted does nothing
there but to show something (`Harmless`), the session comes to the same as without it, and shows the
same but for that (`Session.Edited.comesAlike`).

Up to the place both sessions go in lockstep, since they hold the same text up to it (`marked`).
Then what was inserted is read. The loop goes back and asks again, and now the same token comes next
on both sides (`Session.ComesAlike.of_sameToken`). From there on the argument is repeated.
-/

namespace ThreadedForth

open ThreadedForth.Action ThreadedForth.Source

/-! ## Where the loop asks -/

/-- The loop of `QUIT` is whole: it interprets a token, and goes back to do so again. -/
structure Memory.Loops (m : Memory) : Prop where
  body : m.HasCode (Kernel.quitHeader + 4) Kernel.quitBody
  interpret : m.Intact (.input .interpret)
  branch : m.Intact (.thread .branch)

/-- The outermost loop of `QUIT` asks for its next token, in a round that was begun with so many
entries on the return stack. -/
structure Machine.Asks (m : Machine) (depth : Nat) : Prop where
  entry : m.returns.length = depth + 1
  ip : m.ip = some (Kernel.quitHeader + 4)

/-- The second machine stands where the first one does, and holds this text. -/
structure Machine.Stands (m : Machine) (text : List Char) (m' : Machine) : Prop where
  core : m'.core = m.core
  tracing : m'.tracing = m.tracing
  remarks : m'.remarks = m.remarks
  returns : m'.returns = m.returns
  holds : m'.console.source.Holds text

/-- Two machines that agree in the stacks, the memory and the mode. -/
structure Machine.Agrees (m m' : Machine) : Prop where
  data : m'.data = m.data
  returns : m'.returns = m.returns
  memory : m'.memory = m.memory
  mode : m'.mode = m.mode

theorem Machine.Agrees.trans {m m₁ m' : Machine} (h : m.Agrees m₁) (h' : m₁.Agrees m') :
    m.Agrees m' :=
  ⟨h'.data.trans h.data, h'.returns.trans h.returns, h'.memory.trans h.memory,
    h'.mode.trans h.mode⟩

/-- Two texts that come to the same once delimiters are passed over. -/
def SameToken (v w : List Char) : Prop :=
  ∃ gap gap' text, v = gap ++ text ∧ w = gap' ++ text ∧
    (∀ x ∈ gap, isDelimiter x = true) ∧ ∀ x ∈ gap', isDelimiter x = true

variable {restart : Bool} {stage : Session.Stage} {m m' m₁ m₂ x x' y n : Machine} {depth : Nat}
  {back : Option Int} {u v w text : List Char} {p p' : List (Voice × String)}
  {ends : List (Except Stop Unit)} {outcome : Except Stop Unit}

theorem SameToken.symm (h : SameToken v w) : SameToken w v := by
  obtain ⟨gap, gap', text, hv, hw, hgap, hgap'⟩ := h
  exact ⟨gap', gap, text, hw, hv, hgap', hgap⟩

namespace Machine.Stands

theorem memory (h : m.Stands text m') : m'.memory = m.memory := memory_of_core h.core

theorem asks (h : m.Stands text m') (hasks : m.Asks depth) : m'.Asks depth :=
  ⟨(congrArg List.length h.returns).trans hasks.entry, (ip_of_core h.core).trans hasks.ip⟩

theorem traceable (h : m.Stands text m') (ht : Traceable m) : Traceable m' := fun htracing => by
  rw [h.memory]
  exact ht (h.tracing ▸ htracing)

end Machine.Stands

theorem Machine.Asks.inside (h : m.Asks depth) : (Session.Stage.within depth back).Inside m := by
  rw [Session.Stage.Inside, h.entry]
  exact Nat.lt_succ_self _

/-- Two machines that have shown the same since some moment, at the same place with the same text to
come. -/
abbrev besides (p p' : List (Voice × String)) : Coupling :=
  marked (u := []) (v := []) (.inl ⟨rfl, rfl⟩) p p'

theorem besides_symm (h : (besides p p').Rel m m') : (besides p' p).Rel m' m := by
  obtain ⟨hcore, htracing, hremarks, hback, ⟨pre, hleft, hright⟩, hfresh, new, hnew, hnew'⟩ := h
  exact ⟨hcore.symm, htracing.symm, hremarks.symm, hback.symm, ⟨pre, hright, hleft⟩, hfresh.symm,
    new, hnew', hnew⟩

theorem not_lost_besides (m : Machine) : ¬ (besides p p').Lost m := by
  rintro ⟨text, -, hlt⟩
  exact Nat.not_lt_zero _ hlt

theorem agrees_of_besides (h : (besides p p').Rel m m') : m.Agrees m' :=
  ⟨data_of_core h.core, h.back, memory_of_core h.core, mode_of_core h.core⟩

namespace Session

/-! ## Sessions that come to the same -/

/-- Two sessions that come to the same, with last machines that are related so. -/
structure Alike (comes comes' : List (Except Stop Unit) → Except Stop Unit → Machine → Prop)
    (E : Machine → Machine → Prop) : Prop where
  along : ∀ {ends outcome last}, comes ends outcome last →
    ∃ last', comes' ends outcome last' ∧ E last last'
  back : ∀ {ends outcome last'}, comes' ends outcome last' →
    ∃ last, comes ends outcome last ∧ E last last'

/-- From here on they come to the same. -/
abbrev ComesAlike (restart : Bool) (stage : Stage) (m m' : Machine) (E : Machine → Machine → Prop) :
    Prop :=
  Alike (ComesTo restart stage m) (ComesTo restart stage m') E

/-- Their runs come to the same. -/
abbrev RunsAlike (restart : Bool) (m m' : Machine) (E : Machine → Machine → Prop) : Prop :=
  Alike (RunsTo restart m) (RunsTo restart m') E

namespace Alike

variable {comes comes₁ comes' : List (Except Stop Unit) → Except Stop Unit → Machine → Prop}
  {E E' : Machine → Machine → Prop}

theorem imp (h : Alike comes comes' E) (hE : ∀ l l', E l l' → E' l l') : Alike comes comes' E' where
  along hcomes := (h.along hcomes).imp fun _ hl => ⟨hl.1, hE _ _ hl.2⟩
  back hcomes := (h.back hcomes).imp fun _ hl => ⟨hl.1, hE _ _ hl.2⟩

theorem trans (h : Alike comes comes₁ E) (h' : Alike comes₁ comes' E') :
    Alike comes comes' fun l l' => ∃ l₁, E l l₁ ∧ E' l₁ l' where
  along hcomes := by
    obtain ⟨l₁, hcomes₁, hl₁⟩ := h.along hcomes
    obtain ⟨l', hcomes', hl'⟩ := h'.along hcomes₁
    exact ⟨l', hcomes', l₁, hl₁, hl'⟩
  back hcomes := by
    obtain ⟨l₁, hcomes₁, hl₁⟩ := h'.back hcomes
    obtain ⟨l, hcomes', hl⟩ := h.back hcomes₁
    exact ⟨l, hcomes', l₁, hl, hl₁⟩

end Alike

namespace ComesAlike

variable {E : Machine → Machine → Prop}

/-- Sessions come to the same whose turns lead there. -/
theorem of_paths {stage₁ : Stage} {x x' : Machine} (h : Path restart stage m ends stage₁ x)
    (h' : Path restart stage m' ends stage₁ x') (hlater : ComesAlike restart stage₁ x x' E) :
    ComesAlike restart stage m m' E where
  along hcomes := by
    obtain ⟨later, rfl, hrest⟩ := (comesTo_iff h).mp hcomes
    obtain ⟨last', hcomes', hE⟩ := hlater.along hrest
    exact ⟨last', (comesTo_iff h').mpr ⟨later, rfl, hcomes'⟩, hE⟩
  back hcomes := by
    obtain ⟨later, rfl, hrest⟩ := (comesTo_iff h').mp hcomes
    obtain ⟨last, hcomes', hE⟩ := hlater.back hrest
    exact ⟨last, (comesTo_iff h).mpr ⟨later, rfl, hcomes'⟩, hE⟩

/-- Sessions come to the same that stand at the same place with the same text to come. -/
theorem of_besides (h : (besides p p').Rel m m') :
    ComesAlike restart stage m m' (besides p p').Rel where
  along hcomes := hcomes.along rfl rfl not_lost_besides h
  back hcomes := by
    obtain ⟨last, hcomes', hrel⟩ := hcomes.along rfl rfl not_lost_besides (besides_symm h)
    exact ⟨last, hcomes', besides_symm hrel⟩

end ComesAlike

end Session

/-! ## The same token -/

/-- The loop takes a token and interprets it. -/
theorem Machine.Asks.step (hasks : m.Asks depth) (hloops : m.memory.Loops)
    (ht : Traceable m) :
    ∃ log, ∀ bound, stepWith (invoke (bound + 1)) m =
      (nextToken >>= interpretToken (execute bound)) { m with
        ip := some (Kernel.quitHeader + 5),
        current := some (Kernel.codeField (.input .interpret)), log := log } :=
  stepWith_at_any_bound ht hasks.ip hloops.body.1 hloops.interpret

/-- From texts that come to the same, the same token is taken. -/
theorem agree_nextToken_of_sameToken {c c' : Console} (hleft : c.source.Holds v)
    (hright : c'.source.Holds w) (hsame : SameToken v w) (host host' : Attendant) :
    Agree (Console.UpToMark [] [] c.transcript.pieces c'.transcript.pieces)
      (fun _ => Console.UpToMark [] [] c.transcript.pieces c'.transcript.pieces)
      (Reading.nextToken host c) (Reading.nextToken host' c') := by
  obtain ⟨gap, gap', text, rfl, rfl, hgap, hgap'⟩ := hsame
  have hmore {gap gap'' : List Char} (hgap : ∀ x ∈ gap, isDelimiter x = true)
      (hgap'' : ∀ x ∈ gap'', isDelimiter x = true) : ∀ x ∈ gap ++ gap'', isDelimiter x = true :=
    fun x hx => (List.mem_append.mp hx).elim (hgap x) (hgap'' x)
  rcases hleft.lined.of_append.exists_token with
    hall | ⟨gap'', token, d, more, rfl, hgap'', htoken, hd⟩
  · obtain ⟨s, hnext, hs⟩ := hleft.no_nextToken host (hmore hgap hall)
    obtain ⟨s', hnext', hs'⟩ := hright.no_nextToken host' (hmore hgap' hall)
    rw [hnext, hnext']
    exact .error ⟨⟨[], hs, hs'⟩, iff_of_true hs'.rest_eq_nil hs.rest_eq_nil, [], rfl, rfl⟩
  · rw [← List.append_assoc] at hleft hright
    obtain ⟨s, hnext, hs, hrest⟩ := hleft.nextToken host (hmore hgap hgap'') htoken hd
    obtain ⟨s', hnext', hs', hrest'⟩ := hright.nextToken host' (hmore hgap' hgap'') htoken hd
    rw [hnext, hnext']
    have hnil : (d :: more) = (d :: more) ++ [] := (List.append_nil _).symm
    exact .ok ⟨⟨d :: more, hnil ▸ hs, hnil ▸ hs'⟩, iff_of_false hrest' hrest, [], rfl, rfl⟩

namespace Session

theorem Stage.Does.exists_bound {result : EStateM.Result Stop Machine Unit}
    (h : stage.Does m result) : ∃ bound, stage.act (bound + 1) m = result := by
  obtain ⟨-, bound, rfl, hends⟩ := h
  exact ⟨bound, ((stage.act_approximates (Nat.le_succ bound)).eq_of_ends hends).symm⟩

/-- What is done about the next token goes in lockstep. -/
theorem locked_step_of_sameToken (hasks : m.Asks depth) (hloops : m.memory.Loops)
    (ht : Traceable m) (hleft : m.console.source.Holds v) (hright : m.Stands w m')
    (hsame : SameToken v w) (bound : Nat) :
    let C := besides m.console.transcript.pieces m'.console.transcript.pieces
    Locked C.Lost C.Rel (fun _ => C.Rel) (stepWith (invoke (bound + 1)) m)
      (stepWith (invoke (bound + 1)) m') := by
  intro C
  have hexecute (x : Cell) : C.Keeps (execute bound x) (execute bound x) := by
    have hkeeps := C.execute bound x
    rwa [show C.watch = fun _ _ => true from rfl, executeWatched_true] at hkeeps
  obtain ⟨log, hstep⟩ := hasks.step hloops ht
  obtain ⟨log', hstep'⟩ :=
    (hright.asks hasks).step (hright.memory ▸ hloops) (hright.traceable ht)
  have hcore : (⟨m'.data, m'.memory, m'.mode, some (Kernel.quitHeader + 5)⟩ : Core) =
      ⟨m.data, m.memory, m.mode, some (Kernel.quitHeader + 5)⟩ :=
    congrArg (fun k : Core => { k with ip := some (Kernel.quitHeader + 5) }) hright.core
  rw [hstep, hstep']
  simp only [nextToken, bind_apply, get_apply, onConsole]
  -- the hosts have no part in it, since neither reader is attended
  generalize Machine.attendant { m with
    ip := some (Kernel.quitHeader + 5),
    current := some (Kernel.codeField (.input .interpret)), log := log } = host
  generalize Machine.attendant { m' with
    ip := some (Kernel.quitHeader + 5),
    current := some (Kernel.codeField (.input .interpret)), log := log' } = host'
  have hread := agree_nextToken_of_sameToken hleft hright.holds hsame host host'
  generalize Reading.nextToken host m.console = left at hread ⊢
  generalize Reading.nextToken host' m'.console = right at hread ⊢
  cases hread with
  | error hconsole =>
    exact .inr (.error ⟨hcore, hright.tracing, hright.remarks, hright.returns, hconsole⟩)
  | ok hconsole =>
    exact (Coupling.keeps_interpretToken hexecute _).along _ _
      ⟨hcore, hright.tracing, hright.remarks, hright.returns, hconsole⟩

theorem does_of_sameToken (hasks : m.Asks depth) (hloops : m.memory.Loops) (ht : Traceable m)
    (hleft : m.console.source.Holds v) (hright : m.Stands w m') (hsame : SameToken v w)
    {result : EStateM.Result Stop Machine Unit} (h : (Stage.within depth back).Does m result) :
    let C := besides m.console.transcript.pieces m'.console.transcript.pieces
    ∃ result', (Stage.within depth back).Does m' result' ∧
      Agree C.Rel (fun _ => C.Rel) result result' := by
  intro C
  obtain ⟨bound, hact⟩ := h.exists_bound
  have hstep : stepWith (invoke (bound + 1)) m = result := hact
  have hlocked := locked_step_of_sameToken hasks hloops ht hleft hright hsame bound
  rw [hstep] at hlocked
  have hagree := hlocked.resolve_left (not_gone_of_does not_lost_besides h)
  obtain ⟨-, _, -, hends⟩ := h
  exact ⟨_, ⟨(hright.asks hasks).inside, bound + 1, rfl, ends_of_agree hagree hends⟩, hagree⟩

/-- **Where the same token comes next**, the same comes of it. -/
theorem ComesAlike.of_sameToken (hasks : m.Asks depth) (hloops : m.memory.Loops)
    (ht : Traceable m) (hleft : m.console.source.Holds v) (hright : m.Stands w m')
    (hsame : SameToken v w) :
    ComesAlike restart (.within depth back) m m'
      (besides m.console.transcript.pieces m'.console.transcript.pieces).Rel where
  along hcomes := hcomes.follows rfl rfl not_lost_besides hasks.inside rfl
    fun _ hdoes _ => does_of_sameToken hasks hloops ht hleft hright hsame hdoes
  back hcomes := by
    have hasks' := hright.asks hasks
    have hback : m'.Stands v m :=
      ⟨hright.core.symm, hright.tracing.symm, hright.remarks.symm, hright.returns.symm, hleft⟩
    obtain ⟨last, hcomes', hrel⟩ := hcomes.follows (n := m)
      (C := besides m'.console.transcript.pieces m.console.transcript.pieces) rfl rfl
      not_lost_besides hasks'.inside rfl fun _ hdoes _ => does_of_sameToken hasks'
        (hright.memory ▸ hloops) (hright.traceable ht) hright.holds hback hsame.symm hdoes
    exact ⟨last, hcomes', besides_symm hrel⟩

end Session

/-! ## Inserting texts -/

/-- A text to be inserted, and what is shown when it is read, last first. -/
structure Addition where
  text : List Char
  shown : List (Voice × String)

/-- The place of an addition: the machine that asks for a token there, in the session without it. -/
abbrev Edit : Type := Machine × Addition

/-- The pieces of text that two sessions have shown, last first, given what they had shown before.
The second one has shown the same as the first, and at each of these edits what belongs to it. -/
def Shown : List Edit → (before before' after after' : List (Voice × String)) → Prop
  | [], p, p', q, q' => ∃ new, q = new ++ p ∧ q' = new ++ p'
  | (x, a) :: later, p, p', q, q' => ∃ new, x.console.transcript.pieces = new ++ p ∧
      Shown later x.console.transcript.pieces (a.shown ++ (new ++ p')) q q'

/-- Where nothing is shown of what was inserted, the same is shown. -/
theorem Shown.eq {edits : List Edit} (h : ∀ e ∈ edits, e.2.shown = [])
    {q q' : List (Voice × String)} (hshown : Shown edits p p q q') : q' = q := by
  induction edits generalizing p with
  | nil =>
    obtain ⟨new, rfl, rfl⟩ := hshown
    rfl
  | cons e later ih =>
    obtain ⟨hnone, hlater⟩ := List.forall_mem_cons.mp h
    obtain ⟨new, hnew, hshown⟩ := hshown
    rw [hnone, List.nil_append, ← hnew] at hshown
    exact ih hlater hshown

namespace Session

/-- The text that a session holds, with additions in some of the places where the outermost loop of
`QUIT` asks for a token: behind what has been read there, and in front of what is left. The loop has
to be whole in such a place, and what is added has to fit there in front of the text that comes
after it. -/
inductive Edited (restart : Bool) (fits : Machine → Addition → List Char → Prop) :
    Stage → Machine → List Char → List Edit → Prop
  | done {stage : Stage} {m : Machine} {text : List Char} (h : m.console.source.Holds text) :
    Edited restart fits stage m text []
  | insert {stage : Stage} {m x : Machine} {pre u w : List Char} {ends : List (Except Stop Unit)}
    {depth : Nat} {back : Option Int} {a : Addition} {later : List Edit}
    (hpath : Path restart stage m ends (.within depth back) x) (hasks : x.Asks depth)
    (hloops : x.memory.Loops) (hread : m.console.source.Holds (pre ++ u))
    (hleft : x.console.source.Holds u) (hsome : u ≠ []) (hfits : fits x a w)
    (hlater : Edited restart fits (.within depth back) x w later) :
    Edited restart fits stage m (pre ++ (a.text ++ w)) ((x, a) :: later)

/-- What is added does nothing but to show something: the loop reads it, and then the same token
comes next as if it were not there. -/
structure Harmless (fits : Machine → Addition → List Char → Prop) : Prop where
  starts : ∀ {x a w}, fits x a w → ∃ d text, a.text = d :: text ∧ isDelimiter d = true
  traceable : ∀ {x a w}, fits x a w → Traceable x
  passes : ∀ {x a w} (restart : Bool) {depth : Nat} (back : Option Int) {x' : Machine},
    fits x a w → x.Asks depth → x.memory.Loops → x.Stands (a.text ++ w) x' →
    ∃ y v, Path restart (.within depth back) x' [] (.within depth back) y ∧ x.Stands v y ∧
      y.console.transcript.pieces = a.shown ++ x'.console.transcript.pieces ∧ SameToken v w

namespace Edited

variable {fits : Machine → Addition → List Char → Prop} {edits : List Edit}

theorem ne_nil (hharmless : Harmless fits) (h : Edited restart fits stage m text edits)
    (hm : m.console.source.Holds u) (hu : u ≠ []) : text ≠ [] := by
  cases h with
  | done h => exact hm.unique h ▸ hu
  | insert _ _ _ _ _ _ hfits _ =>
    obtain ⟨d, rest, htext, -⟩ := hharmless.starts hfits
    simp [htext]

theorem lined (hharmless : Harmless fits) (h : Edited restart fits stage m text edits) :
    Lined text := by
  induction h with
  | done h => exact h.lined
  | insert _ _ _ _ hleft hsome _ hlater ih =>
    have hne := hlater.ne_nil hharmless hleft hsome
    exact .append _ (.append _ ih hne) (by simp [hne])

/-- What is added was made to fit. -/
theorem exists_fits (h : Edited restart fits stage m text edits) :
    ∀ e ∈ edits, ∃ w, fits e.1 e.2 w := by
  induction h with
  | done => simp
  | insert _ _ _ _ _ _ hfits _ ih => exact List.forall_mem_cons.mpr ⟨⟨_, hfits⟩, ih⟩

/-- **What is inserted makes no difference** if it is harmless: the session comes to the same as
without it, and shows the same but for what belongs to the additions. -/
theorem comesAlike (hharmless : Harmless fits) (h : Edited restart fits stage m text edits)
    (hstands : m.Stands text m')
    (hfresh : m'.console.source.rest = [] ↔ m.console.source.rest = []) :
    ComesAlike restart stage m m' fun last last' => last.Agrees last' ∧
      Shown edits m.console.transcript.pieces m'.console.transcript.pieces
        last.console.transcript.pieces last'.console.transcript.pieces := by
  induction h generalizing m' with
  | @done stage m text h =>
    have hnil : text = text ++ [] := (List.append_nil _).symm
    have hrel : (besides m.console.transcript.pieces m'.console.transcript.pieces).Rel m m' :=
      ⟨hstands.core, hstands.tracing, hstands.remarks, hstands.returns,
        ⟨text, hnil ▸ h, hnil ▸ hstands.holds⟩, hfresh, [], rfl, rfl⟩
    exact (ComesAlike.of_besides hrel).imp fun _ _ hlast =>
      ⟨agrees_of_besides hlast, hlast.console.shown⟩
  | @insert stage m x pre u w ends depth back a later hpath hasks hloops hread hleft hsome hfits
      hlater ih =>
    obtain ⟨d, rest, htext, hd⟩ := hharmless.starts hfits
    have hmarks : Marks u (a.text ++ w) := .inr ⟨hsome, d, rest ++ w, by rw [htext]; rfl, hd⟩
    -- up to the place the sessions go in lockstep
    let C := marked hmarks m.console.transcript.pieces m'.console.transcript.pieces
    have hrel : C.Rel m m' := ⟨hstands.core, hstands.tracing, hstands.remarks, hstands.returns,
      ⟨pre, hread, hstands.holds⟩, hfresh, [], rfl, rfl⟩
    have hlost : ¬ C.Lost x := by
      rintro ⟨text, hholds, hlt⟩
      rw [hleft.unique hholds] at hlt
      exact Nat.lt_irrefl _ hlt
    obtain ⟨x', hpath', hrel'⟩ := hpath.along rfl rfl hrel hlost
    obtain ⟨⟨pre', hx, hx'⟩, -, new, hnew, hnew'⟩ := hrel'.console
    obtain rfl : pre' = [] := List.append_left_eq_self.mp (hleft.unique hx)
    -- what is inserted is read, and then the same token comes next
    obtain ⟨y, v, hpass, hy, hshown, hsame⟩ := hharmless.passes restart back hfits hasks hloops
      ⟨hrel'.core, hrel'.tracing, hrel'.remarks, hrel'.back, hx'⟩
    obtain ⟨s, hs, hsfresh⟩ := Source.exists_holds (hlater.lined hharmless)
      (x.console.source.rest = []) fun _ => hlater.ne_nil hharmless hleft hsome
    let y₀ : Machine := { y with console.source := s }
    have hy₀ : x.Stands w y₀ := ⟨hy.core, hy.tracing, hy.remarks, hy.returns, hs⟩
    have hthen : ComesAlike restart (.within depth back) y₀ y
        (besides y₀.console.transcript.pieces y.console.transcript.pieces).Rel :=
      .of_sameToken (hy₀.asks hasks) (hy₀.memory ▸ hloops)
        (hy₀.traceable (hharmless.traceable hfits)) hs ⟨rfl, rfl, rfl, rfl, hy.holds⟩ hsame.symm
    have hpath'' := hpath'.trans hpass
    rw [List.append_nil] at hpath''
    have hall := ComesAlike.of_paths hpath hpath'' ((ih hy₀ hsfresh).trans hthen)
    refine hall.imp fun last last' ⟨last₁, ⟨hagrees, hlater⟩, hlast⟩ => ?_
    obtain ⟨new', hnew₁, hnew₁'⟩ := hlast.console.shown
    have hpieces : last'.console.transcript.pieces = last₁.console.transcript.pieces :=
      hnew₁'.trans hnew₁.symm
    refine ⟨hagrees.trans (agrees_of_besides hlast), new, hnew, ?_⟩
    rw [hpieces, ← hnew', ← hshown]
    exact hlater

end Edited

/-- What two such sessions come to is related so. -/
theorem RunsAlike.rel {E : Machine → Machine → Prop} {ends' : List (Except Stop Unit)}
    {outcome' : Except Stop Unit} {last last' : Machine} (h : RunsAlike restart m m' E)
    (hruns : RunsTo restart m ends outcome last)
    (hruns' : RunsTo restart m' ends' outcome' last') : E last last' := by
  obtain ⟨_, hsame, hE⟩ := h.along hruns
  obtain ⟨-, -, rfl⟩ := (runsTo_iff.mp hruns').unique (runsTo_iff.mp hsame)
  exact hE

theorem ComesAlike.runsAlike {E : Machine → Machine → Prop}
    (h : ComesAlike restart .between m m' E) : RunsAlike restart m m' E where
  along hruns := by
    obtain ⟨last', hcomes, hE⟩ := h.along (runsTo_iff.mp hruns)
    exact ⟨last', runsTo_iff.mpr hcomes, hE⟩
  back hruns := by
    obtain ⟨last, hcomes, hE⟩ := h.back (runsTo_iff.mp hruns)
    exact ⟨last, runsTo_iff.mpr hcomes, hE⟩

/-- Whole sessions come to the same, from a machine that holds the edited text instead. -/
theorem Edited.runsAlike {fits : Machine → Addition → List Char → Prop} {edits : List Edit}
    (hharmless : Harmless fits) (h : Edited restart fits .between m text edits) {s : Source}
    (hs : s.Holds text) (hfresh : s.rest = [] ↔ m.console.source.rest = []) :
    RunsAlike restart m { m with console.source := s } fun last last' => last.Agrees last' ∧
      Shown edits m.console.transcript.pieces m.console.transcript.pieces
        last.console.transcript.pieces last'.console.transcript.pieces := by
  have hstands : m.Stands text { m with console.source := s } := ⟨rfl, rfl, rfl, rfl, hs⟩
  exact (h.comesAlike hharmless hstands hfresh).runsAlike

/-! ## One token more -/

/-- **A token more** is read where the loop asks, and if it is interpreted without effect on what
words work on, the loop asks again. -/
theorem path_of_token {gap token more : List Char} {d : Char} (v : List Char)
    (shown : List (Voice × String)) (restart : Bool) (back : Option Int)
    (hasks : x.Asks depth) (hloops : x.memory.Loops) (ht : Traceable x)
    (hx' : x.Stands (gap ++ (token ++ d :: more)) x')
    (hgap : ∀ y ∈ gap, isDelimiter y = true) (htoken : IsToken token) (hd : isDelimiter d = true)
    (hinterpret : ∀ x₁ : Machine,
      { x with ip := some (Kernel.quitHeader + 5) }.Stands (d :: more) x₁ →
      x₁.console.source.rest ≠ [] → ∃ bound x₂,
        interpretToken (execute bound) (String.ofList token) x₁ = .ok () x₂ ∧ x₁.Stands v x₂ ∧
        x₂.console.transcript.pieces = shown ++ x₁.console.transcript.pieces) :
    ∃ y, Path restart (.within depth back) x' [] (.within depth back) y ∧ x.Stands v y ∧
      y.console.transcript.pieces = shown ++ x'.console.transcript.pieces := by
  obtain ⟨log, hstep⟩ := (hx'.asks hasks).step (hx'.memory ▸ hloops) (hx'.traceable ht)
  let asked : Machine := { x' with
    ip := some (Kernel.quitHeader + 5),
    current := some (Kernel.codeField (.input .interpret)), log := log }
  obtain ⟨s, hnext, hs, hrest⟩ := hx'.holds.nextToken asked.attendant hgap htoken hd
  let x₁ : Machine := { asked with console.source := s }
  have hread : nextToken asked = .ok (String.ofList token) x₁ := by
    simp only [nextToken, bind_apply, get_apply, onConsole]
    rw [show asked.console = x'.console from rfl, hnext]
  have hx₁ : { x with ip := some (Kernel.quitHeader + 5) }.Stands (d :: more) x₁ :=
    ⟨congrArg (fun k : Core => { k with ip := some (Kernel.quitHeader + 5) }) hx'.core, hx'.tracing,
      hx'.remarks, hx'.returns, hs⟩
  obtain ⟨bound, x₂, hrun, hx₂, hshown⟩ := hinterpret x₁ hx₁ hrest
  have hmemory : x₂.memory = x.memory := hx₂.memory.trans hx₁.memory
  have hreturns : x₂.returns = x.returns := hx₂.returns.trans hx₁.returns
  have hip : x₂.ip = some (Kernel.quitHeader + 5) := ip_of_core hx₂.core
  have hfirst : Turn restart (.within depth back) x' [] (.within depth back) x₂ := by
    refine .goes ⟨(hx'.asks hasks).inside, bound + 1, ?_, by simp⟩
    rw [Stage.act, hstep, bind_of_ok hread, hrun]
  -- the loop goes back
  have ht₂ : Traceable x₂ := hx₂.traceable (hx₁.traceable ht)
  obtain ⟨log', hjump⟩ := stepWith_at_any_bound (w := .primitive (.thread .branch)) ht₂ hip
    (hmemory ▸ hloops.body.2.1) (hmemory ▸ hloops.branch)
  let jumping : Machine := { x₂ with
    ip := some (Kernel.quitHeader + 5 + 1),
    current := some (Kernel.codeField (.thread .branch)), log := log' }
  have hdistance : jumping.memory.get (.int (Kernel.quitHeader + 5 + 1)) = .ok (.int (-2)) := by
    rw [show jumping.memory = x.memory from hmemory]
    exact hloops.body.2.2.1
  let y : Machine := { jumping with ip := some (Kernel.quitHeader + 5 + 1 + -2) }
  have hsecond : Turn restart (.within depth back) x₂ [] (.within depth back) y := by
    refine .goes ⟨?_, 1, (hjump 0).trans (jump_apply _ rfl hdistance), by simp⟩
    rw [Stage.Inside, hreturns, hasks.entry]
    exact Nat.lt_succ_self _
  have hcore : y.core = x.core := by
    have hback : y.ip = x.ip := hasks.ip.symm
    show (⟨x₂.data, x₂.memory, x₂.mode, y.ip⟩ : Core) = x.core
    rw [hback]
    exact congrArg (fun k : Core => { k with ip := x.ip }) (hx₂.core.trans hx₁.core)
  exact ⟨y, hfirst.path.trans hsecond.path, ⟨hcore, hx₂.tracing.trans hx₁.tracing,
    hx₂.remarks.trans hx₁.remarks, hreturns, hx₂.holds⟩, hshown⟩

end Session

/-! ## Known places -/

section Known

/-- Where the loop is whole it is so in every extension. -/
theorem Memory.Loops.of_extends {memory old : Memory} (h : old.Loops) (he : memory.Extends old) :
    memory.Loops :=
  ⟨he.hasCode h.body, he.retains _ _ h.interpret, he.retains _ _ h.branch⟩

namespace Session

open Kernel

theorem booted_loops : bootedMemory.Loops where
  body := booted_hasCompiler.quit.2
  interpret := booted_hasCompiler.primitives _ (by decide)
  branch := booted_hasCompiler.primitives _ (by decide)

/-- A definition, and a line that uses it. -/
def gapLines : List String := [": GAP SPACE ;", "GAP"]

/-- A machine that asks for the next token of the definition. -/
def gapPlace (memory : Memory) (mode : Mode) (taken rest : String) : Machine where
  returns := [none]
  memory := memory
  mode := mode
  ip := some (quitHeader + 4)
  current := some (codeField (.thread .branch))
  console.source := {
    taken := taken.toList.reverse
    rest := rest.toList ++ ['\n']
    pending := ["GAP"]
    lineCount := 1 }

/-- The place in the definition. -/
def gapOpen : Machine :=
  gapPlace (bootedMemory.withWord "GAP" Flags.hidden []) .compile ": GAP" " SPACE ;"

/-- The place behind it. -/
def gapClosed : Machine :=
  gapPlace (bootedMemory.withWord "GAP" 0 [.token 516, exitToken]) .immediate ": GAP SPACE ;" ""

theorem path_gapOpen : Path true .between (bootedWith gapLines) [] (.within 0 none) gapOpen := by
  have hruns : (invoke 20 quitToken >>= fun _ => takeSteps (invoke 20) 0 2) (bootedWith gapLines) =
      .ok () gapOpen := by decide +kernel
  obtain ⟨_, m₀, henter, hsteps⟩ := bind_eq_ok.mp hruns
  have hturn : Turn true .between (bootedWith gapLines) [] (.within 0 none) m₀ :=
    .goes ⟨trivial, 20, henter, by simp⟩
  exact hturn.path.trans (path_of_takeSteps hsteps)

theorem path_gapClosed : Path true (.within 0 none) gapOpen [] (.within 0 none) gapClosed := by
  have hruns : takeSteps (invoke 20) 0 4 gapOpen = .ok () gapClosed := by decide +kernel
  exact path_of_takeSteps hruns

/-- Something may be inserted in both places. -/
theorem edited_gapLines (fits : Machine → Addition → List Char → Prop) (a a' : Addition)
    (hfits : ∀ w, fits gapOpen a w) (hfits' : fits gapClosed a' "\nGAP\n".toList) :
    Edited true fits .between (bootedWith gapLines)
      (": GAP".toList ++ (a.text ++ (" SPACE ;".toList ++ (a'.text ++ "\nGAP\n".toList))))
      [(gapOpen, a), (gapClosed, a')] := by
  have hloops : gapOpen.memory.Loops := booted_loops.of_extends
    (booted_wellFormed.extends_withWord "GAP" (by decide) _)
  have hread : (bootedWith gapLines).console.source.Holds
      (": GAP".toList ++ (" SPACE ;".toList ++ "\nGAP\n".toList)) :=
    .of_reader rfl (.inl rfl) (by decide)
  have hleft : gapOpen.console.source.Holds (" SPACE ;".toList ++ "\nGAP\n".toList) :=
    .of_reader rfl (.of_line (by decide)) (by decide)
  have hleft' : gapClosed.console.source.Holds "\nGAP\n".toList :=
    .of_reader rfl (.of_line (by decide)) (by decide)
  have hlater : Edited true fits (.within 0 none) gapOpen
      (" SPACE ;".toList ++ (a'.text ++ "\nGAP\n".toList)) [(gapClosed, a')] :=
    .insert path_gapClosed ⟨rfl, rfl⟩ (booted_loops.of_extends
      (booted_wellFormed.extends_withWord "GAP" (by decide) _)) hleft hleft' (by decide) hfits'
      (.done hleft')
  exact .insert path_gapOpen ⟨rfl, rfl⟩ hloops hread hleft (by decide) (hfits _) hlater

/-- They print one space. -/
theorem runsTo_gapLines : ∃ ends last, RunsTo true (bootedWith gapLines) ends (.ok ()) last ∧
    last.console.transcript.pieces = [(.program, " ")] := by
  let read : Machine := { gapClosed with
    ip := some (quitHeader + 5)
    current := some (codeField (.input .interpret))
    console := {
      source := { taken := "GAP\n".toList.reverse, lineCount := 2 }
      transcript := ⟨[(.program, " ")]⟩ } }
  have hends : returnTo (invoke 20) 0 3 gapClosed = .error .endOfInput read := by decide +kernel
  have hcomes := (comesTo_iff (path_gapOpen.trans path_gapClosed)).mpr
    ⟨_, rfl, comesTo_of_returnTo true none hends⟩
  exact ⟨_, _, runsTo_iff.mpr hcomes, rfl⟩

/-- What a session shows that ends well. -/
theorem exists_runsTo_shown {bound : Nat} {pieces : List (Voice × String)}
    (h : endsWell (fun _ last => last.console.transcript.pieces = pieces)
      (Session.run bound restart m) = true) :
    ∃ ends last, RunsTo restart m ends (.ok ()) last ∧ last.console.transcript.pieces = pieces := by
  obtain ⟨_, last, hrun, hpieces⟩ := exists_of_endsWell h
  obtain ⟨ends, hruns⟩ := exists_runsTo hrun
  exact ⟨ends, last, hruns, of_decide_eq_true hpieces⟩

/-- A booted machine with the distance that makes the loop of `QUIT` go to the body of `SPACE`, at
517, instead of back, and the address where that lies. -/
def patchingWith (lines : List String) : Machine :=
  { bootedWith lines with data := [.int 366, .int 151] }

/-- The machine that asks for the next token, in the next round, once the loop has been patched. -/
def patched : Machine where
  returns := [none]
  memory := bootedMemory.write 366 (.int 151)
  ip := some (quitHeader + 4)
  current := some (quitHeader + 3)
  console := {
    source := { taken := ['!'], rest := ['\n'], lineCount := 1 }
    transcript := ⟨[(.program, " ")]⟩ }

/-- That place is in the next round, for the body of `SPACE` comes to its end. -/
theorem path_patched :
    Path true .between (patchingWith ["!"]) [.ok ()] (.within 0 none) patched := by
  have hruns : endsWell (fun _ m₁ => decide (m₁.returns.length = 0) &&
      decide (invoke 20 quitToken { m₁ with ip := none } = .ok () patched))
      ((invoke 20 quitToken >>= fun _ => takeSteps (invoke 20) 0 5) (patchingWith ["!"])) = true := by
    decide +kernel
  obtain ⟨_, m₁, hround, htest⟩ := exists_of_endsWell hruns
  obtain ⟨_, m₀, henter, hsteps⟩ := bind_eq_ok.mp hround
  obtain ⟨hback, hagain⟩ := Bool.and_eq_true_iff.mp htest
  have hnone : m₁.returns.length = 0 := of_decide_eq_true hback
  have hturn : Turn true .between (patchingWith ["!"]) [] (.within 0 none) m₀ :=
    .goes ⟨trivial, 20, henter, by simp⟩
  have hcomes : Turn true (.within 0 none) m₁ [.ok ()] .between { m₁ with ip := none } :=
    .comesBack (Nat.le_of_eq hnone)
  have hnext : Stage.between.next { m₁ with ip := none } = .within 0 none := by
    rw [Stage.next, hnone]
  have hturn' : Turn true .between { m₁ with ip := none } [] (.within 0 none) patched :=
    hnext ▸ .goes ⟨trivial, 20, of_decide_eq_true hagain, by simp⟩
  have hround : Path true (.within 0 none) m₀ [.ok ()] .between { m₁ with ip := none } :=
    (path_of_takeSteps hsteps).trans hcomes.path
  exact hturn.path.trans (hround.trans hturn'.path)

theorem patched_holds : patched.console.source.Holds "\n".toList :=
  .of_reader rfl (.inr ⟨[], List.not_mem_nil, rfl⟩) (by decide)

/-- The patch is made in the body of `QUIT`, and no header is touched. -/
theorem find_patched (token : String) : patched.memory.find token = bootedMemory.find token :=
  booted_wellFormed.find_write _ (by decide +kernel) token

/-- One space is printed. -/
theorem runsTo_patching : ∃ ends last, RunsTo true (patchingWith ["!"]) ends (.ok ()) last ∧
    last.console.transcript.pieces = [(.program, " ")] := by
  let read : Machine := { patched with
    ip := some (quitHeader + 5)
    current := some (codeField (.input .interpret))
    console := { patched.console with
      source := { taken := "!\n".toList.reverse, lineCount := 1 } } }
  have hends : returnTo (invoke 20) 0 1 patched = .error .endOfInput read := by decide +kernel
  have hcomes := (comesTo_iff path_patched).mpr ⟨_, rfl, comesTo_of_returnTo true none hends⟩
  exact ⟨_, _, runsTo_iff.mpr hcomes, rfl⟩

end Session

end Known

end ThreadedForth
