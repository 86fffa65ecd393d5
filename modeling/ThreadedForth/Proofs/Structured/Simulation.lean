import ThreadedForth.Proofs.Structured.Steps

/-!
# Threaded code runs with the meaning of its structure

In a memory that holds the words of a program as threaded code (`Program.HeldBy`), a word does what
its body means.

* `Means.lands` — a body that means something does it: the loop comes to the end of its code, or
  leaves the word, or fails, as the meaning says. By induction on the meaning.
* `Body.means_of_ends` — a run that comes to an end has a meaning. By induction on the steps, and
  for each number of them on the structure of the body.

The loop stops by the height of the return stack alone, and a body that is run stands above that
height; so it does not come to a stop before the word is left.
-/

namespace ThreadedForth

open ThreadedForth.Action

variable {p : Program} {self code addr : Int} {bound depth n : Nat} {base m : Machine}
  {s t : Progress} {b : Body} {back : Option Int} {rest : List (Option Int)} {out : Place}

/-! ## Steps of a structure -/

theorem Lands.congr_addr {i : Cell → Action Unit} {a a' : Int} (haddr : a = a')
    (h : Lands i depth base ⟨some a, rest⟩ out s m) :
    Lands i depth base ⟨some a', rest⟩ out s m := haddr ▸ h

theorem Stands.deeper {ip : Option Int} (hm : Stands base s ⟨ip, back :: rest⟩ m)
    (hd : depth ≤ rest.length) : depth < m.returns.length := by
  have hlength : m.returns.length = rest.length + 1 := by rw [hm.returns, List.length_cons]
  omega

/-- `EXIT` goes back. -/
theorem Stands.exit_step (bound : Nat) (hp : p.HeldBy base.memory) (ht : Traceable base)
    (hs : s.status = .running) (hm : Stands base s ⟨some addr, back :: rest⟩ m)
    (hx : base.memory.get (.int addr) = .ok Kernel.exitToken) :
    Yields (stepWith (invoke (bound + 1))) base ⟨back, rest⟩ s m :=
  hm.step_yields ht hx (hp.steering .exit (by decide)) fun _ hm₁ => hm₁.exit_yields hs

/-- A word that is threaded code is entered. -/
theorem Stands.enter_step (bound : Nat) (hp : p.HeldBy base.memory) (ht : Traceable base)
    (hs : s.status = .running)
    (hm : Stands base s ⟨some addr, rest⟩ m)
    (hx : base.memory.get (.int addr) = .ok (.token code)) (hcode : p code = some (.thread b)) :
    Yields (stepWith (invoke (bound + 1))) base ⟨some (code + 1), some (addr + 1) :: rest⟩ s m :=
  hm.step_yields ht hx (hp.threads code b hcode).1 fun _ hm₁ => hm₁.enter_yields hs

/-- The test of a branch falls through or jumps. -/
theorem Stands.test_step (bound : Nat) {truth : Bool} {distance target : Int}
    (hp : p.HeldBy base.memory) (ht : Traceable base) (hs : s.status = .running)
    (hm : Stands base s ⟨some addr, rest⟩ m)
    (hc : base.memory.HasCode addr [Kernel.branchFalseToken, .int distance])
    (htarget : addr + 1 + distance = target) (htest : s.test = (truth, t)) :
    Yields (stepWith (invoke (bound + 1))) base
      ⟨some (if truth then addr + 2 else target), rest⟩ t m := by
  obtain ⟨hx, hdistance, -⟩ := hc
  refine hm.step_yields ht hx (hp.steering .branchFalse (by decide)) fun m₁ hm₁ => ?_
  have haddr : addr + 2 = addr + 1 + 1 := by omega
  rw [haddr, ← htarget]
  exact hm₁.branchFalse_yields hs hdistance htest

/-- A branch jumps. -/
theorem Stands.jump_step (bound : Nat) {distance target : Int} (hp : p.HeldBy base.memory)
    (ht : Traceable base) (hs : s.status = .running)
    (hm : Stands base s ⟨some addr, rest⟩ m)
    (hc : base.memory.HasCode addr [Kernel.branchToken, .int distance])
    (htarget : addr + 1 + distance = target) :
    Yields (stepWith (invoke (bound + 1))) base ⟨some target, rest⟩ s m := by
  obtain ⟨hx, hdistance, -⟩ := hc
  rw [← htarget]
  exact hm.step_yields ht hx (hp.steering .branch (by decide)) fun _ hm₁ =>
    hm₁.branch_yields hs hdistance

/-- The end of the code of a word leaves the word, wherever its body has landed. -/
theorem Lands.leave (hp : p.HeldBy base.memory) (ht : Traceable base) (hd : depth ≤ rest.length)
    (hexit : base.memory.get (.int addr) = .ok Kernel.exitToken)
    (h : Lands (invoke (bound + 1)) depth base ⟨some addr, back :: rest⟩ ⟨back, rest⟩ s m) :
    Lands (invoke (bound + 1)) depth base ⟨back, rest⟩ out s.back m := by
  cases h with
  | running hs hr hm =>
    have hback : s.back = s := by simp [Progress.back, hs]
    rw [hback]
    exact .of_reaches hr (.of_step (hm.deeper hd) (hm.exit_step bound hp ht hs hexit))
  | left hs hr hm =>
    have hback : s.back.status = .running := by simp [Progress.back, hs]
    refine .running hback hr ⟨⟨?_, ?_, hm.memory, hm.tracing, hm.mode⟩, hm.ip, hm.returns⟩
    · rw [hm.data, Progress.back_data]
    · rw [hm.console, Progress.back_printed]
  | failed hs hf hm =>
    have hback : s.back = s := by simp [Progress.back, hs]
    rw [hback]
    exact .failed hs hf hm

/-! ## From the meaning to the run -/

/-- A body that means something does it. -/
theorem Means.lands (hp : p.HeldBy base.memory) (ht : Traceable base) (h : Means p self b s t)
    (hs : s.status = .running) (hd : depth ≤ rest.length)
    (hc : base.memory.HasCode addr (b.code self))
    (hm : Stands base s ⟨some addr, back :: rest⟩ m) :
    Lands (invoke (bound + 1)) depth base ⟨some (addr + b.size), back :: rest⟩ ⟨back, rest⟩
      t m := by
  induction h generalizing addr back rest m with
  | stopped h => exact absurd hs h
  | empty =>
    have haddr : addr + ((Body.empty.size : Nat) : Int) = addr := by simp [Body.size]
    rw [haddr]
    exact .running hs (.refl m) hm
  | @literal self x s _ =>
    simp only [Body.code, Memory.hasCode_cons] at hc
    obtain ⟨hx, hcell, -⟩ := hc
    refine .of_step (hm.deeper hd) ?_
    refine hm.step_yields ht hx (hp.steering .lit (by decide)) fun m₁ hm₁ => ?_
    have haddr : addr + ((Body.literal x).size : Int) = addr + 1 + 1 := by simp [Body.size]; omega
    rw [haddr]
    exact hm₁.lit_yields hs hcell
  | calculation _ hcallee =>
    simp only [Body.code, Memory.hasCode_cons] at hc
    refine .of_step (hm.deeper hd) ?_
    exact hm.step_yields ht hc.1 (hp.primitives _ _ hcallee) fun m₁ hm₁ => hm₁.calculation_yields
  | @thread self addr' b s t _ hcallee hb ih =>
    simp only [Body.code, Memory.hasCode_cons] at hc
    obtain ⟨hcode, hexit⟩ := Memory.hasCode_append.mp (hp.threads _ _ hcallee).2
    have hentered := hm.enter_step bound hp ht hs hc.1 hcallee
    refine Lands.andThen (.of_step (hm.deeper hd) hentered) (fun _ m₁ hm₁ => ?_)
      fun h => absurd hs h
    have hd' : depth ≤ (back :: rest).length := by simp; omega
    rw [Body.length_code] at hexit
    exact (ih hs hd' hcode hm₁).leave hp ht hd' hexit.1
  | recurse _ ih => exact ih hs hd hc hm
  | @exit self s _ =>
    simp only [Body.code, Memory.hasCode_cons] at hc
    have hstep := hm.exit_step bound hp ht hs hc.1
    cases hstep with
    | running _ h hm' =>
      exact .left rfl (.of_step (hm.deeper hd) h)
        ⟨⟨hm'.data, hm'.console, hm'.memory, hm'.tracing, hm'.mode⟩, hm'.ip, hm'.returns⟩
    | failed h =>
      rw [hs] at h
      cases h
  | seq _ hb iha ihb =>
    obtain ⟨hca, hcb⟩ := hc.seq
    refine (iha hs hd hca hm).andThen (fun hrun m₁ hm₁ => ?_) hb.eq_of_stopped
    refine .congr_addr ?_ (ihb hrun hd hcb hm₁)
    simp [Body.size]
    omega
  | @ifThen _ a _ _ _ truth htest ha ih =>
    obtain ⟨hctest, hca⟩ := hc.ifThen
    have htarget : addr + 1 + (a.size + 1) = addr + (2 + a.size : Nat) := by omega
    have htested := hm.test_step bound hp ht hs hctest htarget htest
    refine (Lands.of_step (hm.deeper hd) htested).andThen (fun hrun m₁ hm₁ => ?_) ha.eq_of_stopped
    cases truth with
    | true =>
      refine .congr_addr ?_ (ih hrun hd hca hm₁)
      simp [Body.size]
      omega
    | false =>
      refine .congr_addr ?_ (ih hrun hd trivial hm₁)
      simp [Body.size]
  | @ifElse _ a _ _ _ _ truth htest hab ih =>
    obtain ⟨hctest, hca, hcjump, hcb⟩ := hc.ifElse
    have htarget : addr + 1 + (a.size + 3) = addr + 2 + a.size + 2 := by omega
    have htested := hm.test_step bound hp ht hs hctest htarget htest
    refine (Lands.of_step (hm.deeper hd) htested).andThen (fun hrun m₁ hm₁ => ?_) hab.eq_of_stopped
    cases truth with
    | true =>
      -- the first arm ends at a branch over the second one
      refine (ih hrun hd hca hm₁).andThen (fun hrun' m₂ hm₂ => ?_) fun _ => rfl
      refine .of_step (hm₂.deeper hd) (hm₂.jump_step bound hp ht hrun' hcjump ?_)
      simp [Body.size]
      omega
    | false =>
      refine .congr_addr ?_ (ih hrun hd hcb hm₁)
      simp [Body.size]
      omega
  | untilDone _ htest iha =>
    obtain ⟨hca, hctest⟩ := hc.untilLoop
    refine (iha hs hd hca hm).andThen (fun hrun m₁ hm₁ => ?_) fun h =>
      (Progress.eq_of_test h htest).2
    have htested := hm₁.test_step bound hp ht hrun hctest rfl htest
    refine .congr_addr ?_ (.of_step (hm₁.deeper hd) htested)
    simp [Body.size]
    omega
  | @untilAgain _ a _ _ _ _ _ htest hagain iha ihagain =>
    obtain ⟨hca, hctest⟩ := hc.untilLoop
    have htarget : addr + a.size + 1 + -(a.size + 1) = addr := by omega
    refine (iha hs hd hca hm).andThen (fun hrun m₁ hm₁ => ?_) fun h => ?_
    · have htested := hm₁.test_step bound hp ht hrun hctest htarget htest
      refine (Lands.of_step (hm₁.deeper hd) htested).andThen (fun hrun' m₂ hm₂ => ?_)
        hagain.eq_of_stopped
      exact ihagain hrun' hd hc hm₂
    · obtain ⟨htruth, -⟩ := Progress.eq_of_test h htest
      cases htruth
  | @again _ a _ _ _ _ hagain iha ihagain =>
    obtain ⟨hca, hcjump⟩ := hc.againLoop
    have htarget : addr + a.size + 1 + -(a.size + 1) = addr := by omega
    refine (iha hs hd hca hm).andThen (fun hrun m₁ hm₁ => ?_) hagain.eq_of_stopped
    have hjumped := hm₁.jump_step bound hp ht hrun hcjump htarget
    refine (Lands.of_step (hm₁.deeper hd) hjumped).andThen (fun _ m₂ hm₂ => ?_) hagain.eq_of_stopped
    exact ihagain hrun hd hc hm₂
  | @whileDone _ a b _ _ _ _ htest iha =>
    obtain ⟨hca, hctest, -, -⟩ := hc.whileLoop
    have htarget : addr + a.size + 1 + (b.size + 3) = addr + ((Body.whileLoop a b).size : Int) := by
      simp [Body.size]
      omega
    refine (iha hs hd hca hm).andThen (fun hrun m₁ hm₁ => ?_) fun h =>
      (Progress.eq_of_test h htest).2
    exact .of_step (hm₁.deeper hd) (hm₁.test_step bound hp ht hrun hctest htarget htest)
  | @whileAgain _ a b _ _ _ _ _ _ htest hb hagain iha ihb ihagain =>
    obtain ⟨hca, hctest, hcb, hcjump⟩ := hc.whileLoop
    have htarget : addr + a.size + 2 + b.size + 1 + -(a.size + b.size + 3) = addr := by omega
    refine (iha hs hd hca hm).andThen (fun hrun m₁ hm₁ => ?_) ?_
    · have htested := hm₁.test_step bound hp ht hrun hctest rfl htest
      refine (Lands.of_step (hm₁.deeper hd) htested).andThen (fun hrun' m₂ hm₂ => ?_) ?_
      · refine (ihb hrun' hd hcb hm₂).andThen (fun hrun₃ m₃ hm₃ => ?_) hagain.eq_of_stopped
        have hjumped := hm₃.jump_step bound hp ht hrun₃ hcjump htarget
        refine (Lands.of_step (hm₃.deeper hd) hjumped).andThen (fun _ m₄ hm₄ => ?_)
          hagain.eq_of_stopped
        exact ihagain hrun₃ hd hc hm₄
      · intro h
        obtain rfl := hb.eq_of_stopped h
        exact hagain.eq_of_stopped h
    · intro h
      obtain ⟨-, rfl⟩ := Progress.eq_of_test h htest
      obtain rfl := hb.eq_of_stopped h
      exact hagain.eq_of_stopped h

/-! ## From the run to the meaning -/

/-- A run that lands goes on to its end. -/
theorem Lands.ends {i : Cell → Action Unit} {onward : Place}
    (h : Lands i depth base onward out s m) (hs : s.status = .running) (he : Ends i depth n m) :
    ∃ m₁, Stands base s onward m₁ ∧ Ends i depth n m₁ := by
  cases h with
  | running _ hr hm => exact ⟨_, hm, (he.after hr).2.mono (Nat.sub_le n _)⟩
  | left hleft => rw [hs] at hleft; cases hleft
  | failed hfailed => rw [hs] at hfailed; cases hfailed

/-- A run that takes a step goes on to its end in fewer steps. -/
theorem Yields.ends {i : Cell → Action Unit} {here : Place}
    (h : Yields (stepWith i) base here s m) (hs : s.status = .running)
    (hd : depth < m.returns.length) (he : Ends i depth n m) :
    ∃ m₁, Stands base s here m₁ ∧ 1 ≤ n ∧ Ends i depth (n - 1) m₁ := by
  cases h with
  | running _ h hm => exact ⟨_, hm, he.after (.of_step hd h)⟩
  | failed hfailed => rw [hs] at hfailed; cases hfailed

/-- Bodies have a meaning if their runs come to an end in so many steps. -/
def Program.HasMeaning (p : Program) (base : Machine) (bound depth n : Nat) (b : Body) : Prop :=
  ∀ ⦃self addr : Int⦄ ⦃s : Progress⦄ ⦃back : Option Int⦄ ⦃rest : List (Option Int)⦄ ⦃m : Machine⦄,
    p self ≠ none → b.ClosedIn p → s.status = .running → depth ≤ rest.length →
    base.memory.HasCode addr (b.code self) → Stands base s ⟨some addr, back :: rest⟩ m →
    Ends (invoke (bound + 1)) depth n m → ∃ t, Means p self b s t

/-- A run of a word that comes to an end has a meaning, if shorter runs do. -/
theorem Program.HasMeaning.call (self : Int) (hp : p.HeldBy base.memory) (ht : Traceable base)
    (ih : ∀ k < n, ∀ b, p.HasMeaning base bound depth k b) (hcode : p code ≠ none)
    (hs : s.status = .running) (hd : depth ≤ rest.length)
    (hx : base.memory.get (.int addr) = .ok (.token code))
    (hm : Stands base s ⟨some addr, back :: rest⟩ m) (he : Ends (invoke (bound + 1)) depth n m) :
    ∃ t, Means p self (.call code) s t := by
  cases hcallee : p code with
  | none => exact absurd hcallee hcode
  | some callee =>
    cases callee with
    | primitive c => exact ⟨_, .calculation hs hcallee⟩
    | thread b =>
      have hentered := hm.enter_step bound hp ht hs hx hcallee
      obtain ⟨m₁, hm₁, hn, he₁⟩ := hentered.ends hs (hm.deeper hd) he
      have hbody := (Memory.hasCode_append.mp (hp.threads code b hcallee).2).1
      have hd' : depth ≤ (back :: rest).length := by simp; omega
      obtain ⟨t, hmeans⟩ :=
        ih (n - 1) (by omega) b hcode (hp.closed code b hcallee) hs hd' hbody hm₁ he₁
      exact ⟨t.back, .thread hs hcallee hmeans⟩

/-- A run of a body that comes to an end has a meaning. -/
theorem Body.means_of_ends (hp : p.HeldBy base.memory) (ht : Traceable base) (n : Nat) (b : Body) :
    p.HasMeaning base bound depth n b := by
  induction n using Nat.strongRecOn generalizing b with
  | _ n ih =>
    induction b with
    | empty => exact fun _ _ s _ _ _ _ _ _ _ _ _ _ => ⟨s, .empty⟩
    | literal x => exact fun _ _ _ _ _ _ _ _ hs _ _ _ _ => ⟨_, .literal hs⟩
    | exit => exact fun _ _ _ _ _ _ _ _ hs _ _ _ _ => ⟨_, .exit hs⟩
    | call code =>
      intro self addr s back rest m _ hclosed hs hd hc hm he
      have hcode := hclosed code (List.mem_singleton_self code)
      exact Program.HasMeaning.call self hp ht ih hcode hs hd hc.1 hm he
    | recurse =>
      intro self addr s back rest m hself _ hs hd hc hm he
      obtain ⟨t, hmeans⟩ := Program.HasMeaning.call self hp ht ih hself hs hd hc.1 hm he
      exact ⟨t, .recurse hmeans⟩
    | seq a b iha ihb =>
      intro self addr s back rest m hself hclosed hs hd hc hm he
      obtain ⟨hclosed, hclosed'⟩ := hclosed.seq
      obtain ⟨hca, hcb⟩ := hc.seq
      obtain ⟨t, ha⟩ := iha hself hclosed hs hd hca hm he
      by_cases hrun : t.status = .running
      · obtain ⟨m₁, hm₁, he₁⟩ := (ha.lands hp ht hs hd hca hm).ends hrun he
        obtain ⟨u, hb⟩ := ihb hself hclosed' hrun hd hcb hm₁ he₁
        exact ⟨u, .seq ha hb⟩
      · exact ⟨t, .seq ha (.stopped hrun)⟩
    | ifThen a iha =>
      intro self addr s back rest m hself hclosed hs hd hc hm he
      obtain ⟨hctest, hca⟩ := hc.ifThen
      rcases htest : s.test with ⟨truth, t⟩
      by_cases hrun : t.status = .running
      · have htested := hm.test_step bound hp ht hs hctest rfl htest
        obtain ⟨m₁, hm₁, _, he₁⟩ := htested.ends hrun (hm.deeper hd) he
        cases truth with
        | true =>
          obtain ⟨u, ha⟩ := iha hself hclosed hrun hd hca hm₁ (he₁.mono (Nat.sub_le n 1))
          exact ⟨u, .ifThen htest ha⟩
        | false => exact ⟨t, .ifThen htest .empty⟩
      · exact ⟨t, .ifThen htest (.stopped hrun)⟩
    | ifElse a b iha ihb =>
      intro self addr s back rest m hself hclosed hs hd hc hm he
      obtain ⟨hclosed, hclosed'⟩ := hclosed.ifElse
      obtain ⟨hctest, hca, _, hcb⟩ := hc.ifElse
      have htarget : addr + 1 + (a.size + 3) = addr + 2 + a.size + 2 := by omega
      rcases htest : s.test with ⟨truth, t⟩
      by_cases hrun : t.status = .running
      · have htested := hm.test_step bound hp ht hs hctest htarget htest
        obtain ⟨m₁, hm₁, _, he₁⟩ := htested.ends hrun (hm.deeper hd) he
        have he₁ := he₁.mono (Nat.sub_le n 1)
        cases truth with
        | true =>
          obtain ⟨u, ha⟩ := iha hself hclosed hrun hd hca hm₁ he₁
          exact ⟨u, .ifElse htest ha⟩
        | false =>
          obtain ⟨u, hb⟩ := ihb hself hclosed' hrun hd hcb hm₁ he₁
          exact ⟨u, .ifElse htest hb⟩
      · exact ⟨t, .ifElse htest (.stopped hrun)⟩
    | untilLoop a iha =>
      intro self addr s back rest m hself hclosed hs hd hc hm he
      obtain ⟨hca, hctest⟩ := hc.untilLoop
      have htarget : addr + a.size + 1 + -(a.size + 1) = addr := by omega
      obtain ⟨t, ha⟩ := iha hself hclosed hs hd hca hm he
      rcases htest : t.test with ⟨truth, u⟩
      cases truth with
      | true => exact ⟨u, .untilDone ha htest⟩
      | false =>
        by_cases hrun : u.status = .running
        · have hrun' := Progress.running_of_test htest hrun
          obtain ⟨m₁, hm₁, he₁⟩ := (ha.lands hp ht hs hd hca hm).ends hrun' he
          have htested := hm₁.test_step bound hp ht hrun' hctest htarget htest
          obtain ⟨m₂, hm₂, hn, he₂⟩ := htested.ends hrun (hm₁.deeper hd) he₁
          obtain ⟨v, hagain⟩ := ih (n - 1) (by omega) _ hself hclosed hrun hd hc hm₂ he₂
          exact ⟨v, .untilAgain ha htest hagain⟩
        · exact ⟨u, .untilAgain ha htest (.stopped hrun)⟩
    | againLoop a iha =>
      intro self addr s back rest m hself hclosed hs hd hc hm he
      obtain ⟨hca, hcjump⟩ := hc.againLoop
      have htarget : addr + a.size + 1 + -(a.size + 1) = addr := by omega
      obtain ⟨t, ha⟩ := iha hself hclosed hs hd hca hm he
      by_cases hrun : t.status = .running
      · obtain ⟨m₁, hm₁, he₁⟩ := (ha.lands hp ht hs hd hca hm).ends hrun he
        have hjumped := hm₁.jump_step bound hp ht hrun hcjump htarget
        obtain ⟨m₂, hm₂, hn, he₂⟩ := hjumped.ends hrun (hm₁.deeper hd) he₁
        obtain ⟨u, hagain⟩ := ih (n - 1) (by omega) _ hself hclosed hrun hd hc hm₂ he₂
        exact ⟨u, .again ha hagain⟩
      · exact ⟨t, .again ha (.stopped hrun)⟩
    | whileLoop a b iha ihb =>
      intro self addr s back rest m hself hclosed hs hd hc hm he
      obtain ⟨hclosed₁, hclosed₂⟩ := hclosed.whileLoop
      obtain ⟨hca, hctest, hcb, hcjump⟩ := hc.whileLoop
      have htarget : addr + a.size + 2 + b.size + 1 + -(a.size + b.size + 3) = addr := by omega
      obtain ⟨t, ha⟩ := iha hself hclosed₁ hs hd hca hm he
      rcases htest : t.test with ⟨truth, u⟩
      cases truth with
      | false => exact ⟨u, .whileDone ha htest⟩
      | true =>
        by_cases hrun : u.status = .running
        · have hrun' := Progress.running_of_test htest hrun
          obtain ⟨m₁, hm₁, he₁⟩ := (ha.lands hp ht hs hd hca hm).ends hrun' he
          have htested := hm₁.test_step bound hp ht hrun' hctest rfl htest
          obtain ⟨m₂, hm₂, hn, he₂⟩ := htested.ends hrun (hm₁.deeper hd) he₁
          have he₂ := he₂.mono (Nat.sub_le n 1)
          obtain ⟨v, hb⟩ := ihb hself hclosed₂ hrun hd hcb hm₂ he₂
          by_cases hrun₃ : v.status = .running
          · obtain ⟨m₃, hm₃, he₃⟩ := (hb.lands hp ht hrun hd hcb hm₂).ends hrun₃ he₂
            have hjumped := hm₃.jump_step bound hp ht hrun₃ hcjump htarget
            obtain ⟨m₄, hm₄, hn', he₄⟩ := hjumped.ends hrun₃ (hm₃.deeper hd) he₃
            obtain ⟨w, hagain⟩ := ih (n - 1) (by omega) _ hself hclosed hrun₃ hd hc hm₄ he₄
            exact ⟨w, .whileAgain ha htest hb hagain⟩
          · exact ⟨v, .whileAgain ha htest hb (.stopped hrun₃)⟩
        · exact ⟨u, .whileAgain ha htest (.stopped hrun) (.stopped hrun)⟩

end ThreadedForth
