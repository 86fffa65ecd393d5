import ThreadedForth.Proofs.Compiler.Straight
import ThreadedForth.Proofs.Memory.Naming
import ThreadedForth.Proofs.Session.Agreement

/-!
# Looking into a word and defining it again

What `see` shows of a straight word is the text of a definition (`Straight.see_eq`). Its tokens are
written in another way than those of the text that the word was defined by (`reprint`), but they
stand for the same (`Straight.reprinted`), so that the text makes the same word again
(`Session.see_recompiles`).
-/

namespace ThreadedForth

open ThreadedForth.Action

/-! ## What is shown of a body -/

/-- The words that take the cell after them for an operand. -/
def operandWords : List ThreadWord := [.lit, .branch, .branchFalse]

/-- A token as it is shown: an integer in its shortest form, a name in upper case. -/
def reprint (token : String) : String :=
  match Numeral.read? token with
  | some n => Numeral.write n
  | none => Text.upper token

/-- No word is found by a numeral. -/
def Memory.LeavesNumerals (m : Memory) : Prop :=
  ∀ token n, Numeral.read? token = some n → m.find token = .ok none

/-- The header of `EXIT`, as the kernel lays it down. -/
def Kernel.exitHeader : Header := ⟨1, "EXIT"⟩

/-- A token can be shown and read again in the definition of a word with this name: it is a numeral,
or the name of another visible word that is not immediate and takes no operand. -/
inductive Reprints (m : Memory) (self : String) : String → Prop
  | numeral {token : String} {n : Int} (hread : Numeral.read? token = some n) :
      Reprints m self token
  | word {token : String} {header : Cell} (hplain : Text.Plain token)
      (hother : Text.upper token ≠ Text.upper self) (hfind : m.find token = .ok (some header))
      (himm : m.isImmediate header = .ok false)
      (hoperand : ∀ w ∈ operandWords, header ≠ .int (Kernel.header (.thread w))) :
      Reprints m self token

variable {m : Memory} {v : Machine} {hs hs' : List Header} {name token : String}
  {tokens : List String} {cells body : List Cell} {x : Cell} {n : Int} {immediate : Bool}

theorem reprint_of_read? (h : Numeral.read? token = some n) : reprint token = Numeral.write n := by
  rw [reprint, h]

theorem reprint_of_not_read? (h : Numeral.read? token = none) :
    reprint token = Text.upper token := by
  rw [reprint, h]

/-- A token that finds a word is no numeral, if no word is named by a numeral. -/
theorem Reprints.of_find (h : Reprints m name token)
    (hnumerals : m.LeavesNumerals) {header : Cell} (hfind : m.find token = .ok (some header)) :
    Numeral.read? token = none ∧ Text.Plain token ∧ Text.upper token ≠ Text.upper name ∧
      ∀ w ∈ operandWords, header ≠ .int (Kernel.header (.thread w)) := by
  have hnot {n : Int} (hread : Numeral.read? token = some n) : False := by
    rw [hnumerals token n hread] at hfind
    cases hfind
  cases h with
  | numeral hread => exact (hnot hread).elim
  | word hplain hother hfind' _ hoperand =>
    obtain rfl := Option.some.inj (Except.ok.inj (hfind'.symm.trans hfind))
    exact ⟨Option.eq_none_iff_forall_ne_some.mpr fun n => hnot, hplain, hother, hoperand⟩

namespace Machine

/-- A literal is shown as its value. -/
theorem parts_literal (hbody : v.parts body = .ok cells) (n : Int) :
    v.parts (Kernel.litToken :: .int n :: body) = .ok (.text (Numeral.write n) :: cells) := by
  simp [parts, takesOperand, partWith, hbody, Cell.display, Cell.plain, Cell.inspect]

/-- A cell without an operand is shown by itself. -/
theorem parts_cons (hx : takesOperand x = false) {first : Cell} (hfirst : v.part x = .ok first)
    (hbody : v.parts body = .ok cells) : v.parts (x :: body) = .ok (first :: cells) := by
  cases body with
  | nil =>
    obtain rfl : [] = cells := Except.ok.inj hbody
    simp [parts, hfirst]
  | cons y body => simp [parts, hx, hfirst, hbody]

end Machine

/-- Only the words that take operands do. -/
theorem takesOperand_of_ne {header : Int}
    (h : ∀ w ∈ operandWords, Cell.int header ≠ .int (Kernel.header (.thread w))) :
    Machine.takesOperand (.token (header + headerSize)) = false := by
  have hne : ∀ w ∈ operandWords, Cell.token (header + headerSize) ≠ Kernel.token (.thread w) := by
    intro w hw heq
    refine h w hw (congrArg Cell.int ?_)
    rw [Kernel.token, Cell.token.injEq, headerSize] at heq
    omega
  have hlit := hne .lit (by decide)
  have hbranch := hne .branch (by decide)
  have hfalse := hne .branchFalse (by decide)
  simp [Machine.takesOperand, Kernel.litToken, Kernel.branchToken, Kernel.branchFalseToken, hlit,
    hbranch, hfalse]

section Bodies

variable (hw : m.WellFormed hs) (hv : v.memory.WellFormed hs') (hsub : hs ⊆ hs')

include hv hsub

/-- `EXIT` is shown by its name. -/
theorem part_exit (hexit : Kernel.exitHeader ∈ hs) :
    v.part Kernel.exitToken = .ok (.text "EXIT") :=
  hv.label_code (hsub hexit)

include hw

/-- A word is shown by its name in upper case. -/
theorem part_of_find {header : Int} (hfind : m.find token = .ok (some (.int header))) :
    v.part (.token (header + headerSize)) = .ok (.text (Text.upper token)) := by
  obtain ⟨h, hh, hcell, hname⟩ := hw.find_eq_some hfind
  obtain rfl : header = h.addr := Cell.int.inj hcell
  rw [Machine.part, hv.label_code (hsub hh), hname]

/-- Each token is shown in its own way, and then the `EXIT`. -/
theorem Straight.parts_eq (hexit : Kernel.exitHeader ∈ hs)
    (hnumerals : m.LeavesNumerals)
    (h : Straight m tokens cells) (htokens : ∀ token ∈ tokens, Reprints m name token) :
    v.parts (cells ++ [Kernel.exitToken]) =
      .ok ((tokens.map reprint).map .text ++ [.text "EXIT"]) := by
  induction h with
  | nil =>
    exact Machine.parts_cons rfl (part_exit hv hsub hexit) rfl
  | numeral hread _ _ ih =>
    rw [List.map_cons, reprint_of_read? hread]
    exact Machine.parts_literal (ih fun token ht => htokens token (List.mem_cons_of_mem _ ht)) _
  | @word token header _ _ _ hfind _ _ ih =>
    have hrest := ih fun token ht => htokens token (List.mem_cons_of_mem _ ht)
    obtain ⟨hword, -, -, hoperand⟩ :=
      (htokens token (List.mem_cons_self ..)).of_find hnumerals hfind
    rw [List.map_cons, reprint_of_not_read? hword]
    exact Machine.parts_cons (takesOperand_of_ne hoperand)
      (part_of_find hw hv hsub hfind) hrest

end Bodies

/-! ## What is shown of a word -/

/-- The blanks before the `;` of what is shown of a straight word. -/
def gapBefore (tokens : List String) : String := if tokens = [] then "  " else " "

theorem intercalate_eq_phraseText (token : String) (tokens : List String) :
    " " ++ String.intercalate " " (token :: tokens) = phraseText (token :: tokens) := by
  induction tokens generalizing token with
  | nil => simp [phraseText]
  | cons next tokens ih =>
    rw [String.intercalate_cons_cons, phraseText, ← ih next]
    simp only [String.append_assoc]

/-- What is shown of a straight word is the text of a definition. -/
theorem shown_eq_straightText (title : String) (tokens : List String) (immediate : Bool) :
    ": " ++ title ++ " " ++ String.intercalate " " tokens ++ " ;" ++
      (if immediate then " IMMEDIATE" else "") =
    straightText title tokens (gapBefore tokens) immediate := by
  cases tokens with
  | nil =>
    apply String.toList_inj.mp
    simp [straightText, gapBefore, phraseText]
  | cons token tokens =>
    have hgap : gapBefore (token :: tokens) = " " := if_neg (List.cons_ne_nil token tokens)
    rw [straightText, ← intercalate_eq_phraseText, hgap]
    apply String.toList_inj.mp
    simp

theorem joinTexts_map (texts : List String) :
    Machine.joinTexts (texts.map .text) = .ok (String.intercalate " " texts) := by
  have htexts : texts.mapM (fun text => (pure text : Except Stop String)) = .ok texts := by
    rw [List.mapM_pure, List.map_id']
    rfl
  rw [Machine.joinTexts, List.mapM_map, Function.comp_def, htexts]
  rfl

/-- One `EXIT` is taken off. -/
theorem dropExit_append (xs : List Cell) : Machine.dropExit (xs ++ [.text "EXIT"]) = xs := by
  simp [Machine.dropExit]

theorem Flags.declared_le (immediate : Bool) : Flags.declared immediate ≤ Flags.named := by
  cases immediate <;> decide

theorem Flags.declared_visible (immediate : Bool) :
    Flags.declared immediate &&& Flags.hidden = 0 := by
  cases immediate <;> decide

/-- **What is shown of a straight word is a definition of it**, with its tokens in the way that they
are shown. -/
theorem Straight.see_eq (hw : m.WellFormed hs) (hexit : Kernel.exitHeader ∈ hs)
    (hnumerals : m.LeavesNumerals)
    (h : Straight m tokens cells) (htokens : ∀ token ∈ tokens, Reprints m name token)
    (hmemory : v.memory =
      m.withWord name (Flags.declared immediate) (cells ++ [Kernel.exitToken])) :
    v.see name = .ok (straightText (Text.upper name) (tokens.map reprint)
      (gapBefore (tokens.map reprint)) immediate) := by
  have hf := Flags.declared_le immediate
  have hv := hw.withWord name hf (cells ++ [Kernel.exitToken])
  obtain ⟨link, hheader⟩ := hv.chained.hasHeader (List.mem_cons_self ..)
  have hfind := hw.find_withWord_self hf (Flags.declared_visible immediate) name
    (cells ++ [Kernel.exitToken])
  have hcode := Memory.get_code_withWord m name (Flags.declared immediate)
    (cells ++ [Kernel.exitToken])
  have hend := hw.endOf_withWord hf name (cells ++ [Kernel.exitToken])
  have hrange := Memory.range_withWord m name (Flags.declared immediate)
    (cells ++ [Kernel.exitToken])
  have hname := hheader.nameOf_eq
  have himm : v.memory.isImmediate (.int m.here) = .ok immediate := by
    have hread := hheader.isImmediate_eq
    rw [Memory.flagsAt_withWord] at hread
    rw [hmemory]
    refine hread.trans (congrArg Except.ok ?_)
    cases immediate <;> rfl
  rw [← hmemory] at hv hfind hcode hend hrange hname
  have hparts := h.parts_eq hw hv (List.subset_cons_self ..) hexit hnumerals htokens
  have hplus : (Cell.int m.here).plus 0 = .ok (m.here + 0) := rfl
  have hstart : ((m.here : Int) + headerSize + 1).toNat = m.here + 4 := by
    rw [headerSize]
    omega
  rw [Header.cell] at hname
  simp only [Machine.see, hfind, hplus, hcode, himm, hname, hend, hstart, hrange, hparts,
    dropExit_append, joinTexts_map, Int.add_zero, Int.toNat_natCast, Cell.plain,
    Outcome.ok_bind, Outcome.liftM_ok, Outcome.pure_eq_ok, Except.ok.injEq]
  exact shown_eq_straightText (Text.upper name) (tokens.map reprint) immediate

/-! ## Reading it again -/

/-- A word is found by its name in upper case as it is found by its name. -/
theorem Memory.WellFormed.find_upper (hw : m.WellFormed hs) (h : Text.Plain name) :
    m.find (Text.upper name) = m.find name := by
  rw [hw.find_eq_bears, hw.find_eq_bears, h.upper_upper]

theorem Text.Plain.withWord_upper (h : Text.Plain name) (m : Memory) (flags : Nat)
    (cells : List Cell) :
    m.withWord (Text.upper name) flags cells = m.withWord name flags cells := by
  rw [Memory.withWord, Memory.withWord, h.upper_upper]

section Again

variable (hw : m.WellFormed hs)

include hw

/-- The tokens stand for the same in the way that they are shown, when the new word is visible. -/
theorem Straight.reprinted (hplain : Text.Plain name) (hread : Numeral.read? name = none)
    (hnumerals : m.LeavesNumerals)
    (h : Straight m tokens cells) (htokens : ∀ token ∈ tokens, Reprints m name token) {flags : Nat}
    (hf : flags ≤ Flags.named) (body : List Cell) :
    Straight (m.withWord name flags body) (tokens.map reprint) cells := by
  have hself := hplain.read?_upper hread
  induction h with
  | nil => exact .nil
  | @numeral token n _ _ htoken _ _ ih =>
    have hrest := ih fun token ht => htokens token (List.mem_cons_of_mem _ ht)
    have hwrite := Numeral.read?_write n
    have hother : Text.upper (Numeral.write n) ≠ Text.upper name := by
      rw [upper_of_read? hwrite]
      rintro heq
      rw [heq, hself] at hwrite
      cases hwrite
    rw [List.map_cons, reprint_of_read? htoken]
    have hfind := (hw.find_withWord hf name body (.inl hother)).trans (hnumerals _ n hwrite)
    exact .numeral hwrite hfind hrest
  | @word token header _ _ _ hfind himm _ ih =>
    have hrest := ih fun token ht => htokens token (List.mem_cons_of_mem _ ht)
    obtain ⟨hword, htoken, hother, -⟩ :=
      (htokens token (List.mem_cons_self ..)).of_find hnumerals hfind
    rw [← htoken.upper_upper] at hother
    have hsame : (m.withWord name flags body).find (Text.upper token) = m.find token :=
      (hw.find_withWord hf name body (.inl hother)).trans (hw.find_upper htoken)
    rw [List.map_cons, reprint_of_not_read? hword]
    exact .word htoken.upper.lexeme (hsame.trans hfind)
      ((hw.extends_withWord name hf body).isImmediate himm) hrest

/-- Such tokens are compiled. -/
theorem Straight.of_reprints
    (hnumerals : m.LeavesNumerals)
    (htokens : ∀ token ∈ tokens, Reprints m name token) : ∃ cells, Straight m tokens cells := by
  induction tokens with
  | nil => exact ⟨[], .nil⟩
  | cons token tokens ih =>
    obtain ⟨htoken, htokens⟩ := List.forall_mem_cons.mp htokens
    obtain ⟨cells, hrest⟩ := ih htokens
    cases htoken with
    | numeral hread => exact ⟨_, .numeral hread (hnumerals token _ hread) hrest⟩
    | word hplain _ hfind himm _ =>
      obtain ⟨h, -, rfl, -⟩ := hw.find_eq_some hfind
      exact ⟨_, .word hplain.lexeme hfind himm hrest⟩

/-- What was needed to define a word is there when the word is. -/
theorem Memory.CanDefine.withWord (h : m.CanDefine name immediate) {flags : Nat}
    (hf : flags ≤ Flags.named) (body : List Cell)
    (hself : ∀ word ∈ [":", ";", "IMMEDIATE"], Text.upper word ≠ Text.upper name) :
    (m.withWord name flags body).CanDefine name immediate := by
  have he := hw.extends_withWord name hf body
  have hkept {word : String} {header : Int} {code : List Cell}
      (hword : word ∈ [":", ";", "IMMEDIATE"]) (hnames : m.Names word header code) :
      (m.withWord name flags body).Names word header code :=
    hnames.of_find he (hw.find_withWord hf name body (.inl (hself word hword)))
  obtain ⟨colon, hcolon⟩ := h.compile.colon
  obtain ⟨semicolon, hsemicolon, himm⟩ := h.compile.semicolon
  exact {
    compile := {
      toHasInterpreter := h.compile.toHasInterpreter.of_extends he
      colon := ⟨colon, hkept (by decide) hcolon⟩
      semicolon := ⟨semicolon, hkept (by decide) hsemicolon, he.isImmediate himm⟩
      tools := List.forall_mem_nil _ }
    declare := fun himmediate => by
      obtain ⟨header, hword⟩ := h.declare himmediate
      exact ⟨header, hkept (by decide) hword⟩
    other := h.other }

end Again

/-- **What is shown of a straight word makes the same word again**: right after a word is defined by
these tokens, it can be shown, and the text that shows it is a definition which makes a second word
with the same name, the same flags, the same code field and the same body behind the first one. -/
theorem Session.see_recompiles {m : Machine} (hw : m.memory.WellFormed hs)
    (hexit : Kernel.exitHeader ∈ hs) (hc : m.memory.CanCompile .empty)
    (hdeclare : ∃ header, m.memory.Names "IMMEDIATE" header
      [.native (.primitive (.compiler .immediate))])
    (hmode : m.mode = .immediate) (hidle : m.console.source.hasPending = false)
    (hnumerals : m.memory.LeavesNumerals)
    (hplain : Text.Plain name) (hread : Numeral.read? name = none)
    (hself : ∀ word ∈ [":", ";", "IMMEDIATE"], Text.upper name ≠ Text.upper word)
    (htokens : ∀ token ∈ tokens, Reprints m.memory name token) (immediate : Bool)
    (sink again : Sink) :
    ∃ cells k, ∀ b ≥ k, ∃ m₁,
      Session.interpretText b sink (straightText name tokens " " immediate) m = .ok "" m₁ ∧
      m₁.memory = m.memory.withWord name (Flags.declared immediate) cells ∧
      ∃ text, m₁.see name = .ok text ∧ ∃ k', ∀ b' ≥ k', ∃ m₂,
        Session.interpretText b' again text m₁ = .ok "" m₂ ∧
        m₂.memory = m₁.memory.withWord name (Flags.declared immediate) cells := by
  have hself' : ∀ word ∈ [":", ";", "IMMEDIATE"], Text.upper word ≠ Text.upper name :=
    fun word hword => (hself word hword).symm
  have hdefine : m.memory.CanDefine name immediate :=
    ⟨hc, fun _ => hdeclare, fun _ => hself' "IMMEDIATE" (by simp)⟩
  have hgap : ∀ ts, (gapBefore ts).toList ≠ [] ∧ ∀ c ∈ (gapBefore ts).toList, c = ' ' := by
    intro ts
    rw [gapBefore]
    split <;> simp
  have hblank : " ".toList ≠ [] ∧ ∀ c ∈ " ".toList, c = ' ' := by simp
  obtain ⟨cells, hstraight⟩ := Straight.of_reprints hw hnumerals htokens
  obtain ⟨k, hrun⟩ := hstraight.interpretText_gap hw hdefine hmode hidle hplain.lexeme hblank.1
    hblank.2 sink
  refine ⟨cells ++ [Kernel.exitToken], k, fun b hb => ?_⟩
  obtain ⟨m₁, hrun, hsettles, -⟩ := hrun b hb
  have hmemory : m₁.memory =
      m.memory.withWord name (Flags.declared immediate) (cells ++ [Kernel.exitToken]) :=
    hsettles.memory
  have hf := Flags.declared_le immediate
  have hsee := hstraight.see_eq hw hexit hnumerals htokens hmemory
  -- the same once more, on the machine that has the word
  have hw₁ := hw.withWord name hf (cells ++ [Kernel.exitToken])
  have hdefine₁ := hdefine.withWord hw hf (cells ++ [Kernel.exitToken]) hself'
  have hstraight₁ := hstraight.reprinted hw hplain hread hnumerals htokens hf
    (cells ++ [Kernel.exitToken])
  rw [← hmemory] at hw₁ hdefine₁ hstraight₁
  have hdefine₂ : m₁.memory.CanDefine (Text.upper name) immediate :=
    ⟨hdefine₁.compile, hdefine₁.declare, by rw [hplain.upper_upper]; exact hdefine₁.other⟩
  obtain ⟨hne, hgap⟩ := hgap (tokens.map reprint)
  obtain ⟨k', hagain⟩ := hstraight₁.interpretText_gap hw₁ hdefine₂ hsettles.mode hsettles.idle
    hplain.upper.lexeme hne hgap again
  refine ⟨m₁, hrun, hmemory, _, hsee, k', fun b' hb' => ?_⟩
  obtain ⟨m₂, hagain, hsettles₂, -⟩ := hagain b' hb'
  exact ⟨m₂, hagain, hsettles₂.memory.trans (hplain.withWord_upper ..)⟩

/-- No numeral is found where no word is named by one. -/
theorem Memory.WellFormed.leavesNumerals (hw : m.WellFormed hs)
    (hnames : ∀ h ∈ hs, Numeral.read? h.name = none) : m.LeavesNumerals := by
  intro token n hread
  have hother : ∀ h ∈ hs, ¬ m.bears (Text.upper token) h = true := by
    intro h hh hbears
    have hname := (Memory.bears_iff.mp hbears).1
    rw [upper_of_read? hread] at hname
    simp [hname ▸ hnames h hh] at hread
  rw [hw.find_eq_bears, List.find?_eq_none.mpr hother]
  rfl

section Booted

open Kernel

theorem booted_numerals : bootedMemory.LeavesNumerals :=
  booted_wellFormed.leavesNumerals (by decide +kernel)

/-- Numerals that are written in longer ways, and a word that returns before its end. -/
def sparseTokens : List String := ["dup", "+007", "exit", "-0", "Exit"]

-- the memory is read cell by cell
set_option maxRecDepth 10000 in
theorem sparseTokens_reprint : ∀ token ∈ sparseTokens, Reprints bootedMemory "sparse" token := by
  have hfind (token : String) := booted_wellFormed.find_eq token
  have hdup : Reprints bootedMemory "sparse" "dup" :=
    have hfound : bootedMemory.find "dup" = .ok (some (.int 25)) := (hfind "dup").trans rfl
    .word (by decide) (by decide) hfound rfl (by decide)
  have hexit (token : String) (htoken : token = "exit" ∨ token = "Exit") :
      Reprints bootedMemory "sparse" token := by
    have hfound : bootedMemory.find token = .ok (some (.int 1)) := by
      rcases htoken with rfl | rfl
      · exact (hfind "exit").trans rfl
      · exact (hfind "Exit").trans rfl
    rcases htoken with rfl | rfl
    · exact .word (by decide) (by decide) hfound rfl (by decide)
    · exact .word (by decide) (by decide) hfound rfl (by decide)
  simp only [sparseTokens, List.forall_mem_cons]
  exact ⟨hdup, .numeral rfl, hexit _ (.inl rfl), .numeral rfl, hexit _ (.inr rfl),
    List.forall_mem_nil _⟩

-- the memory is read cell by cell
set_option maxRecDepth 10000 in
/-- A word of a booted machine that is defined again by what is shown of it. -/
theorem Session.see_recompiles_sparse :
    bootedMemory.WellFormed bootedHeaders ∧ exitHeader ∈ bootedHeaders ∧
      bootedMemory.CanCompile .empty ∧
      bootedMemory.LeavesNumerals ∧ Text.Plain "sparse" ∧
      (∀ token ∈ sparseTokens, Reprints bootedMemory "sparse" token) ∧
      ∃ cells k, ∀ b ≥ k, ∃ m₁,
        Session.interpretText b .shared ": sparse dup +007 exit -0 Exit ; IMMEDIATE" bootedMachine =
          .ok "" m₁ ∧
        m₁.memory = bootedMemory.withWord "sparse" Flags.immediate cells ∧
        ∃ text, m₁.see "sparse" = .ok text ∧ ∃ k', ∀ b' ≥ k', ∃ m₂,
          Session.interpretText b' .shared text m₁ = .ok "" m₂ ∧
          m₂.memory = m₁.memory.withWord "sparse" Flags.immediate cells := by
  have hc : bootedMemory.CanCompile .empty := booted_hasCompiler.canCompile .empty
  have hexit : exitHeader ∈ bootedHeaders := List.mem_of_getLast? rfl
  have hplain : Text.Plain "sparse" := by decide
  have himm : bootedMemory.Names "IMMEDIATE" (header (.compiler .immediate))
      [.native (.primitive (.compiler .immediate))] :=
    ⟨(booted_wellFormed.find_eq "IMMEDIATE").trans rfl, by decide⟩
  exact ⟨booted_wellFormed, hexit, hc, booted_numerals, hplain, sparseTokens_reprint,
    Session.see_recompiles (m := bootedMachine) booted_wellFormed hexit hc ⟨_, himm⟩ rfl rfl
      booted_numerals hplain rfl (by decide) sparseTokens_reprint true .shared .shared⟩

/-! ### Where a word does not come back -/

/-- By all that the dictionary tells, a word with this name and no body could be defined on a
machine and shown. -/
structure Machine.Offers (m : Machine) (name : String) : Prop where
  wellFormed : ∃ hs, m.memory.WellFormed hs
  kernel : ∀ word ∈ [":", ";", "IMMEDIATE"], m.memory.find word = bootedMemory.find word
  numerals : m.memory.LeavesNumerals
  plain : Text.Plain name
  noNumeral : Numeral.read? name = none
  other : ∀ word ∈ [":", ";", "IMMEDIATE"], Text.upper name ≠ Text.upper word

/-- The definition of a word without a body comes to an end. Then the word is not shown, or the text
that shows it does not put the same cells behind what was there. -/
def Machine.Loses (m : Machine) (name : String) : Prop :=
  ∃ bound outcome m₁,
    Session.interpretText bound .shared (straightText name [] " " false) m = endsIn outcome m₁ ∧
    ∀ text, m₁.see name = .ok text → ∃ bound' outcome' m₂,
      Session.interpretText bound' .shared text m₁ = endsIn outcome' m₂ ∧
      m₂.memory.range (m₁.memory.here + 1) m₂.memory.here ≠
        m₁.memory.range (m.memory.here + 1) m₁.memory.here

/-- The word is lost when as many steps have been made as are enough here. -/
def loses (m : Machine) (name : String) : Bool :=
  match verdict (Session.interpretText 30 .shared (straightText name [] " " false) m) with
  | none => false
  | some (_, m₁) =>
    match m₁.see name with
    | .error _ => true
    | .ok text =>
      match verdict (Session.interpretText 30 .shared text m₁) with
      | none => false
      | some (_, m₂) =>
        m₂.memory.range (m₁.memory.here + 1) m₂.memory.here ≠
          m₁.memory.range (m.memory.here + 1) m₁.memory.here

theorem Machine.Loses.of_run {m : Machine} (h : loses m name = true) : m.Loses name := by
  unfold loses at h
  split at h
  · cases h
  · next outcome m₁ hrun =>
    refine ⟨30, outcome, m₁, eq_endsIn_of_verdict hrun, fun text hsee => ?_⟩
    rw [hsee] at h
    split at h
    · next heq => cases heq
    · next text' heq =>
      obtain rfl := Except.ok.inj heq
      split at h
      · cases h
      · next outcome' m₂ hagain =>
        exact ⟨30, outcome', m₂, eq_endsIn_of_verdict hagain, of_decide_eq_true h⟩

/-- The same when the definition and the text that shows it lead to known machines. -/
theorem Machine.Loses.of_again {m m₁ : Machine} {printed text : String}
    (hdefines : Session.interpretText 30 .shared (straightText name [] " " false) m =
      .ok printed m₁) (hsee : m₁.see name = .ok text)
    (hagain : endsWell (fun _ m₂ => decide (m₂.memory.range (m₁.memory.here + 1) m₂.memory.here ≠
      m₁.memory.range (m.memory.here + 1) m₁.memory.here))
      (Session.interpretText 30 .shared text m₁) = true) : m.Loses name := by
  obtain ⟨printed', m₂, hrun, hlost⟩ := exists_of_endsWell hagain
  refine ⟨30, .ok printed, m₁, hdefines, fun text' hsee' => ?_⟩
  obtain rfl := Except.ok.inj (hsee.symm.trans hsee')
  exact ⟨30, .ok printed', m₂, hrun, of_decide_eq_true hlost⟩

/-- The words of a booted machine, of which the first one has another name than `EXIT`. -/
def leavingWords : List WordImage :=
  (words ++ bootWords).modify 0 ({ · with name := "LEAVE" })

/-- Booted machines on which a word is lost: the machine compiles; a line waits to be read that
begins a comment; the code field of `CREATE` is written over, or the name of `EXIT`. -/
def losingMachines : List Machine :=
  [{ memory := bootedMemory, mode := .compile },
    { memory := bootedMemory, console := { source := { pending := ["("] } } },
    { memory := bootedMemory.write 216 (.int 0) },
    { memory := .ofWords leavingWords }]

-- the memory is read cell by cell
set_option maxRecDepth 10000 in
theorem losingMachines_offer : losingMachines.Forall fun m => m.Offers "X" := by
  have hplain : Text.Plain "X" := by decide
  have hname : Numeral.read? "X" = none ∧
      ∀ word ∈ [":", ";", "IMMEDIATE"], Text.upper "X" ≠ Text.upper word := by decide
  have hout : ∀ h ∈ bootedHeaders, 216 < h.addr ∨ h.addr + 3 ≤ 216 := by decide +kernel
  have hwritten (word : String) : (bootedMemory.write 216 (.int 0)).find word =
      bootedMemory.find word := booted_wellFormed.find_write _ hout word
  have hleaving : (Memory.ofWords leavingWords).WellFormed (Memory.headersFrom 1 [] leavingWords) :=
    Memory.wellFormed_ofWords _ (by decide) (by decide +kernel)
  have hsame : ∀ word ∈ [":", ";", "IMMEDIATE"],
      (Memory.ofWords leavingWords).find word = bootedMemory.find word := by
    simp only [hleaving.find_eq, booted_wellFormed.find_eq]
    decide +kernel
  refine ⟨?_, ?_, ?_, ?_⟩
  · exact ⟨⟨_, booted_wellFormed⟩, fun _ _ => rfl, booted_numerals, hplain, hname.1, hname.2⟩
  · exact ⟨⟨_, booted_wellFormed⟩, fun _ _ => rfl, booted_numerals, hplain, hname.1, hname.2⟩
  · exact ⟨⟨_, booted_wellFormed.write _ hout⟩, fun word _ => hwritten word,
      fun token n hread => (hwritten token).trans (booted_numerals token n hread), hplain, hname.1,
      hname.2⟩
  · exact ⟨⟨_, hleaving⟩, hsame,
      hleaving.leavesNumerals (by decide +kernel), hplain, hname.1,
      hname.2⟩

/-- The machine without `EXIT` after the definition. -/
def leavingMachine : Machine where
  memory := (Memory.ofWords leavingWords).withWord "X" 0 [exitToken]
  current := some (codeField (.input .interpret))
  console.source := { taken := ": X ;\n".toList.reverse, lineCount := 1 }

/-- What is shown there of the word is compiled to a cell more. -/
theorem leavingWords_lose : Machine.Loses { memory := .ofWords leavingWords } "X" := by
  have hdefines : Session.interpretText 30 .shared (straightText "X" [] " " false)
      { memory := .ofWords leavingWords } = .ok "" leavingMachine := by decide +kernel
  have hsee : leavingMachine.see "X" = .ok ": X LEAVE ;" := by decide +kernel
  exact .of_again hdefines hsee (by decide +kernel)

theorem losingMachines_lose : losingMachines.Forall fun m => m.Loses "X" :=
  ⟨.of_run (by decide +kernel), .of_run (by decide +kernel), .of_run (by decide +kernel),
    leavingWords_lose⟩

/-- These machines offer all that the definition takes, and do not get the word back. -/
theorem Session.words_get_lost : losingMachines.Forall fun m => m.Offers "X" ∧ m.Loses "X" :=
  List.forall_iff_forall_mem.mpr fun m hm =>
    ⟨List.forall_iff_forall_mem.mp losingMachines_offer m hm,
      List.forall_iff_forall_mem.mp losingMachines_lose m hm⟩

end Booted

end ThreadedForth
