import Mathlib.Data.List.Induction
import Mathlib.Data.Nat.Digits.Defs
import ThreadedForth.Proofs.Compiler.Straight
import ThreadedForth.Proofs.Session.Strings
import ThreadedForth.Proofs.Text.Numerals

/-!
# Numerals

Which texts are numerals, and what they stand for (`Numeral.Spells`): an optional sign and digits of
ASCII, each of which counts by its place. A numeral that names no word is a literal: it is pushed, or
it is compiled behind `LIT` (`Machine.withLiteral`). So what `.` prints for an integer stands for this
integer when it is read again.

* `Numeral.read?_eq_some_iff` — a text is read as what it spells.
* `Session.interpretText_literal` — what comes of a text that is a numeral.
* `numerals_round_trip` — the grammar, and the way from an integer to a text and back.
-/

namespace ThreadedForth

open ThreadedForth.Action

/-! ## The grammar -/

namespace Numeral

/-- What stands in front of the digits of a numeral. -/
inductive Sign
  | none | plus | minus

/-- The characters of a sign. -/
def Sign.chars : Sign → List Char
  | .none => []
  | .plus => ['+']
  | .minus => ['-']

/-- The integer with this sign and this magnitude. -/
def Sign.apply : Sign → Nat → Int
  | .minus, k => -(k : Int)
  | _, k => k

/-- What digits stand for, each by its place. -/
def decimal (ds : List Char) : Nat :=
  Nat.ofDigits 10 (ds.reverse.map fun d => d.toNat - '0'.toNat)

/-- A text is an optional sign and one or more digits of ASCII, and stands for this integer. -/
def Spells (t : String) (z : Int) : Prop :=
  ∃ (sign : Sign) (ds : List Char), t.toList = sign.chars ++ ds ∧ ds ≠ [] ∧
    (∀ d ∈ ds, '0' ≤ d ∧ d ≤ '9') ∧ z = sign.apply (decimal ds)

variable {cs ds : List Char} {t : String} {z : Int}

theorem value_eq_decimal (ds : List Char) : value ds = decimal ds := by
  induction ds using List.reverseRecOn with
  | nil => rfl
  | append_singleton ds d ih =>
    have hvalue : value (ds ++ [d]) = 10 * value ds + (d.toNat - '0'.toNat) := by
      rw [value, List.foldl_append]
      rfl
    rw [hvalue, ih, decimal, decimal, List.reverse_append, List.reverse_singleton,
      List.singleton_append, List.map_cons, Nat.ofDigits_cons, Nat.add_comm]

theorem isDigits_iff : isDigits ds = true ↔ ds ≠ [] ∧ ∀ d ∈ ds, '0' ≤ d ∧ d ≤ '9' := by
  have hdigit (d : Char) : d.isDigit = true ↔ '0' ≤ d ∧ d ≤ '9' := by
    simp [Char.isDigit, Char.le_def]
  rw [isDigits_eq_true_iff]
  simp only [hdigit]

/-- The characters of a numeral are a sign and digits. -/
theorem readChars?_eq_some_iff :
    readChars? cs = some z ↔
      ∃ (sign : Sign) (ds : List Char), cs = sign.chars ++ ds ∧ isDigits ds = true ∧
        z = sign.apply (value ds) := by
  have hdigits {ds : List Char} {w : Int} :
      (if isDigits ds = true then some w else none) = some z ↔ isDigits ds = true ∧ z = w := by
    by_cases h : isDigits ds = true
    · rw [if_pos h, Option.some.injEq]
      exact ⟨fun heq => ⟨h, heq.symm⟩, fun hz => hz.2.symm⟩
    · rw [if_neg h]
      exact ⟨nofun, fun hz => absurd hz.1 h⟩
  constructor
  · intro hread
    unfold readChars? at hread
    split at hread
    · exact ⟨.minus, _, rfl, hdigits.mp hread⟩
    · exact ⟨.plus, _, rfl, hdigits.mp hread⟩
    · exact ⟨.none, _, rfl, hdigits.mp hread⟩
  · rintro ⟨sign, ds, rfl, hds, rfl⟩
    cases sign with
    | none => exact readChars?_of_isDigits hds
    | plus => exact if_pos hds
    | minus => exact if_pos hds

/-- A text is read as an integer exactly if it spells it. -/
theorem read?_eq_some_iff : read? t = some z ↔ Spells t z := by
  rw [read?, readChars?_eq_some_iff, Spells]
  simp only [isDigits_iff, value_eq_decimal, and_assoc]

/-- Zeros may lead, but neither marks between the digits nor digits of other scripts count. -/
example : read? "-007" = some (-7) ∧ read? "1_000" = none ∧ read? "٣" = none := by decide

end Numeral

/-! ## Numerals as literals -/

section Literals

variable {m m' : Machine} {hs : List Header} {token : String} {gap more : List Char} {n : Int}

/-- A numeral that names no word is a literal. -/
theorem interpretToken_of_numeral (e : Cell → Action Unit)
    (hfind : m.memory.find token = .ok none) (hread : Numeral.read? token = some n) :
    interpretToken e token m = .ok () (m.withLiteral (.int n)) := by
  have hask : ask (fun memory => memory.find token) m = .ok none m := by rw [ask_apply, hfind]
  rw [interpretToken, bind_of_ok hask, hread]
  exact literal_apply _ m

theorem Machine.ReadsOn.withLiteral (h : m.ReadsOn more m') (x : Cell) :
    (m.withLiteral x).ReadsOn more (m'.withLiteral x) :=
  { h with
    data := by rw [Machine.withLiteral, Machine.withLiteral, h.mode, h.data]
    memory := by rw [Machine.withLiteral, Machine.withLiteral, h.mode, h.memory] }

/-- A numeral is taken from the input. -/
theorem interpret_numeral_of_fed (hended : m.console.source.LineEnded)
    (hfed : m.console.source.fed = gap ++ (token.toList ++ ' ' :: more))
    (hgap : ∀ c ∈ gap, Source.isDelimiter c = true)
    (hfind : m.memory.find token = .ok none) (hread : Numeral.read? token = some n)
    (e : Cell → Action Unit) :
    ∃ m', InputWord.interpret.perform e m = .ok () m' ∧
      (m.withLiteral (.int n)).ReadsOn (' ' :: more) m' := by
  obtain ⟨m₁, htake, hm₁⟩ :=
    nextToken_readsOn hended hfed hgap (Lexeme.of_read? hread).isToken (by decide)
  rw [← hm₁.memory] at hfind
  exact ⟨_, (bind_of_ok htake).trans (interpretToken_of_numeral e hfind hread), hm₁.withLiteral _⟩

/-! ## Texts -/

theorem Memory.WellFormed.extends_literalMemory {memory : Memory} (hw : memory.WellFormed hs)
    (x : Cell) (mode : Mode) : (mode.literalMemory x memory).Extends memory := by
  cases mode with
  | immediate => exact hw.extends_self
  | compile =>
    exact ⟨fun _ _ hx => Memory.get_appendAll_of_get memory _ hx, (hw.appendAll _).label_eq_ok⟩

/-- What comes of a text that is a numeral, and names no word. -/
theorem Session.interpretText_literal (hw : m.memory.WellFormed hs)
    (hc : m.memory.HasInterpreter) (hidle : m.console.source.hasPending = false)
    (hfind : m.memory.find token = .ok none) (hread : Numeral.read? token = some n) (sink : Sink) :
    ∃ k, ∀ b ≥ k, ∃ m', interpretText b sink (token ++ " ") m = .ok "" m' ∧
      m.SettlesIn (Scene.withLiteral ⟨m.data, m.memory, m.mode, [' ', '\n'], []⟩ (.int n)) m' := by
  have hblank : ∀ c ∈ [' ', '\n'], Source.isDelimiter c = true :=
    List.forall_mem_cons.mpr ⟨rfl, List.forall_mem_singleton.mpr rfl⟩
  have hlexeme := Lexeme.of_read? hread
  have hline : (token ++ " ").toList ++ ['\n'] = token.toList ++ [' ', '\n'] := by simp
  let taken : Scene := ⟨m.data, m.memory, m.mode, [' ', '\n'], []⟩
  have htake : Turns m.memory nextToken ⟨m.data, m.memory, m.mode, [], [token ++ " "]⟩ token
      taken := turns_nextToken_waiting hlexeme.isToken (delimited_space _) rfl rfl hline
  have hliteral : Turns m.memory (literal (.int n)) taken () (taken.withLiteral (.int n)) :=
    turns_withLiteral _ (hw.extends_literalMemory _ _).trans
  have hreads := (interprets_literal hfind hread hliteral).reads_next hc htake
  refine interpretText_of_reads hw.extends_self hc hidle
    (Text.oneLine_append.mpr ⟨hlexeme.oneLine, by decide⟩) (by simp) hreads hblank rfl sink

end Literals

/-! ## There and back -/

/-- The word `.` takes this integer, and prints this text for it. -/
def PrintedByDot (n : Int) (printed : String) : Prop :=
  ∀ addr invoke execute bound (m : Machine) data, m.data = .int n :: data →
    (Native.primitive (.calculation (.output .dot))).perform addr invoke execute bound m =
      .ok () { m with
        data := data
        console := { m.console with transcript := m.console.transcript.write .program printed } }

theorem printedByDot (n : Int) : PrintedByDot n (Numeral.write n ++ " ") := by
  intro addr invoke execute bound m data hdata
  have hrun : onData (Calculation.output .dot).run m =
      .ok (Numeral.write n ++ " ") { m with data := data } := by
    rw [onData, hdata]
    rfl
  have hne : Numeral.write n ++ " " ≠ "" := by
    intro hempty
    have hlength := congrArg String.length hempty
    rw [String.length_append] at hlength
    exact absurd hlength (Nat.succ_ne_zero _)
  refine (bind_of_ok hrun).trans ?_
  rw [if_pos hne]
  rfl

/-- A text that was printed for an integer stands for this integer where it is read again: it is a
literal when it comes next in the input, and when it is a text of its own. -/
structure Machine.TakesBack (m : Machine) (n : Int) (printed : String) : Prop where
  token : ∀ e, interpretToken e (Numeral.write n) m = .ok () (m.withLiteral (.int n))
  next : ∀ gap more, m.console.source.LineEnded →
    m.console.source.fed = gap ++ (printed.toList ++ more) →
    (∀ c ∈ gap, Source.isDelimiter c = true) → ∀ e, ∃ m',
      InputWord.interpret.perform e m = .ok () m' ∧
      (m.withLiteral (.int n)).ReadsOn (' ' :: more) m'
  text : ∀ hs sink, m.memory.WellFormed hs → m.memory.HasInterpreter →
    m.console.source.hasPending = false → ∃ k, ∀ b ≥ k, ∃ m',
      Session.interpretText b sink printed m = .ok "" m' ∧
      m'.data = (m.withLiteral (.int n)).data ∧ m'.memory = (m.withLiteral (.int n)).memory ∧
      m'.mode = m.mode ∧ m'.console.transcript = m.console.transcript ∧
      m'.console.source.hasPending = false

theorem Machine.takesBack {m : Machine} {n : Int}
    (hfind : m.memory.find (Numeral.write n) = .ok none) :
    m.TakesBack n (Numeral.write n ++ " ") where
  token e := interpretToken_of_numeral e hfind (Numeral.read?_write n)
  next gap more hended hfed hgap e := by
    have hfed : m.console.source.fed = gap ++ ((Numeral.write n).toList ++ ' ' :: more) := by
      rw [hfed, String.toList_append, List.append_assoc]
      rfl
    exact interpret_numeral_of_fed hended hfed hgap hfind (Numeral.read?_write n) e
  text hs sink hw hc hidle := by
    obtain ⟨k, h⟩ :=
      Session.interpretText_literal hw hc hidle hfind (Numeral.read?_write n) sink
    refine ⟨k, fun b hb => ?_⟩
    obtain ⟨m', hrun, hm'⟩ := h b hb
    exact ⟨m', hrun, hm'.data, hm'.memory, hm'.mode, hm'.transcript, hm'.idle⟩

/-- **Numerals are what the grammar says, and what is printed for an integer stands for it.** -/
theorem numerals_round_trip :
    (∀ t z, Numeral.read? t = some z ↔ Numeral.Spells t z) ∧
    ∀ n, Numeral.read? (Numeral.write n) = some n ∧ PrintedByDot n (Numeral.write n ++ " ") ∧
      ∀ m : Machine, m.memory.find (Numeral.write n) = .ok none →
        m.TakesBack n (Numeral.write n ++ " ") :=
  ⟨fun _ _ => Numeral.read?_eq_some_iff,
    fun n => ⟨Numeral.read?_write n, printedByDot n, fun _ hfind => Machine.takesBack hfind⟩⟩

section Booted

open Kernel

/-- Minus forty-two, printed and read again by a booted machine, which compiles it the second time. -/
theorem numerals_round_trip_minus_forty_two :
    Numeral.Spells "-42" (-42) ∧ PrintedByDot (-42) "-42 " ∧
      bootedMachine.TakesBack (-42) "-42 " ∧
      ∃ k, ∀ b ≥ k, ∃ m',
        Session.interpretText b .shared "-42 " { bootedMachine with mode := .compile } =
          .ok "" m' ∧
        m'.data = [.int 5] ∧ m'.memory = bootedMemory.appendAll [litToken, .int (-42)] := by
  have hfind : bootedMemory.find (Numeral.write (-42)) = .ok none :=
    (booted_wellFormed.find_eq _).trans rfl
  obtain ⟨hgrammar, hround⟩ := numerals_round_trip
  obtain ⟨hread, hprinted, htakes⟩ := hround (-42)
  refine ⟨(hgrammar _ _).mp hread, hprinted, htakes bootedMachine hfind, ?_⟩
  obtain ⟨k, h⟩ := (htakes { bootedMachine with mode := .compile } hfind).text bootedHeaders .shared
    booted_wellFormed booted_hasCompiler.interpreter rfl
  refine ⟨k, fun b hb => ?_⟩
  obtain ⟨m', hrun, hdata, hmemory, -⟩ := h b hb
  exact ⟨m', hrun, hdata, hmemory⟩

end Booted

end ThreadedForth
