import ThreadedForth.Proofs.Compiler.Definition
import ThreadedForth.Proofs.Memory.Image

/-!
# A booted machine

The memory that the bootstrap leaves, word by word. It has a compiler (`Kernel.booted_hasCompiler`),
so that definitions are compiled there.
-/

namespace ThreadedForth

namespace Kernel

/-- A word of control flow as it lies in memory. -/
def controlWord (w : ControlWord) : WordImage :=
  threadedWord w.name Flags.immediate (Instruction.code w.thread)

/-- The words of the bootstrap, oldest first. -/
def bootWords : List WordImage :=
  threadedWord "LITERAL" Flags.immediate
      [litToken, litToken, token (.memory .comma), token (.memory .comma)]
    :: [ControlWord.recurseWord, .ifWord, .thenWord, .elseWord, .beginWord, .untilWord, .againWord,
      .whileWord, .repeatWord].map controlWord
    ++ [threadedWord "VARIABLE" 0
        [token (.input .word), token (.compiler .create), token (.compiler .compileVariable),
          litToken, .int 0, token (.memory .comma)],
      threadedWord "CONSTANT" 0
        [token (.input .word), token (.compiler .create), token (.compiler .compileEnter),
          litToken, litToken, token (.memory .comma), token (.memory .comma), litToken, exitToken,
          token (.memory .comma)],
      threadedWord "SPACE" 0 [litToken, .int 32, token (.calculation (.output .emit))],
      threadedWord "CR" 0 [litToken, .int 10, token (.calculation (.output .emit))],
      threadedWord "SPACES" 0
        [token (.calculation (.stack .dup)), token (.calculation (.comparison .isPositive)),
          branchFalseToken, .int 5, .token 516, token (.calculation (.arithmetic .decrement)),
          branchToken, .int (-7), token (.calculation (.stack .drop))],
      threadedWord "?" 0 [token (.memory .fetch), token (.calculation (.output .dot))]]

/-- The memory that the bootstrap leaves. -/
def bootedMemory : Memory := .ofWords (words ++ bootWords)

/-- The headers in it, newest first. -/
def bootedHeaders : List Header := Memory.headersFrom 1 [] (words ++ bootWords)

theorem booted_wellFormed : bootedMemory.WellFormed bootedHeaders :=
  Memory.wellFormed_ofWords _ (by simp [bootWords]) (by decide)

/-- The header of a word of control flow. -/
def controlHeader : ControlWord → Int
  | .recurseWord => 377 | .ifWord => 385 | .thenWord => 397 | .elseWord => 408 | .beginWord => 429
  | .untilWord => 435 | .againWord => 446 | .whileWord => 457 | .repeatWord => 469

-- the memory is read cell by cell
set_option maxRecDepth 10000 in
theorem booted_control (w : ControlWord) :
    bootedMemory.NamesImmediate w.name (Instruction.wordCells w.thread) := by
  refine ⟨controlHeader w, ⟨?_, ?_⟩, ?_⟩
  · rw [booted_wellFormed.find_eq]
    cases w <;> decide +kernel
  · cases w <;> decide +kernel
  · cases w <;> decide +kernel

set_option maxRecDepth 10000 in
theorem booted_hasCompiler : bootedMemory.HasCompiler where
  primitives := by decide
  quit := by decide
  colon := ⟨colonHeader, (booted_wellFormed.find_eq _).trans rfl, by decide⟩
  semicolon := ⟨semicolonHeader, ⟨(booted_wellFormed.find_eq _).trans rfl, by decide⟩, rfl⟩
  text := ⟨header (.text .text), ⟨(booted_wellFormed.find_eq _).trans rfl, by decide⟩, rfl⟩
  control := booted_control

/-- The machine after the bootstrap, with five on the data stack. -/
def bootedMachine : Machine := { data := [.int 5], memory := bootedMemory }

end Kernel

open Kernel

theorem booted_intact : ∀ p ∈ order, bootedMemory.Intact p := by decide +kernel

theorem booted_here : bootedMemory.here = 550 := by decide +kernel

/-- The body of a word that counts down to zero, or refuses to. -/
def descentBody : Body :=
  .seq (.call 28) (.seq (.literal (.int 0)) (.seq (.call 124) (.seq
    (.ifElse (.seq (.literal (.text "no")) (.call 304))
      (.whileLoop (.call 28) (.call 120)))
    (.call 24))))

/-- The text that spells it. -/
def descentText : String :=
  " DUP 0 < IF S\" no\" TELL ELSE BEGIN DUP WHILE 1- REPEAT THEN DROP"

-- the memory is read cell by cell
set_option maxRecDepth 10000 in
theorem descent_spelled : Spelled bootedMemory descentBody descentText := by
  have hfind (token : String) := booted_wellFormed.find_eq token
  have hdup : Spelled bootedMemory (.call 28) (" " ++ "DUP") :=
    .word ⟨by decide, by decide⟩ ((hfind "DUP").trans rfl) rfl
  have hzero : Spelled bootedMemory (.literal (.int 0)) (" " ++ "0") :=
    .numeral ⟨by decide, by decide⟩ ((hfind "0").trans rfl) rfl
  have hless : Spelled bootedMemory (.call 124) (" " ++ "<") :=
    .word ⟨by decide, by decide⟩ ((hfind "<").trans rfl) rfl
  have hno : Spelled bootedMemory (.literal (.text "no")) (" S\" " ++ "no" ++ "\"") :=
    .text (by decide) (by decide)
  have htell : Spelled bootedMemory (.call 304) (" " ++ "TELL") :=
    .word ⟨by decide, by decide⟩ ((hfind "TELL").trans rfl) rfl
  have hdecrement : Spelled bootedMemory (.call 120) (" " ++ "1-") :=
    .word ⟨by decide, by decide⟩ ((hfind "1-").trans rfl) rfl
  have hdrop : Spelled bootedMemory (.call 24) (" " ++ "DROP") :=
    .word ⟨by decide, by decide⟩ ((hfind "DROP").trans rfl) rfl
  have hchoice := (hno.seq htell).ifElse (hdup.whileLoop hdecrement)
  exact hdup.seq (hzero.seq (hless.seq (hchoice.seq hdrop)))

/-- Its definition in a booted machine. -/
theorem descent_compiles :
    bootedMemory.WellFormed bootedHeaders ∧ bootedMemory.HasCompiler ∧ Lexeme "descent" ∧
      Spelled bootedMemory descentBody descentText ∧
      ∃ k, ∀ b ≥ k, ∃ m', Session.interpretText b .shared (": " ++ "descent" ++ descentText ++ " ;")
        bootedMachine = .ok "" m' ∧ bootedMachine.Defines "descent" descentBody m' := by
  have hname : Lexeme "descent" := ⟨by decide, by decide⟩
  refine ⟨booted_wellFormed, booted_hasCompiler, hname, descent_spelled, ?_⟩
  exact (Session.definition_compiles booted_wellFormed booted_hasCompiler rfl hname
    descent_spelled).1 rfl .shared

end ThreadedForth
