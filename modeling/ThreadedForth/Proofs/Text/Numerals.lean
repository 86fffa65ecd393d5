import Mathlib.Data.List.Basic
import ThreadedForth.Numeral
import ThreadedForth.Proofs.Reading
import ThreadedForth.Text.Case

/-!
# Numerals and names

A numeral is a token without letters, so it is the same in upper case (`upper_of_read?`). What is
written for an integer is read as this integer (`Numeral.read?_write`). Names of printable ASCII
(`Text.Plain`) stay plain in upper case, and stay the same in upper case from then on.
-/

namespace ThreadedForth

variable {token : String} {n : Int} {cs : List Char}

/-! ## Characters of numerals -/

/-- The characters of a numeral have no case. -/
theorem upperChar_of_numeral {c : Char} (h : c.isDigit = true ∨ c = '-' ∨ c = '+') :
    Text.upperChar c = [c] := by
  rcases h with h | rfl | rfl
  · have hdigit : 48 ≤ c.toNat ∧ c.toNat ≤ 57 := by
      simpa [Char.isDigit, UInt32.le_iff_toNat_le] using h
    have hsame : c.toUpper = c := by
      refine dif_neg ?_
      rintro ⟨hlower, -⟩
      have hle : 97 ≤ c.toNat := hlower
      omega
    rw [Text.upperChar, if_pos (by omega), hsame]
  · rfl
  · rfl

theorem chars_of_read? (h : Numeral.read? token = some n) :
    ∀ c ∈ token.toList, c.isDigit = true ∨ c = '-' ∨ c = '+' := by
  have hdigits {ds : List Char} {z : Int} (hread : (if Numeral.isDigits ds then some z else none) =
      some n) : ∀ c ∈ ds, c.isDigit = true := by
    split at hread
    · next hds => exact (Numeral.isDigits_eq_true_iff.mp hds).2
    · cases hread
  rw [Numeral.read?] at h
  generalize token.toList = cs at h
  unfold Numeral.readChars? at h
  intro c hc
  split at h
  · rcases List.mem_cons.mp hc with rfl | hc
    · exact .inr (.inl rfl)
    · exact .inl (hdigits h c hc)
  · rcases List.mem_cons.mp hc with rfl | hc
    · exact .inr (.inr rfl)
    · exact .inl (hdigits h c hc)
  · exact .inl (hdigits h c hc)

/-- A numeral is the same in upper case. -/
theorem upper_of_read? (h : Numeral.read? token = some n) : Text.upper token = token := by
  have hupper : token.toList.flatMap Text.upperChar = token.toList.flatMap fun c => [c] :=
    List.flatMap_congr fun c hc => upperChar_of_numeral (chars_of_read? h c hc)
  rw [Text.upper, hupper, List.flatMap_singleton', String.ofList_toList]

/-! ## Writing and reading -/

namespace Numeral

/-- The value of digits is the one that the library gives them. -/
theorem value_eq_ofDigitChars (digits : List Char) :
    value digits = Nat.ofDigitChars 10 digits 0 := by
  rw [Nat.ofDigitChars_eq_foldl]
  rfl

/-- Digits without a sign are read as their value. -/
theorem readChars?_of_isDigits (h : isDigits cs = true) :
    readChars? cs = some (value cs : Int) := by
  obtain ⟨hne, hall⟩ := isDigits_eq_true_iff.mp h
  unfold readChars?
  split
  · exact absurd (hall '-' (List.mem_cons_self ..)) (by decide)
  · exact absurd (hall '+' (List.mem_cons_self ..)) (by decide)
  · rw [if_pos h]

theorem isDigits_toDigits (k : Nat) : isDigits (Nat.toDigits 10 k) = true :=
  isDigits_eq_true_iff.mpr ⟨Nat.toDigits_ne_nil,
    fun _ hc => Nat.isDigit_of_mem_toDigits (by decide) (by decide) hc⟩

theorem value_toDigits (k : Nat) : value (Nat.toDigits 10 k) = k := by
  rw [value_eq_ofDigitChars, Nat.ofDigitChars_ten_toDigits]

/-- What is written for an integer is read as this integer. -/
theorem read?_write (n : Int) : read? (write n) = some n := by
  cases n with
  | ofNat k =>
    have hchars : (write (.ofNat k)).toList = Nat.toDigits 10 k := Nat.toList_repr
    rw [read?, hchars, readChars?_of_isDigits (isDigits_toDigits k), value_toDigits]
    rfl
  | negSucc k =>
    have hchars : (write (.negSucc k)).toList = '-' :: Nat.toDigits 10 (k + 1) := by
      have hwrite : write (.negSucc k) = "-" ++ (k + 1).repr := rfl
      rw [hwrite, String.toList_append, Nat.toList_repr]
      rfl
    rw [read?, hchars, readChars?.eq_1, if_pos (isDigits_toDigits _), value_toDigits]
    rfl

end Numeral

/-! ## Names of printable ASCII -/

namespace Text

/-- A text that is a name of printable ASCII, without blanks. -/
structure Plain (s : String) : Prop where
  nonempty : s.toList ≠ []
  chars : ∀ c ∈ s.toList, '!' ≤ c ∧ c ≤ '~'

instance (s : String) : Decidable (Plain s) :=
  have := List.decidableBAll (fun c => '!' ≤ c ∧ c ≤ '~') s.toList
  decidable_of_iff (s.toList ≠ [] ∧ ∀ c ∈ s.toList, '!' ≤ c ∧ c ≤ '~')
    ⟨fun ⟨hne, hchars⟩ => ⟨hne, hchars⟩, fun ⟨hne, hchars⟩ => ⟨hne, hchars⟩⟩

variable {s : String} {c : Char}

/-- What holds of the printable characters of ASCII one by one. -/
theorem forall_plain {p : Char → Prop} (h : ∀ k : Fin 127, 33 ≤ k.val → p (Char.ofNat k))
    (hc : '!' ≤ c ∧ c ≤ '~') : p c := by
  have hlow : 33 ≤ c.toNat := hc.1
  have hhigh : c.toNat ≤ 126 := hc.2
  have hp := h ⟨c.toNat, by omega⟩ hlow
  rwa [Char.ofNat_toNat] at hp

/-- A numeral is a name of printable ASCII. -/
theorem plain_of_read? {n : Int} (h : Numeral.read? s = some n) : Plain s where
  nonempty hnil := by
    rw [Numeral.read?, hnil] at h
    cases h
  chars c hc := by
    rcases chars_of_read? h c hc with hdigit | rfl | rfl
    · have hrange : 48 ≤ c.toNat ∧ c.toNat ≤ 57 := by
        simpa [Char.isDigit, UInt32.le_iff_toNat_le] using hdigit
      exact ⟨show 33 ≤ c.toNat by omega, show c.toNat ≤ 126 by omega⟩
    · decide
    · decide

/-- The upper case of a printable character is one such character, which stays as it is. -/
theorem upperChar_of_plain (hc : '!' ≤ c ∧ c ≤ '~') :
    ∃ d, upperChar c = [d] ∧ ('!' ≤ d ∧ d ≤ '~') ∧ upperChar d = [d] ∧
      (d.isDigit = true ∨ d = '-' ∨ d = '+' → c = d) :=
  ⟨c.toUpper, forall_plain (p := fun c => upperChar c = [c.toUpper] ∧
    ('!' ≤ c.toUpper ∧ c.toUpper ≤ '~') ∧ upperChar c.toUpper = [c.toUpper] ∧
    (c.toUpper.isDigit = true ∨ c.toUpper = '-' ∨ c.toUpper = '+' → c = c.toUpper))
    (by decide +kernel) hc⟩

theorem toList_upper (s : String) : (upper s).toList = s.toList.flatMap upperChar :=
  String.toList_ofList

/-- A name of printable ASCII is one in upper case too. -/
theorem Plain.upper (h : Plain s) : Plain (upper s) where
  nonempty := by
    rw [toList_upper]
    obtain ⟨c, hc⟩ := List.exists_mem_of_ne_nil _ h.nonempty
    obtain ⟨d, hd, -⟩ := upperChar_of_plain (h.chars c hc)
    exact List.ne_nil_of_mem (List.mem_flatMap.mpr ⟨c, hc, hd ▸ List.mem_singleton_self d⟩)
  chars d hd := by
    rw [toList_upper] at hd
    obtain ⟨c, hc, hd⟩ := List.mem_flatMap.mp hd
    obtain ⟨e, he, hplain, -⟩ := upperChar_of_plain (h.chars c hc)
    rw [he, List.mem_singleton] at hd
    exact hd ▸ hplain

/-- A text that has upper case character by character has no other upper case after that. -/
theorem upper_upper_of_chars (h : ∀ c ∈ s.toList, ∃ d, upperChar c = [d] ∧ upperChar d = [d]) :
    upper (upper s) = upper s := by
  have hsame : (upper s).toList.flatMap upperChar = (upper s).toList.flatMap fun c => [c] := by
    refine List.flatMap_congr fun d hd => ?_
    rw [toList_upper] at hd
    obtain ⟨c, hc, hd⟩ := List.mem_flatMap.mp hd
    obtain ⟨e, he, hstays⟩ := h c hc
    rw [he, List.mem_singleton] at hd
    rw [hd, hstays]
  rw [upper.eq_1 (upper s), hsame, List.flatMap_singleton', String.ofList_toList]

/-- The upper case of such a name has no other upper case. -/
theorem Plain.upper_upper (h : Plain s) : Text.upper (Text.upper s) = Text.upper s := by
  refine upper_upper_of_chars fun c hc => ?_
  obtain ⟨d, hd, -, hstays, -⟩ := upperChar_of_plain (h.chars c hc)
  exact ⟨d, hd, hstays⟩

/-- A name that is no numeral is none in upper case. -/
theorem Plain.read?_upper (h : Plain s) (hread : Numeral.read? s = none) :
    Numeral.read? (Text.upper s) = none := by
  cases hupper : Numeral.read? (Text.upper s) with
  | none => rfl
  | some n =>
    -- the characters of a numeral come from no other ones
    have hsame : s.toList.flatMap upperChar = s.toList.flatMap fun c => [c] := by
      refine List.flatMap_congr fun c hc => ?_
      obtain ⟨d, hd, -, -, hcase⟩ := upperChar_of_plain (h.chars c hc)
      have hmem : d ∈ (Text.upper s).toList := by
        rw [toList_upper]
        exact List.mem_flatMap.mpr ⟨c, hc, hd ▸ List.mem_singleton_self d⟩
      rw [hd, hcase (chars_of_read? hupper d hmem)]
    rw [Text.upper, hsame, List.flatMap_singleton', String.ofList_toList, hread] at hupper
    cases hupper

end Text

end ThreadedForth
