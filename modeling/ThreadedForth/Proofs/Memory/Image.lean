import Mathlib.Data.List.Find
import ThreadedForth.Memory.Image
import ThreadedForth.Proofs.Memory.Code
import ThreadedForth.Proofs.Memory.Growth

/-!
# Images

What stands in a memory that is given word by word: code, which can be looked up, and a well-formed
dictionary with one header for each word (`Memory.wellFormed_ofWords`).
-/

namespace ThreadedForth.Memory

/-! ## Code can be looked up -/

instance decidableHasCode (m : Memory) :
    (addr : Int) → (xs : List Cell) → Decidable (m.HasCode addr xs)
  | _, [] => isTrue trivial
  | addr, x :: xs =>
    have := decidableHasCode m (addr + 1) xs
    inferInstanceAs (Decidable (m.get (.int addr) = .ok x ∧ m.HasCode (addr + 1) xs))

instance (m : Memory) (p : Primitive) : Decidable (m.Intact p) :=
  inferInstanceAs (Decidable (m.get (.int (Kernel.codeField p)) = .ok (.native (.primitive p))))

/-! ## The dictionary of an image -/

variable {m : Memory} {hs : List Header}

/-- The headers of words that lie one after the other from an address on, newest first, and the
older ones after them. -/
def headersFrom (addr : Nat) (older : List Header) : List WordImage → List Header
  | [] => older
  | w :: ws => headersFrom (addr + w.size) (⟨addr, w.name⟩ :: older) ws

theorem head?_headersFrom (addr : Nat) (older : List Header) (ws : List WordImage) (hne : ws ≠ []) :
    (headersFrom addr older ws).head?.map (fun h => (h.addr : Int)) = lastHeader addr ws := by
  induction ws generalizing addr older with
  | nil => exact absurd rfl hne
  | cons w ws ih =>
    cases ws with
    | nil => rfl
    | cons v vs => exact ih _ _ (by simp)

/-- Words that are laid out behind a memory join its dictionary. -/
theorem WellFormed.layOut (hw : m.WellFormed hs) (ws : List WordImage)
    (hf : ∀ w ∈ ws, w.flags ≤ Flags.named) :
    WellFormed ⟨m.cells ++ (Memory.layOut (linkTo hs) m.here ws).toArray,
      (headersFrom m.here hs ws).head?.map fun h => (h.addr : Int)⟩ (headersFrom m.here hs ws) := by
  induction ws generalizing m hs with
  | nil =>
    have hsame : (⟨m.cells ++ #[], hs.head?.map fun h => (h.addr : Int)⟩ : Memory) = m := by
      rw [Array.append_empty, ← hw.latest]
    rw [Memory.layOut, headersFrom]
    exact hsame ▸ hw
  | cons w ws ih =>
    have hadd := hw.addHeader w.name (hf w (List.mem_cons_self ..)) w.code
    have hrest := ih hadd fun v hv => hf v (List.mem_cons_of_mem _ hv)
    have hhere : (m.appendAll (linkTo hs :: .text w.name :: .flags w.flags :: w.code)).here =
        m.here + w.size := by
      rw [here_appendAll, WordImage.size]
      simp only [List.length_cons]
      omega
    have hcells : m.cells ++ (Memory.layOut (linkTo hs) m.here (w :: ws)).toArray =
        (m.appendAll (linkTo hs :: .text w.name :: .flags w.flags :: w.code)).cells ++
          (Memory.layOut (.int m.here) (m.here + w.size) ws).toArray := by
      simp [Memory.layOut, Memory.appendAll]
    rw [hcells, headersFrom, ← hhere]
    exact hrest

/-- A memory that is given word by word is well-formed. -/
theorem wellFormed_ofWords (ws : List WordImage) (hne : ws ≠ [])
    (hf : ∀ w ∈ ws, w.flags ≤ Flags.named) : (ofWords ws).WellFormed (headersFrom 1 [] ws) := by
  have hlaid := wellFormed_fresh.layOut ws hf
  have hhere : fresh.here = 1 := rfl
  rw [hhere, head?_headersFrom 1 [] ws hne] at hlaid
  have hcells : fresh.cells ++ (Memory.layOut (linkTo []) 1 ws).toArray =
      (.int 0 :: Memory.layOut .absent 1 ws).toArray := by
    simp [fresh, linkTo]
  rwa [hcells] at hlaid

/-! ## One word more -/

/-- The link of a word that lies behind these words. -/
def linkAfter (link : Cell) (addr : Nat) : List WordImage → Cell
  | [] => link
  | w :: ws => linkAfter (.int addr) (addr + w.size) ws

theorem linkTo_headersFrom (addr : Nat) (older : List Header) (ws : List WordImage) :
    linkTo (headersFrom addr older ws) = linkAfter (linkTo older) addr ws := by
  induction ws generalizing addr older with
  | nil => rfl
  | cons w ws ih => exact ih _ _

theorem layOut_concat (link : Cell) (addr : Nat) (ws : List WordImage) (w : WordImage) :
    Memory.layOut link addr (ws ++ [w]) = Memory.layOut link addr ws ++
      (linkAfter link addr ws :: .text w.name :: .flags w.flags :: w.code) := by
  induction ws generalizing link addr with
  | nil => simp [Memory.layOut, linkAfter]
  | cons v ws ih => simp [Memory.layOut, linkAfter, ih]

theorem lastHeader_concat (link : Cell) (addr : Nat) (ws : List WordImage) (w : WordImage) :
    lastHeader addr (ws ++ [w]) = some ((addr + (Memory.layOut link addr ws).length : Nat) : Int) := by
  induction ws generalizing link addr with
  | nil => rfl
  | cons v ws ih =>
    have hskip : lastHeader addr (v :: (ws ++ [w])) = lastHeader (addr + v.size) (ws ++ [w]) := by
      cases ws <;> rfl
    rw [List.cons_append, hskip, ih (.int addr), Memory.layOut, WordImage.size]
    simp only [List.length_append, List.length_cons]
    congr 2
    omega

/-- A word that runs a body may be put behind the words of an image. -/
theorem WellFormed.ofWords_concat {ws : List WordImage} {name : String}
    (hw : (ofWords ws).WellFormed (headersFrom 1 [] ws)) (flags : Nat) (cells : List Cell)
    (hname : Text.upper name = name) :
    ofWords (ws ++ [⟨name, flags, .native .enter :: cells⟩]) =
      (ofWords ws).withWord name flags cells := by
  have hlink : (ofWords ws).link = linkAfter .absent 1 ws :=
    hw.link_eq.trans (linkTo_headersFrom 1 [] ws)
  have hhere : (ofWords ws).here = 1 + (Memory.layOut .absent 1 ws).length := by
    simp [ofWords, here]
    omega
  rw [Memory.withWord, hlink, hhere, hname, ofWords, layOut_concat, lastHeader_concat .absent]
  simp [ofWords, Memory.appendAll]

end ThreadedForth.Memory
