import ThreadedForth.Host.Command
import ThreadedForth.Proofs.Memory.Search

/-!
# What the host looks at

The host answers a line from the stacks, the memory, the mode and the remarks of a machine, and from
nothing else: machines that agree in these have the same attendant (`Machine.attendant_congr`).
Among the answers only that to `.bye` closes the input (`Machine.answer_ends`).
-/

namespace ThreadedForth.Machine

variable {m m' : Machine}

theorem part_congr (hmemory : m'.memory = m.memory) : m'.part = m.part := by
  funext x
  cases x with
  | token code => rw [part, part, hmemory]
  | _ => rfl

theorem parts_congr (hmemory : m'.memory = m.memory) (xs : List Cell) : m'.parts xs = m.parts xs := by
  have hpart := part_congr hmemory
  have hwith : m'.partWith = m.partWith := by
    funext x operand
    rw [partWith, partWith, hpart]
  induction xs using parts.induct with
  | case1 => rfl
  | case2 x => rw [parts, parts, hpart]
  | case3 x operand body hx ih => rw [parts, parts, if_pos hx, if_pos hx, hwith, ih]
  | case4 x operand body hx ih => rw [parts, parts, if_neg hx, if_neg hx, hpart, ih]

theorem see_congr (hmemory : m'.memory = m.memory) (hremarks : m'.remarks = m.remarks) :
    m'.see = m.see := by
  funext name
  simp only [see, parts_congr hmemory, hmemory, remarkOn, hremarks]

/-- The answers of the host depend on the stacks, the memory, the mode and the remarks. -/
theorem answer_congr (hdata : m'.data = m.data) (hreturns : m'.returns = m.returns)
    (hmemory : m'.memory = m.memory) (hmode : m'.mode = m.mode) (hremarks : m'.remarks = m.remarks) :
    m'.answer = m.answer := by
  funext line
  simp only [answer, returnsLine, hereLine, namesLine, seeLine, see_congr hmemory hremarks, hdata,
    hreturns, hmemory, hmode]

/-- So does all that the host does while the machine reads. -/
theorem attendant_congr (hdata : m'.data = m.data) (hreturns : m'.returns = m.returns)
    (hmemory : m'.memory = m.memory) (hmode : m'.mode = m.mode) (hremarks : m'.remarks = m.remarks) :
    m'.attendant = m.attendant := by
  simp only [attendant, prompt, answer_congr hdata hreturns hmemory hmode hremarks, hmode]

/-- Some commands have an answer in every state. -/
theorem answer_of_shown (m : Machine) {line command : String} {arguments : List String}
    (hwords : Text.words line = command :: arguments)
    (hcommand : command ∈ [".help", ".stack", ".rstack", ".here"]) :
    ∃ text, m.attendant.answer line = some (.ok text) := by
  have hknown : Host.isCommand line = true := by
    rw [Host.isCommand, hwords]
    revert hcommand
    simp only [List.mem_cons, List.not_mem_nil, or_false]
    rintro (rfl | rfl | rfl | rfl) <;> decide
  simp only [List.mem_cons, List.not_mem_nil, or_false] at hcommand
  simp only [attendant, hknown, if_true, answer, hwords]
  rcases hcommand with rfl | rfl | rfl | rfl
  · exact ⟨Host.help, rfl⟩
  · exact ⟨stackLine m.data, rfl⟩
  · exact ⟨m.returnsLine, rfl⟩
  · exact ⟨m.hereLine, rfl⟩

/-! ## Closing the input -/

section Closing

open ThreadedForth.Outcome ThreadedForth.Memory

theorem inside_mapM {α β : Type} {f : α → Except Stop β} (hf : ∀ x, Inside (f x)) (xs : List α) :
    Inside (xs.mapM f) := by
  induction xs with
  | nil => exact inside_ok _
  | cons x xs ih =>
    rw [List.mapM_cons]
    exact (hf x).bind fun _ => ih.bind fun _ => inside_ok _

theorem inside_part (x : Cell) : Inside (m.part x) := by
  cases x with
  | token code => exact inside_label code
  | _ => exact inside_ok _

theorem inside_partWith (x operand : Cell) : Inside (m.partWith x operand) := by
  rw [partWith]
  by_cases hx : x = Kernel.litToken
  · rw [if_pos hx]
    exact inside_ok _
  · rw [if_neg hx]
    exact (inside_part x).bind fun _ => inside_ok _

theorem inside_parts (xs : List Cell) : Inside (m.parts xs) := by
  induction xs using parts.induct with
  | case1 => exact inside_ok _
  | case2 x => exact (inside_part x).bind fun _ => inside_ok _
  | case3 x operand body hx ih =>
    rw [parts, if_pos hx]
    exact (inside_partWith x operand).bind fun _ => ih.bind fun _ => inside_ok _
  | case4 x operand body hx ih =>
    rw [parts, if_neg hx]
    exact (inside_part x).bind fun _ => ih.bind fun _ => inside_ok _

theorem inside_joinTexts (xs : List Cell) : Inside (joinTexts xs) := by
  refine (inside_mapM (fun x => ?_) xs).bind fun _ => inside_ok _
  cases x with
  | text s => exact inside_ok _
  | _ => exact inside_error (by simp)

theorem inside_endOf (memory : Memory) (h : Cell) : Inside (memory.endOf h) := by
  refine (inside_plus h 0).bind fun n =>
    (inside_mapM (fun k => inside_plus k 0) _).bind fun addresses =>
      (inside_reach _).bind fun _ => ?_
  cases (addresses.filter (n < ·)).min? with
  | none => exact inside_ok _
  | some next => exact inside_ok _

theorem inside_see (name : String) : Inside (m.see name) := by
  refine (inside_find name).bind fun found => ?_
  cases found with
  | none => exact inside_error (by simp)
  | some h =>
    refine (inside_plus h 0).bind fun header => (inside_liftM _).bind fun behaviour =>
      (inside_isImmediate h).bind fun _ => (inside_nameOf h).bind fun _ => ?_
    cases behaviour with
    | native n =>
      cases n with
      | enter =>
        exact (inside_endOf _ h).bind fun _ => (inside_parts _).bind fun _ =>
          (inside_joinTexts _).bind fun _ => inside_ok _
      | «variable» => exact (inside_liftM _).bind fun _ => inside_ok _
      | primitive p => exact inside_ok _
    | _ => exact inside_ok _

theorem inside_seeLine (name : String) : Inside (m.seeLine name) := by
  have hsee := inside_see (m := m) name
  rw [seeLine]
  cases h : m.see name with
  | ok text => exact inside_ok _
  | error stop =>
    rw [h] at hsee
    cases stop with
    | endOfInput => exact absurd rfl hsee
    | fault f => cases f <;> first | exact inside_ok _ | exact inside_error (by simp)
    | _ => exact inside_error (by simp)

theorem inside_visibleNames (memory : Memory) (hs : List Cell) :
    Inside (memory.visibleNames hs) := by
  induction hs with
  | nil => exact inside_ok _
  | cons h hs ih =>
    exact (inside_nameOf h).bind fun _ => (inside_isHidden h).bind fun _ =>
      ih.bind fun _ => inside_ok _

theorem inside_filterNames (filter : String) (names : List Cell) :
    Inside (Host.filterNames filter names) := by
  induction names with
  | nil => exact inside_ok _
  | cons name names ih =>
    refine Inside.bind ?_ fun _ => ih.bind fun _ => inside_ok _
    cases name with
    | text s => exact inside_ok _
    | _ => exact inside_error (by simp)

theorem inside_sortedLine (names : List Cell) : Inside (Host.sortedLine names) := by
  refine (inside_mapM (fun x => ?_) names).bind fun _ => inside_ok _
  cases x with
  | text s => exact inside_ok _
  | _ => exact inside_error (by simp)

theorem inside_namesLine (filter : Option String) : Inside (m.namesLine filter) := by
  have hwords : Inside m.memory.words :=
    (inside_visibleNames _ _).bind fun _ => (inside_reach _).bind fun _ => inside_ok _
  refine hwords.bind fun names => ?_
  cases filter with
  | none => exact inside_sortedLine names
  | some text => exact (inside_filterNames text names).bind fun _ => inside_sortedLine _

/-- Only the answer to `.bye` closes the input. -/
theorem answer_ends {line : String} (h : m.answer line = .error .endOfInput) :
    (Text.words line).head? = some ".bye" := by
  rw [answer] at h
  cases hwords : Text.words line with
  | nil => simp [hwords] at h
  | cons command arguments =>
    simp only [hwords] at h
    split_ifs at h with h₁ h₂ h₃ h₄ h₅ h₆ h₇
    · exact absurd h (inside_namesLine _)
    · cases arguments with
      | nil => cases h
      | cons name _ => exact absurd h (inside_seeLine name)
    · rw [h₇]
      rfl

/-- It does so in every state. -/
theorem answer_of_bye (m : Machine) {line : String}
    (h : (Text.words line).head? = some ".bye") : m.answer line = .error .endOfInput := by
  rw [answer]
  cases hwords : Text.words line with
  | nil => simp [hwords] at h
  | cons command arguments =>
    rw [hwords] at h
    obtain rfl := Option.some.inj h
    rfl

end Closing

end ThreadedForth.Machine
