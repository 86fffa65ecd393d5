import Mathlib.Data.List.TakeWhile
import ThreadedForth.Text.Lines

/-!
# Lines and tokens of a text

A text is broken into lines at some characters (`Broken`): each line is free of them, and at least
one of them stands between a line and the next. Both ways in which a text comes apart are of this
kind (`broken_splitLines`, `broken_splitStream`), and they are the same where only line feeds end
lines (`splitLines_eq_splitStream`).

What a reader gets are the lines with a line feed after each (`joined`). The tokens of a text are
what is left between separators (`tokens`). The tokens of the lines are the tokens of the text, with
the characters that break it for separators as well (`Broken.tokens_joined`).
-/

namespace ThreadedForth.Text

variable {p q : Char → Bool} {c : Char} {cs ds l e : List Char} {ls : List (List Char)}

/-! ## Tokens -/

/-- The pieces of a text between separators, without the empty ones. -/
def tokens (p : Char → Bool) (cs : List Char) : List (List Char) :=
  (cs.splitOnP p).filter (· ≠ [])

theorem tokens_append_cons (cs ds : List Char) (hc : p c = true) :
    tokens p (cs ++ c :: ds) = tokens p cs ++ tokens p ds := by
  rw [tokens, List.splitOnP_append_cons _ _ hc, List.filter_append]
  rfl

theorem tokens_of_separators (he : ∀ c ∈ e, p c = true) (ds : List Char) :
    tokens p (e ++ ds) = tokens p ds := by
  induction e with
  | nil => rfl
  | cons c e ih =>
    obtain ⟨hc, he⟩ := List.forall_mem_cons.mp he
    exact (tokens_append_cons [] (e ++ ds) hc).trans (ih he)

/-- Separators come between tokens. -/
theorem tokens_append_append (cs ds : List Char) (hne : e ≠ []) (he : ∀ c ∈ e, p c = true) :
    tokens p (cs ++ (e ++ ds)) = tokens p cs ++ tokens p ds := by
  cases e with
  | nil => exact absurd rfl hne
  | cons c e =>
    obtain ⟨hc, he⟩ := List.forall_mem_cons.mp he
    exact (tokens_append_cons cs (e ++ ds) hc).trans
      (congrArg (tokens p cs ++ ·) (tokens_of_separators he ds))

theorem tokens_of_token (hne : cs ≠ []) (hcs : ∀ c ∈ cs, p c = false) : tokens p cs = [cs] := by
  rw [tokens, List.splitOnP_eq_singleton hcs]
  simp [hne]

theorem tokens_congr (h : ∀ c ∈ cs, p c = q c) : tokens p cs = tokens q cs := by
  have hsplit : cs.splitOnP p = cs.splitOnP q := by
    induction cs with
    | nil => rfl
    | cons c cs ih =>
      obtain ⟨hc, hcs⟩ := List.forall_mem_cons.mp h
      rw [List.splitOnP_cons_eq_if_modifyHead, List.splitOnP_cons_eq_if_modifyHead, hc, ih hcs]
  rw [tokens, tokens, hsplit]

theorem tokens_dropWhile (p : Char → Bool) (cs : List Char) :
    tokens p (cs.dropWhile p) = tokens p cs := by
  have hgap : ∀ c ∈ cs.takeWhile p, p c = true := fun c hc => List.mem_takeWhile_imp hc
  rw [← tokens_of_separators hgap, List.takeWhile_append_dropWhile]

/-- The first token ends at the next separator. -/
theorem tokens_takeWhile (hne : cs.takeWhile (! p ·) ≠ []) :
    tokens p cs = cs.takeWhile (! p ·) :: tokens p (cs.dropWhile (! p ·)) := by
  have htoken : ∀ c ∈ cs.takeWhile (! p ·), p c = false := fun c hc => by
    simpa using List.mem_takeWhile_imp hc
  have hcs : cs.takeWhile (! p ·) ++ cs.dropWhile (! p ·) = cs := List.takeWhile_append_dropWhile
  have hsep := List.head?_dropWhile_not (! p ·) cs
  generalize cs.takeWhile (! p ·) = token at *
  generalize cs.dropWhile (! p ·) = rest at *
  subst hcs
  cases rest with
  | nil =>
    rw [List.append_nil, tokens_of_token hne htoken]
    rfl
  | cons c rest =>
    have hc : p c = true := by simpa using hsep
    have hrest : tokens p (c :: rest) = tokens p rest := tokens_append_cons [] rest hc
    rw [tokens_append_cons _ _ hc, tokens_of_token hne htoken, hrest]
    rfl

/-- Where no token stands behind the separators there is none at all. -/
theorem tokens_of_no_token (h : (cs.dropWhile p).takeWhile (! p ·) = []) : tokens p cs = [] := by
  have hsep := List.head?_dropWhile_not p cs
  rw [← tokens_dropWhile]
  cases hrest : cs.dropWhile p with
  | nil => rfl
  | cons c rest =>
    rw [hrest] at h hsep
    rw [List.takeWhile_cons_of_pos (by simpa using hsep)] at h
    cases h

/-- The tokens hold all characters but the separators. -/
theorem flatten_tokens (p : Char → Bool) (cs : List Char) :
    (tokens p cs).flatten = cs.filter (! p ·) := by
  rw [tokens, List.flatten_filter_ne_nil]
  induction cs with
  | nil => rfl
  | cons c cs ih =>
    rw [List.splitOnP_cons_eq_if_modifyHead]
    cases hc : p c with
    | true => simpa [hc] using ih
    | false =>
      obtain ⟨l, ls, hsplit⟩ := List.exists_cons_of_ne_nil (List.splitOnP_ne_nil p cs)
      rw [hsplit] at ih ⊢
      simpa [hc] using ih

/-! ## Lines -/

/-- A text is broken into lines at some characters. -/
inductive Broken (q : Char → Bool) : List Char → List (List Char) → Prop
  | nil : Broken q [] []
  | last {l : List Char} (hl : ∀ c ∈ l, q c = false) : Broken q l [l]
  | line {l e cs : List Char} {ls : List (List Char)} (hl : ∀ c ∈ l, q c = false) (hne : e ≠ [])
    (he : ∀ c ∈ e, q c = true) (hrest : Broken q cs ls) : Broken q (l ++ (e ++ cs)) (l :: ls)

/-- A character that breaks no line is part of the first one. -/
theorem Broken.cons (hc : q c = false) (h : Broken q cs (l :: ls)) :
    Broken q (c :: cs) ((c :: l) :: ls) := by
  cases h with
  | last hl => exact .last (List.forall_mem_cons.mpr ⟨hc, hl⟩)
  | line hl hne he hrest => exact .line (List.forall_mem_cons.mpr ⟨hc, hl⟩) hne he hrest

theorem Broken.singleton (hc : q c = false) (h : Broken q cs []) : Broken q (c :: cs) [[c]] := by
  cases h
  exact .last (List.forall_mem_singleton.mpr hc)

theorem Broken.empty_line (hne : e ≠ []) (he : ∀ c ∈ e, q c = true) (h : Broken q cs ls) :
    Broken q (e ++ cs) ([] :: ls) := .line (List.forall_mem_nil _) hne he h

theorem broken_splitLines (cs : List Char) :
    Broken CharSet.lineEnds.contains cs (splitLines cs) := by
  induction cs using splitLines.induct with
  | case1 => exact .nil
  | case2 cs ih =>
    exact ih.empty_line (List.cons_ne_nil '\r' ['\n'])
      (List.forall_mem_cons.mpr ⟨rfl, List.forall_mem_singleton.mpr rfl⟩)
  | case3 c cs hreturn hc ih =>
    rw [splitLines.eq_3 _ _ hreturn, if_pos hc]
    exact ih.empty_line (List.cons_ne_nil c []) (List.forall_mem_singleton.mpr hc)
  | case4 c cs hreturn hc hnil ih =>
    rw [splitLines.eq_3 _ _ hreturn, if_neg hc, hnil]
    exact (hnil ▸ ih).singleton (by simpa using hc)
  | case5 c cs hreturn hc l ls hcons ih =>
    rw [splitLines.eq_3 _ _ hreturn, if_neg hc, hcons]
    exact (hcons ▸ ih).cons (by simpa using hc)

theorem broken_splitStream (cs : List Char) : Broken (· = '\n') cs (splitStream cs) := by
  induction cs using splitStream.induct with
  | case1 => exact .nil
  | case2 cs ih =>
    rw [splitStream, if_pos rfl]
    exact ih.empty_line (List.cons_ne_nil '\n' []) (by simp)
  | case3 c cs hc hnil ih =>
    rw [splitStream, if_neg hc, hnil]
    exact (hnil ▸ ih).singleton (decide_eq_false hc)
  | case4 c cs hc l ls hcons ih =>
    rw [splitStream, if_neg hc, hcons]
    exact (hcons ▸ ih).cons (decide_eq_false hc)

/-- The two ways come to the same where only line feeds end lines. -/
theorem splitLines_eq_splitStream (h : ∀ c ∈ cs, CharSet.lineEnds.contains c = true → c = '\n') :
    splitLines cs = splitStream cs := by
  induction cs with
  | nil => rfl
  | cons c cs ih =>
    obtain ⟨hc, hcs⟩ := List.forall_mem_cons.mp h
    have hreturn : ∀ ds, c = '\r' → cs = '\n' :: ds → False := by
      rintro ds rfl -
      exact absurd (hc (by decide)) (by decide)
    rw [splitLines.eq_3 _ _ hreturn, splitStream, ih hcs]
    by_cases hfeed : c = '\n'
    · subst hfeed
      rfl
    · rw [if_neg hfeed, if_neg fun hend => hfeed (hc hend)]

/-! ## What a reader gets -/

/-- The lines, with a line feed after each. -/
def joined (ls : List (List Char)) : List Char := ls.flatMap (· ++ ['\n'])

theorem joined_cons (l : List Char) (ls : List (List Char)) :
    joined (l :: ls) = l ++ '\n' :: joined ls := by
  rw [joined, List.flatMap_cons, List.append_assoc]
  rfl

theorem splitLines_append_line {l : List Char} (hl : ∀ c ∈ l, CharSet.lineEnds.contains c = false)
    (cs : List Char) : splitLines (l ++ '\n' :: cs) = l :: splitLines cs := by
  induction l with
  | nil => rfl
  | cons c l ih =>
    obtain ⟨hc, hl⟩ := List.forall_mem_cons.mp hl
    have hreturn : ∀ ds, c = '\r' → l ++ '\n' :: cs = '\n' :: ds → False := by
      rintro ds rfl -
      exact absurd hc (by decide)
    rw [List.cons_append, splitLines.eq_3 _ _ hreturn, hc, ih hl]
    rfl

/-- Lines that are joined come apart again. -/
theorem splitLines_joined (h : ∀ l ∈ ls, ∀ c ∈ l, CharSet.lineEnds.contains c = false) :
    splitLines (joined ls) = ls := by
  induction ls with
  | nil => rfl
  | cons l ls ih =>
    obtain ⟨hl, hls⟩ := List.forall_mem_cons.mp h
    rw [joined_cons, splitLines_append_line hl, ih hls]

section Reading

variable (hp : p '\n' = true)

include hp

/-- A line feed separates, so tokens end where their line ends. -/
theorem tokens_joined (ls : List (List Char)) :
    tokens p (joined ls) = ls.flatMap (tokens p <| · ++ ['\n']) := by
  induction ls with
  | nil => rfl
  | cons l ls ih =>
    have hline : tokens p (l ++ ['\n']) = tokens p l :=
      (tokens_append_cons l [] hp).trans (List.append_nil _)
    rw [joined_cons, tokens_append_cons _ _ hp, ih, List.flatMap_cons, hline]

/-- **The tokens of the lines** are those of the text, with the characters that break it for
separators. -/
theorem Broken.tokens_joined (h : Broken q cs ls) :
    tokens p (joined ls) = tokens (fun c => p c || q c) cs := by
  have hline {l : List Char} (hl : ∀ c ∈ l, q c = false) :
      tokens p l = tokens (fun c => p c || q c) l :=
    tokens_congr fun c hc => by rw [hl c hc, Bool.or_false]
  induction h with
  | nil => rfl
  | last hl =>
    rw [joined_cons, tokens_append_cons _ _ hp, ← hline hl]
    exact List.append_nil _
  | line hl hne he _ ih =>
    rw [joined_cons, tokens_append_cons _ _ hp, ih, hline hl]
    exact (tokens_append_append _ _ hne fun c hc => by rw [he c hc, Bool.or_true]).symm

/-- The tokens tell which characters break the text. -/
theorem Broken.filter_joined (h : Broken q cs ls) :
    (joined ls).filter (! p ·) = cs.filter fun c => ! (p c || q c) := by
  rw [← flatten_tokens, h.tokens_joined hp, flatten_tokens]

end Reading

end ThreadedForth.Text
