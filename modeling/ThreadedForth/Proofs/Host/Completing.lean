import ThreadedForth.Host.Completion
import ThreadedForth.Proofs.Memory.Image
import ThreadedForth.Proofs.Memory.Naming
import ThreadedForth.Proofs.Text.Numerals

/-!
# Completions

Which completions are offered for the word before a cursor, and what becomes of the text when one of
them is accepted. Of the editor it is assumed that it keeps to its description
(`Editor.Documented`), and of the dictionary that its names are the upper case of ASCII names.

* `Host.offersCommands` — which commands are offered, and where.
* `Memory.WellFormed.offersNames` — which words of the dictionary are.
* `Machine.completions_usable` — the whole list.
-/

namespace ThreadedForth

/-! ## Names of ASCII -/

namespace Text

/-- All characters of a text are of ASCII. -/
def Ascii (s : String) : Prop := ∀ c ∈ s.toList, c.toNat < 128

instance (s : String) : Decidable (Ascii s) :=
  List.decidableBAll (fun c : Char => c.toNat < 128) s.toList

theorem upperChar_of_ascii {c : Char} (hc : c.toNat < 128) :
    ∃ d, upperChar c = [d] ∧ upperChar d = [d] := by
  have hall : ∀ k : Fin 128, upperChar (Char.ofNat k).toUpper = [(Char.ofNat k).toUpper] := by
    decide +kernel
  have hstays := hall ⟨c.toNat, hc⟩
  rw [Char.ofNat_toNat] at hstays
  exact ⟨c.toUpper, if_pos hc, hstays⟩

/-- The upper case of a name of ASCII has no other upper case. -/
theorem Ascii.upper_upper {s : String} (h : Ascii s) : Text.upper (Text.upper s) = Text.upper s :=
  upper_upper_of_chars fun c hc => upperChar_of_ascii (h c hc)

end Text

/-! ## Editors -/

/-- What editors are documented to tell. -/
structure Editor.Documented (editor : Editor) : Prop where
  before : ∀ text cursor, (editor.before text cursor).toList = text.toList.take cursor
  /-- the word is all that stands behind the last blank before the cursor -/
  word : ∀ text cursor, ∃ front,
    (editor.before text cursor).toList = front ++ (editor.word text cursor).toList ∧
    (∀ c ∈ (editor.word text cursor).toList, Text.isBlank c = false) ∧
    ∀ c ∈ front.getLast?, Text.isBlank c = true

theorem Editor.blanks_documented : Editor.blanks.Documented where
  before _ _ := String.toList_ofList
  word text cursor := by
    generalize hcs : (Editor.blanks.before text cursor).toList.reverse = cs
    have hword : (Editor.blanks.word text cursor).toList =
        (cs.takeWhile (! Text.isBlank ·)).reverse := by
      rw [← hcs]
      exact String.toList_ofList
    refine ⟨(cs.dropWhile (! Text.isBlank ·)).reverse, ?_, fun c hc => ?_, fun c hc => ?_⟩
    · rw [hword, ← List.reverse_append, List.takeWhile_append_dropWhile, ← hcs, List.reverse_reverse]
    · rw [hword, List.mem_reverse] at hc
      simpa using List.mem_takeWhile_imp hc
    · have hfirst := List.head?_dropWhile_not (! Text.isBlank ·) cs
      rw [List.getLast?_reverse] at hc
      rw [hc] at hfirst
      simpa using hfirst

/-! ## Commands -/

section Commands

variable {front word : List Char}

/-- A text begins with the word that ends it, but for blanks, if there are only blanks in front. -/
theorem dropWhile_append_eq_iff (hne : word ≠ []) (hword : ∀ c ∈ word, Text.isBlank c = false) :
    (front ++ word).dropWhile Text.isBlank = word ↔ ∀ c ∈ front, Text.isBlank c = true := by
  constructor
  · intro heq
    have hsplit := List.takeWhile_append_dropWhile (p := Text.isBlank) (l := front ++ word)
    rw [heq] at hsplit
    intro c hc
    rw [← List.append_cancel_right hsplit] at hc
    exact List.mem_takeWhile_imp hc
  · intro hfront
    obtain ⟨c, cs, rfl⟩ := List.exists_cons_of_ne_nil hne
    rw [List.dropWhile_append_of_pos hfront,
      List.dropWhile_cons_of_neg (by simp [hword c (List.mem_cons_self ..)])]

end Commands

namespace Host

/-- The commands are sorted. -/
theorem commands_sorted : commands.Pairwise (· < ·) := by decide

/-- No command is a name in upper case. -/
theorem upper_ne_of_mem_commands : ∀ c ∈ commands, Text.upper c ≠ c := by decide +kernel

theorem completeName_eq (upperWord : List Char) (names : List String) :
    completeName upperWord (names.map .text) =
      .ok (names.filter fun n => upperWord.isPrefixOf (Text.upper n).toList) := by
  induction names with
  | nil => rfl
  | cons n names ih =>
    rw [List.map_cons, completeName, ih, List.filter_cons]
    rfl

/-- The commands that are offered for a word with this text in front of it. -/
structure OffersCommands (front : List Char) (word : String) (offered : List String) : Prop where
  mem : ∀ c, c ∈ offered ↔ c ∈ commands ∧ (Text.lower word).toList <+: c.toList ∧
    word.toList.head? = some '.' ∧ ∀ x ∈ front, Text.isBlank x = true
  sorted : offered.Pairwise (· < ·)

theorem offersCommands {front : List Char} {before word : String}
    (hbefore : before.toList = front ++ word.toList) (hne : word ≠ "")
    (hword : ∀ c ∈ word.toList, Text.isBlank c = false) :
    OffersCommands front word (completeCommand before word) := by
  have hfirst : Text.trimStart before = word ↔ ∀ x ∈ front, Text.isBlank x = true := by
    have hne : word.toList ≠ [] := fun hnil => hne (String.toList_injective hnil)
    rw [← dropWhile_append_eq_iff hne hword, ← hbefore, Text.trimStart, ← String.toList_inj,
      String.toList_ofList]
  by_cases hstands : word.toList.head? = some '.' ∧ ∀ x ∈ front, Text.isBlank x = true
  · have hcan : (word.toList.head? = some '.' && Text.trimStart before = word) = true := by
      simpa [hfirst] using hstands
    rw [completeCommand, if_pos hcan]
    refine ⟨fun c => ?_, commands_sorted.filter _⟩
    rw [List.mem_filter, List.isPrefixOf_iff_prefix, and_iff_left hstands]
  · have hcannot : ¬ (word.toList.head? = some '.' && Text.trimStart before = word) = true := by
      simpa [hfirst] using hstands
    rw [completeCommand, if_neg hcannot]
    exact ⟨fun c => ⟨nofun, fun hc => absurd hc.2.2 hstands⟩, .nil⟩

end Host

/-! ## Names -/

namespace Memory

variable {m : Memory} {hs : List Header}

/-- The names that are offered for a word. -/
structure OffersNames (m : Memory) (word : String) (names : List String) : Prop where
  /-- they are the names of visible headers that begin with the word in upper case -/
  mem : ∀ n, n ∈ names ↔ (∃ a, m.Shows n a) ∧ (Text.upper word).toList <+: n.toList
  once : names.Nodup
  /-- a search finds the newest visible header of each -/
  found : ∀ n ∈ names, ∃ a, m.find n = .ok (some (.int a)) ∧ IsGreatest {a | m.Shows n a} a
  newestFirst : names.Pairwise fun n older => ∀ a b,
    m.find n = .ok (some (.int a)) → m.find older = .ok (some (.int b)) → b < a
  /-- none can be taken for a command -/
  noCommand : ∀ n ∈ names, n ∉ Host.commands

/-- The headers have the names that they get when they are allocated for names of ASCII. -/
def AsciiNames (hs : List Header) : Prop :=
  ∀ h ∈ hs, ∃ name, Text.Ascii name ∧ h.name = Text.upper name

theorem AsciiNames.upper_name {h : Header} (hnames : AsciiNames hs) (hh : h ∈ hs) :
    Text.upper h.name = h.name := by
  obtain ⟨name, hascii, heq⟩ := hnames h hh
  rw [heq, hascii.upper_upper]

/-- A search for the name of a header that no other one shadows finds this header. -/
theorem WellFormed.find_name_of_mem_newest {h : Header} (hw : m.WellFormed hs)
    (hupper : Text.upper h.name = h.name) (hh : h ∈ m.newest hs) :
    m.find h.name = .ok (some h.cell) := by
  rw [hw.find_eq_bears, hupper, mem_newest_iff.mp hh]
  rfl

/-- The headers whose names are offered for a word, newest first. -/
def candidates (m : Memory) (hs : List Header) (word : String) : List Header :=
  (m.newest hs).filter fun h => (Text.upper word).toList.isPrefixOf h.name.toList

theorem WellFormed.completeName_words (hw : m.WellFormed hs) (hnames : AsciiNames hs)
    (word : String) :
    (m.words >>= Host.completeName (Text.upper word).toList) =
      .ok ((m.candidates hs word).map Header.name) := by
  have hsame : ∀ h ∈ m.newest hs, Text.upper h.name = h.name :=
    fun h hh => hnames.upper_name ((newest_sublist m hs).subset hh)
  have hcells : (m.newest hs).map (fun h => Cell.text h.name) =
      ((m.newest hs).map Header.name).map .text := by rw [List.map_map]; rfl
  rw [hw.words_eq, hcells, Outcome.ok_bind, Host.completeName_eq, List.filter_map, candidates]
  congr 2
  exact List.filter_congr fun h hh => by rw [Function.comp_apply, hsame h hh]

theorem WellFormed.offersNames (hw : m.WellFormed hs) (hnames : AsciiNames hs) (word : String) :
    m.OffersNames word ((m.candidates hs word).map Header.name) := by
  have hsub : (m.candidates hs word).Sublist (m.newest hs) := List.filter_sublist
  have hupper : ∀ h ∈ m.candidates hs word, Text.upper h.name = h.name :=
    fun h hh => hnames.upper_name ((newest_sublist m hs).subset (hsub.subset hh))
  have hfind : ∀ h ∈ m.candidates hs word, m.find h.name = .ok (some h.cell) :=
    fun h hh => hw.find_name_of_mem_newest (hupper h hh) (hsub.subset hh)
  refine ⟨fun n => ?_, (newest_names_nodup m hs).sublist (hsub.map _), ?_, ?_, ?_⟩
  · rw [hw.exists_shows_iff, ← name_mem_newest_iff, candidates]
    simp only [List.mem_map, List.mem_filter, List.isPrefixOf_iff_prefix]
    constructor
    · rintro ⟨h, ⟨hh, hbegins⟩, rfl⟩
      exact ⟨⟨h, hh, rfl⟩, hbegins⟩
    · rintro ⟨⟨h, hh, rfl⟩, hbegins⟩
      exact ⟨h, ⟨hh, hbegins⟩, rfl⟩
  · simp only [List.forall_mem_map]
    exact fun h hh => ⟨h.addr, hfind h hh, hw.mem_newest_iff_isGreatest.mp (hsub.subset hh)⟩
  · rw [List.pairwise_map]
    have hdown := hw.decreasing.sublist (hsub.trans (newest_sublist m hs))
    refine hdown.imp_of_mem fun {h g} hh hg hlt a b ha hb => ?_
    rw [hfind h hh] at ha
    rw [hfind g hg] at hb
    obtain rfl : (h.addr : Int) = a := by simpa [Header.cell] using ha
    obtain rfl : (g.addr : Int) = b := by simpa [Header.cell] using hb
    exact_mod_cast hlt
  · simp only [List.forall_mem_map]
    exact fun h hh hmem => Host.upper_ne_of_mem_commands _ hmem (hupper h hh)

end Memory

/-! ## Completions -/

/-- What stands before the cursor when a completion has been accepted. -/
def Completion.accept (c : Completion) (before : List Char) : List Char :=
  before.take (before.length + c.start).toNat ++ c.text.toList

/-- A completion that starts where a word does replaces it. -/
theorem Completion.accept_append {c : Completion} {front word : List Char}
    (hstart : c.start = -word.length) : c.accept (front ++ word) = front ++ c.text.toList := by
  have hlength : ((front ++ word).length + c.start).toNat = front.length := by
    rw [hstart, List.length_append]
    omega
  rw [accept, hlength, List.take_left]

/-- The completions that are of use to a user who has this text in front of a word. -/
structure Machine.Completes (m : Machine) (front : List Char) (word : String)
    (offered names : List String) (completions : List Completion) : Prop where
  offersCommands : Host.OffersCommands front word offered
  offersNames : m.memory.OffersNames word names
  /-- the commands come first -/
  texts : completions.map Completion.text = offered ++ names
  start : ∀ c ∈ completions, c.start = -word.length
  /-- what is accepted takes the place of the word -/
  accept : ∀ c ∈ completions, c.accept (front ++ word.toList) = front ++ c.text.toList

variable {m : Machine} {hs : List Header} {editor : Editor} {text : String} {cursor : Nat}

/-- A word is completed by the commands and the names that it can become, in this order. -/
theorem Machine.completeIn_eq (hw : m.memory.WellFormed hs) (hnames : Memory.AsciiNames hs)
    (hword : editor.word text cursor ≠ "") :
    m.completeIn editor text cursor = .ok
      ((Host.completeCommand (editor.before text cursor) (editor.word text cursor) ++
        (m.memory.candidates hs (editor.word text cursor)).map Header.name).map
        fun t => ⟨t, -((editor.word text cursor).length : Int)⟩) := by
  rw [completeIn, if_neg hword, ← bind_assoc, hw.completeName_words hnames]
  rfl

/-- **The completions of a word are the usable names**: the commands that can stand there and the
names of the dictionary that a search finds, and each takes the place of the word. -/
theorem Machine.completions_usable (hw : m.memory.WellFormed hs)
    (hnames : Memory.AsciiNames hs) (hdoc : editor.Documented)
    (hword : editor.word text cursor ≠ "") :
    ∃ front offered names completions,
      text.toList.take cursor = front ++ (editor.word text cursor).toList ∧
      m.completeIn editor text cursor = .ok completions ∧
      m.Completes front (editor.word text cursor) offered names completions := by
  obtain ⟨front, hbefore, hblank, -⟩ := hdoc.word text cursor
  have hstart (t : String) :
      (Completion.mk t (-((editor.word text cursor).length : Int))).start =
        -(editor.word text cursor).toList.length := by rw [String.length_toList]
  refine ⟨front, _, _, _, hdoc.before text cursor ▸ hbefore, completeIn_eq hw hnames hword,
    { offersCommands := Host.offersCommands hbefore hword hblank
      offersNames := hw.offersNames hnames (editor.word text cursor)
      texts := ?_
      start := ?_
      accept := ?_ }⟩
  · rw [List.map_map]
    exact List.map_id _
  · rw [List.forall_mem_map]
    exact fun t _ => rfl
  · rw [List.forall_mem_map]
    exact fun t _ => Completion.accept_append (hstart t)

/-- One word of two has a newer and hidden namesake. -/
theorem Machine.completions_usable_dup :
    let m : Machine := { memory := .ofWords [⟨"DUP", 0, [.native .enter]⟩, ⟨"SWAP", 0, []⟩,
      ⟨"DUPLICATE", 0, [.native .enter]⟩, ⟨"DUP", 2, []⟩] }
    m.memory.WellFormed [⟨12, "DUP"⟩, ⟨8, "DUPLICATE"⟩, ⟨5, "SWAP"⟩, ⟨1, "DUP"⟩] ∧
      m.complete "1 dup SWAP" 5 = .ok [⟨"DUPLICATE", -3⟩, ⟨"DUP", -3⟩] ∧
      ∃ front offered names completions,
        ['1', ' ', 'd', 'u', 'p'] = front ++ (Editor.blanks.word "1 dup SWAP" 5).toList ∧
        m.completeIn .blanks "1 dup SWAP" 5 = .ok completions ∧
        m.Completes front (Editor.blanks.word "1 dup SWAP" 5) offered names completions := by
  intro m
  have hw : m.memory.WellFormed [⟨12, "DUP"⟩, ⟨8, "DUPLICATE"⟩, ⟨5, "SWAP"⟩, ⟨1, "DUP"⟩] :=
    Memory.wellFormed_ofWords _ (by simp) (by decide)
  have hnames : Memory.AsciiNames [⟨12, "DUP"⟩, ⟨8, "DUPLICATE"⟩, ⟨5, "SWAP"⟩, ⟨1, "DUP"⟩] := by
    intro h hh
    refine ⟨h.name, ?_⟩
    revert h
    simp only [List.forall_mem_cons]
    decide +kernel
  have hword : Editor.blanks.word "1 dup SWAP" 5 ≠ "" := by decide +kernel
  exact ⟨hw, by decide +kernel, Machine.completions_usable hw hnames Editor.blanks_documented hword⟩

end ThreadedForth
