import KeyboardInfo.Proofs.Patterns
import KeyboardInfo.Source.Comment
import Mathlib.Data.List.Induction

/-! What a comment with named fields means.

The lines of a comment fall into those before the first marker and the sections that
markers open (`Sectioned`), in exactly one way. The meaning of a section is its lines
joined to one text (`FieldSection.meaning`). A block documents sections when it has
the first name and the first description among them, and lists what all others mean,
field by field (`Documents`). Reading a comment makes the block that documents its
sections, whatever stands before the first marker (`ofText_documents_sections`). -/
namespace KeyboardInfo.Source
open Text

/-! ### Lines and markers -/

/-- The lines of a comment: what stands between its newlines, trimmed. -/
def commentLines (text : String) : List (List Char) := (text.toList.splitOn '\n').map trim

/-- The line that opens a section of a field. -/
def markerOf (field : List Char) : List Char := '[' :: (field ++ [']'])

theorem markerOf_injective {field other : List Char} (h : markerOf field = markerOf other) :
    field = other :=
  List.append_cancel_right (List.cons.inj h).2

/-- A line in square brackets, with anything or nothing between them. -/
def Bracketed (line : List Char) : Prop :=
  2 ≤ line.length ∧ line.head? = some '[' ∧ line.getLast? = some ']'

instance (line : List Char) : Decidable (Bracketed line) := inferInstanceAs (Decidable (_ ∧ _ ∧ _))

theorem bracketed_iff {line : List Char} : Bracketed line ↔ ∃ field, line = markerOf field := by
  constructor
  · rintro ⟨hlength, hfirst, hlast⟩
    obtain ⟨rest, rfl⟩ := List.head?_eq_some_iff.mp hfirst
    have hrest : rest ≠ [] := by
      rintro rfl
      simp at hlength
    rw [List.getLast?_cons_of_ne_nil hrest] at hlast
    obtain ⟨field, rfl⟩ := List.getLast?_eq_some_iff.mp hlast
    exact ⟨field, rfl⟩
  · rintro ⟨field, rfl⟩
    refine ⟨?_, rfl, List.getLast?_concat (l := '[' :: field)⟩
    simp [markerOf]

theorem not_mem_of_mem_splitOn {c : Char} {cs line : List Char} (h : line ∈ cs.splitOn c) :
    c ∉ line := by
  induction cs generalizing line with
  | nil =>
    rw [List.splitOn_nil, List.mem_singleton] at h
    rw [h]
    exact List.not_mem_nil
  | cons d cs ih =>
    rw [List.splitOn_cons_eq_if_modifyHead] at h
    split at h
    · rcases List.mem_cons.mp h with rfl | h
      · exact List.not_mem_nil
      · exact ih h
    · next hd =>
      obtain ⟨first, others, hsplit⟩ := List.exists_cons_of_ne_nil (List.splitOn_ne_nil c cs)
      rw [hsplit] at ih h
      rcases List.mem_cons.mp h with rfl | h
      · refine List.not_mem_cons_of_ne_of_not_mem ?_ (ih (List.mem_cons_self ..))
        rintro rfl
        exact hd (beq_self_eq_true c)
      · exact ih (List.mem_cons_of_mem _ h)

theorem mem_of_mem_trim {c : Char} {cs : List Char} (h : c ∈ trim cs) : c ∈ cs := by
  rw [trim, trimEnd, List.mem_reverse] at h
  have hstart := (List.dropWhile_sublist _).subset h
  rw [List.mem_reverse] at hstart
  exact (List.dropWhile_sublist _).subset hstart

theorem not_mem_commentLines {text : String} {line : List Char} (h : line ∈ commentLines text) :
    '\n' ∉ line := by
  obtain ⟨piece, hpiece, rfl⟩ := List.mem_map.mp h
  exact fun hc => not_mem_of_mem_splitOn hpiece (mem_of_mem_trim hc)

theorem exists_of_fits_marker {texts : List (List Char)} {line : List Char}
    (h : Fits marker.pieces texts line) :
    ∃ field, texts = [['['], field, [']'], []] ∧ line = markerOf field := by
  obtain ⟨_, _, rfl, rfl, hfield⟩ := h.of_literal
  obtain ⟨field, _, _, rfl, rfl, _, _, hlast⟩ := hfield.of_run
  obtain ⟨_, _, rfl, rfl, hstop⟩ := hlast.of_literal
  cases hstop with
  | finish others =>
    cases others
    exact ⟨field, rfl, rfl⟩

/-- A line opens a section of a field just when it is the marker of that field. -/
theorem markedField?_eq_some_iff {line field : List Char} (h : '\n' ∉ line) :
    markedField? line = some field ↔ line = markerOf field := by
  constructor
  · intro hm
    rw [markedField?] at hm
    split at hm
    · next first name last stop hfind =>
      obtain ⟨_, htexts, rfl⟩ := exists_of_fits_marker (fits_of_matchHere hfind)
      cases htexts
      exact congrArg _ (Option.some.inj hm)
    · cases hm
  · rintro rfl
    have kinds : ∀ c ∈ field, CharKind.any.admits c := by
      intro c hc
      have : c ≠ '\n' := by
        rintro rfl
        exact h (by simp [markerOf, hc])
      simpa [CharKind.admits] using this
    have hfits : Fits marker.pieces [['['], field, [']'], []] (markerOf field) :=
      .literal (.run kinds (Nat.zero_le _) (.literal (.finish .nil)))
    obtain ⟨texts, hfind⟩ := Option.isSome_iff_exists.mp hfits.isSome_matchHere
    obtain ⟨name, rfl, hname⟩ := exists_of_fits_marker (fits_of_matchHere hfind)
    obtain rfl := markerOf_injective hname
    have hfind : marker.find? (markerOf field) = some [['['], field, [']'], []] := hfind
    simp only [markedField?, hfind]

theorem markedField?_eq_none_iff {line : List Char} (h : '\n' ∉ line) :
    markedField? line = none ↔ ∀ field, line ≠ markerOf field := by
  simp only [Option.eq_none_iff_forall_ne_some, ne_eq, markedField?_eq_some_iff h]

/-! ### Sections -/

/-- The lines of a section, its marker first. -/
def FieldSection.text (s : FieldSection) : List (List Char) := markerOf s.field :: s.lines

/-- Lines are those of a preamble and of sections, one after the other, and no other line
than the first of each section is a marker. -/
structure Sectioned (lines preamble : List (List Char)) (parts : List FieldSection) : Prop where
  flatten : lines = preamble ++ parts.flatMap FieldSection.text
  preamble : ∀ line ∈ preamble, ∀ field, line ≠ markerOf field
  each : ∀ s ∈ parts, ∀ line ∈ s.lines, ∀ field, line ≠ markerOf field

theorem sections_cons_markerOf {field : List Char} (h : '\n' ∉ markerOf field)
    (rest : List (List Char)) :
    sections (markerOf field :: rest) = ([], ⟨field, (sections rest).1⟩ :: (sections rest).2) := by
  simp only [sections, (markedField?_eq_some_iff h).mpr rfl]

theorem sections_append_plain {start : List (List Char)} (hnewline : ∀ line ∈ start, '\n' ∉ line)
    (plain : ∀ line ∈ start, ∀ field, line ≠ markerOf field) (rest : List (List Char)) :
    sections (start ++ rest) = (start ++ (sections rest).1, (sections rest).2) := by
  induction start with
  | nil => rfl
  | cons line start ih =>
    obtain ⟨hline, hnewline⟩ := List.forall_mem_cons.mp hnewline
    obtain ⟨hplain, plain⟩ := List.forall_mem_cons.mp plain
    simp only [List.cons_append, sections, (markedField?_eq_none_iff hline).mpr hplain,
      ih hnewline plain]

/-- Sections are found as they stand. -/
theorem sections_flatMap_text {parts : List FieldSection}
    (hnewline : ∀ line ∈ parts.flatMap FieldSection.text, '\n' ∉ line)
    (each : ∀ s ∈ parts, ∀ line ∈ s.lines, ∀ field, line ≠ markerOf field) :
    sections (parts.flatMap FieldSection.text) = ([], parts) := by
  induction parts with
  | nil => rfl
  | cons s parts ih =>
    obtain ⟨hs, each⟩ := List.forall_mem_cons.mp each
    rw [List.flatMap_cons, List.forall_mem_append] at hnewline
    obtain ⟨hmarker, hlines⟩ := List.forall_mem_cons.mp hnewline.1
    rw [List.flatMap_cons, FieldSection.text, List.cons_append, sections_cons_markerOf hmarker,
      sections_append_plain hlines hs, ih hnewline.2 each, List.append_nil]

/-- Any lines are sectioned. -/
theorem sectioned_sections {lines : List (List Char)} (hnewline : ∀ line ∈ lines, '\n' ∉ line) :
    Sectioned lines (sections lines).1 (sections lines).2 := by
  induction lines with
  | nil => exact ⟨rfl, nofun, nofun⟩
  | cons line rest ih =>
    obtain ⟨hline, hnewline⟩ := List.forall_mem_cons.mp hnewline
    have hrest := ih hnewline
    cases hm : markedField? line with
    | some field =>
      obtain rfl := (markedField?_eq_some_iff hline).mp hm
      rw [sections_cons_markerOf hline]
      refine ⟨?_, nofun, List.forall_mem_cons.mpr ⟨hrest.preamble, hrest.each⟩⟩
      exact congrArg _ hrest.flatten
    | none =>
      have plain := (markedField?_eq_none_iff hline).mp hm
      simp only [sections, hm]
      refine ⟨?_, List.forall_mem_cons.mpr ⟨plain, hrest.preamble⟩, hrest.each⟩
      exact congrArg _ hrest.flatten

/-- Lines are sectioned in one way only. -/
theorem Sectioned.sections_eq {lines preamble : List (List Char)} {parts : List FieldSection}
    (h : Sectioned lines preamble parts) (hnewline : ∀ line ∈ lines, '\n' ∉ line) :
    sections lines = (preamble, parts) := by
  rw [h.flatten, List.forall_mem_append] at hnewline
  rw [h.flatten, sections_append_plain hnewline.1 h.preamble,
    sections_flatMap_text hnewline.2 h.each, List.append_nil]

/-! ### What a section means -/

/-- What stands between a line and the next: two spaces after a period, else one. -/
def gapAfter (line : List Char) : List Char :=
  if line.getLast? = some '.' then [' ', ' '] else [' ']

/-- Lines with their gaps between them. -/
def joined : List (List Char) → List Char
  | [] => []
  | [line] => line
  | line :: next :: rest => line ++ gapAfter line ++ joined (next :: rest)

/-- The lines of a section as one text. -/
def FieldSection.meaning (s : FieldSection) : String := String.ofList (trim (joined s.lines))

/-- A blank before a line keeps the period of an earlier one from counting. -/
theorem joinLine_append_space (before line next : List Char) :
    joinLine (before ++ ' ' :: line) next = before ++ ' ' :: line ++ gapAfter line ++ next := by
  have hlast : (before ++ ' ' :: line).getLast? = some '.' ↔ line.getLast? = some '.' := by
    cases hline : line.getLast? with
    | none => simp [List.getLast?_eq_none_iff.mp hline]
    | some c => simp [List.getLast?_append, List.getLast?_cons, hline]
  simp only [joinLine, gapAfter, hlast]

theorem foldl_joinLine (before line : List Char) (rest : List (List Char)) :
    rest.foldl joinLine (before ++ ' ' :: line) = before ++ ' ' :: joined (line :: rest) := by
  induction rest generalizing before line with
  | nil => rfl
  | cons next rest ih =>
    -- The gap ends in a space, which stands before the next line.
    obtain ⟨gap, hgap⟩ : ∃ gap, gapAfter line = gap ++ [' '] := by
      rw [gapAfter]
      split
      · exact ⟨[' '], rfl⟩
      · exact ⟨[], rfl⟩
    have hstep : joinLine (before ++ ' ' :: line) next =
        (before ++ ' ' :: line ++ gap) ++ ' ' :: next := by
      rw [joinLine_append_space, hgap]
      simp only [List.append_assoc, List.cons_append, List.nil_append]
    rw [List.foldl_cons, hstep, ih, joined, hgap]
    simp only [List.append_assoc, List.cons_append, List.nil_append]

/-- Read one after the other, lines come to what they are when joined, but for outer blanks. -/
theorem trim_foldl_joinLine (lines : List (List Char)) :
    trim (lines.foldl joinLine []) = trim (joined lines) := by
  cases lines with
  | nil => rfl
  | cons line rest =>
    have hjoin : (line :: rest).foldl joinLine [] = ' ' :: joined (line :: rest) :=
      foldl_joinLine [] line rest
    rw [hjoin]
    rfl

theorem value_eq_meaning (s : FieldSection) : s.value = s.meaning :=
  congrArg String.ofList (trim_foldl_joinLine s.lines)

/-! ### What sections document -/

def FieldSection.name (s : FieldSection) : String := String.ofList s.field

/-- The field under which a block lists what a section means: names and descriptions are
not listed, and notes are listed together however they are marked. -/
def FieldSection.listed? (s : FieldSection) : Option String :=
  if s.name = "name" ∨ s.name = "description" then none
  else if s.name = "note" then some "notes"
  else some s.name

/-- What the sections of a listed field mean, in order. -/
def listedUnder (key : String) (parts : List FieldSection) : List String :=
  (parts.filter fun s => s.listed? = some key).map FieldSection.meaning

/-- A block has what sections say: the first name and description, and all else in lists. -/
structure Documents (parts : List FieldSection) (b : CommentBlock) : Prop where
  name : b.name = (parts.find? fun s => s.name = "name").map FieldSection.meaning
  description : b.description =
    (parts.find? fun s => s.name = "description").map FieldSection.meaning
  fields : ∀ key, b.fields.get? key =
    if listedUnder key parts = [] then none else some (listedUnder key parts)

theorem listedUnder_append (key : String) (parts : List FieldSection) (s : FieldSection) :
    listedUnder key (parts ++ [s]) =
      listedUnder key parts ++ if s.listed? = some key then [s.meaning] else [] := by
  rw [listedUnder, List.filter_append, List.map_append, List.filter_cons, List.filter_nil]
  simp only [decide_eq_true_eq]
  split <;> rfl

theorem FieldSection.name_of_listed?_eq_none {s : FieldSection} (h : s.listed? = none) :
    s.name = "name" ∨ s.name = "description" := by
  rw [listed?] at h
  split at h
  · assumption
  · split at h <;> cases h

theorem FieldSection.name_ne_of_listed?_eq_some {s : FieldSection} {key : String}
    (h : s.listed? = some key) : s.name ≠ "name" ∧ s.name ≠ "description" := by
  rw [listed?] at h
  split at h
  · cases h
  · next hn => exact not_or.mp hn

/-- What is listed goes to the end of its list. -/
theorem add_of_listed {s : FieldSection} {key : String} (h : s.listed? = some key)
    (b : CommentBlock) (value : String) : b.add s.name value = b.append key value := by
  have ⟨hname, hdescription⟩ := s.name_ne_of_listed?_eq_some h
  rw [FieldSection.listed?, if_neg (not_or.mpr ⟨hname, hdescription⟩)] at h
  split at h
  · next hnote =>
    cases h
    rw [hnote]
    rfl
  · next hnote =>
    cases h
    unfold CommentBlock.add
    split <;> first | rfl | contradiction

theorem Documents.empty : Documents [] .empty := ⟨rfl, rfl, fun _ => rfl⟩

theorem Documents.field {parts : List FieldSection} {b : CommentBlock} (h : Documents parts b)
    (key : String) : b.field key = listedUnder key parts := by
  rw [CommentBlock.field, h.fields]
  split
  · next hnil => exact hnil.symm
  · rfl

/-- One more section adds what it means. -/
theorem Documents.add {parts : List FieldSection} {b : CommentBlock} (h : Documents parts b)
    (s : FieldSection) : Documents (parts ++ [s]) (b.add s.name s.meaning) := by
  cases hl : s.listed? with
  | some key =>
    have ⟨hname, hdescription⟩ := s.name_ne_of_listed?_eq_some hl
    rw [add_of_listed hl]
    constructor
    case name =>
      simp [CommentBlock.append, h.name, hname]
    case description =>
      simp [CommentBlock.append, h.description, hdescription]
    case fields =>
      intro k
      rw [CommentBlock.append, Dict.get?_insert, h.field, listedUnder_append, hl, h.fields]
      by_cases hk : k = key
      · subst hk
        simp
      · simp [hk, Ne.symm hk]
  | none =>
    have hfields (k : String) : listedUnder k (parts ++ [s]) = listedUnder k parts := by
      rw [listedUnder_append, hl, if_neg nofun, List.append_nil]
    -- A name or a description counts only if it is the first.
    rcases s.name_of_listed?_eq_none hl with hname | hname
    all_goals
      rw [hname]
      constructor
      case name => simp [CommentBlock.add, hname, h.name]
      case description => simp [CommentBlock.add, hname, h.description]
      case fields =>
        intro k
        rw [hfields]
        exact h.fields k

/-- Sections read one after the other are documented by the block that they make. -/
theorem documents_foldl (parts : List FieldSection) :
    Documents parts (parts.foldl (fun b s => b.add s.name s.meaning) .empty) := by
  induction parts using List.reverseRecOn with
  | nil => exact .empty
  | append_singleton parts s ih =>
    rw [List.foldl_append]
    exact ih.add s

/-- A comment is read section by section. -/
theorem ofText_eq_foldl (text : String) :
    CommentBlock.ofText text =
      (sections (commentLines text)).2.foldl (fun b s => b.add s.name s.meaning) .empty := by
  simp only [← value_eq_meaning]
  rfl

/-- A comment is read as the sections that its lines fall into. -/
theorem documents_ofText (text : String) :
    Documents (sections (commentLines text)).2 (.ofText text) := by
  rw [ofText_eq_foldl]
  exact documents_foldl _

/-! ### Main theorem -/

/-- **Reading a comment makes the block that documents its sections.** The lines of any
text are sectioned in exactly one way, and the block depends on the sections alone: on
neither the lines before the first marker nor on what surrounds the lines. -/
theorem ofText_documents_sections (text : String) :
    ∃ preamble parts, Sectioned (commentLines text) preamble parts ∧
      (∀ start others, Sectioned (commentLines text) start others →
        start = preamble ∧ others = parts) ∧
      Documents parts (.ofText text) ∧
      ∀ other start, Sectioned (commentLines other) start parts →
        CommentBlock.ofText other = .ofText text := by
  have hnewline (text : String) : ∀ line ∈ commentLines text, '\n' ∉ line :=
    fun _ => not_mem_commentLines
  refine ⟨_, _, sectioned_sections (hnewline text), fun start others h => ?_, ?_,
    fun other start h => ?_⟩
  · rw [h.sections_eq (hnewline text)]
    exact ⟨rfl, rfl⟩
  · exact documents_ofText text
  · have hsame : (sections (commentLines other)).2 = (sections (commentLines text)).2 := by
      rw [h.sections_eq (hnewline other)]
    exact congrArg (List.foldl (fun (block : CommentBlock) (s : FieldSection) =>
      block.add (String.ofList s.field) s.value) .empty) hsame

end KeyboardInfo.Source
