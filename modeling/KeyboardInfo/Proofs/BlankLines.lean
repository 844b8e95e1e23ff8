import KeyboardInfo.Proofs.Sections
import KeyboardInfo.Proofs.Trimming
import Mathlib.Logic.Relation

/-! Blanks in a comment that do not count.

Blanks at the ends of a line do not count, nor do blank lines at the edge of a section: before its
first line, after its last, or before the first marker (`Reformat`). A line at such a place adds
outer blanks to what the section means, which are trimmed off. What stands before the place may be
anything (`Alike.append`), so that comments which are reformatted in any number of places, blanks
added or taken away, are read alike (`ofText_eq_of_reformatted`). -/
namespace KeyboardInfo.Source
open Text

/-! ### Reformatting -/

/-- The lines of a text as they stand. -/
def rawLines (text : String) : List (List Char) := text.toList.splitOn '\n'

/-- Lines with more blanks, at one of the places where they do not count. -/
inductive Reformat : List (List Char) → List (List Char) → Prop where
  | padded (before : List (List Char)) (left line right : List Char) (after : List (List Char))
      (hleft : ∀ c ∈ left, isBlank c) (hright : ∀ c ∈ right, isBlank c) :
    Reformat (before ++ line :: after) (before ++ (left ++ line ++ right) :: after)
  | first {blank : List Char} (lines : List (List Char)) (h : ∀ c ∈ blank, isBlank c) :
    Reformat lines (blank :: lines)
  | afterMarker (before : List (List Char)) {marker blank : List Char} (after : List (List Char))
      (hmarker : Bracketed (trim marker)) (h : ∀ c ∈ blank, isBlank c) :
    Reformat (before ++ marker :: after) (before ++ marker :: blank :: after)
  | beforeMarker (before : List (List Char)) {marker blank : List Char} (after : List (List Char))
      (hmarker : Bracketed (trim marker)) (h : ∀ c ∈ blank, isBlank c) :
    Reformat (before ++ marker :: after) (before ++ blank :: marker :: after)
  | last (lines : List (List Char)) {blank : List Char} (h : ∀ c ∈ blank, isBlank c) :
    Reformat lines (lines ++ [blank])

/-- Texts that are the same but for blanks that do not count, added or taken away. -/
def Reformatted : String → String → Prop :=
  Relation.EqvGen fun text other => Reformat (rawLines text) (rawLines other)

/-! ### Lines that mean the same -/

theorem trim_joined_cons_blank (lines : List (List Char)) :
    trim (joined ([] :: lines)) = trim (joined lines) := by
  cases lines with
  | nil => rfl
  | cons line lines => exact trim_cons_blank rfl _

theorem trim_joined_append_blank (lines : List (List Char)) :
    trim (joined (lines ++ [[]])) = trim (joined lines) := by
  rw [← trim_foldl_joinLine, ← trim_foldl_joinLine, List.foldl_append, List.foldl_cons,
    List.foldl_nil, joinLine, List.append_nil, trim_append_blanks]
  split
  · exact List.forall_mem_cons.mpr ⟨rfl, List.forall_mem_singleton.mpr rfl⟩
  · exact List.forall_mem_singleton.mpr rfl

/-- What a section is called and what it means. -/
def FieldSection.entry (s : FieldSection) : String × String := (s.name, s.meaning)

/-- Lines with sections that are called the same and mean the same. Those before the first
marker go on with a section if there is one before them, and so they mean the same after
anything. -/
structure Alike (lines others : List (List Char)) : Prop where
  preamble : ∀ start,
    trim (joined (start ++ (sections lines).1)) = trim (joined (start ++ (sections others).1))
  entries : (sections lines).2.map FieldSection.entry = (sections others).2.map FieldSection.entry

namespace Alike
variable {lines others : List (List Char)}

theorem cons (h : Alike lines others) (line : List Char) :
    Alike (line :: lines) (line :: others) := by
  cases hm : markedField? line with
  | some field =>
    constructor
    case preamble => simp only [sections, hm, implies_true]
    case entries =>
      have hmeaning : (FieldSection.mk field (sections lines).1).entry =
          (FieldSection.mk field (sections others).1).entry :=
        Prod.ext rfl (congrArg String.ofList (h.preamble []))
      simp only [sections, hm, List.map_cons, h.entries, hmeaning]
  | none =>
    constructor
    case preamble =>
      intro start
      have hstart := h.preamble (start ++ [line])
      simpa only [sections, hm, List.append_assoc, List.singleton_append] using hstart
    case entries => simpa only [sections, hm] using h.entries

/-- What stands before them makes no difference. -/
theorem append (h : Alike lines others) (before : List (List Char)) :
    Alike (before ++ lines) (before ++ others) := by
  induction before with
  | nil => exact h
  | cons line before ih => exact ih.cons line

/-- A blank line after all other lines of a section. -/
theorem blank_cons (h : (sections lines).1 = []) : Alike lines ([] :: lines) := by
  have hblank : sections ([] :: lines) = ([] :: (sections lines).1, (sections lines).2) := rfl
  constructor
  case preamble =>
    intro start
    rw [hblank, h, trim_joined_append_blank, List.append_nil]
  case entries => rw [hblank]

/-- A blank line before all other lines of a section. -/
theorem marker_blank_cons {field : List Char} (hnewline : '\n' ∉ markerOf field)
    (lines : List (List Char)) :
    Alike (markerOf field :: lines) (markerOf field :: [] :: lines) := by
  have hblank : sections ([] :: lines) = ([] :: (sections lines).1, (sections lines).2) := rfl
  have hmeaning : (FieldSection.mk field ([] :: (sections lines).1)).entry =
      (FieldSection.mk field (sections lines).1).entry :=
    Prod.ext rfl (congrArg String.ofList (trim_joined_cons_blank _))
  constructor
  case preamble =>
    intro start
    rw [sections_cons_markerOf hnewline, sections_cons_markerOf hnewline]
  case entries =>
    rw [sections_cons_markerOf hnewline, sections_cons_markerOf hnewline, hblank, List.map_cons,
      List.map_cons, hmeaning]

end Alike

/-! ### Comments that are reformatted -/

theorem trim_blank {blank : List Char} (h : ∀ c ∈ blank, isBlank c) : trim blank = [] :=
  trim_append_blanks [] h

theorem trim_padded {left right : List Char} (line : List Char) (hleft : ∀ c ∈ left, isBlank c)
    (hright : ∀ c ∈ right, isBlank c) : trim (left ++ line ++ right) = trim line := by
  rw [trim_append_blanks _ hright]
  induction left with
  | nil => rfl
  | cons c left ih =>
    obtain ⟨hc, hleft⟩ := List.forall_mem_cons.mp hleft
    rw [List.cons_append, trim_cons_blank hc, ih hleft]

/-- Lines that are reformatted have sections that are called the same and mean the same. -/
theorem Reformat.entries {lines others : List (List Char)} (h : Reformat lines others)
    (hnewline : ∀ line ∈ lines, '\n' ∉ line) :
    (sections (lines.map trim)).2.map FieldSection.entry =
      (sections (others.map trim)).2.map FieldSection.entry := by
  have hmarked {marker : List Char} (hmarker : Bracketed (trim marker)) (hmem : marker ∈ lines) :
      ∃ field, trim marker = markerOf field ∧ '\n' ∉ markerOf field := by
    obtain ⟨field, hfield⟩ := bracketed_iff.mp hmarker
    refine ⟨field, hfield, fun hc => hnewline marker hmem (mem_of_mem_trim ?_)⟩
    rwa [hfield]
  cases h with
  | padded before left line right after hleft hright =>
    simp only [List.map_append, List.map_cons, trim_padded line hleft hright]
  | first lines h =>
    -- Such a line comes before every marker, and what it adds to is in no section.
    rw [List.map_cons, trim_blank h]
    rfl
  | @afterMarker before marker blank after hmarker h =>
    obtain ⟨field, hfield, hplain⟩ := hmarked hmarker (by simp)
    simp only [List.map_append, List.map_cons, trim_blank h, hfield]
    exact ((Alike.marker_blank_cons hplain _).append _).entries
  | @beforeMarker before marker blank after hmarker h =>
    obtain ⟨field, hfield, hplain⟩ := hmarked hmarker (by simp)
    have hfirst := congrArg Prod.fst (sections_cons_markerOf hplain (after.map trim))
    simp only [List.map_append, List.map_cons, trim_blank h, hfield]
    exact ((Alike.blank_cons hfirst).append _).entries
  | last lines h =>
    have hend : Alike [] [[]] := .blank_cons rfl
    have hlast := (hend.append (lines.map trim)).entries
    rwa [List.append_nil, ← trim_blank h, ← List.map_singleton, ← List.map_append] at hlast

/-- Sections that are called the same and mean the same make the same block. -/
theorem foldl_add_congr {parts others : List FieldSection}
    (h : parts.map FieldSection.entry = others.map FieldSection.entry) (b : CommentBlock) :
    parts.foldl (fun b s => b.add s.name s.meaning) b =
      others.foldl (fun b s => b.add s.name s.meaning) b := by
  have hentry (parts : List FieldSection) :
      parts.foldl (fun b s => b.add s.name s.meaning) b =
        (parts.map FieldSection.entry).foldl (fun b entry => b.add entry.1 entry.2) b := by
    rw [List.foldl_map]
    rfl
  rw [hentry, hentry, h]

/-! ### Main theorem -/

/-- **The layout of a comment does not count.** Blanks at the ends of lines, and blank lines at the
start or the end of a comment, before a marker or after one, may be added and taken away, in any
number and at any number of places: the comment makes the same block. -/
theorem ofText_eq_of_reformatted {text other : String} (h : Reformatted text other) :
    CommentBlock.ofText text = .ofText other := by
  induction h with
  | rel text other h =>
    have hentries := h.entries fun _ => not_mem_of_mem_splitOn
    rw [ofText_eq_foldl, ofText_eq_foldl]
    exact foldl_add_congr hentries .empty
  | refl text => rfl
  | symm _ _ _ ih => exact ih.symm
  | trans _ _ _ _ _ ih ih' => exact ih.trans ih'

/-- Blank lines go in at all four places, and the blanks before a line go away. The empty line
inside the note stays, and with it the gap that it makes. -/
theorem ofText_eq_of_reformatted_everywhere :
    let text := "\n".intercalate ["[name]", "Shift", "[note]", "  Press.", "", "Release"]
    let other := "\n".intercalate
      ["\t", "[name]", "\u3000", "Shift", "", "[note]", "Press.", "", "Release", ""]
    Reformatted text other ∧ CommentBlock.ofText text = .ofText other ∧
      (CommentBlock.ofText other).notes = ["Press.   Release"] := by
  intro text other
  have step (x y : List String) (hx : rawLines ("\n".intercalate x) = x.map String.toList)
      (hy : rawLines ("\n".intercalate y) = y.map String.toList)
      (h : Reformat (x.map String.toList) (y.map String.toList)) :
      Reformatted ("\n".intercalate x) ("\n".intercalate y) := by
    rw [← hx, ← hy] at h
    exact .rel _ _ h
  have first := step ["[name]", "Shift", "[note]", "  Press.", "", "Release"]
    ["\t", "[name]", "Shift", "[note]", "  Press.", "", "Release"]
    (by decide +kernel) (by decide +kernel) (.first _ (List.all_eq_true.mp (by decide +kernel)))
  have afterName := step ["\t", "[name]", "Shift", "[note]", "  Press.", "", "Release"]
    ["\t", "[name]", "\u3000", "Shift", "[note]", "  Press.", "", "Release"]
    (by decide +kernel) (by decide +kernel)
    (.afterMarker ["\t".toList] _ (by decide +kernel) (List.all_eq_true.mp (by decide +kernel)))
  have beforeNote := step ["\t", "[name]", "\u3000", "Shift", "[note]", "  Press.", "", "Release"]
    ["\t", "[name]", "\u3000", "Shift", "", "[note]", "  Press.", "", "Release"]
    (by decide +kernel) (by decide +kernel)
    (.beforeMarker (["\t", "[name]", "\u3000", "Shift"].map String.toList) _ (by decide +kernel)
      (List.all_eq_true.mp (by decide +kernel)))
  have unpadded := step ["\t", "[name]", "\u3000", "Shift", "", "[note]", "Press.", "", "Release"]
    ["\t", "[name]", "\u3000", "Shift", "", "[note]", "  Press.", "", "Release"]
    (by decide +kernel) (by decide +kernel)
    (.padded (["\t", "[name]", "\u3000", "Shift", "", "[note]"].map String.toList)
      "  ".toList "Press.".toList [] _ (List.all_eq_true.mp (by decide +kernel)) nofun)
  have last := step ["\t", "[name]", "\u3000", "Shift", "", "[note]", "Press.", "", "Release"]
    ["\t", "[name]", "\u3000", "Shift", "", "[note]", "Press.", "", "Release", ""]
    (by decide +kernel) (by decide +kernel) (.last _ (List.all_eq_true.mp (by decide +kernel)))
  have reformatted : Reformatted text other :=
    first.trans _ _ _ (afterName.trans _ _ _ (beforeNote.trans _ _ _
      ((unpadded.symm _ _).trans _ _ _ last)))
  exact ⟨reformatted, ofText_eq_of_reformatted reformatted, by decide +kernel⟩

/-- Between two lines of a section a blank line counts. -/
example : CommentBlock.ofText "[note]\nPress\n\nRelease" ≠ .ofText "[note]\nPress\nRelease" := by
  decide +kernel

end KeyboardInfo.Source
