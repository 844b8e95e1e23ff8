import KeyboardInfo.Proofs.BlankLines
import KeyboardInfo.Proofs.Declarations
import Mathlib.Data.List.Forall2

/-! Documentation that is written down is read back.

A documented function is written as a comment that has its sections, one after the other, and
a line that declares it (`Documentation.written`). The lines of a section are arbitrary but for
one thing: none of them may look like a marker (`Documentation.WellFormed`). They may open or
close comments or declare functions for all that a scan sees of them, since inside the comment
each of them stands after a star. So the comment is one segment, and its text has the lines of
the sections, trimmed, and at its end an empty one. That one adds nothing to the last section,
and reading the comment finds the sections that were written (`reads_back_documentation`). -/
namespace KeyboardInfo.Source
open Files Text

/-! ### Written documentation -/

/-- A function and the sections that are to document it. -/
structure Documentation where
  name : String
  parts : List FieldSection
  deriving DecidableEq, Repr

/-- What stands before each line inside a comment. -/
def decoration : List Char := " * ".toList

/-- The lines of a section as they are written in a comment. -/
def FieldSection.written (s : FieldSection) : List (List Char) :=
  s.text.map (decoration ++ ·)

/-- The line that declares a function. -/
def declarationLine (name : String) : List Char := "void ".toList ++ name.toList ++ "(void)".toList

namespace Documentation

/-- The lines of a documented function: its comment, and its declaration. -/
def written (d : Documentation) : List (List Char) :=
  "/*".toList :: (d.parts.flatMap FieldSection.written ++
    [" */".toList, declarationLine d.name])

/-- Names are those of keyboard functions, texts are single lines, and no line is a marker. -/
structure WellFormed (d : Documentation) : Prop where
  name : ∃ suffix, d.name = "kbfun_" ++ String.ofList suffix ∧ suffix ≠ [] ∧
    ∀ c ∈ suffix, NameChar c
  fields : ∀ s ∈ d.parts, '\n' ∉ s.field
  lines : ∀ s ∈ d.parts, ∀ line ∈ s.lines, '\n' ∉ line
  plain : ∀ s ∈ d.parts, ∀ line ∈ s.lines, ∀ field, trim line ≠ markerOf field

/-- What follows the mark of a keyboard function in a name. -/
def suffix (d : Documentation) : List Char := d.name.toList.drop "kbfun_".length

/-- Whether documentation is well-formed can be found out line by line. -/
theorem wellFormed_iff (d : Documentation) :
    d.WellFormed ↔
      (d.name = "kbfun_" ++ String.ofList d.suffix ∧ d.suffix ≠ [] ∧
        d.suffix.all fun c => NameChar c) ∧
      (∀ s ∈ d.parts, '\n' ∉ s.field) ∧
      ∀ s ∈ d.parts, ∀ line ∈ s.lines, '\n' ∉ line ∧ markedField? (trim line) = none := by
  have hmarked {line : List Char} (hline : '\n' ∉ line) :
      markedField? (trim line) = none ↔ ∀ field, trim line ≠ markerOf field :=
    markedField?_eq_none_iff fun hmem => hline (mem_of_mem_trim hmem)
  constructor
  · rintro ⟨⟨suffix, hname, hne, hsuffix⟩, hfields, hlines, plain⟩
    have hdrop : d.suffix = suffix := by
      rw [Documentation.suffix, hname, String.toList_append, String.toList_ofList (l := suffix)]
      rfl
    rw [hdrop]
    refine ⟨⟨hname, hne, by simpa using hsuffix⟩, hfields, fun s hs line hline => ?_⟩
    exact ⟨hlines s hs line hline, (hmarked (hlines s hs line hline)).mpr (plain s hs line hline)⟩
  · rintro ⟨⟨hname, hne, hsuffix⟩, hfields, hlines⟩
    exact ⟨⟨_, hname, hne, by simpa using hsuffix⟩, hfields,
      fun s hs line hline => (hlines s hs line hline).1,
      fun s hs line hline => (hmarked (hlines s hs line hline).1).mp (hlines s hs line hline).2⟩

instance (d : Documentation) : Decidable d.WellFormed := decidable_of_iff _ d.wellFormed_iff.symm

end Documentation

/-- The text of a source that documents functions, one after the other. -/
def sourceText (docs : List Documentation) : String :=
  endedText (docs.flatMap Documentation.written)

/-- A section without the blanks around its lines. -/
def FieldSection.trimmed (s : FieldSection) : FieldSection := {s with lines := s.lines.map trim}

/-! ### Lines inside a comment -/

theorem withoutReturn_decorated (line : List Char) :
    withoutReturn (decoration ++ line) = decoration ++ withoutReturn line := by
  rcases List.eq_nil_or_concat line with rfl | ⟨start, c, rfl⟩
  · rfl
  · rw [List.concat_eq_append, ← List.append_assoc]
    by_cases hc : c = '\r'
    · rw [hc, withoutReturn_concat_return, withoutReturn_concat_return]
    · rw [withoutReturn_concat hc, withoutReturn_concat hc, List.append_assoc]

/-- A star before a blank closes no comment. -/
theorem closesComment_decorated (line : List Char) :
    closesComment (decoration ++ line) = false := by
  have hprefix : trim (decoration ++ line) <+: '*' :: ' ' :: line := trim_prefix _
  rw [closesComment, beq_eq_false_iff_ne]
  intro hcloser
  rw [hcloser] at hprefix
  simp [List.cons_prefix_cons] at hprefix

/-- Of a line inside a comment its own text is left, trimmed. -/
theorem bodyLine_decorated (line : List Char) : bodyLine (decoration ++ line) = trim line :=
  trim_cons_blank rfl line

theorem trim_markerOf (field : List Char) : trim (markerOf field) = markerOf field :=
  trim_of_ends rfl rfl field

theorem FieldSection.text_trimmed (s : FieldSection) : s.trimmed.text = s.text.map trim := by
  rw [text, text, List.map_cons, trim_markerOf]
  rfl

theorem flatMap_text_trimmed (parts : List FieldSection) :
    (parts.map FieldSection.trimmed).flatMap FieldSection.text =
      (parts.flatMap FieldSection.text).map trim := by
  rw [List.flatMap_map, List.map_flatMap]
  exact congrArg (List.flatMap · parts) (funext FieldSection.text_trimmed)

/-! ### Declarations -/

/-- Nothing comes after the parameter list of a declaration that is written down, so its name is
found as it is. -/
theorem declaredName?_declarationLine {suffix : List Char} (hne : suffix ≠ [])
    (h : ∀ c ∈ suffix, NameChar c) :
    declaredName? (declarationLine ("kbfun_" ++ String.ofList suffix)) =
      some ("kbfun_".toList ++ suffix) := by
  let d : Declaration := ⟨[' '], suffix, [], []⟩
  have hblanks : [' '].all isBlank ∧ '\n' ∉ [' '] := by decide
  have hd : d.WellFormed :=
    ⟨⟨List.cons_ne_nil ' ' [], List.all_eq_true.mp hblanks.1⟩, ⟨hne, h⟩, nofun, hblanks.2,
      List.not_mem_nil, List.not_mem_nil⟩
  have hline : declarationLine ("kbfun_" ++ String.ofList suffix) = d.line := by
    have hname : ("kbfun_" ++ String.ofList suffix).toList = "kbfun_".toList ++ suffix :=
      String.toList_append.trans (congrArg _ String.toList_ofList)
    calc declarationLine ("kbfun_" ++ String.ofList suffix)
      _ = "void ".toList ++ d.name ++ "(void)".toList :=
        congrArg (fun name => "void ".toList ++ name ++ "(void)".toList) hname
      _ = d.line := rfl
  obtain ⟨recorded, hname, hrecorded⟩ := d.exists_declaredName hd
  have halone : ∀ run, ¬ ListsAfter run d.after := by
    intro run hrun
    obtain ⟨rest, hrest, hlist⟩ := hrun.listed
    rw [(List.append_eq_nil_iff.mp hrest.symm).2] at hlist
    exact absurd (List.prefix_nil.mp hlist) (by decide)
  rw [hline, hname, hrecorded.eq_name_iff.mpr (.inr halone)]
  rfl

/-- A declaration begins no comment. -/
theorem opensComment_declarationLine (name : String) :
    opensComment (declarationLine name) = false := by
  have hprefix : trim (declarationLine name) <+:
      'v' :: ("oid ".toList ++ name.toList ++ "(void)".toList) := trim_prefix _
  rw [opensComment, beq_eq_false_iff_ne]
  intro hopener
  rw [hopener] at hprefix
  simp [List.cons_prefix_cons] at hprefix

theorem newline_not_mem_declarationLine {name : String} (h : '\n' ∉ name.toList) :
    '\n' ∉ declarationLine name := by
  unfold declarationLine
  simp only [List.mem_append, not_or]
  exact ⟨⟨by decide, h⟩, by decide⟩

theorem withoutReturn_declarationLine (name : String) :
    withoutReturn (declarationLine name) = declarationLine name := by
  have hlast :
      declarationLine name = ("void ".toList ++ name.toList ++ "(void".toList) ++ [')'] := by
    rw [List.append_assoc _ "(void".toList]
    rfl
  rw [hlast, withoutReturn_concat (by decide)]

/-! ### Segments -/

namespace Documentation
variable {d : Documentation}

/-- The lines inside the comment of a function, as they are read. -/
def inner (d : Documentation) : List String :=
  (d.parts.flatMap FieldSection.written).map fun line => String.ofList (withoutReturn line)

/-- The comment of a function and its declaration. -/
def segments (d : Documentation) : List Segment :=
  [.comment "/*" d.inner " */", .code (String.ofList (declarationLine d.name))]

theorem map_written (d : Documentation) :
    d.written.map (fun line => String.ofList (withoutReturn line)) =
      d.segments.flatMap Segment.lines := by
  rw [written, List.map_cons, List.map_append, List.map_cons, List.map_singleton,
    withoutReturn_declarationLine]
  show "/*" :: (d.inner ++ [" */", _]) = _
  simp [segments, Segment.lines]

theorem newline_not_mem_text (h : d.WellFormed) :
    ∀ line ∈ d.parts.flatMap FieldSection.text, '\n' ∉ line := by
  intro line hline
  obtain ⟨s, hs, hline⟩ := List.mem_flatMap.mp hline
  rcases List.mem_cons.mp hline with rfl | hline
  · simp [markerOf, h.fields s hs]
  · exact h.lines s hs line hline

theorem newline_not_mem_name (h : d.WellFormed) : '\n' ∉ d.name.toList := by
  obtain ⟨suffix, hname, -, hsuffix⟩ := h.name
  rw [hname, String.toList_append, String.toList_ofList (l := suffix), List.mem_append, not_or]
  exact ⟨by decide, newline_not_mem_of_nameChars hsuffix⟩

theorem flatMap_written (d : Documentation) :
    d.parts.flatMap FieldSection.written =
      (d.parts.flatMap FieldSection.text).map (decoration ++ ·) := by
  rw [List.map_flatMap]
  rfl

theorem newline_not_mem_written (h : d.WellFormed) : ∀ line ∈ d.written, '\n' ∉ line := by
  rw [written, flatMap_written]
  simp only [List.forall_mem_cons, List.forall_mem_append, List.not_mem_nil, false_implies,
    implies_true, and_true]
  refine ⟨by decide, ?_, by decide, ?_⟩
  · intro line hline
    obtain ⟨text, htext, rfl⟩ := List.mem_map.mp hline
    rw [List.mem_append, not_or]
    exact ⟨by decide, newline_not_mem_text h text htext⟩
  · exact newline_not_mem_declarationLine (newline_not_mem_name h)

/-- The comment runs to the closer that was written for it. -/
theorem wellFormed_segments (d : Documentation) : ∀ s ∈ d.segments, s.WellFormed := by
  simp only [segments, List.forall_mem_cons, List.not_mem_nil, false_implies, implies_true,
    and_true]
  refine ⟨.comment (by decide) ?_ (by decide), .code ?_⟩
  · intro line hline
    rw [inner, flatMap_written, List.map_map] at hline
    obtain ⟨text, -, rfl⟩ := List.mem_map.mp hline
    rw [Function.comp_apply, String.toList_ofList, withoutReturn_decorated]
    exact closesComment_decorated _
  · rw [String.toList_ofList]
    exact opensComment_declarationLine d.name

/-- The text of the comment of a function: the lines of its sections, trimmed. -/
def body (d : Documentation) : String :=
  endedText ((d.parts.map FieldSection.trimmed).flatMap FieldSection.text)

theorem body?_comment (d : Documentation) :
    (Segment.comment "/*" d.inner " */").body? = some d.body := by
  have hline (line : List Char) :
      bodyLine (String.ofList (withoutReturn (decoration ++ line))).toList = trim line := by
    rw [String.toList_ofList, withoutReturn_decorated, bodyLine_decorated, trim_withoutReturn]
  rw [Segment.body?, body, endedText, flatMap_text_trimmed, inner, flatMap_written,
    List.flatMap_map, List.flatMap_map, List.flatMap_map]
  simp only [hline]

theorem declared?_code (h : d.WellFormed) :
    (Segment.code (String.ofList (declarationLine d.name))).declared? = some d.name := by
  obtain ⟨suffix, hname, hne, hsuffix⟩ := h.name
  rw [Segment.declared?, String.toList_ofList, hname, declaredName?_declarationLine hne hsuffix,
    Option.map_some, String.ofList_append, String.ofList_toList]

/-- A function takes the comment that was written for it. -/
theorem bindings_segments (h : d.WellFormed) (comment : String) (later : List Segment) :
    bindings comment (d.segments ++ later) = ⟨d.name, .ofText d.body⟩ :: bindings "" later := by
  have hpending : (Segment.comment "/*" d.inner " */").pending comment = d.body := by
    rw [Segment.pending, body?_comment]
    rfl
  rw [segments, List.cons_append, List.singleton_append, bindings, bindings, hpending,
    Segment.binding, Segment.binding, Segment.pending, declared?_code h]
  rfl

end Documentation

/-! ### Reading the comment -/

/-- Lines that are ended by newlines are those of a comment, and an empty one after them. -/
theorem commentLines_endedText {lines : List (List Char)} (h : ∀ line ∈ lines, '\n' ∉ line) :
    commentLines (endedText lines) = lines.map trim ++ [[]] := by
  have hsplit : (lines.flatMap fun line => line ++ ['\n']).splitOn '\n' = lines ++ [[]] := by
    induction lines with
    | nil => rfl
    | cons line lines ih =>
      obtain ⟨hline, h⟩ := List.forall_mem_cons.mp h
      rw [List.flatMap_cons, List.append_assoc, List.singleton_append,
        List.splitOn_append_cons_self_of_not_mem hline, ih h, List.cons_append]
  rw [commentLines, endedText, String.toList_ofList, hsplit, List.map_append]
  rfl

/-- The comment of a function documents the sections that were written, trimmed. -/
theorem Documentation.documents_body {d : Documentation} (h : d.WellFormed) :
    Documents (d.parts.map FieldSection.trimmed) (.ofText d.body) := by
  have hnewline : ∀ line ∈ (d.parts.map FieldSection.trimmed).flatMap FieldSection.text,
      '\n' ∉ line := by
    rw [flatMap_text_trimmed]
    intro line hline
    obtain ⟨text, htext, rfl⟩ := List.mem_map.mp hline
    exact fun hmem => newline_not_mem_text h text htext (mem_of_mem_trim hmem)
  have plain : ∀ s ∈ d.parts.map FieldSection.trimmed, ∀ line ∈ s.lines, ∀ field,
      line ≠ markerOf field := by
    intro s hs line hline
    obtain ⟨part, hpart, rfl⟩ := List.mem_map.mp hs
    obtain ⟨text, htext, rfl⟩ := List.mem_map.mp hline
    exact h.plain part hpart text htext
  have hlines : commentLines d.body =
      (d.parts.map FieldSection.trimmed).flatMap FieldSection.text ++ [[]] := by
    rw [body, commentLines_endedText hnewline, flatMap_text_trimmed, List.map_map]
    congr 2
    exact funext trim_trim
  -- The empty line goes to the last section, where it adds nothing.
  have hend : Alike [] [[]] := .blank_cons rfl
  have hentries := (hend.append
    ((d.parts.map FieldSection.trimmed).flatMap FieldSection.text)).entries
  rw [List.append_nil, sections_flatMap_text hnewline plain, ← hlines] at hentries
  rw [ofText_eq_foldl, ← foldl_add_congr hentries]
  exact documents_foldl _

/-! ### Main theorem -/

theorem segmented_sourceText (docs : List Documentation) :
    Segmented ((docs.flatMap Documentation.written).map fun line =>
      String.ofList (withoutReturn line)) (docs.flatMap Documentation.segments) := by
  constructor
  case flatten =>
    rw [List.map_flatMap, List.flatMap_assoc]
    exact congrArg (List.flatMap · docs) (funext Documentation.map_written)
  case each =>
    intro s hs
    obtain ⟨d, -, hs⟩ := List.mem_flatMap.mp hs
    exact d.wellFormed_segments s hs

theorem bindings_sourceText {docs : List Documentation} (h : ∀ d ∈ docs, d.WellFormed) :
    bindings "" (docs.flatMap Documentation.segments) =
      docs.map fun d => ⟨d.name, .ofText d.body⟩ := by
  induction docs with
  | nil => rfl
  | cons d docs ih =>
    obtain ⟨hd, h⟩ := List.forall_mem_cons.mp h
    rw [List.flatMap_cons, Documentation.bindings_segments hd, ih h, List.map_cons]

/-- **Documentation that is written down is read back.** Functions and their sections are found
as they were written, in order: under each name is the block that documents its sections, with
their lines trimmed. -/
theorem reads_back_documentation (path : String) {docs : List Documentation}
    (h : ∀ d ∈ docs, d.WellFormed) :
    ∃ functions, (Scan.ofCursor path (.ofContent (sourceText docs).toUTF8)).result = .ok functions ∧
      List.Forall₂ (fun d f => f.name = d.name ∧
        Documents (d.parts.map FieldSection.trimmed) f.comments) docs functions := by
  have hnewline : ∀ line ∈ docs.flatMap Documentation.written, '\n' ∉ line := by
    intro line hline
    obtain ⟨d, hd, hline⟩ := List.mem_flatMap.mp hline
    exact Documentation.newline_not_mem_written (h d hd) line hline
  have text := linesOf_endedText hnewline
  refine ⟨docs.map fun d => ⟨d.name, .ofText d.body⟩, ?_, ?_⟩
  · rw [← bindings_sourceText h, sourceText]
    exact (segmented_sourceText docs).result text path
  · rw [List.forall₂_map_right_iff, List.forall₂_same]
    intro d hd
    dsimp only
    exact ⟨rfl, Documentation.documents_body (h d hd)⟩

/-- Lines that look like closers, openers and declarations are text inside a comment, and so is
a marker with more text after it; a carriage return at the end of a line is not. -/
theorem reads_back_documentation_disguised :
    let docs : List Documentation :=
      [⟨"kbfun_shift_2", [⟨"name".toList, ["*/".toList, "/* Shift.\r".toList]⟩,
        ⟨" n]".toList, ["void kbfun_inside(void)".toList, "[note] on layers".toList]⟩]⟩,
        ⟨"kbfun_void", []⟩]
    let shift : CommentBlock := ⟨some "*/ /* Shift.", none,
      Dict.empty.insert " n]" ["void kbfun_inside(void) [note] on layers"]⟩
    (Scan.ofCursor "main.c" (.ofContent (sourceText docs).toUTF8)).result =
        .ok [⟨"kbfun_shift_2", shift⟩, ⟨"kbfun_void", .empty⟩] ∧
      ∃ functions,
        (Scan.ofCursor "main.c" (.ofContent (sourceText docs).toUTF8)).result = .ok functions ∧
        List.Forall₂ (fun d f => f.name = d.name ∧
          Documents (d.parts.map FieldSection.trimmed) f.comments) docs functions := by
  intro docs shift
  have h : ∀ d ∈ docs, d.WellFormed := by decide +kernel
  exact ⟨by decide +kernel, reads_back_documentation "main.c" h⟩

end KeyboardInfo.Source
