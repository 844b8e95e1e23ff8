import KeyboardInfo.Proofs.Provenance
import KeyboardInfo.Proofs.Recorded
import KeyboardInfo.Proofs.Utf8
import Mathlib.Data.List.Forall2

/-! Functions that the sources have and the linker map lacks.

A report warns of the functions whose record has no position, of each by its name. Records are
merged from both sides, but only the linker map gives positions, and it gives one to each function
that it records; so these are the functions of the sources that no block of the map records
(`warns_of_unlinked`). The warnings come from the merged tree before anything is computed from
it. -/
namespace KeyboardInfo.Report
open Files LinkerMap Log Node Source

variable {metadata : Metadata} {mapTree sourceTree report : Node}

/-! ### Functions without a position -/

/-- The functions of a report that have no position, each once and in the order of their names. -/
theorem unplacedFunctions_spec (report : Node) :
    (unplacedFunctions report).Pairwise (· < ·) ∧
      ∀ name, name ∈ unplacedFunctions report ↔ report.HasFunction name ∧
        report.getPath? [Key.keyboardFunctions, name, Key.position] = none := by
  unfold unplacedFunctions HasFunction
  simp only [getPath?_cons, getPath?_nil, Option.bind_fun_some]
  cases report.get? Key.keyboardFunctions with
  | none => simp
  | some functions =>
    simp only [Option.bind_some]
    by_cases hmap : functions.isMap
    · obtain ⟨entries, hentries, hordered, hmem⟩ := exists_entries hmap
      rw [hentries]
      refine ⟨List.pairwise_map.mpr (hordered.sublist List.filter_sublist), fun name => ?_⟩
      rw [List.mem_map]
      constructor
      · rintro ⟨⟨key, record⟩, hrecord, rfl⟩
        obtain ⟨hentry, hposition⟩ := List.mem_filter.mp hrecord
        have hget := (hmem key record).mp hentry
        simpa [hget] using hposition
      · rintro ⟨hname, hposition⟩
        obtain ⟨record, hrecord⟩ := Option.isSome_iff_exists.mp hname
        refine ⟨(name, record), List.mem_filter.mpr ⟨(hmem name record).mpr hrecord, ?_⟩, rfl⟩
        simpa [hrecord] using hposition
    · have hmap : functions.isMap = false := by simpa using hmap
      simp [entries?_of_not_isMap hmap, get?_of_not_isMap hmap]

/-- A merged function has a position just when the linker map has the function. -/
theorem isSome_position (metadata : Metadata) (hM : LinkerMap.Shape mapTree)
    (hS : Source.Shape sourceTree) (name : String) :
    (((metadata.node.merge mapTree).merge sourceTree).getPath?
      [Key.keyboardFunctions, name, Key.position]).isSome ↔ mapTree.HasFunction name := by
  rw [isSome_merged_field metadata hM hS]
  simp [extentFields, Key.position, Key.comments]

theorem mem_unplacedFunctions_merged (metadata : Metadata) (hM : LinkerMap.Shape mapTree)
    (hS : Source.Shape sourceTree) (name : String) :
    name ∈ unplacedFunctions ((metadata.node.merge mapTree).merge sourceTree) ↔
      sourceTree.HasFunction name ∧ ¬ mapTree.HasFunction name := by
  rw [(unplacedFunctions_spec _).2, ← Option.not_isSome_iff_eq_none, isSome_position metadata hM hS,
    hasFunction_merged metadata mapTree hS, and_congr_left_iff]
  exact fun hlacks => or_iff_right hlacks

theorem hasFunction_treeOf (records : List Record) (name : String) :
    (treeOf records).HasFunction name ↔ ∃ extent, .function ⟨name, extent⟩ ∈ records := by
  rw [HasFunction, getPath?_treeOf_function, Option.isSome_map, isSome_lastExtent?]

/-! ### Warnings -/

/-- An event that warns of a function, and gives its name. -/
structure WarnsOf (e : Event) (name : String) : Prop where
  severity : e.severity = .warn
  message : e.message = name ++ " is documented in the sources but missing from the map file"

theorem warnsOf_unplacedWarning (name : String) : WarnsOf (unplacedWarning name) name := ⟨rfl, rfl⟩

theorem warnsOf_events (metadata : Metadata) (mapTree sourceTree : Node) :
    List.Forall₂ WarnsOf (combine metadata mapTree sourceTree).events
      (unplacedFunctions ((metadata.node.merge mapTree).merge sourceTree)) := by
  rw [combine, List.forall₂_map_left_iff, List.forall₂_same]
  exact fun name _ => warnsOf_unplacedWarning name

/-! ### Main theorem -/

/-- **A report warns of just the functions that its linker map lacks.** Of a map that is read
without fault and sources that are scanned without fault, there is one warning for each function
of the sources that no block of the map records, and nothing else is logged, whether or not the
parts can be combined. The warnings come in the order of the names, byte by byte. -/
theorem warns_of_unlinked {content : ByteArray} {files : List (String × ByteArray)}
    (hmap : (Extraction.ofCursor (.ofContent content)).result = .ok mapTree)
    (hsource : (scanFiles .empty files).result = .ok sourceTree) (metadata : Metadata) :
    ∃ lines blocks, linesOf content = readable lines ∧ Splits lines blocks ∧
      ∃ names : List String,
        List.Forall₂ WarnsOf (combine metadata mapTree sourceTree).events names ∧
        names.Pairwise (fun a b => Text.utf8 a.toList < Text.utf8 b.toList) ∧
        ∀ name, name ∈ names ↔ sourceTree.HasFunction name ∧
          ∀ extent, .function ⟨name, extent⟩ ∉ recordsOf blocks := by
  have hM := LinkerMap.shape_of_result hmap
  have hS := Source.shape_of_scanVisits catalog_empty hsource
  obtain ⟨lines, blocks, hlines, hs, rfl⟩ := exists_splits_of_content hmap
  refine ⟨lines, blocks, hlines, hs, _, warnsOf_events .., ?_, fun name => ?_⟩
  · refine (unplacedFunctions_spec _).1.imp fun hlt => ?_
    exact Text.utf8_lt_iff.mpr (String.lt_iff_toList_lt.mp hlt)
  · rw [mem_unplacedFunctions_merged metadata hM hS, hasFunction_treeOf, not_exists]

/-- The map has no layout, so there is no report; but the two functions that it lacks are
warned of, in the order of their names and not of the files that declare them. -/
theorem warns_of_unlinked_without_layout :
    let content := ".text.kbfun_b\n 0x10 0x4 a.o\n 0x10 kbfun_b\n".toUTF8
    let files := [("a.c", "void kbfun_é(void);\nvoid kbfun_b(void);".toUTF8),
      ("b.c", "void kbfun_a(void);".toUTF8)]
    let metadata : Metadata := ⟨none, "2012-04-01", "f00"⟩
    let mapTree := KeyFunction.node ⟨"kbfun_b", 16, 4⟩
    let sourceTree := ((DocumentedFunction.node ⟨"kbfun_é", .empty⟩).merge
      (DocumentedFunction.node ⟨"kbfun_b", .empty⟩)).merge
      (DocumentedFunction.node ⟨"kbfun_a", .empty⟩)
    (Extraction.ofCursor (.ofContent content)).result = .ok mapTree ∧
      (scanFiles .empty files).result = .ok sourceTree ∧
      (combine metadata mapTree sourceTree).result = .error .missingKeyLength ∧
      (combine metadata mapTree sourceTree).events =
        [unplacedWarning "kbfun_a", unplacedWarning "kbfun_é"] ∧
      ∃ lines blocks, linesOf content = readable lines ∧ Splits lines blocks ∧
        ∃ names : List String,
          List.Forall₂ WarnsOf (combine metadata mapTree sourceTree).events names ∧
          names.Pairwise (fun a b => Text.utf8 a.toList < Text.utf8 b.toList) ∧
          ∀ name, name ∈ names ↔ sourceTree.HasFunction name ∧
            ∀ extent, .function ⟨name, extent⟩ ∉ recordsOf blocks := by
  intro content files metadata mapTree sourceTree
  have hmap : (Extraction.ofCursor (.ofContent content)).result = .ok mapTree := by
    decide +kernel
  have hsource : (scanFiles .empty files).result = .ok sourceTree := by
    decide +kernel
  exact ⟨hmap, hsource, by decide +kernel, by decide +kernel,
    warns_of_unlinked hmap hsource metadata⟩

end KeyboardInfo.Report
