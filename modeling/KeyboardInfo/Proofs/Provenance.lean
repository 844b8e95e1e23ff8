import KeyboardInfo.Proofs.Shapes
import KeyboardInfo.Report.Combining

/-! Where the parts of a report come from.

A report joins three trees: the metadata, that of a linker map and that of sources. None
of them can reach into what another one says (`report_provenance`). Both the linker map
and the sources have records of keyboard functions; but those of the one hold extents
and those of the other comments, so the merged records hold the fields of both. -/
namespace KeyboardInfo.Report
open Node LinkerMap Source

/-- The fields that say which commit the firmware was built from. -/
def commitFields : List String := ["git-commit-date", "git-commit-id"]

/-- What a report holds, and which of its parents each part is from. -/
structure Provenance (metadata : Metadata) (mapTree sourceTree report : Node) : Prop where
  sections : ∀ key, (report.get? key).isSome ↔
    key ∈ [Key.metaData, Key.layoutMatrices, Key.miscellaneous] ∨
      key = Key.keyboardFunctions ∧ ∃ name, mapTree.HasFunction name ∨ sourceTree.HasFunction name
  metaData : report.get? Key.metaData = metadata.node.get? Key.metaData
  layout : report.get? Key.layoutMatrices = mapTree.get? Key.layoutMatrices
  commit : ∀ field ∈ commitFields,
    report.getPath? [Key.miscellaneous, field] = metadata.node.getPath? [Key.miscellaneous, field]
  miscellaneous : ∀ field, (report.getPath? [Key.miscellaneous, field]).isSome ↔
    field ∈ commitFields ∨ field = "number-of-layers"
  functions : ∀ name, report.HasFunction name ↔
    mapTree.HasFunction name ∨ sourceTree.HasFunction name
  fields : ∀ name field, (report.getPath? [Key.keyboardFunctions, name, field]).isSome ↔
    mapTree.HasFunction name ∧ field ∈ [Key.position, Key.length] ∨
      sourceTree.HasFunction name ∧ field = Key.comments
  extent : ∀ name, ∀ field ∈ [Key.position, Key.length],
    report.getPath? [Key.keyboardFunctions, name, field] =
      mapTree.getPath? [Key.keyboardFunctions, name, field]
  comments : ∀ name, report.getPath? [Key.keyboardFunctions, name, Key.comments] =
    sourceTree.getPath? [Key.keyboardFunctions, name, Key.comments]

variable {metadata : Metadata} {mapTree sourceTree report : Node}

/-! ### What combining comes to -/

/-- Combining fails for lack of the length of the key matrix, and for nothing else. -/
theorem combine_eq_error_iff {e : ReportError} :
    (combine metadata mapTree sourceTree).result = .error e ↔
      e = .missingKeyLength ∧ keyLength? ((metadata.node.merge mapTree).merge sourceTree) = none := by
  unfold combine derived
  dsimp only
  cases keyLength? ((metadata.node.merge mapTree).merge sourceTree) with
  | none => simp [Except.map, eq_comm]
  | some length => simp [Except.map]

/-- With the length of the key matrix, the report is the merged tree and its number of layers. -/
theorem combine_eq_ok {length : UInt64}
    (h : keyLength? ((metadata.node.merge mapTree).merge sourceTree) = some length) :
    (combine metadata mapTree sourceTree).result =
      .ok (((metadata.node.merge mapTree).merge sourceTree).merge
        (single Key.miscellaneous
          (single "number-of-layers" (number (numberOfLayers length))))) := by
  unfold combine derived
  dsimp only
  rw [h]
  rfl

/-- A report is the three trees merged, and last the number of layers. -/
theorem exists_layers (h : (combine metadata mapTree sourceTree).result = .ok report) :
    ∃ length, keyLength? ((metadata.node.merge mapTree).merge sourceTree) = some length ∧
      report = ((metadata.node.merge mapTree).merge sourceTree).merge
        (single Key.miscellaneous
          (single "number-of-layers" (number (numberOfLayers length)))) := by
  cases hlength : keyLength? ((metadata.node.merge mapTree).merge sourceTree) with
  | none =>
    rw [combine_eq_error_iff.mpr ⟨rfl, hlength⟩] at h
    cases h
  | some length =>
    rw [combine_eq_ok hlength] at h
    exact ⟨length, rfl, (Except.ok.inj h).symm⟩

/-! ### The merged sections -/

/-- The number of layers touches nothing outside its section. -/
theorem getPath?_report (h : (combine metadata mapTree sourceTree).result = .ok report)
    {key : String} (hk : key ≠ Key.miscellaneous) (path : List String) :
    report.getPath? (key :: path) =
      ((metadata.node.merge mapTree).merge sourceTree).getPath? (key :: path) := by
  obtain ⟨length, -, rfl⟩ := exists_layers h
  exact getPath?_merge_of_get?_none _ rfl (by rw [get?_single, if_neg hk]) path

theorem isSome_metadata (metadata : Metadata) (key : String) :
    (metadata.node.get? key).isSome ↔ key ∈ [Key.metaData, Key.miscellaneous] := by
  rw [Metadata.node, get?_insert rfl, get?_single]
  split <;> simp_all

theorem isSome_commit (metadata : Metadata) (field : String) :
    (metadata.node.getPath? [Key.miscellaneous, field]).isSome ↔ field ∈ commitFields := by
  have hcommit : metadata.node.getPath? [Key.miscellaneous, field] =
      ((single "git-commit-date" (text metadata.commitDate)).insert "git-commit-id"
        (text metadata.commitId)).get? field := by
    rw [getPath?_cons, Metadata.node, get?_insert rfl, if_pos rfl]
    exact getPath?_singleton ..
  rw [hcommit, get?_insert rfl, get?_single]
  split <;> simp_all [commitFields]

/-- A section that neither map nor sources have is as metadata has it. -/
theorem getPath?_of_metadata (hM : LinkerMap.Shape mapTree) (hS : Source.Shape sourceTree)
    {key : String} (hk : key ∉ [Key.keyboardFunctions, Key.layoutMatrices]) (path : List String) :
    ((metadata.node.merge mapTree).merge sourceTree).getPath? (key :: path) =
      metadata.node.getPath? (key :: path) := by
  have hsource : key ∉ [Key.keyboardFunctions] := fun h => hk (by simp_all)
  rw [getPath?_merge_of_get?_none _ hS.isMap (hS.get?_eq_none hsource),
    getPath?_merge_of_get?_none _ hM.isMap (hM.get?_eq_none hk)]

/-- The layout matrices are as the linker map has them. -/
theorem getPath?_layout (hS : Source.Shape sourceTree)
    (h : (combine metadata mapTree sourceTree).result = .ok report) (path : List String) :
    report.getPath? (Key.layoutMatrices :: path) =
      mapTree.getPath? (Key.layoutMatrices :: path) := by
  rw [getPath?_report h (by decide),
    getPath?_merge_of_get?_none _ hS.isMap (hS.get?_eq_none (by decide))]
  exact getPath?_merge_of_getPath?_none mapTree rfl

/-- What is said of a function is merged from linker map and sources. -/
theorem getPath?_merged_function (metadata : Metadata) (mapTree : Node)
    (hS : Source.Shape sourceTree) (path : List String) (hlength : path.length ≤ 2) :
    ((metadata.node.merge mapTree).merge sourceTree).getPath? (Key.keyboardFunctions :: path) =
      Option.merge Node.merge (mapTree.getPath? (Key.keyboardFunctions :: path))
        (sourceTree.getPath? (Key.keyboardFunctions :: path)) := by
  rw [getPath?_merge, hS.blocks_function path hlength, if_neg Bool.false_ne_true]
  congr 1
  exact getPath?_merge_of_getPath?_none mapTree rfl

theorem getPath?_function (hS : Source.Shape sourceTree)
    (h : (combine metadata mapTree sourceTree).result = .ok report) (path : List String)
    (hlength : path.length ≤ 2) :
    report.getPath? (Key.keyboardFunctions :: path) =
      Option.merge Node.merge (mapTree.getPath? (Key.keyboardFunctions :: path))
        (sourceTree.getPath? (Key.keyboardFunctions :: path)) := by
  rw [getPath?_report h (by decide), getPath?_merged_function metadata mapTree hS path hlength]

/-- Sources say nothing of the extent of a function. -/
theorem getPath?_extent (hS : Source.Shape sourceTree)
    (h : (combine metadata mapTree sourceTree).result = .ok report) (name : String)
    {field : String} (hf : field ∈ extentFields) :
    report.getPath? [Key.keyboardFunctions, name, field] =
      mapTree.getPath? [Key.keyboardFunctions, name, field] := by
  have hnone : sourceTree.getPath? [Key.keyboardFunctions, name, field] = none := by
    rw [← Option.not_isSome_iff_eq_none, hS.isSome_field]
    rintro ⟨-, hc⟩
    rw [List.mem_singleton.mp hc] at hf
    exact absurd hf (by decide)
  rw [getPath?_function hS h [name, _] (Nat.le_refl 2), hnone, Option.merge_none_right]

/-- A linker map says nothing of the comments of a function. -/
theorem getPath?_comments (hM : LinkerMap.Shape mapTree) (hS : Source.Shape sourceTree)
    (h : (combine metadata mapTree sourceTree).result = .ok report) (name : String) :
    report.getPath? [Key.keyboardFunctions, name, Key.comments] =
      sourceTree.getPath? [Key.keyboardFunctions, name, Key.comments] := by
  have hnone : mapTree.getPath? [Key.keyboardFunctions, name, Key.comments] = none := by
    rw [← Option.not_isSome_iff_eq_none, hM.isSome_field]
    rintro ⟨-, hc⟩
    exact absurd hc (by decide)
  rw [getPath?_function hS h [name, _] (Nat.le_refl 2), hnone, Option.merge_none_left]

/-- The record of a function has what linker map and sources say of it. -/
theorem isSome_merged_field (metadata : Metadata) (hM : LinkerMap.Shape mapTree)
    (hS : Source.Shape sourceTree) (name field : String) :
    (((metadata.node.merge mapTree).merge sourceTree).getPath?
        [Key.keyboardFunctions, name, field]).isSome ↔
      mapTree.HasFunction name ∧ field ∈ extentFields ∨
        sourceTree.HasFunction name ∧ field = Key.comments := by
  rw [getPath?_merged_function metadata mapTree hS [name, _] (Nat.le_refl 2), Option.isSome_merge,
    Bool.or_eq_true, hM.isSome_field, hS.isSome_field, List.mem_singleton]

theorem isSome_field (hM : LinkerMap.Shape mapTree) (hS : Source.Shape sourceTree)
    (h : (combine metadata mapTree sourceTree).result = .ok report) (name field : String) :
    (report.getPath? [Key.keyboardFunctions, name, field]).isSome ↔
      mapTree.HasFunction name ∧ field ∈ extentFields ∨
        sourceTree.HasFunction name ∧ field = Key.comments := by
  rw [getPath?_report h (by decide), isSome_merged_field metadata hM hS]

/-- Functions are merged from those of linker map and sources. -/
theorem hasFunction_merged (metadata : Metadata) (mapTree : Node) (hS : Source.Shape sourceTree)
    (name : String) : ((metadata.node.merge mapTree).merge sourceTree).HasFunction name ↔
      mapTree.HasFunction name ∨ sourceTree.HasFunction name := by
  rw [HasFunction, getPath?_merged_function metadata mapTree hS [name] (Nat.le_succ 1),
    Option.isSome_merge, Bool.or_eq_true]
  rfl

/-- The number of layers joins what metadata says of the commit. -/
theorem getPath?_miscellaneous (hM : LinkerMap.Shape mapTree) (hS : Source.Shape sourceTree)
    (h : (combine metadata mapTree sourceTree).result = .ok report) :
    ∃ layers, ∀ field, report.getPath? [Key.miscellaneous, field] =
      Option.merge Node.merge (metadata.node.getPath? [Key.miscellaneous, field])
        ((single "number-of-layers" (number layers)).get? field) := by
  obtain ⟨length, -, rfl⟩ := exists_layers h
  refine ⟨numberOfLayers length, fun field => ?_⟩
  rw [getPath?_merge, blocks_single, blocks_singleton rfl, if_neg Bool.false_ne_true,
    getPath?_of_metadata hM hS (by decide), getPath?_single, getPath?_singleton]

/-- There is no report without layout matrices. -/
theorem isSome_layout (h : (combine metadata mapTree sourceTree).result = .ok report) :
    (report.get? Key.layoutMatrices).isSome := by
  obtain ⟨length, hlength, -⟩ := exists_layers h
  obtain ⟨node, hnode, -⟩ := Option.bind_eq_some_iff.mp hlength
  rw [← getPath?_report h (by decide)] at hnode
  obtain ⟨layout, hlayout, -⟩ := getPath?_cons_eq_some_iff.mp hnode
  rw [hlayout]
  rfl

theorem isSome_miscellaneous (h : (combine metadata mapTree sourceTree).result = .ok report) :
    (report.get? Key.miscellaneous).isSome := by
  obtain ⟨length, -, rfl⟩ := exists_layers h
  rw [← getPath?_singleton, getPath?_merge, blocks_singleton rfl, if_neg Bool.false_ne_true,
    Option.isSome_merge, getPath?_single, getPath?_nil, Option.isSome_some, Bool.or_true]

theorem isSome_section (hM : LinkerMap.Shape mapTree) (hS : Source.Shape sourceTree)
    (h : (combine metadata mapTree sourceTree).result = .ok report) (key : String) :
    (report.get? key).isSome ↔
      key ∈ [Key.metaData, Key.layoutMatrices, Key.miscellaneous] ∨ key = Key.keyboardFunctions ∧
        ∃ name, mapTree.HasFunction name ∨ sourceTree.HasFunction name := by
  by_cases hf : key = Key.keyboardFunctions
  · subst hf
    have hmerged := getPath?_function hS h [] (Nat.zero_le 2)
    rw [getPath?_singleton, getPath?_singleton, getPath?_singleton] at hmerged
    have hother : Key.keyboardFunctions ∉ [Key.metaData, Key.layoutMatrices, Key.miscellaneous] := by
      decide
    rw [hmerged, Option.isSome_merge, Bool.or_eq_true, hM.isSome_functions, hS.isSome_functions,
      exists_or, or_iff_right hother, and_iff_right rfl]
  by_cases hl : key = Key.layoutMatrices
  · subst hl
    exact iff_of_true (isSome_layout h) (.inl (by decide))
  by_cases hm : key = Key.miscellaneous
  · subst hm
    exact iff_of_true (isSome_miscellaneous h) (.inl (by decide))
  · have habout : report.get? key = metadata.node.get? key := by
      rw [← getPath?_singleton, getPath?_report h hm,
        getPath?_of_metadata hM hS (by simp [hf, hl]), getPath?_singleton]
    rw [habout, isSome_metadata]
    simp [hf, hl, hm]

/-! ### Main theorem -/

/-- **Each part of a report has one parent.** Whatever text the linker map and the sources
are read from, the extents and matrices of a report are those of the linker map, its
comments those of the sources, and what it says of itself and of the commit is from the
metadata. -/
theorem report_provenance {content : ByteArray} {files : List (String × ByteArray)}
    (hmap : (Extraction.ofCursor (.ofContent content)).result = .ok mapTree)
    (hsource : (scanFiles .empty files).result = .ok sourceTree)
    (hcombine : (combine metadata mapTree sourceTree).result = .ok report) :
    Provenance metadata mapTree sourceTree report := by
  have hM := LinkerMap.shape_of_result hmap
  have hS := Source.shape_of_scanVisits catalog_empty hsource
  obtain ⟨layers, hmisc⟩ := getPath?_miscellaneous hM hS hcombine
  constructor
  case sections => exact isSome_section hM hS hcombine
  case metaData =>
    rw [← getPath?_singleton, getPath?_report hcombine (by decide),
      getPath?_of_metadata hM hS (by decide), getPath?_singleton]
  case layout => rw [← getPath?_singleton, getPath?_layout hS hcombine, getPath?_singleton]
  case commit =>
    intro field hf
    have hother : field ≠ "number-of-layers" := by
      rintro rfl
      exact absurd hf (by decide)
    rw [hmisc, get?_single, if_neg hother, Option.merge_none_right]
  case miscellaneous =>
    intro field
    rw [hmisc, Option.isSome_merge, Bool.or_eq_true, isSome_commit, (hasFields_single ..).keys,
      List.mem_singleton]
  case functions =>
    intro name
    rw [HasFunction, getPath?_report hcombine (by decide), ← hasFunction_merged metadata mapTree hS]
    rfl
  case fields => exact isSome_field hM hS hcombine
  case extent => exact fun name _ hf => getPath?_extent hS hcombine name hf
  case comments => exact getPath?_comments hM hS hcombine

/-- The linker map has `kbfun_a`, the sources document it and declare `kbfun_b`: of the
latter the report has a comment, which is empty, and no position. -/
theorem report_provenance_undocumented :
    let content := (".text.kbfun_a\n 0x10 0x4 a.o\n 0x10 kbfun_a\n" ++
      ".progmem.data.layout 0x0 0x1a4 l.o\n 0x0 _kb_layout\n 0x54 _kb_layout_press\n" ++
      " 0xfc _kb_layout_release\n").toUTF8
    let files := [("a.c", "/*\n * [name]\n * A\n */\nvoid kbfun_a(void);\nvoid kbfun_b(void);".toUTF8)]
    let metadata : Metadata := ⟨none, "2012-04-01", "f00"⟩
    let mapTree := (KeyFunction.node ⟨"kbfun_a", 16, 4⟩).merge
      (LayoutMatrices.node ⟨⟨0, 84⟩, ⟨84, 168⟩, ⟨252, 168⟩⟩)
    let sourceTree := (DocumentedFunction.node ⟨"kbfun_a", some "A", none, .empty⟩).merge
      (DocumentedFunction.node ⟨"kbfun_b", .empty⟩)
    (Extraction.ofCursor (.ofContent content)).result = .ok mapTree ∧
      (scanFiles .empty files).result = .ok sourceTree ∧
      ∃ report, (combine metadata mapTree sourceTree).result = .ok report ∧
        report.HasFunction "kbfun_b" ∧
        report.getPath? [Key.keyboardFunctions, "kbfun_b", Key.position] = none ∧
        report.getPath? [Key.keyboardFunctions, "kbfun_b", Key.comments] = some .empty := by
  intro content files metadata mapTree sourceTree
  have hmap : (Extraction.ofCursor (.ofContent content)).result = .ok mapTree := by
    decide +kernel
  have hsource : (scanFiles .empty files).result = .ok sourceTree := by
    decide +kernel
  have hlength : keyLength? ((metadata.node.merge mapTree).merge sourceTree) = some 84 := by
    decide +kernel
  obtain ⟨report, hreport⟩ : ∃ report, (combine metadata mapTree sourceTree).result = .ok report := by
    simp only [combine, derived, hlength]
    exact ⟨_, rfl⟩
  have provenance := report_provenance hmap hsource hreport
  refine ⟨hmap, hsource, report, hreport, ?_, ?_, ?_⟩
  · exact (provenance.functions "kbfun_b").mpr (.inr (by decide))
  · rw [provenance.extent "kbfun_b" Key.position (by decide)]
    decide +kernel
  · rw [provenance.comments "kbfun_b"]
    decide +kernel

end KeyboardInfo.Report
