import KeyboardInfo.Report.Assembly
import KeyboardInfo.Proofs.Provenance
import KeyboardInfo.Proofs.Recorded

/-! What goes wrong first when a report is assembled.

A report is made in four stages: the configuration is checked, the linker map is read, the
sources are scanned, and the number of layers is computed from the merged tree. The first
stage that fails decides the outcome, whatever the later ones would find
(`assemble_in_stages`). The last one depends on the linker map alone, since no source can
give the key matrix a length or take it away (`keyLength?_merged`). Both paths are known to
lead somewhere once the configuration has passed its check, so no later stage says that they
do not. -/
namespace KeyboardInfo.Report
open Files LinkerMap Node Source

variable {v : View} {c : Config}

/-! ### The check -/

/-- A configuration that passes its check. -/
structure Passes (v : View) (c : Config) : Prop where
  mapFile : v.hasFile c.mapFile
  sources : v.has c.sources
  extension : c.extension ≠ ""

theorem check_eq_ok_iff : c.check v = .ok () ↔ Passes v c := by
  unfold Config.check
  constructor
  · intro h
    split at h
    · cases h
    · next hmap =>
      split at h
      · cases h
      · next hsources =>
        split at h
        · cases h
        · next hextension =>
          exact ⟨by simpa using hmap, by simpa using hsources, by simpa using hextension⟩
  · rintro ⟨hmap, hsources, hextension⟩
    rw [hmap, hsources]
    simpa using hextension

theorem has_iff {path : String} : v.has path ↔ ∃ e, v.entry path = .ok e := by
  unfold View.has
  cases v.entry path with
  | error cause => simp [Except.isOk, Except.toBool]
  | ok e => simp [Except.isOk, Except.toBool]

theorem hasFile_iff {path : String} :
    v.hasFile path ↔ ∃ e, v.entry path = .ok e ∧ e.isFile := by
  unfold View.hasFile
  cases v.entry path with
  | error cause => simp [Except.toOption]
  | ok e => simp [Except.toOption]

theorem has_of_hasFile {path : String} (h : v.hasFile path) : v.has path := by
  obtain ⟨e, he, -⟩ := hasFile_iff.mp h
  exact has_iff.mpr ⟨e, he⟩

/-- Where there is something, a walk can begin. -/
theorem exists_walked {root : String} (h : v.has root) : ∃ e, v.walked root = .ok e := by
  obtain ⟨e, he⟩ := has_iff.mp h
  exact ⟨_, map_eq_ok_iff.mpr ⟨e, he, rfl⟩⟩

/-! ### The stages -/

/-- Nothing is read unless the configuration passes its check. -/
theorem result_of_check_error {cause : ConfigError} (h : c.check v = .error cause) (clock : Clock) :
    (assemble v clock c).result = .error (.config cause) := by
  unfold assemble assembleFrom
  rw [h]

/-- Once the configuration has passed its check, the linker map decides before the sources. -/
theorem result_of_passes (h : Passes v c) (clock : Clock) :
    (assemble v clock c).result =
      match (mapTree v c).result, (sourceTree v c).result with
      | .error cause, _ => .error (.linkerMap c.mapFile cause)
      | .ok _, .error cause => .error (.source cause)
      | .ok map, .ok sources => (combine (metadataOf clock c) map sources).result := by
  unfold assemble assembleFrom
  rw [check_eq_ok_iff.mpr h]
  cases (mapTree v c).result with
  | error cause => rfl
  | ok map => cases (sourceTree v c).result <;> rfl

/-- What is there and cannot be opened cannot be read. -/
theorem treeOfFile_of_error {path : String} {cause : FileError} (hhas : v.has path)
    (h : v.stream path = .error cause) :
    (treeOfFile v path).result = .error (.unreadable cause) := by
  rw [treeOfFile, if_pos hhas, h]

/-- What is opened is read as a map. -/
theorem treeOfFile_of_stream {path : String} {stream : Stream} (hhas : v.has path)
    (h : v.stream path = .ok stream) :
    (treeOfFile v path).result = (Extraction.ofCursor (.ofStream stream)).result := by
  rw [treeOfFile, if_pos hhas, h]

/-- Only the content of a file is read as a map to its end. -/
theorem exists_content_of_treeOfFile {path : String} {tree : Node} (hfile : v.hasFile path)
    (h : (treeOfFile v path).result = .ok tree) :
    ∃ content, v.entry path = .ok (.file content) ∧
      (Extraction.ofCursor (.ofContent content)).result = .ok tree := by
  have hhas := has_of_hasFile hfile
  obtain ⟨e, he, hfile⟩ := hasFile_iff.mp hfile
  have hstream : v.stream path = e.opened := by
    unfold View.stream
    rw [he]
    rfl
  cases hopened : e.opened with
  | error cause =>
    rw [treeOfFile_of_error hhas (hstream.trans hopened)] at h
    cases h
  | ok stream =>
    rw [treeOfFile_of_stream hhas (hstream.trans hopened)] at h
    -- A file that breaks off is not read without fault, and nothing else is a file.
    cases e with
    | file content =>
      cases hopened
      exact ⟨content, he, h⟩
    | brokenFile begun cause =>
      cases begun with
      | none => cases hopened
      | some lines =>
        cases hopened
        cases failure_of_result h
    | folder | closedFolder | special => cases hfile

theorem treeOfFile_ne_invalidPath {path : String} (hhas : v.has path) (place : String) :
    (treeOfFile v path).result ≠ .error (.invalidPath place) := by
  cases hstream : v.stream path with
  | error cause =>
    rw [treeOfFile_of_error hhas hstream]
    exact nofun
  | ok stream =>
    rw [treeOfFile_of_stream hhas hstream]
    have hfailure := Extraction.failure_ne_invalidPath 0 0 stream.lines place
    exact fun h => hfailure (Extraction.result_eq_error_iff.mp h)

theorem scanTree_ne_invalidPath {root : String} (hhas : v.has root) (extension place : String) :
    (scanTree v extension root).result ≠ .error (.invalidPath place) := by
  obtain ⟨e, he⟩ := exists_walked hhas
  rw [result_scanTree he]
  exact scanVisits_ne_invalidPath .empty _ place

/-- Whatever sources hold, what is scanned of them is a catalog of comments. -/
theorem shape_of_scanTree {extension root : String} {tree : Node}
    (h : (scanTree v extension root).result = .ok tree) : Source.Shape tree := by
  cases hwalked : v.walked root with
  | error cause =>
    rw [result_scanTree_of_error hwalked] at h
    cases h
  | ok e =>
    rw [result_scanTree hwalked] at h
    exact shape_of_scanVisits catalog_empty h

/-! ### The length of the key matrix -/

/-- Neither metadata nor sources say how long the key matrix is. -/
theorem keyLength?_merged (metadata : Metadata) (mapTree : Node) {sourceTree : Node}
    (hS : Source.Shape sourceTree) :
    keyLength? ((metadata.node.merge mapTree).merge sourceTree) = keyLength? mapTree := by
  unfold keyLength?
  rw [getPath?_merge_of_get?_none _ hS.isMap (hS.get?_eq_none (by decide)),
    getPath?_merge_of_getPath?_none mapTree rfl]

/-- The length of the key matrix is that of the last layout. -/
theorem keyLength?_treeOf (records : List Record) :
    keyLength? (treeOf records) = (lastMatrices? records).map fun m => m.keys.length := by
  rw [keyLength?, getPath?_treeOf_length]
  cases lastMatrices? records <;> rfl

/-- Lines are text and hold a block that records a layout. -/
def HasLayout (lines : List Line) : Prop :=
  ∃ texts blocks, lines = readable texts ∧ Splits texts blocks ∧ ∃ m, .layout m ∈ recordsOf blocks

/-- A map gives the key matrix a length just when it has a layout. -/
theorem isSome_keyLength?_iff {stream : Stream} {tree : Node}
    (h : (Extraction.ofCursor (.ofStream stream)).result = .ok tree) :
    (keyLength? tree).isSome ↔ HasLayout stream.lines := by
  obtain ⟨lines, blocks, hlines, hs, rfl⟩ := exists_splits_of_stream h
  rw [keyLength?_treeOf, Option.isSome_map, isSome_lastMatrices?]
  constructor
  · intro hlayout
    exact ⟨lines, blocks, hlines, hs, hlayout⟩
  · rintro ⟨others, split, hothers, hsplit, hlayout⟩
    -- Lines are the same however they are told, and they split only once.
    obtain rfl : lines = others := readable_injective (hlines.symm.trans hothers)
    rwa [hs.unique hsplit] at hlayout

/-- Only a missing key matrix keeps the parts of a report from being combined. -/
theorem combine_of_isSome {metadata : Metadata} {mapTree sourceTree : Node}
    (hS : Source.Shape sourceTree) (h : (keyLength? mapTree).isSome) :
    ∃ report, (combine metadata mapTree sourceTree).result = .ok report := by
  obtain ⟨length, hlength⟩ := Option.isSome_iff_exists.mp h
  exact ⟨_, combine_eq_ok ((keyLength?_merged metadata mapTree hS).trans hlength)⟩

theorem combine_of_none {metadata : Metadata} {mapTree sourceTree : Node}
    (hS : Source.Shape sourceTree) (h : keyLength? mapTree = none) :
    (combine metadata mapTree sourceTree).result = .error .missingKeyLength :=
  combine_eq_error_iff.mpr ⟨rfl, (keyLength?_merged metadata mapTree hS).trans h⟩

/-! ### Main theorem -/

/-- The outcome of an assembly is decided stage by stage. -/
structure InStages (v : View) (c : Config) (result : Except ReportError Node) : Prop where
  missingMapFile : v.hasFile c.mapFile = false →
    result = .error (.config (.missingMapFile c.mapFile))
  missingSources : v.hasFile c.mapFile → v.has c.sources = false →
    result = .error (.config (.missingSources c.sources))
  emptyExtension : v.hasFile c.mapFile → v.has c.sources → c.extension = "" →
    result = .error (.config .emptyExtension)
  unopenedMap : Passes v c → ∀ cause, v.stream c.mapFile = .error cause →
    result = .error (.linkerMap c.mapFile (.unreadable cause))
  faultyMap : Passes v c → ∀ stream e, v.stream c.mapFile = .ok stream →
    (Extraction.ofCursor (.ofStream stream)).result = .error e →
    result = .error (.linkerMap c.mapFile e)
  faultySource : Passes v c → ∀ stream tree e, v.stream c.mapFile = .ok stream →
    (Extraction.ofCursor (.ofStream stream)).result = .ok tree →
    (scanTree v (Path.bareExtension c.extension) c.sources).result = .error e →
    result = .error (.source e)
  layers : Passes v c → ∀ stream tree sources, v.stream c.mapFile = .ok stream →
    (Extraction.ofCursor (.ofStream stream)).result = .ok tree →
    (scanTree v (Path.bareExtension c.extension) c.sources).result = .ok sources →
    (result = .error .missingKeyLength ↔ ¬ HasLayout stream.lines) ∧
      (HasLayout stream.lines → ∃ report, result = .ok report)
  mapPath : ∀ path place, result ≠ .error (.linkerMap path (.invalidPath place))
  sourcePath : ∀ place, result ≠ .error (.source (.invalidPath place))

/-- Which stage an error comes from. -/
inductive ComesFrom (v : View) (c : Config) : ReportError → Prop where
  | check {cause : ConfigError} (h : c.check v = .error cause) : ComesFrom v c (.config cause)
  | linkerMap {cause : MapError} (passes : Passes v c) (h : (mapTree v c).result = .error cause) :
      ComesFrom v c (.linkerMap c.mapFile cause)
  | source {cause : SourceError} (passes : Passes v c)
      (h : (sourceTree v c).result = .error cause) : ComesFrom v c (.source cause)
  | keyLength : ComesFrom v c .missingKeyLength

theorem comesFrom_of_result {clock : Clock} {e : ReportError}
    (h : (assemble v clock c).result = .error e) : ComesFrom v c e := by
  cases hcheck : c.check v with
  | error cause =>
    rw [result_of_check_error hcheck] at h
    cases h
    exact .check hcheck
  | ok _ =>
    have hpasses := check_eq_ok_iff.mp hcheck
    rw [result_of_passes hpasses] at h
    split at h
    · next cause hmap =>
      cases h
      exact .linkerMap hpasses hmap
    · next cause _ hscan =>
      cases h
      exact .source hpasses hscan
    · rw [(combine_eq_error_iff.mp h).1]
      exact .keyLength

/-- A report is combined from the tree of the linker map and that of the sources. -/
theorem parts_of_report {clock : Clock} {report : Node}
    (h : (assemble v clock c).result = .ok report) :
    Passes v c ∧ ∃ map sources, (mapTree v c).result = .ok map ∧
      (sourceTree v c).result = .ok sources ∧
      (combine (metadataOf clock c) map sources).result = .ok report := by
  cases hcheck : c.check v with
  | error cause =>
    rw [result_of_check_error hcheck] at h
    cases h
  | ok _ =>
    have hpasses := check_eq_ok_iff.mp hcheck
    rw [result_of_passes hpasses] at h
    split at h
    · cases h
    · cases h
    · next map sources hmap hsources => exact ⟨hpasses, map, sources, hmap, hsources, h⟩

/-- A map with a layout is combined into a report, and any other is said to lack the length. -/
theorem result_of_parts (h : Passes v c) (clock : Clock) {stream : Stream} {tree sources : Node}
    (hmap : (mapTree v c).result = .ok tree)
    (hread : (Extraction.ofCursor (.ofStream stream)).result = .ok tree)
    (hscan : (sourceTree v c).result = .ok sources) :
    ((assemble v clock c).result = .error .missingKeyLength ↔ ¬ HasLayout stream.lines) ∧
      (HasLayout stream.lines → ∃ report, (assemble v clock c).result = .ok report) := by
  have hresult := result_of_passes h clock
  rw [hmap, hscan] at hresult
  dsimp only at hresult
  have hS := shape_of_scanTree hscan
  rw [hresult, ← isSome_keyLength?_iff hread]
  cases hlength : keyLength? tree with
  | none => simp [combine_of_none hS hlength]
  | some length =>
    obtain ⟨report, hreport⟩ := combine_of_isSome hS (by rw [hlength]; rfl)
    rw [hreport]
    simp

/-- **A report fails with what goes wrong first.** The configuration comes before the linker map,
the linker map before the sources, and the missing length of the key matrix last. -/
theorem assemble_in_stages (v : View) (clock : Clock) (c : Config) :
    InStages v c (assemble v clock c).result := by
  constructor
  case missingMapFile =>
    intro hmap
    have hcheck : c.check v = .error (.missingMapFile c.mapFile) := by
      unfold Config.check
      rw [hmap]
      rfl
    exact result_of_check_error hcheck clock
  case missingSources =>
    intro hmap hsources
    have hcheck : c.check v = .error (.missingSources c.sources) := by
      unfold Config.check
      rw [hmap, hsources]
      rfl
    exact result_of_check_error hcheck clock
  case emptyExtension =>
    intro hmap hsources hextension
    have hcheck : c.check v = .error .emptyExtension := by
      unfold Config.check
      rw [hmap, hsources, hextension]
      rfl
    exact result_of_check_error hcheck clock
  case unopenedMap =>
    intro h cause hstream
    have hmap : (mapTree v c).result = .error (.unreadable cause) :=
      treeOfFile_of_error (has_of_hasFile h.mapFile) hstream
    rw [result_of_passes h, hmap]
  case faultyMap =>
    intro h stream e hstream hread
    have hmap : (mapTree v c).result = .error e :=
      (treeOfFile_of_stream (has_of_hasFile h.mapFile) hstream).trans hread
    rw [result_of_passes h, hmap]
  case faultySource =>
    intro h stream tree e hstream hread hscan
    have hmap : (mapTree v c).result = .ok tree :=
      (treeOfFile_of_stream (has_of_hasFile h.mapFile) hstream).trans hread
    have hscan : (sourceTree v c).result = .error e := hscan
    rw [result_of_passes h, hmap, hscan]
  case layers =>
    intro h stream tree sources hstream hread hscan
    have hmap : (mapTree v c).result = .ok tree :=
      (treeOfFile_of_stream (has_of_hasFile h.mapFile) hstream).trans hread
    exact result_of_parts h clock hmap hread hscan
  case mapPath =>
    intro path place h
    cases comesFrom_of_result h with
    | linkerMap passes hmap =>
      exact treeOfFile_ne_invalidPath (has_of_hasFile passes.mapFile) place hmap
  case sourcePath =>
    intro place h
    cases comesFrom_of_result h with
    | source passes hscan => exact scanTree_ne_invalidPath passes.sources _ place hscan

end KeyboardInfo.Report
