import KeyboardInfo.Proofs.Stages

/-! How long the matrices of a report are.

A layout header gives one length for all three matrices. The key matrix takes one fifth of it
and the press and release matrices two fifths each, rounded down to whole keys; and a layer is a
fixed number of keys. All of this is done on 64 bits, and never leaves them
(`toNat_doubledShare`). Blocks that come later take the place of earlier ones, sources cannot
touch what a map says of the layout, and what is computed from the merged tree is computed from
the map. So the lengths of a report are those that the last layout header of its map comes to
(`lengths_of_section`). -/
namespace KeyboardInfo

/-! ### The last layout of a map -/

namespace LinkerMap
open Files

/-- A block records a layout. -/
def IsLayout (block : List String × Option Record) : Prop :=
  ∃ m, block.2 = some (.layout m)

/-- What was recorded last of the layout comes from the last block that records one. -/
theorem lastMatrices?_eq_some_iff {blocks : List (List String × Option Record)}
    {m : LayoutMatrices} : lastMatrices? (recordsOf blocks) = some m ↔
      ∃ before lines after, blocks = before ++ (lines, some (.layout m)) :: after ∧
        ∀ block ∈ after, ¬ IsLayout block := by
  have hrecord (block : List String × Option Record) (m : LayoutMatrices) :
      block.2.bind Record.matrices? = some m ↔ block.2 = some (.layout m) := by
    obtain ⟨lines, record⟩ := block
    cases record with
    | none => simp
    | some r => cases r <;> simp [Record.matrices?]
  have hnone (block : List String × Option Record) :
      block.2.bind Record.matrices? = none ↔ ¬ IsLayout block := by
    rw [Option.eq_none_iff_forall_ne_some, IsLayout, not_exists]
    simp only [ne_eq, hrecord]
  rw [lastMatrices?, recordsOf, List.filterMap_filterMap, List.getLast?_eq_some_iff]
  constructor
  · rintro ⟨others, h⟩
    obtain ⟨before, rest, rfl, -, hrest⟩ := List.filterMap_eq_append_iff.mp h
    obtain ⟨between, block, after, rfl, -, hblock, hafter⟩ := List.filterMap_eq_cons_iff.mp hrest
    refine ⟨before ++ between, block.1, after, ?_, fun b hb => ?_⟩
    · rw [← (hrecord block m).mp hblock, List.append_assoc]
    · exact (hnone b).mp (List.filterMap_eq_nil_iff.mp hafter b hb)
  · rintro ⟨before, lines, after, hblocks, hafter⟩
    have hlater : after.filterMap (fun block => block.2.bind Record.matrices?) = [] :=
      List.filterMap_eq_nil_iff.mpr fun block hb => (hnone block).mpr (hafter block hb)
    refine ⟨before.filterMap fun block => block.2.bind Record.matrices?, ?_⟩
    rw [hblocks, List.filterMap_append, List.filterMap_cons, hlater]
    rfl

/-- The header of the last block that records a layout gives a length. -/
def LastHeaderGives (blocks : List (List String × Option Record)) (size : UInt64) : Prop :=
  ∃ before header window m after, blocks = before ++ (header :: window, some (.layout m)) :: after ∧
    (∀ block ∈ after, ¬ IsLayout block) ∧ GivesLength header size

/-- The lines of a map split into blocks, and the header of the last layout gives a length. -/
def SectionLength (content : ByteArray) (size : UInt64) : Prop :=
  ∃ lines blocks, linesOf content = readable lines ∧ Splits lines blocks ∧
    LastHeaderGives blocks size

theorem GivesLength.unique {header : String} {a b : UInt64} (ha : GivesLength header a)
    (hb : GivesLength header b) : a = b := by
  obtain ⟨position, token, htokens, hread⟩ := ha
  obtain ⟨position', token', htokens', hread'⟩ := hb
  rw [htokens] at htokens'
  cases htokens'
  rw [hread] at hread'
  exact Option.some.inj hread'

/-- A block that records a layout has a header that gives a length, and the lengths that it
records are the shares of the matrices in it. -/
theorem Complete.gives_length {lines : List String} {m : LayoutMatrices}
    (h : Complete lines (some (.layout m))) :
    ∃ header window size, lines = header :: window ∧ GivesLength header size ∧
      ∃ keys press release, m = .ofKeyLength (size / layoutShares) keys press release := by
  cases h with
  | layout opens gives full keysAt pressAt releaseAt =>
    exact ⟨_, _, _, rfl, gives, _, _, _, rfl⟩

/-- Where a layout was recorded, the last one has a header that gives a length. -/
theorem Splits.exists_lastHeaderGives {lines : List String}
    {blocks : List (List String × Option Record)} (hs : Splits lines blocks) {m : LayoutMatrices}
    (h : lastMatrices? (recordsOf blocks) = some m) : ∃ size, LastHeaderGives blocks size := by
  obtain ⟨before, texts, after, rfl, hafter⟩ := lastMatrices?_eq_some_iff.mp h
  have hcomplete : Complete texts (some (.layout m)) :=
    hs.each (texts, some (.layout m)) (by simp)
  obtain ⟨header, window, size, rfl, gives, -⟩ := hcomplete.gives_length
  exact ⟨size, before, header, window, m, after, rfl, hafter, gives⟩

/-- The matrices that were recorded last have their shares of the length that the last layout
header gives. -/
theorem Splits.lastMatrices?_eq {lines : List String} {blocks : List (List String × Option Record)}
    (hs : Splits lines blocks) {size : UInt64} (h : LastHeaderGives blocks size) :
    ∃ keys press release, lastMatrices? (recordsOf blocks) =
      some (.ofKeyLength (size / layoutShares) keys press release) := by
  obtain ⟨before, header, window, m, after, hblocks, hafter, gives⟩ := h
  have hlast := lastMatrices?_eq_some_iff.mpr ⟨before, header :: window, after, hblocks, hafter⟩
  have hcomplete : Complete (header :: window) (some (.layout m)) :=
    hs.each (header :: window, some (.layout m)) (by simp [hblocks])
  obtain ⟨header', window', size', hlines, gives', keys, press, release, hm⟩ :=
    hcomplete.gives_length
  cases hlines
  rw [gives.unique gives']
  exact ⟨keys, press, release, hm ▸ hlast⟩

/-! ### Shares of a length -/

theorem toNat_share (size : UInt64) : (size / layoutShares).toNat = size.toNat / 5 :=
  UInt64.toNat_div ..

/-- Two of five shares of a number of 64 bits are a number of 64 bits. -/
theorem toNat_doubledShare (size : UInt64) :
    (size / layoutShares * 2).toNat = 2 * (size.toNat / 5) := by
  have hsize : size.toNat < 2 ^ 64 := size.toNat_lt
  rw [UInt64.toNat_mul, toNat_share, show (2 : UInt64).toNat = 2 from rfl, Nat.mod_eq_of_lt]
  · omega
  · omega

/-- The lengths of the matrices at some positions, as numbers. -/
theorem LayoutMatrices.toNat_length (size keys press release : UInt64) (matrix : Matrix) :
    ((ofKeyLength (size / layoutShares) keys press release).extent matrix).length.toNat =
      if matrix = .keys then size.toNat / 5 else 2 * (size.toNat / 5) := by
  cases matrix with
  | keys => exact toNat_share size
  | press => exact toNat_doubledShare size
  | release => exact toNat_doubledShare size

end LinkerMap

/-! ### Reports -/

namespace Report
open Files LinkerMap Node Source

variable {metadata : Metadata} {mapTree sourceTree report : Node}

/-- The length that a report records of a matrix. -/
def matrixLength? (report : Node) (matrix : Matrix) : Option Nat :=
  ((report.getPath? [Key.layoutMatrices, matrix.symbol, Key.length]).bind number?).map UInt64.toNat

/-- The number of layers that a report records. -/
def layerCount? (report : Node) : Option Nat :=
  ((report.getPath? [Key.miscellaneous, "number-of-layers"]).bind number?).map UInt64.toNat

/-- The layers of a key matrix that has its share of a length. -/
theorem toNat_numberOfLayers (size : UInt64) :
    (numberOfLayers (size / layoutShares)).toNat = size.toNat / 420 := by
  rw [numberOfLayers, UInt64.toNat_div, toNat_share, Nat.div_div_eq_div_mul]
  rfl

/-- Whatever a report was merged from, it records the layers of the merged key matrix. -/
theorem layerCount?_report (h : (combine metadata mapTree sourceTree).result = .ok report) :
    ∃ length, keyLength? ((metadata.node.merge mapTree).merge sourceTree) = some length ∧
      layerCount? report = some (numberOfLayers length).toNat := by
  obtain ⟨length, hlength, rfl⟩ := exists_layers h
  refine ⟨length, hlength, ?_⟩
  have hcount := getPath?_merge_atPath ((metadata.node.merge mapTree).merge sourceTree)
    [Key.miscellaneous, "number-of-layers"]
    (rfl : (number (numberOfLayers length)).isMap = false)
  exact congrArg (fun n => (n.bind number?).map UInt64.toNat) hcount

/-- The lengths of a report come to a length: a fifth for the key matrix, and twice that for
each of the others; together they leave less than five bytes over. -/
structure Measured (size : Nat) (report : Node) : Prop where
  keys : matrixLength? report .keys = some (size / 5)
  press : matrixLength? report .press = some (2 * (size / 5))
  release : matrixLength? report .release = some (2 * (size / 5))
  fits : 2 * (size / 5) < UInt64.size
  total : ∀ keys press release, matrixLength? report .keys = some keys →
    matrixLength? report .press = some press → matrixLength? report .release = some release →
    keys + press + release ≤ size ∧ size < keys + press + release + 5
  layers : layerCount? report = some (size / 420)

/-- A report has the length of each matrix that its map recorded last. -/
theorem matrixLength?_report {records : List Record} {m : LayoutMatrices}
    (hlast : lastMatrices? records = some m) (hS : Source.Shape sourceTree)
    (h : (combine metadata (treeOf records) sourceTree).result = .ok report) (matrix : Matrix) :
    matrixLength? report matrix = some (m.extent matrix).length.toNat := by
  rw [matrixLength?, getPath?_layout hS h, getPath?_treeOf_length, hlast]
  rfl

/-- The lengths of a report come to that of the last layout header, whatever the sources are. -/
theorem measured_of_combine {lines : List String} {blocks : List (List String × Option Record)}
    {size : UInt64} (hs : Splits lines blocks) (hlast : LastHeaderGives blocks size)
    (hS : Source.Shape sourceTree)
    (h : (combine metadata (treeOf (recordsOf blocks)) sourceTree).result = .ok report) :
    Measured size.toNat report := by
  obtain ⟨keys, press, release, hm⟩ := hs.lastMatrices?_eq hlast
  have hlength (matrix : Matrix) : matrixLength? report matrix =
      some (if matrix = .keys then size.toNat / 5 else 2 * (size.toNat / 5)) := by
    rw [matrixLength?_report hm hS h, LayoutMatrices.toNat_length]
  constructor
  case keys => exact hlength .keys
  case press => exact hlength .press
  case release => exact hlength .release
  case fits =>
    rw [← toNat_doubledShare]
    exact UInt64.toNat_lt_size _
  case total =>
    intro keys press release hkeys hpress hrelease
    rw [hlength] at hkeys hpress hrelease
    cases hkeys
    cases hpress
    cases hrelease
    simp only [if_pos, reduceCtorEq, if_false]
    omega
  case layers =>
    obtain ⟨length, hmerged, hlayers⟩ := layerCount?_report h
    rw [keyLength?_merged _ _ hS, keyLength?_treeOf, hm] at hmerged
    cases hmerged
    rw [hlayers]
    exact congrArg some (toNat_numberOfLayers size)

/-! ### Main theorem -/

/-- **The lengths of a report come to the length that its last layout header gives.** A report is
made from a map whose last layout block has a header with a length; of that length it records
one fifth for the key matrix, exactly two fifths for each of the others, and a layer for every
420 bytes. -/
theorem lengths_of_section {v : View} {clock : Clock} {c : Config}
    (h : (assemble v clock c).result = .ok report) :
    ∃ content, v.entry c.mapFile = .ok (.file content) ∧ (∃ size, SectionLength content size) ∧
      ∀ size, SectionLength content size → Measured size.toNat report := by
  obtain ⟨passes, map, sources, hmap, hsources, hcombine⟩ := parts_of_report h
  obtain ⟨content, hentry, hread⟩ := exists_content_of_treeOfFile passes.mapFile hmap
  obtain ⟨lines, blocks, hlines, hs, rfl⟩ := exists_splits_of_content hread
  have hS := shape_of_scanTree hsources
  refine ⟨content, hentry, ?_, fun size hsize => ?_⟩
  · obtain ⟨length, hlength, -⟩ := exists_layers hcombine
    rw [keyLength?_merged _ _ hS, keyLength?_treeOf] at hlength
    obtain ⟨m, hm, -⟩ := Option.map_eq_some_iff.mp hlength
    obtain ⟨size, hsize⟩ := hs.exists_lastHeaderGives hm
    exact ⟨size, lines, blocks, hlines, hs, hsize⟩
  · obtain ⟨others, split, hothers, hsplit, hlast⟩ := hsize
    -- The lines of a content are the same however they are told, and they split only once.
    obtain rfl : lines = others := readable_injective (hlines.symm.trans hothers)
    obtain rfl : split = blocks := hs.unique hsplit
    exact measured_of_combine hs hlast hS hcombine

/-- Of two layouts the second counts, and the largest length is no exception. -/
theorem lengths_of_section_largest :
    let window := [" 0x0 _kb_layout", " 0x20 _kb_layout_press", " 0x40 _kb_layout_release"]
    let lines := ".progmem.data.layout 0x0 0x19" :: window ++
      ".progmem.data.layout 0x0 0xffffffffffffffff" :: window
    let content := (lines.foldl (fun text line => text ++ line ++ "\n") "").toUTF8
    let source := "/*\n * [length]\n * 7\n */\nvoid kbfun_a(void);\n".toUTF8
    let v : View := ⟨fun path => if path = "firmware.map" then .ok (.file content)
      else .ok (.folder [("a.c", .file source)]), fun _ => false⟩
    let c : Config := ⟨"firmware.map", "src", "2013", "e5d2", none, "c", false, 4⟩
    let clock : Clock := ⟨⟨2013, 6, 1, 12, 0, 0, 0⟩, ⟨1⟩, ⟨1⟩, ⟨2⟩⟩
    ∃ report, (assemble v clock c).result = .ok report ∧
      SectionLength content 0xffffffffffffffff ∧ Measured 18446744073709551615 report := by
  intro window lines content source v c clock
  have hok : (assemble v clock c).result.isOk := by decide +kernel
  cases hreport : (assemble v clock c).result with
  | error e =>
    rw [hreport] at hok
    cases hok
  | ok report =>
    have keysAt : Positioned window .keys 0 :=
      ⟨" 0x0 _kb_layout", by decide, "0x0".toList, by decide +kernel, by decide⟩
    have pressAt : Positioned window .press 0x20 :=
      ⟨" 0x20 _kb_layout_press", by decide, "0x20".toList, by decide +kernel, by decide⟩
    have releaseAt : Positioned window .release 0x40 :=
      ⟨" 0x40 _kb_layout_release", by decide, "0x40".toList, by decide +kernel, by decide⟩
    have first : GivesLength ".progmem.data.layout 0x0 0x19" 0x19 :=
      ⟨"0x0".toList, "0x19".toList, by decide +kernel, by decide⟩
    have last : GivesLength ".progmem.data.layout 0x0 0xffffffffffffffff" 0xffffffffffffffff :=
      ⟨"0x0".toList, "0xffffffffffffffff".toList, by decide +kernel, by decide⟩
    have hs := Splits.cons (.layout (by decide +kernel) first rfl keysAt pressAt releaseAt)
      (.cons (.layout (by decide +kernel) last rfl keysAt pressAt releaseAt) .nil)
    have hlines : linesOf content = readable lines := by decide +kernel
    have hsize : SectionLength content 0xffffffffffffffff :=
      ⟨lines, _, hlines, hs, [_], _, window, _, [], rfl, nofun, last⟩
    obtain ⟨content', hentry, -, measured⟩ := lengths_of_section hreport
    have hcontent : v.entry c.mapFile = .ok (.file content) := by simp [v, c]
    rw [hcontent] at hentry
    cases hentry
    exact ⟨report, rfl, hsize, measured _ hsize⟩

end Report

end KeyboardInfo
