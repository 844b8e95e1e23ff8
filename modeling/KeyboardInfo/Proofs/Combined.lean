import KeyboardInfo.Proofs.Stages

/-! What combining makes of any three trees.

Nothing is assumed here of the trees: a section may be a text where a map is expected, or come
from the sources where it should come from the linker map. Parts are combined just when the
merged tree has a number for the length of the key matrix. The report is the merged tree with
one path put in, that of the number of layers, so it differs from the merged tree along this
path alone and the number belongs to the length that the report itself has (`combine_iff`). -/
namespace KeyboardInfo

namespace Node

theorem number?_eq_some_iff {n : Node} {value : UInt64} :
    n.number? = some value ↔ n = number value := by
  refine ⟨fun h => ?_, fun h => by rw [h]; rfl⟩
  obtain ⟨r, hr⟩ := n
  cases r with
  | number v =>
    cases h
    rfl
  | _ => cases h

end Node

namespace Report
open LinkerMap Node

variable {metadata : Metadata} {mapTree sourceTree merged report : Node}

/-- Where a report has the length of the key matrix. -/
def keyLengthPath : List String := [Key.layoutMatrices, Matrix.keys.symbol, Key.length]

/-- Where a report has the number of layers. -/
def layersPath : List String := [Key.miscellaneous, "number-of-layers"]

theorem keyLength?_eq_some_iff {length : UInt64} :
    keyLength? report = some length ↔ report.getPath? keyLengthPath = some (number length) := by
  constructor
  · intro h
    obtain ⟨node, hnode, hnumber⟩ := Option.bind_eq_some_iff.mp h
    rw [number?_eq_some_iff.mp hnumber] at hnode
    exact hnode
  · intro h
    exact Option.bind_eq_some_iff.mpr ⟨number length, h, rfl⟩

/-- A report is the merged tree and the number of layers of its key matrix. -/
structure AddsLayers (merged report : Node) : Prop where
  layers : ∃ length count, report.getPath? keyLengthPath = some (number length) ∧
    report.getPath? layersPath = some (number count) ∧ count.toNat = length.toNat / 84
  elsewhere : ∀ path, ¬ layersPath <+: path → ¬ path <+: layersPath →
    report.getPath? path = merged.getPath? path
  miscellaneous : ∃ fields, report.get? Key.miscellaneous = some fields ∧ fields.isMap ∧
    ∀ key, key ≠ "number-of-layers" → fields.get? key =
      match merged.get? Key.miscellaneous with
      | some old => if old.isMap then old.get? key else none
      | none => none

theorem addsLayers {length : UInt64} (h : keyLength? merged = some length) :
    AddsLayers merged (merged.merge (atPath layersPath (number (numberOfLayers length)))) := by
  have elsewhere (path : List String) (hat : ¬ layersPath <+: path)
      (hpath : ¬ path <+: layersPath) :=
    getPath?_merge_atPath_apart merged hat hpath (number (numberOfLayers length))
  refine ⟨⟨length, numberOfLayers length, ?_, ?_, ?_⟩, elsewhere, ?_⟩
  · rw [elsewhere keyLengthPath (by decide) (by decide)]
    exact keyLength?_eq_some_iff.mp h
  · exact getPath?_merge_atPath merged layersPath rfl
  · exact UInt64.toNat_div ..
  · obtain ⟨fields, hfields, hmap⟩ : ∃ fields,
        (merged.merge (atPath layersPath (number (numberOfLayers length)))).getPath?
          [Key.miscellaneous] = some fields ∧ fields.isMap :=
      exists_map_merge_atPath merged [Key.miscellaneous] "number-of-layers" [] _
    rw [getPath?_singleton] at hfields
    refine ⟨fields, hfields, hmap, fun key hkey => ?_⟩
    have hother := elsewhere [Key.miscellaneous, key]
      (fun h => hkey (by simpa [layersPath, eq_comm] using h))
      (fun h => hkey (by simpa [layersPath] using h))
    rw [getPath?_cons, hfields, Option.bind_some, getPath?_singleton, getPath?_cons] at hother
    rw [hother]
    cases merged.get? Key.miscellaneous with
    | none => rfl
    | some old =>
      rw [Option.bind_some, getPath?_singleton]
      -- What is no map has nothing under any key.
      cases hold : old.isMap with
      | true => simp [hold]
      | false => simp [hold, get?_of_not_isMap hold]

/-! ### Main theorem -/

/-- **Parts of any shape are combined just when together they give the key matrix a length**,
and then all that is added to them is the number of layers that the report's own key matrix
has: off the path of that number the report is the merged tree, and of the section that holds
the number it keeps what a map can keep. -/
theorem combine_iff (metadata : Metadata) (mapTree sourceTree : Node) :
    let merged := (metadata.node.merge mapTree).merge sourceTree
    (∀ e, (combine metadata mapTree sourceTree).result = .error e ↔
      e = .missingKeyLength ∧
        ∀ length, merged.getPath? keyLengthPath ≠ some (number length)) ∧
    ((∃ length, merged.getPath? keyLengthPath = some (number length)) →
      ∃ report, (combine metadata mapTree sourceTree).result = .ok report ∧
        AddsLayers merged report) := by
  intro merged
  constructor
  · intro e
    rw [combine_eq_error_iff, Option.eq_none_iff_forall_ne_some]
    simp only [ne_eq, keyLength?_eq_some_iff, merged]
  · rintro ⟨length, hlength⟩
    have hkey := keyLength?_eq_some_iff.mpr hlength
    exact ⟨_, combine_eq_ok hkey, addsLayers hkey⟩

/-- The sources give another length to the key matrix, and a text in place of the commit: the
layers are those of the length that counts, and the text gives way to them. -/
theorem combine_iff_overridden :
    let metadata : Metadata := ⟨none, "2012-04-01", "f00"⟩
    let mapTree := LayoutMatrices.node ⟨⟨0, 84⟩, ⟨84, 168⟩, ⟨252, 168⟩⟩
    let sourceTree := (single Key.miscellaneous (text "none")).merge
      (atPath keyLengthPath (number 169))
    let merged := (metadata.node.merge mapTree).merge sourceTree
    merged.getPath? keyLengthPath = some (number 169) ∧
      merged.get? Key.miscellaneous = some (text "none") ∧
      ∃ report, (combine metadata mapTree sourceTree).result = .ok report ∧
        AddsLayers merged report ∧ report.getPath? layersPath = some (number 2) := by
  intro metadata mapTree sourceTree merged
  have hlength : merged.getPath? keyLengthPath = some (number 169) := by decide +kernel
  obtain ⟨report, hreport, adds⟩ :=
    (combine_iff metadata mapTree sourceTree).2 ⟨169, hlength⟩
  refine ⟨hlength, by decide +kernel, report, hreport, adds, ?_⟩
  obtain ⟨length, count, hkept, hcount, hlayers⟩ := adds.layers
  rw [adds.elsewhere keyLengthPath (by decide) (by decide), hlength] at hkept
  cases hkept
  rw [hcount, UInt64.toNat_inj.mp (hlayers.trans (by decide) : count.toNat = (2 : UInt64).toNat)]

end Report

end KeyboardInfo
