import KeyboardInfo.Proofs.Paths
import KeyboardInfo.Proofs.Steps
import KeyboardInfo.LinkerMap.Extraction
import KeyboardInfo.Source.Reading

/-! What the trees of linker maps and of sources look like.

Both are catalogs: maps of certain sections, of which the section of the keyboard
functions has one record or more, all with the same fields (`Catalog`). Merging keeps
this, so whatever text a tree was read from it holds nothing else
(`LinkerMap.shape_of_result`, `Source.shape_of_scanVisits`). -/
namespace KeyboardInfo

/-! ### Catalogs -/

namespace Node

/-- A map with just the given keys. -/
structure HasFields (fields : List String) (n : Node) : Prop where
  isMap : n.isMap
  keys : ∀ key, (n.get? key).isSome ↔ key ∈ fields

/-- A map of one record or more, each with just the given fields. -/
structure Records (fields : List String) (n : Node) : Prop where
  isMap : n.isMap
  nonempty : ∃ name, (n.get? name).isSome
  each : ∀ name record, n.get? name = some record → record.HasFields fields

/-- A map of some of the given sections, whose keyboard functions have the given fields. -/
structure Catalog (sections fields : List String) (tree : Node) : Prop where
  isMap : tree.isMap
  sections : ∀ key, (tree.get? key).isSome → key ∈ sections
  functions : ∀ records, tree.get? Key.keyboardFunctions = some records → records.Records fields

/-- Whether a tree has a record of a keyboard function. -/
def HasFunction (tree : Node) (name : String) : Prop :=
  (tree.getPath? [Key.keyboardFunctions, name]).isSome

instance (tree : Node) (name : String) : Decidable (tree.HasFunction name) :=
  inferInstanceAs (Decidable (_ = true))

variable {sections fields : List String} {a b tree : Node}

theorem hasFields_single (key : String) (value : Node) : (single key value).HasFields [key] := by
  refine ⟨rfl, fun k => ?_⟩
  rw [get?_single, List.mem_singleton]
  split <;> simp_all

theorem HasFields.merge (ha : a.HasFields fields) (hb : b.HasFields fields) :
    (a.merge b).HasFields fields := by
  refine ⟨isMap_merge hb.isMap, fun key => ?_⟩
  rw [get?_merge_eq ha.isMap hb.isMap, Option.isSome_merge, Bool.or_eq_true, ha.keys, hb.keys,
    or_self]

theorem Records.merge (ha : a.Records fields) (hb : b.Records fields) :
    (a.merge b).Records fields := by
  constructor
  case isMap => exact isMap_merge hb.isMap
  case nonempty =>
    obtain ⟨name, h⟩ := ha.nonempty
    refine ⟨name, ?_⟩
    rw [get?_merge_eq ha.isMap hb.isMap, Option.isSome_merge, h, Bool.true_or]
  case each =>
    intro name record h
    rw [get?_merge_eq ha.isMap hb.isMap] at h
    rcases Option.merge_eq_some_iff.mp h with ⟨h, -⟩ | ⟨-, h⟩ | ⟨old, new, ho, hn, rfl⟩
    · exact ha.each name record h
    · exact hb.each name record h
    · exact (ha.each name old ho).merge (hb.each name new hn)

/-- Merging keeps catalogs of the same sections and fields. -/
theorem Catalog.merge (ha : Catalog sections fields a) (hb : Catalog sections fields b) :
    Catalog sections fields (a.merge b) := by
  constructor
  case isMap => exact isMap_merge hb.isMap
  case sections =>
    intro key h
    rw [get?_merge_eq ha.isMap hb.isMap, Option.isSome_merge, Bool.or_eq_true] at h
    exact h.elim (ha.sections key) (hb.sections key)
  case functions =>
    intro records h
    rw [get?_merge_eq ha.isMap hb.isMap] at h
    rcases Option.merge_eq_some_iff.mp h with ⟨h, -⟩ | ⟨-, h⟩ | ⟨old, new, ho, hn, rfl⟩
    · exact ha.functions records h
    · exact hb.functions records h
    · exact (ha.functions old ho).merge (hb.functions new hn)

theorem catalog_empty : Catalog sections fields empty := ⟨rfl, nofun, nofun⟩

/-- Catalogs merged one after the other into a catalog make a catalog. -/
theorem Catalog.foldl {α : Type} {node : α → Node} (each : ∀ x, Catalog sections fields (node x))
    (xs : List α) (h : Catalog sections fields tree) :
    Catalog sections fields (xs.foldl (fun tree x => tree.merge (node x)) tree) := by
  induction xs generalizing tree with
  | nil => exact h
  | cons x xs ih => exact ih (h.merge (each x))

/-- A section is a catalog, if it holds records in case it is that of the functions. -/
theorem catalog_single {key : String} {value : Node} (hs : key ∈ sections)
    (hr : key = Key.keyboardFunctions → value.Records fields) :
    Catalog sections fields (single key value) := by
  constructor
  case isMap => rfl
  case sections =>
    intro k h
    rw [get?_single] at h
    split at h
    · next heq => exact heq ▸ hs
    · cases h
  case functions =>
    intro records h
    obtain ⟨hkey, rfl⟩ := get?_single_eq_some_iff.mp h
    exact hr hkey.symm

theorem records_single (name : String) {record : Node} (h : record.HasFields fields) :
    (single name record).Records fields := by
  constructor
  case isMap => rfl
  case nonempty => exact ⟨name, by rw [get?_single, if_pos rfl, Option.isSome_some]⟩
  case each =>
    intro k r hk
    obtain ⟨-, rfl⟩ := get?_single_eq_some_iff.mp hk
    exact h

theorem Catalog.get?_eq_none (h : Catalog sections fields tree) {key : String}
    (hk : key ∉ sections) : tree.get? key = none := by
  cases hget : tree.get? key with
  | none => rfl
  | some value => exact absurd (h.sections key (by rw [hget]; rfl)) hk

/-- A catalog blocks no path to its functions and their fields. -/
theorem Catalog.blocks_function (h : Catalog sections fields tree) (path : List String)
    (hlength : path.length ≤ 2) : tree.blocks (Key.keyboardFunctions :: path) = false := by
  rw [blocks_cons_of_isMap h.isMap]
  cases hr : tree.get? Key.keyboardFunctions with
  | none => rfl
  | some records =>
    have hrecords := h.functions records hr
    rw [Option.any_some]
    match path, hlength with
    | [], _ => rfl
    | [name], _ => exact blocks_singleton hrecords.isMap name
    | [name, field], _ =>
      rw [blocks_cons_of_isMap hrecords.isMap]
      cases hn : records.get? name with
      | none => rfl
      | some record => exact blocks_singleton (hrecords.each name record hn).isMap field

/-- Each function of a catalog has just the fields that all of them have. -/
theorem Catalog.isSome_field (h : Catalog sections fields tree) (name field : String) :
    (tree.getPath? [Key.keyboardFunctions, name, field]).isSome ↔
      tree.HasFunction name ∧ field ∈ fields := by
  simp only [HasFunction, getPath?_cons, getPath?_nil]
  cases hr : tree.get? Key.keyboardFunctions with
  | none => simp
  | some records =>
    cases hn : records.get? name with
    | none => simp [hn]
    | some record => simpa [hn] using ((h.functions records hr).each name record hn).keys field

/-- A catalog has a section of functions just when it has a function. -/
theorem Catalog.isSome_functions (h : Catalog sections fields tree) :
    (tree.get? Key.keyboardFunctions).isSome ↔ ∃ name, tree.HasFunction name := by
  simp only [HasFunction, getPath?_cons, getPath?_nil]
  cases hr : tree.get? Key.keyboardFunctions with
  | none => simp
  | some records => simpa using (h.functions records hr).nonempty

end Node

/-! ### Linker maps -/

namespace LinkerMap
open Node

/-- The fields that a linker map gives a function. -/
def extentFields : List String := [Key.position, Key.length]

theorem Extent.hasFields (e : Extent) : e.node.HasFields extentFields := by
  refine ⟨rfl, fun key => ?_⟩
  rw [node, get?_insert rfl, get?_single]
  split <;> simp_all [extentFields]

/-- A catalog of extents, and of layout matrices. -/
abbrev Shape (tree : Node) : Prop :=
  Catalog [Key.keyboardFunctions, Key.layoutMatrices] extentFields tree

theorem Record.shape (r : Record) : Shape r.node := by
  cases r with
  | function f =>
    exact catalog_single (by decide) fun _ => records_single f.name f.extent.hasFields
  | layout m => exact catalog_single (by decide) fun h => absurd h (by decide)

/-- Whatever a linker map holds, its tree is such a catalog. -/
theorem shape_of_result {x : Extraction} {tree : Node} (h : x.result = .ok tree) :
    Shape tree := by
  rw [Extraction.result] at h
  split at h
  · cases h
  · obtain rfl := Except.ok.inj h
    exact catalog_empty.foldl Record.shape x.records

end LinkerMap

/-! ### Sources -/

namespace Source
open Node

/-- A catalog of comments. -/
abbrev Shape (tree : Node) : Prop := Catalog [Key.keyboardFunctions] [Key.comments] tree

theorem DocumentedFunction.shape (f : DocumentedFunction) : Shape f.node :=
  catalog_single (by decide) fun _ => records_single f.name (hasFields_single ..)

/-- Whatever sources hold, what they are merged into stays such a catalog. -/
theorem shape_of_scanVisits {tree result : Node} (h : Shape tree) {visits : List Files.Entry.Visit}
    (hscan : (scanVisits tree visits).result = .ok result) : Shape result := by
  rw [result_scanVisits, map_eq_ok_iff] at hscan
  obtain ⟨found, -, rfl⟩ := hscan
  exact h.foldl DocumentedFunction.shape _

end Source

end KeyboardInfo
