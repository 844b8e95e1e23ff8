import KeyboardInfo.Proofs.Concatenation
import KeyboardInfo.Proofs.Outcomes
import KeyboardInfo.Proofs.Shapes

/-! What the tree of a linker map holds of its records.

A function may be recorded more than once, and so may the layout. Extents have the same
fields, so an extent that is merged into another replaces it whole, and so do the matrices
of a layout (`Extent.merge_node`, `LayoutMatrices.merge_content`). Of each function the tree
has the extent that was recorded last, then, and it has the matrices that were recorded last,
all three from one record (`holds_last_records`). -/
namespace KeyboardInfo

/-! ### Nodes that replace each other -/

namespace Node

/-- A map takes the place of one with the same fields where each of its values does. -/
theorem HasFields.merge_eq {fields : List String} {a b : Node} (ha : a.HasFields fields)
    (hb : b.HasFields fields)
    (each : ∀ key old new, a.get? key = some old → b.get? key = some new → old.merge new = new) :
    a.merge b = b := by
  refine ext_get? (isMap_merge hb.isMap) hb.isMap fun key => ?_
  rw [get?_merge_eq ha.isMap hb.isMap]
  cases hold : a.get? key with
  | none => exact Option.merge_none_left
  | some old =>
    have hkey : key ∈ fields := (ha.keys key).mp (by rw [hold]; rfl)
    obtain ⟨new, hnew⟩ := Option.isSome_iff_exists.mp ((hb.keys key).mpr hkey)
    rw [hnew, Option.merge_some_some, each key old new hold hnew]

/-- Of nodes that replace each other, the last one that is merged in stays. -/
theorem getPath?_foldl_merge_of_replacing {α β : Type} {node : α → Node} {find : α → Option β}
    {value : β → Node} {path : List String} (hne : path ≠ [])
    (each : ∀ x, (node x).getPath? path = (find x).map value)
    (passes : ∀ x, (node x).blocks path = false)
    (replaces : ∀ a b, (value a).merge (value b) = value b) (xs : List α) :
    (xs.foldl (fun tree x => tree.merge (node x)) empty).getPath? path =
      ((xs.filterMap find).getLast?).map value := by
  induction xs using List.reverseRecOn with
  | nil =>
    obtain ⟨key, path, rfl⟩ := List.exists_cons_of_ne_nil hne
    simp
  | append_singleton xs x ih =>
    rw [List.foldl_append, List.foldl_cons, List.foldl_nil, getPath?_merge, passes x,
      if_neg Bool.false_ne_true, ih, each x, List.filterMap_append, List.getLast?_append]
    cases hx : find x with
    | none => simp [hx]
    | some b =>
      cases (xs.filterMap find).getLast? with
      | none => simp [hx]
      | some a => simp [hx, replaces]

end Node

namespace LinkerMap
open Files Node Text

/-! ### What records say -/

/-- The extent that a record gives a function. -/
def Record.extentOf? (name : String) : Record → Option Extent
  | .function f => if name = f.name then some f.extent else none
  | .layout _ => none

/-- The matrices that a record gives the layout. -/
def Record.matrices? : Record → Option LayoutMatrices
  | .function _ => none
  | .layout m => some m

/-- The extent that was recorded last for a function. -/
def lastExtent? (name : String) (records : List Record) : Option Extent :=
  (records.filterMap fun r => r.extentOf? name).getLast?

/-- The matrices that were recorded last. -/
def lastMatrices? (records : List Record) : Option LayoutMatrices :=
  (records.filterMap Record.matrices?).getLast?

theorem isSome_getLast?_filterMap {α β : Type} (f : α → Option β) (xs : List α) :
    (xs.filterMap f).getLast?.isSome ↔ ∃ x ∈ xs, (f x).isSome := by
  rw [List.getLast?_isSome, ne_eq, List.filterMap_eq_nil_iff]
  simp [Option.isSome_iff_ne_none]

theorem isSome_lastExtent? (name : String) (records : List Record) :
    (lastExtent? name records).isSome ↔ ∃ extent, .function ⟨name, extent⟩ ∈ records := by
  rw [lastExtent?, isSome_getLast?_filterMap]
  constructor
  · rintro ⟨r, hr, hsome⟩
    obtain ⟨extent, hextent⟩ := Option.isSome_iff_exists.mp hsome
    cases r with
    | function f =>
      obtain ⟨rfl, -⟩ := Option.ite_none_right_eq_some.mp hextent
      exact ⟨f.extent, hr⟩
    | layout m => cases hextent
  · rintro ⟨extent, h⟩
    exact ⟨_, h, by rw [Record.extentOf?, if_pos rfl, Option.isSome_some]⟩

theorem isSome_lastMatrices? (records : List Record) :
    (lastMatrices? records).isSome ↔ ∃ m, .layout m ∈ records := by
  rw [lastMatrices?, isSome_getLast?_filterMap]
  constructor
  · rintro ⟨r, hr, hsome⟩
    cases r with
    | function f => cases hsome
    | layout m => exact ⟨m, hr⟩
  · rintro ⟨m, h⟩
    exact ⟨_, h, rfl⟩

/-! ### Extents -/

/-- A node holds just the position and the length of an extent. -/
structure IsExtent (n : Node) (e : Extent) : Prop where
  fields : n.HasFields extentFields
  position : n.get? Key.position = some (.number e.position)
  length : n.get? Key.length = some (.number e.length)

theorem Extent.get?_node (e : Extent) (field : String) :
    e.node.get? field =
      if field = Key.length then some (.number e.length)
      else if field = Key.position then some (.number e.position) else none := by
  rw [node, get?_insert rfl, get?_single]

theorem Extent.isExtent (e : Extent) : IsExtent e.node e := by
  refine ⟨e.hasFields, ?_, ?_⟩
  · rw [get?_node, if_neg (by decide), if_pos rfl]
  · rw [get?_node, if_pos rfl]

/-- An extent takes the place of another one, of which nothing is left. -/
theorem Extent.merge_node (old new : Extent) : old.node.merge new.node = new.node := by
  refine old.hasFields.merge_eq new.hasFields fun field a b ha hb => ?_
  have hleaf : b.isMap = false := new.layered.2 field b hb
  exact merge_of_not_isMap a hleaf

/-! ### Layouts -/

def LayoutMatrices.extent (m : LayoutMatrices) : Matrix → Extent
  | .keys => m.keys
  | .press => m.press
  | .release => m.release

/-- The records of the matrices by symbol. -/
def LayoutMatrices.content (m : LayoutMatrices) : Node :=
  ((Node.single Matrix.keys.symbol m.keys.node).insert Matrix.press.symbol m.press.node).insert
    Matrix.release.symbol m.release.node

def matrixSymbols : List String := Matrix.all.map Matrix.symbol

theorem mem_matrixSymbols {key : String} : key ∈ matrixSymbols ↔ ∃ m : Matrix, key = m.symbol := by
  constructor
  · intro h
    obtain ⟨m, -, rfl⟩ := List.mem_map.mp h
    exact ⟨m, rfl⟩
  · rintro ⟨m, rfl⟩
    cases m <;> decide

theorem LayoutMatrices.get?_content (m : LayoutMatrices) (matrix : Matrix) :
    m.content.get? matrix.symbol = some (m.extent matrix).node := by
  rw [content, get?_insert rfl, get?_insert rfl, get?_single]
  cases matrix with
  | keys => rw [if_neg (by decide), if_neg (by decide), if_pos rfl]; rfl
  | press => rw [if_neg (by decide), if_pos rfl]; rfl
  | release => rw [if_pos rfl]; rfl

theorem LayoutMatrices.content_hasFields (m : LayoutMatrices) :
    m.content.HasFields matrixSymbols := by
  refine ⟨rfl, fun key => ?_⟩
  by_cases h : key ∈ matrixSymbols
  · obtain ⟨matrix, rfl⟩ := mem_matrixSymbols.mp h
    rw [get?_content]
    exact ⟨fun _ => h, fun _ => rfl⟩
  · have hne (matrix : Matrix) : key ≠ matrix.symbol := fun heq =>
      h (mem_matrixSymbols.mpr ⟨matrix, heq⟩)
    rw [content, get?_insert rfl, get?_insert rfl, get?_single, if_neg (hne .release),
      if_neg (hne .press), if_neg (hne .keys)]
    exact ⟨nofun, fun hkey => absurd hkey h⟩

/-- The matrices of a layout take the place of another's, all three of them. -/
theorem LayoutMatrices.merge_content (old new : LayoutMatrices) :
    old.content.merge new.content = new.content := by
  refine old.content_hasFields.merge_eq new.content_hasFields fun key a b ha hb => ?_
  have hkey : key ∈ matrixSymbols := (old.content_hasFields.keys key).mp (by rw [ha]; rfl)
  obtain ⟨matrix, rfl⟩ := mem_matrixSymbols.mp hkey
  rw [get?_content] at ha hb
  cases ha
  cases hb
  exact Extent.merge_node ..

/-! ### Trees of records -/

theorem Record.getPath?_function (r : Record) (name : String) :
    r.node.getPath? [Key.keyboardFunctions, name] = (r.extentOf? name).map Extent.node := by
  cases r with
  | function f =>
    simp only [Record.node, KeyFunction.node, Record.extentOf?]
    rw [getPath?_single, getPath?_singleton, get?_single]
    split <;> rfl
  | layout m => rfl

theorem Record.getPath?_layout (r : Record) :
    r.node.getPath? [Key.layoutMatrices] = r.matrices?.map LayoutMatrices.content := by
  cases r with
  | function f => rfl
  | layout m => exact getPath?_single ..

/-- The tree has the extent that was recorded last for a function. -/
theorem getPath?_treeOf_function (records : List Record) (name : String) :
    (treeOf records).getPath? [Key.keyboardFunctions, name] =
      (lastExtent? name records).map Extent.node :=
  getPath?_foldl_merge_of_replacing (by simp) (fun r => r.getPath?_function name)
    (fun r => r.layered.blocks_eq_false (by simp)) Extent.merge_node records

/-- The tree has the matrices that were recorded last. -/
theorem get?_treeOf_layout (records : List Record) :
    (treeOf records).get? Key.layoutMatrices =
      (lastMatrices? records).map LayoutMatrices.content := by
  rw [← getPath?_singleton]
  exact getPath?_foldl_merge_of_replacing (by simp) Record.getPath?_layout
    (fun r => r.layered.blocks_eq_false (by simp)) LayoutMatrices.merge_content records

/-- The tree has the length of each matrix that was recorded last. -/
theorem getPath?_treeOf_length (records : List Record) (matrix : Matrix) :
    (treeOf records).getPath? [Key.layoutMatrices, matrix.symbol, Key.length] =
      (lastMatrices? records).map fun m => .number (m.extent matrix).length := by
  rw [getPath?_cons, get?_treeOf_layout]
  cases lastMatrices? records with
  | none => rfl
  | some m =>
    rw [Option.map_some, Option.bind_some, getPath?_cons, m.get?_content, Option.bind_some,
      getPath?_singleton, Extent.get?_node, if_pos rfl]
    rfl

/-! ### Names -/

/-- A function is recorded under a marked name that is one token. -/
structure IsFunctionName (name : String) : Prop where
  marked : functionMark <+: name.toList
  solid : ∀ c ∈ name.toList, isBlank c = false

theorem NamesFunction.isFunctionName {line name : String} (h : NamesFunction line name) :
    IsFunctionName name := by
  obtain ⟨token, htoken, hmark, rfl⟩ := h
  rw [← String.toList_ofList (l := token)] at hmark
  refine ⟨hmark, ?_⟩
  rw [String.toList_ofList]
  exact solid_of_mem_tokens (mem_tokens_of_symbolToken? htoken)

/-- Whatever lines split, the functions recorded from them have such names. -/
theorem Splits.isFunctionName {lines : List String} {blocks : List (List String × Option Record)}
    (h : Splits lines blocks) {f : KeyFunction} (hf : .function f ∈ recordsOf blocks) :
    IsFunctionName f.name := by
  obtain ⟨⟨texts, _⟩, hblock, rfl⟩ := List.mem_filterMap.mp hf
  cases h.each _ hblock with
  | function opens gives names => exact names.isFunctionName

/-! ### Main theorem -/

/-- Content that is read without fault is text whose lines split into blocks. -/
theorem exists_splits_of_stream {stream : Stream} {tree : Node}
    (h : (Extraction.ofCursor (.ofStream stream)).result = .ok tree) :
    ∃ lines blocks, stream.lines = readable lines ∧ Splits lines blocks ∧
      tree = treeOf (recordsOf blocks) := by
  obtain ⟨lines, hlines⟩ := exists_readable_of_result h
  have hresult : (Extraction.ofLines 0 0 (readable lines)).result = .ok tree := by
    rw [← hlines]
    exact h
  obtain ⟨blocks, hs, htree⟩ := exists_splits_of_result hresult
  exact ⟨lines, blocks, hlines, hs, htree⟩

theorem exists_splits_of_content {content : ByteArray} {tree : Node}
    (h : (Extraction.ofCursor (.ofContent content)).result = .ok tree) :
    ∃ lines blocks, linesOf content = readable lines ∧ Splits lines blocks ∧
      tree = treeOf (recordsOf blocks) := by
  rw [← lines_ofContent]
  exact exists_splits_of_stream h

/-- The functions of a tree are those that were recorded, each with its last extent. -/
structure HoldsFunctions (records : List Record) (functions : Node) : Prop where
  isMap : functions.isMap
  nonempty : ∃ name, (functions.get? name).isSome
  recorded : ∀ name, (functions.get? name).isSome ↔ ∃ extent, .function ⟨name, extent⟩ ∈ records
  names : ∀ name, (functions.get? name).isSome → IsFunctionName name
  extents : ∀ name record, functions.get? name = some record →
    ∃ extent, lastExtent? name records = some extent ∧ IsExtent record extent

/-- The matrices of a tree are those that were recorded last. -/
structure HoldsLayout (records : List Record) (matrices : Node) : Prop where
  symbols : matrices.HasFields matrixSymbols
  extents : ∃ m, lastMatrices? records = some m ∧ ∀ (matrix : Matrix) (record : Node),
    matrices.get? matrix.symbol = some record → IsExtent record (m.extent matrix)

/-- A tree holds what was recorded last, and nothing else. -/
structure HoldsLast (records : List Record) (tree : Node) : Prop where
  isMap : tree.isMap
  sections : ∀ key, (tree.get? key).isSome → key ∈ [Key.keyboardFunctions, Key.layoutMatrices]
  hasFunctions : (tree.get? Key.keyboardFunctions).isSome ↔ ∃ f, .function f ∈ records
  hasLayout : (tree.get? Key.layoutMatrices).isSome ↔ ∃ m, .layout m ∈ records
  functions : ∀ functions, tree.get? Key.keyboardFunctions = some functions →
    HoldsFunctions records functions
  layout : ∀ matrices, tree.get? Key.layoutMatrices = some matrices → HoldsLayout records matrices

theorem holdsFunctions_treeOf {records : List Record} {functions : Node}
    (hnames : ∀ f, .function f ∈ records → IsFunctionName f.name)
    (hshape : functions.Records extentFields)
    (h : (treeOf records).get? Key.keyboardFunctions = some functions) :
    HoldsFunctions records functions := by
  have hget (name : String) : functions.get? name = (lastExtent? name records).map Extent.node := by
    rw [← getPath?_treeOf_function, getPath?_cons, h, Option.bind_some, getPath?_singleton]
  have hrecorded (name : String) : (functions.get? name).isSome ↔
      ∃ extent, .function ⟨name, extent⟩ ∈ records := by
    rw [hget, Option.isSome_map, isSome_lastExtent?]
  constructor
  case isMap => exact hshape.isMap
  case nonempty => exact hshape.nonempty
  case recorded => exact hrecorded
  case names =>
    intro name hname
    obtain ⟨extent, hextent⟩ := (hrecorded name).mp hname
    exact hnames _ hextent
  case extents =>
    intro name record hname
    rw [hget] at hname
    obtain ⟨extent, hextent, rfl⟩ := Option.map_eq_some_iff.mp hname
    exact ⟨extent, hextent, extent.isExtent⟩

theorem holdsLayout_treeOf {records : List Record} {matrices : Node}
    (h : (treeOf records).get? Key.layoutMatrices = some matrices) :
    HoldsLayout records matrices := by
  rw [get?_treeOf_layout] at h
  obtain ⟨m, hm, rfl⟩ := Option.map_eq_some_iff.mp h
  refine ⟨m.content_hasFields, m, hm, fun matrix record hrecord => ?_⟩
  rw [LayoutMatrices.get?_content] at hrecord
  cases hrecord
  exact (m.extent matrix).isExtent

theorem isSome_get?_treeOf_functions {records : List Record}
    (holds : ∀ functions, (treeOf records).get? Key.keyboardFunctions = some functions →
      HoldsFunctions records functions) :
    ((treeOf records).get? Key.keyboardFunctions).isSome ↔ ∃ f, .function f ∈ records := by
  constructor
  · intro h
    obtain ⟨functions, hfunctions⟩ := Option.isSome_iff_exists.mp h
    obtain ⟨name, hname⟩ := (holds functions hfunctions).nonempty
    obtain ⟨extent, hextent⟩ := ((holds functions hfunctions).recorded name).mp hname
    exact ⟨_, hextent⟩
  · rintro ⟨⟨name, extent⟩, h⟩
    have hpath := getPath?_treeOf_function records name
    obtain ⟨last, hlast⟩ :=
      Option.isSome_iff_exists.mp ((isSome_lastExtent? name records).mpr ⟨extent, h⟩)
    rw [hlast, Option.map_some] at hpath
    obtain ⟨functions, hfunctions, -⟩ := getPath?_cons_eq_some_iff.mp hpath
    rw [hfunctions, Option.isSome_some]

theorem isSome_get?_treeOf_layout (records : List Record) :
    ((treeOf records).get? Key.layoutMatrices).isSome ↔ ∃ m, .layout m ∈ records := by
  rw [get?_treeOf_layout, Option.isSome_map, isSome_lastMatrices?]

/-- **The tree of a map holds what its blocks recorded last.** A map that is read without fault
is text to its end and splits into blocks. Its functions have well-formed names and the extent
that was recorded last under the name; its layout has the three matrices of the last block that
records any; and there is nothing else in it. -/
theorem holds_last_records {content : ByteArray} {tree : Node}
    (h : (Extraction.ofCursor (.ofContent content)).result = .ok tree) :
    ∃ lines blocks, linesOf content = readable lines ∧ Splits lines blocks ∧
      HoldsLast (recordsOf blocks) tree := by
  have hshape := shape_of_result h
  obtain ⟨lines, blocks, hlines, hs, rfl⟩ := exists_splits_of_content h
  have hfunctions (functions : Node)
      (h : (treeOf (recordsOf blocks)).get? Key.keyboardFunctions = some functions) :
      HoldsFunctions (recordsOf blocks) functions :=
    holdsFunctions_treeOf (fun f hf => hs.isFunctionName hf) (hshape.functions functions h) h
  refine ⟨lines, blocks, hlines, hs, ?_⟩
  constructor
  case isMap => exact hshape.isMap
  case sections => exact hshape.sections
  case hasFunctions => exact isSome_get?_treeOf_functions hfunctions
  case hasLayout => exact isSome_get?_treeOf_layout _
  case functions => exact hfunctions
  case layout =>
    intro matrices hmatrices
    exact holdsLayout_treeOf hmatrices

/-- A function that is linked again leaves only its new extent, and a second layout only its
own matrices. -/
theorem holds_last_records_relinked :
    let first := ".text.kbfun_a\n 0x10 0x4 a.o\n 0x10 kbfun_a\n" ++
      ".progmem.data.layout 0x20 0x19\n 0x20 _kb_layout\n 0x25 _kb_layout_press\n" ++
      " 0x2f _kb_layout_release\n"
    let second := ".text.kbfun_a\n 0x40 0x8 b.o\n 0x40 kbfun_a\n" ++
      ".progmem.data.layout 0x50 0x32\n 0x50 _kb_layout\n 0x5a _kb_layout_press\n" ++
      " 0x6e _kb_layout_release\n"
    let content := (first ++ second).toUTF8
    let tree := treeOf [.function ⟨"kbfun_a", 64, 8⟩, .layout (.ofKeyLength 10 80 90 110)]
    (Extraction.ofCursor (.ofContent content)).result = .ok tree ∧
      ∃ lines blocks, linesOf content = readable lines ∧ Splits lines blocks ∧
        HoldsLast (recordsOf blocks) tree := by
  intro first second content tree
  have h : (Extraction.ofCursor (.ofContent content)).result = .ok tree := by decide +kernel
  exact ⟨h, holds_last_records h⟩

end LinkerMap

end KeyboardInfo
