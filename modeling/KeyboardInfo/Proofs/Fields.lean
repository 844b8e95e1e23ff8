import KeyboardInfo.Proofs.Documentation
import KeyboardInfo.Proofs.Trimming
import Mathlib.Data.List.Nodup

/-! What a comment block stores, and the map of it.

The name, the description and the other fields of a block share the keys of one map. The block of
a comment never lists a field under the keys of the first two (`Documents.get?_node`), so that its
map has one entry for each thing the block has (`Documents.perm_items`), and the block can be told
from it (`Documents.eq_of_node`). Every value stored is what some section means: a single line
without outer blanks. A block is empty just when no line of its comment is a marker
(`node_keeps_block`). -/
namespace KeyboardInfo.Source
open Node Text

theorem text_injective : Function.Injective Node.text :=
  fun _ _ h => Raw.text.inj (congrArg raw h)

theorem texts_injective :
    Function.Injective fun values : List String => Node.list (values.map text) := by
  intro values others h
  have hraw := Raw.list.inj (congrArg raw h)
  exact List.map_injective_iff.mpr text_injective
    (List.map_injective_iff.mpr (fun _ _ => ext_raw) hraw)

/-! ### Stored values -/

/-- A value is somewhere in a block. -/
def CommentBlock.Stores (b : CommentBlock) (value : String) : Prop :=
  b.name = some value ∨ b.description = some value ∨
    ∃ key values, b.fields.get? key = some values ∧ value ∈ values

/-- A single line without blanks at its ends. -/
structure Tidy (value : String) : Prop where
  newline : '\n' ∉ value.toList
  head : ∀ c ∈ value.toList.head?, isBlank c = false
  last : ∀ c ∈ value.toList.getLast?, isBlank c = false

theorem not_mem_joined {lines : List (List Char)} (h : ∀ line ∈ lines, '\n' ∉ line) :
    '\n' ∉ joined lines := by
  induction lines with
  | nil => exact List.not_mem_nil
  | cons line rest ih =>
    obtain ⟨hline, hrest⟩ := List.forall_mem_cons.mp h
    cases rest with
    | nil => exact hline
    | cons next rest =>
      have hgap : '\n' ∉ gapAfter line := by
        rw [gapAfter]
        split <;> decide
      rw [joined, List.append_assoc, List.mem_append, List.mem_append, not_or, not_or]
      exact ⟨hline, hgap, ih hrest⟩

theorem FieldSection.tidy_meaning {s : FieldSection} (h : ∀ line ∈ s.lines, '\n' ∉ line) :
    Tidy s.meaning := by
  have htext : s.meaning.toList = trim (joined s.lines) := String.toList_ofList
  constructor
  · rw [htext]
    exact fun hmem => not_mem_joined h (mem_of_mem_trim hmem)
  · rw [htext, ← trimStart_trim]
    exact fun c hc => not_isBlank_of_head?_trimStart hc
  · rw [htext]
    exact fun c hc => not_isBlank_of_getLast?_trimEnd hc

/-- What a block has, each under its key. -/
def CommentBlock.items (b : CommentBlock) : List (String × Node) :=
  (b.name.map fun name => ("name", .text name)).toList ++
    (b.description.map fun description => ("description", .text description)).toList ++
    b.fields.entries.map fun entry => (entry.1, .list (entry.2.map .text))

/-! ### Blocks that document sections -/

namespace Documents
variable {parts : List FieldSection} {b : CommentBlock} (h : Documents parts b)
include h

/-- What a block stores, one of its sections means. -/
theorem exists_of_stores {value : String} (hvalue : b.Stores value) :
    ∃ s ∈ parts, s.meaning = value := by
  have hfind {p : FieldSection → Bool}
      (hp : (parts.find? p).map FieldSection.meaning = some value) :
      ∃ s ∈ parts, s.meaning = value := by
    obtain ⟨s, hs, hmeaning⟩ := Option.map_eq_some_iff.mp hp
    exact ⟨s, List.mem_of_find?_eq_some hs, hmeaning⟩
  rcases hvalue with hname | hdescription | ⟨key, values, hvalues, hmem⟩
  · exact hfind (h.name.symm.trans hname)
  · exact hfind (h.description.symm.trans hdescription)
  · rw [h.fields] at hvalues
    split at hvalues
    · cases hvalues
    · cases hvalues
      obtain ⟨s, hs, hmeaning⟩ := List.mem_map.mp hmem
      exact ⟨s, List.mem_of_mem_filter hs, hmeaning⟩

theorem ne_nil_of_get? {key : String} {values : List String}
    (hvalues : b.fields.get? key = some values) : values ≠ [] := by
  rw [h.fields] at hvalues
  split at hvalues
  · cases hvalues
  · next hne =>
    cases hvalues
    exact hne

/-- No field is listed under a key that means something else. -/
theorem get?_reserved (key : String) (hkey : key ∈ ["name", "description", "note"]) :
    b.fields.get? key = none := by
  refine h.get?_eq_none fun s _ => ?_
  simp only [List.mem_cons, List.not_mem_nil, or_false] at hkey
  rcases hkey with rfl | rfl | rfl
  · exact s.listed?_ne.1
  · exact s.listed?_ne.2
  · intro hlisted
    rw [FieldSection.listed?] at hlisted
    split at hlisted
    · cases hlisted
    · split at hlisted
      · exact absurd hlisted (by decide)
      · next hnote => exact hnote (Option.some.inj hlisted)

theorem isEmpty_iff : b.isEmpty ↔ parts = [] := by
  constructor
  · intro hempty
    simp only [CommentBlock.isEmpty, Bool.and_eq_true, Option.isNone_iff_eq_none] at hempty
    obtain ⟨⟨hname, hdescription⟩, hfields⟩ := hempty
    rw [h.name, Option.map_eq_none_iff, List.find?_eq_none] at hname
    rw [h.description, Option.map_eq_none_iff, List.find?_eq_none] at hdescription
    refine List.eq_nil_iff_forall_not_mem.mpr fun s hs => ?_
    cases hlisted : s.listed? with
    | none =>
      rcases s.name_of_listed?_eq_none hlisted with hfield | hfield
      · exact hname s hs (by simpa using hfield)
      · exact hdescription s hs (by simpa using hfield)
    | some key =>
      have hentries : b.fields.entries = [] := List.isEmpty_iff.mp hfields
      have hnone : b.fields.get? key = none := by
        rw [Dict.get?, hentries]
        rfl
      have hmem : s.meaning ∈ listedUnder key parts :=
        List.mem_map_of_mem (List.mem_filter.mpr ⟨hs, by simpa using hlisted⟩)
      rw [h.fields, if_neg (List.ne_nil_of_mem hmem)] at hnone
      cases hnone
  · rintro rfl
    have hfields : b.fields = .empty := Dict.ext h.fields
    rw [CommentBlock.isEmpty, h.name, h.description, hfields]
    rfl

/-! ### The map of a block -/

theorem mem_items_iff {key : String} {value : Node} :
    (key, value) ∈ b.items ↔ b.node.get? key = some value := by
  have hname := h.get?_reserved "name" (by decide)
  have hdescription := h.get?_reserved "description" (by decide)
  have hfields : (key, value) ∈ b.fields.entries.map
      (fun entry => (entry.1, Node.list (entry.2.map .text))) ↔
      ∃ values, b.fields.get? key = some values ∧ Node.list (values.map .text) = value := by
    rw [List.mem_map]
    constructor
    · rintro ⟨⟨field, values⟩, hentry, heq⟩
      cases heq
      exact ⟨values, b.fields.ordered.lookup_eq_some_iff.mpr hentry, rfl⟩
    · rintro ⟨values, hvalues, rfl⟩
      exact ⟨(key, values), b.fields.ordered.lookup_eq_some_iff.mp hvalues, rfl⟩
  rw [h.get?_node, CommentBlock.items, List.mem_append, List.mem_append, hfields,
    CommentBlock.value?]
  by_cases heq : key = "name"
  · subst heq
    simp [hname]
  by_cases heq' : key = "description"
  · subst heq'
    simp [hdescription]
  · simp [heq, heq', Ne.symm heq, Ne.symm heq']

theorem nodup_items : b.items.Nodup := by
  have hkeys := b.fields.ordered.nodup_keys
  have habsent (key : String) (hkey : key ∈ ["name", "description", "note"]) :
      key ∉ b.fields.entries.map Prod.fst := by
    intro hmem
    obtain ⟨⟨field, values⟩, hentry, rfl⟩ := List.mem_map.mp hmem
    have hfound : b.fields.get? field = some values :=
      b.fields.ordered.lookup_eq_some_iff.mpr hentry
    exact Option.some_ne_none _ (hfound.symm.trans (h.get?_reserved _ hkey))
  have hname := habsent "name" (by decide)
  have hdescription := habsent "description" (by decide)
  have hfirst : b.items.map Prod.fst = (b.name.map fun _ => "name").toList ++
      (b.description.map fun _ => "description").toList ++ b.fields.entries.map Prod.fst := by
    cases hn : b.name <;> cases hd : b.description <;> simp [CommentBlock.items, hn, hd]
  refine List.Nodup.of_map Prod.fst ?_
  rw [hfirst]
  cases b.name <;> cases b.description <;> simp [hkeys, hname, hdescription, -List.mem_map]

/-- The map of a block has one entry for each thing that the block has. -/
theorem perm_items : ∃ entries, b.node.entries? = some entries ∧ entries.Perm b.items := by
  obtain ⟨entries, hentries, hordered, hmem⟩ := exists_entries b.layered.1
  have hnodup : entries.Nodup := .of_map Prod.fst hordered.nodup_keys
  refine ⟨entries, hentries, (List.perm_ext_iff_of_nodup hnodup h.nodup_items).mpr fun entry => ?_⟩
  rw [hmem entry.1 entry.2, h.mem_items_iff]

omit h in
/-- A block that comes from a comment can be told from its map. -/
theorem eq_of_node {others : List FieldSection} {other : CommentBlock} (h : Documents parts b)
    (h' : Documents others other) (hnode : b.node = other.node) : b = other := by
  have hvalue (key : String) : b.value? key = other.value? key := by
    rw [← h.get?_node, ← h'.get?_node, hnode]
  obtain ⟨name, description, fields⟩ := b
  obtain ⟨name', description', fields'⟩ := other
  have hname : name = name' := Option.map_injective text_injective (hvalue "name")
  have hdescription : description = description' :=
    Option.map_injective text_injective (hvalue "description")
  have hfields : fields = fields' := by
    refine Dict.ext fun key => ?_
    by_cases hkey : key ∈ ["name", "description", "note"]
    · exact (h.get?_reserved key hkey).trans (h'.get?_reserved key hkey).symm
    · have hkeys : key ≠ "name" ∧ key ≠ "description" := by
        simp at hkey
        exact ⟨hkey.1, hkey.2.1⟩
      have := hvalue key
      simp only [CommentBlock.value?, hkeys.1, hkeys.2, if_false] at this
      exact Option.map_injective texts_injective this
  rw [hname, hdescription, hfields]

end Documents

/-! ### Main theorem -/

/-- No line of a comment is a marker just when it has no sections. -/
theorem sections_eq_nil_iff {lines : List (List Char)} (hnewline : ∀ line ∈ lines, '\n' ∉ line) :
    (sections lines).2 = [] ↔ ∀ line ∈ lines, ¬ Bracketed line := by
  simp only [bracketed_iff, not_exists]
  constructor
  · intro hnil
    have hs := sectioned_sections hnewline
    have hlines := hs.flatten
    rw [hnil, List.flatMap_nil, List.append_nil] at hlines
    rw [hlines]
    exact hs.preamble
  · intro plain
    have hall := sections_append_plain hnewline plain []
    rw [List.append_nil] at hall
    rw [hall]
    rfl

/-- **The map of a comment block loses nothing.** The block of a comment lists no field under the
keys of the name and the description or as `note`, and no field without a value. All its values
are single lines without outer blanks. It is empty just when no line of the comment is in
brackets. So its map has an entry for each thing that the block has, and no two blocks have the
same map. -/
theorem node_keeps_block (text : String) :
    let b := CommentBlock.ofText text
    (∀ key ∈ ["name", "description", "note"], b.fields.get? key = none) ∧
    (∀ key values, b.fields.get? key = some values → values ≠ []) ∧
    (∀ value, b.Stores value → Tidy value) ∧
    (b.isEmpty ↔ ∀ line ∈ commentLines text, ¬ Bracketed line) ∧
    (∃ entries, b.node.entries? = some entries ∧ entries.Perm b.items) ∧
    ∀ other, (CommentBlock.ofText other).node = b.node ↔ CommentBlock.ofText other = b := by
  intro b
  have h := documents_ofText text
  have hnewline : ∀ line ∈ commentLines text, '\n' ∉ line := fun _ => not_mem_commentLines
  refine ⟨h.get?_reserved, fun _ _ => h.ne_nil_of_get?, fun value hvalue => ?_, ?_,
    h.perm_items, fun other => ⟨(documents_ofText other).eq_of_node h, congrArg _⟩⟩
  · obtain ⟨s, hs, rfl⟩ := h.exists_of_stores hvalue
    refine s.tidy_meaning fun line hline => hnewline line ?_
    rw [(sectioned_sections hnewline).flatten]
    exact List.mem_append_right _ (List.mem_flatMap.mpr ⟨s, hs, List.mem_cons_of_mem _ hline⟩)
  · exact h.isEmpty_iff.trans (sections_eq_nil_iff hnewline)

end KeyboardInfo.Source
