import KeyboardInfo.Node.Merge
import Mathlib.Data.List.Infix

/-! Merging, path by path.

A path leads through maps only, so a node that is no map ends every path there: it
blocks whatever goes on below it. What a merge holds at a path is decided by what
the two trees hold at that path and by whether the incoming tree blocks it
(`getPath?_merge`). An incoming tree thus keeps all of its own paths, and takes from
the other just those that it blocks (`merge_path_by_path`). -/
namespace KeyboardInfo.Node

theorem getPath?_singleton (n : Node) (key : String) : n.getPath? [key] = n.get? key := by
  rw [getPath?_cons]
  exact Option.bind_fun_some _

/-! ### Blocked paths -/

theorem get?_of_not_isMap {n : Node} (h : n.isMap = false) (key : String) : n.get? key = none := by
  obtain ⟨r, hr⟩ := n
  cases r with
  | map entries => cases h
  | _ => rfl

/-- Whether some proper prefix of a path leads to a node that is no map. -/
def blocks (n : Node) : List String → Bool
  | [] => false
  | key :: path => !n.isMap || (n.get? key).any fun inner => inner.blocks path

@[simp]
theorem blocks_nil (n : Node) : n.blocks [] = false := rfl

theorem blocks_cons_of_isMap {n : Node} (h : n.isMap) (key : String) (path : List String) :
    n.blocks (key :: path) = (n.get? key).any fun inner => inner.blocks path := by
  rw [blocks, h, Bool.not_true, Bool.false_or]

theorem blocks_cons_of_not_isMap {n : Node} (h : n.isMap = false) (key : String)
    (path : List String) : n.blocks (key :: path) = true := by
  rw [blocks, h, Bool.not_false, Bool.true_or]

theorem getPath?_single (key : String) (value : Node) (path : List String) :
    (single key value).getPath? (key :: path) = value.getPath? path := by
  rw [getPath?_cons, get?_single, if_pos rfl, Option.bind_some]

theorem blocks_single (key : String) (value : Node) (path : List String) :
    (single key value).blocks (key :: path) = value.blocks path := by
  rw [blocks_cons_of_isMap rfl, get?_single, if_pos rfl, Option.any_some]

/-- A map blocks none of its keys. -/
theorem blocks_singleton {n : Node} (h : n.isMap) (key : String) : n.blocks [key] = false := by
  rw [blocks_cons_of_isMap h]
  cases n.get? key <;> rfl

/-- A tree has none of the paths that it blocks. -/
theorem getPath?_of_blocks {n : Node} {path : List String} (h : n.blocks path) :
    n.getPath? path = none := by
  induction path generalizing n with
  | nil => cases h
  | cons key path ih =>
    rw [getPath?_cons]
    by_cases hn : n.isMap
    · rw [blocks_cons_of_isMap hn] at h
      cases hk : n.get? key with
      | none => rfl
      | some inner =>
        rw [hk, Option.any_some] at h
        exact ih h
    · rw [get?_of_not_isMap (by simpa using hn)]
      rfl

/-- `blocks` finds the proper prefix that it is about. -/
theorem blocks_iff {n : Node} {path : List String} :
    n.blocks path ↔ ∃ start, start <+: path ∧ start ≠ path ∧
      ∃ m, n.getPath? start = some m ∧ m.isMap = false := by
  induction path generalizing n with
  | nil =>
    refine ⟨nofun, ?_⟩
    rintro ⟨start, hpre, hne, _⟩
    exact absurd (List.prefix_nil.mp hpre) hne
  | cons key path ih =>
    by_cases hn : n.isMap
    · rw [blocks_cons_of_isMap hn, Option.any_eq_true]
      constructor
      · rintro ⟨inner, hk, hb⟩
        obtain ⟨start, hpre, hne, m, hm, hmap⟩ := ih.mp hb
        refine ⟨key :: start, List.cons_prefix_cons.mpr ⟨rfl, hpre⟩, by simpa using hne, m, ?_, hmap⟩
        exact getPath?_cons_eq_some_iff.mpr ⟨inner, hk, hm⟩
      · rintro ⟨start, hpre, hne, m, hm, hmap⟩
        rcases List.prefix_cons_iff.mp hpre with rfl | ⟨rest, rfl, hrest⟩
        · cases hm
          rw [hn] at hmap
          cases hmap
        · obtain ⟨inner, hk, hm⟩ := getPath?_cons_eq_some_iff.mp hm
          exact ⟨inner, hk, ih.mpr ⟨rest, hrest, fun he => hne (by rw [he]), m, hm, hmap⟩⟩
    · have hn : n.isMap = false := by simpa using hn
      rw [blocks_cons_of_not_isMap hn]
      exact ⟨fun _ => ⟨[], List.nil_prefix, nofun, n, rfl, hn⟩, fun _ => rfl⟩

/-! ### Merged paths -/

theorem get?_merge_eq {base incoming : Node} (hb : base.isMap) (hi : incoming.isMap)
    (key : String) : (base.merge incoming).get? key =
      Option.merge Node.merge (base.get? key) (incoming.get? key) := by
  rw [get?_merge hb hi]
  cases base.get? key <;> cases incoming.get? key <;> rfl

/-- **What a merge holds at a path**: nothing where the incoming tree blocks the path,
and elsewhere the merge of what the two trees hold there. -/
theorem getPath?_merge (base incoming : Node) (path : List String) :
    (base.merge incoming).getPath? path =
      if incoming.blocks path then none
      else Option.merge Node.merge (base.getPath? path) (incoming.getPath? path) := by
  induction path generalizing base incoming with
  | nil => simp
  | cons key path ih =>
    by_cases hi : incoming.isMap
    · by_cases hb : base.isMap
      · rw [blocks_cons_of_isMap hi]
        simp only [getPath?_cons, get?_merge_eq hb hi]
        cases base.get? key with
        | none =>
          cases incoming.get? key with
          | none => simp
          | some b =>
            have := @getPath?_of_blocks b path
            cases hblocks : b.blocks path <;> simp_all
        | some a =>
          cases incoming.get? key with
          | none => simp
          | some b => simp [ih]
      · -- A base that is no map has no paths to lose, and the merge is the incoming tree.
        have hb : base.isMap = false := by simpa using hb
        rw [merge_into_not_isMap hb, getPath?_cons base, get?_of_not_isMap hb]
        have := @getPath?_of_blocks incoming (key :: path)
        cases hblocks : incoming.blocks (key :: path) <;> simp_all
    · have hi : incoming.isMap = false := by simpa using hi
      rw [merge_of_not_isMap base hi, blocks_cons_of_not_isMap hi, if_pos rfl,
        getPath?_of_blocks (blocks_cons_of_not_isMap hi key path)]

/-- A map that lacks a section changes nothing below it. -/
theorem getPath?_merge_of_get?_none (base : Node) {incoming : Node} (hi : incoming.isMap)
    {key : String} (hk : incoming.get? key = none) (path : List String) :
    (base.merge incoming).getPath? (key :: path) = base.getPath? (key :: path) := by
  rw [getPath?_merge, blocks_cons_of_isMap hi, getPath?_cons incoming, hk, Option.any_none,
    if_neg Bool.false_ne_true, Option.bind_none, Option.merge_none_right]

/-- Where the base lacks a path, the merge has what the incoming tree has. -/
theorem getPath?_merge_of_getPath?_none {base : Node} (incoming : Node) {path : List String}
    (h : base.getPath? path = none) : (base.merge incoming).getPath? path = incoming.getPath? path := by
  rw [getPath?_merge, h, Option.merge_none_left]
  split
  · next hb => exact (getPath?_of_blocks hb).symm
  · rfl

/-! ### Merging in a single path -/

/-- The tree that has one path, with a node at its end. -/
def atPath (path : List String) (value : Node) : Node := path.foldr single value

/-- The start of the only path leads to the tree that has the rest of it. -/
theorem getPath?_atPath (start rest : List String) (value : Node) :
    (atPath (start ++ rest) value).getPath? start = some (atPath rest value) := by
  induction start with
  | nil => rfl
  | cons key start ih => exact (getPath?_single ..).trans ih

theorem blocks_atPath (start rest : List String) (value : Node) :
    (atPath (start ++ rest) value).blocks start = false := by
  induction start with
  | nil => rfl
  | cons key start ih => exact (blocks_single ..).trans ih

/-- A path that neither leads to the end of the only one nor goes on from there is not in a
tree, and not blocked by it. -/
theorem atPath_apart {place path : List String} (hat : ¬ place <+: path) (hpath : ¬ path <+: place)
    (value : Node) :
    (atPath place value).blocks path = false ∧ (atPath place value).getPath? path = none := by
  induction place generalizing path with
  | nil => exact absurd List.nil_prefix hat
  | cons key place ih =>
    cases path with
    | nil => exact absurd List.nil_prefix hpath
    | cons k path =>
      change (single key (atPath place value)).blocks (k :: path) = false ∧
        (single key (atPath place value)).getPath? (k :: path) = none
      by_cases hk : k = key
      · subst hk
        rw [blocks_single, getPath?_single]
        exact ih (fun h => hat (List.cons_prefix_cons.mpr ⟨rfl, h⟩))
          (fun h => hpath (List.cons_prefix_cons.mpr ⟨rfl, h⟩))
      · rw [blocks_cons_of_isMap rfl, getPath?_cons, get?_single, if_neg hk]
        exact ⟨rfl, rfl⟩

/-- A node that is no map takes the place of whatever was at its path. -/
theorem getPath?_merge_atPath (base : Node) (path : List String) {value : Node}
    (h : value.isMap = false) : (base.merge (atPath path value)).getPath? path = some value := by
  have hvalue := getPath?_atPath path [] value
  have hblocks := blocks_atPath path [] value
  rw [List.append_nil] at hvalue hblocks
  rw [getPath?_merge, hblocks, hvalue, if_neg Bool.false_ne_true]
  cases base.getPath? path with
  | none => rfl
  | some old => exact congrArg some (merge_of_not_isMap old h)

/-- Every start of a path that is merged in leads to a map. -/
theorem exists_map_merge_atPath (base : Node) (start : List String) (key : String)
    (rest : List String) (value : Node) :
    ∃ m, (base.merge (atPath (start ++ key :: rest) value)).getPath? start = some m ∧ m.isMap := by
  rw [getPath?_merge, blocks_atPath, getPath?_atPath, if_neg Bool.false_ne_true]
  cases base.getPath? start with
  | none => exact ⟨_, rfl, rfl⟩
  | some old => exact ⟨_, rfl, isMap_merge rfl⟩

/-- Merging in a single path changes nothing away from it. -/
theorem getPath?_merge_atPath_apart (base : Node) {place path : List String} (hat : ¬ place <+: path)
    (hpath : ¬ path <+: place) (value : Node) :
    (base.merge (atPath place value)).getPath? path = base.getPath? path := by
  obtain ⟨hblocks, hnone⟩ := atPath_apart hat hpath value
  rw [getPath?_merge, hblocks, hnone, if_neg Bool.false_ne_true, Option.merge_none_right]

/-! ### Lost paths -/

/-- Every prefix of a path at which a tree holds anything leads to a map. -/
def MapsAlong (n : Node) (path : List String) : Prop :=
  ∀ start, start <+: path → (n.getPath? start).all isMap

instance (n : Node) (path : List String) : Decidable (MapsAlong n path) :=
  decidable_of_iff (∀ start ∈ path.inits, (n.getPath? start).all isMap)
    (by simp only [MapsAlong, List.mem_inits])

/-- Along a path that a tree does not have, blocking it is all that can go wrong. -/
theorem mapsAlong_iff_of_getPath?_eq_none {n : Node} {path : List String}
    (h : n.getPath? path = none) : n.MapsAlong path ↔ n.blocks path = false := by
  rw [← Bool.not_eq_true, blocks_iff]
  constructor
  · rintro hall ⟨start, hpre, _, m, hm, hmap⟩
    have := hall start hpre
    rw [hm, Option.all_some, hmap] at this
    cases this
  · intro hnone start hpre
    cases hm : n.getPath? start with
    | none => rfl
    | some m =>
      rw [Option.all_some]
      by_contra hmap
      have hne : start ≠ path := by
        rintro rfl
        rw [h] at hm
        cases hm
      exact hnone ⟨start, hpre, hne, m, hm, by simpa using hmap⟩

/-- **Merging is decided path by path.** Where both trees have a path, the merge holds
their nodes merged; where one has it, that node, unless the incoming tree holds
something other than a map on the way. So the incoming tree loses no path, and the
other exactly those with such a node before their end. -/
theorem merge_path_by_path (base incoming : Node) (path : List String) :
    ((base.merge incoming).getPath? path =
      match base.getPath? path, incoming.getPath? path with
      | some a, some b => some (a.merge b)
      | none, some b => some b
      | some a, none => if incoming.MapsAlong path then some a else none
      | none, none => none) ∧
    ((incoming.getPath? path).isSome → ((base.merge incoming).getPath? path).isSome) ∧
    ((base.getPath? path).isSome →
      ((base.merge incoming).getPath? path = none ↔
        ∃ start, start <+: path ∧ start ≠ path ∧
          ∃ m, incoming.getPath? start = some m ∧ m.isMap = false)) := by
  rw [getPath?_merge, ← blocks_iff]
  have hblocked := @getPath?_of_blocks incoming path
  cases hi : incoming.getPath? path with
  | none =>
    have halong := mapsAlong_iff_of_getPath?_eq_none hi
    cases base.getPath? path <;> cases hb : incoming.blocks path <;> simp_all
  | some b =>
    cases base.getPath? path <;> cases hb : incoming.blocks path <;> simp_all

/-- A text takes the place of a map: the path to it stays, the path through it is gone. -/
theorem merge_path_by_path_flat :
    let base := single "layout" (single "length" (number 84))
    let incoming := single "layout" (text "none")
    (base.getPath? ["layout", "length"]).isSome ∧ (incoming.getPath? ["layout"]).isSome ∧
      ((base.merge incoming).getPath? ["layout"]).isSome ∧
      (base.merge incoming).getPath? ["layout", "length"] = none := by
  intro base incoming
  have hbase : (base.getPath? ["layout", "length"]).isSome := by decide
  have hincoming : (incoming.getPath? ["layout"]).isSome := by decide
  refine ⟨hbase, hincoming, (merge_path_by_path base incoming _).2.1 hincoming, ?_⟩
  apply ((merge_path_by_path base incoming _).2.2 hbase).mpr
  exact ⟨["layout"], by decide, by decide, text "none", by decide, rfl⟩

end KeyboardInfo.Node
