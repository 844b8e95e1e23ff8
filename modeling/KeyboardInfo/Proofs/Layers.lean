import KeyboardInfo.Proofs.Rearranging
import Mathlib.Data.List.Induction

/-! Trees in layers, and how their merges may be regrouped.

A value that is no map takes the place of a map, and keeps a later map from being merged
with an earlier one; so it matters in general how merges are grouped. It does not among
trees that hold maps down to one depth, and no map below it (`Layered`): for these merging
is associative (`Layered.merge_assoc`), and trees merged one after the other hold at each
path of that depth what the last of them holds there (`getPath?_foldl_merge`). Whatever the
trees, merging one into itself changes nothing (`merge_self`), and neither does merging one in
for a second time (`merge_repeated`). -/
namespace KeyboardInfo.Node

/-! ### Neutral merges -/

/-- Merging the empty map changes no map. -/
theorem merge_empty {n : Node} (h : n.isMap) : n.merge empty = n := by
  refine ext_get? (isMap_merge rfl) h fun key => ?_
  rw [get?_merge_eq h rfl, get?_empty, Option.merge_none_right]

/-- Merging into the empty map gives what is merged. -/
theorem empty_merge (n : Node) : empty.merge n = n := by
  by_cases h : n.isMap
  · refine ext_get? (isMap_merge h) h fun key => ?_
    rw [get?_merge_eq rfl h, get?_empty, Option.merge_none_left]
  · exact merge_of_not_isMap _ (by simpa using h)

/-- Merging a tree into itself changes nothing. -/
theorem merge_self (n : Node) : n.merge n = n := by
  induction n using mapInduct with
  | leaf n h => exact merge_of_not_isMap n h
  | map n h ih =>
    refine ext_get? (isMap_merge h) h fun key => ?_
    rw [get?_merge_eq h h]
    cases hkey : n.get? key with
    | none => rfl
    | some value => exact congrArg some (ih key value hkey)

/-- A tree that is merged in twice may be merged with itself first: where it holds anything but a
map, it does so both times. -/
theorem regroups_self (a b : Node) : a.Regroups b b := by
  intro path x y z _ hy hz _ hymap hzmap
  rw [hy] at hz
  cases hz
  rw [hymap] at hzmap
  cases hzmap

/-- **Merging is safe to repeat.** What was merged in once changes nothing when it is merged in
again, whatever the two trees are, and a tree changes nothing in itself. -/
theorem merge_repeated (a b : Node) : (a.merge b).merge b = a.merge b ∧ a.merge a = a := by
  refine ⟨?_, merge_self a⟩
  calc
    (a.merge b).merge b = a.merge (b.merge b) :=
      (merge_assoc_iff_regroups a b b).mpr (regroups_self a b)
    _ = a.merge b := by rw [merge_self]

/-- Merging one entry changes nothing where a map holds what it would come to. -/
theorem merge_single_of_absorbed {n held value : Node} {key : String}
    (hkey : n.get? key = some held) (h : held.merge value = held) :
    n.merge (single key value) = n := by
  have hn : n.isMap := by
    by_contra hn
    rw [get?_of_not_isMap (by simpa using hn)] at hkey
    cases hkey
  refine ext_get? (isMap_merge rfl) hn fun k => ?_
  rw [get?_merge_eq hn rfl, get?_single]
  split
  · next heq => rw [heq, hkey, Option.merge_some_some, h]
  · exact Option.merge_none_right

/-- Merging into one entry gives what is merged where that already holds the entry. -/
theorem single_merge_of_absorbed {n held value : Node} {key : String}
    (hkey : n.get? key = some held) (h : value.merge held = held) :
    (single key value).merge n = n := by
  have hn : n.isMap := by
    by_contra hn
    rw [get?_of_not_isMap (by simpa using hn)] at hkey
    cases hkey
  refine ext_get? (isMap_merge hn) hn fun k => ?_
  rw [get?_merge_eq rfl hn, get?_single]
  split
  · next heq => rw [heq, hkey, Option.merge_some_some, h]
  · exact Option.merge_none_left

/-! ### Layers -/

/-- Maps down to a depth, and no map at that depth. -/
def Layered : Nat → Node → Prop
  | 0, n => n.isMap = false
  | depth + 1, n => n.isMap ∧ ∀ key value, n.get? key = some value → Layered depth value

variable {depth : Nat} {a b c tree : Node}

theorem layered_leaf {n : Node} (h : n.isMap = false) : n.Layered 0 := h

theorem layered_empty (depth : Nat) : empty.Layered (depth + 1) := ⟨rfl, nofun⟩

theorem Layered.insert (h : a.Layered (depth + 1)) (key : String) {value : Node}
    (hv : value.Layered depth) : (a.insert key value).Layered (depth + 1) := by
  refine ⟨isMap_insert h.1 .., fun k found hk => ?_⟩
  rw [get?_insert h.1] at hk
  split at hk
  · exact Option.some.inj hk ▸ hv
  · exact h.2 k found hk

theorem layered_single (key : String) {value : Node} (h : value.Layered depth) :
    (single key value).Layered (depth + 1) :=
  (layered_empty depth).insert key h

theorem Layered.merge (ha : a.Layered depth) (hb : b.Layered depth) : (a.merge b).Layered depth := by
  induction depth generalizing a b with
  | zero => rwa [merge_of_not_isMap a hb]
  | succ depth ih =>
    refine ⟨isMap_merge hb.1, fun key value h => ?_⟩
    rw [get?_merge_eq ha.1 hb.1] at h
    rcases Option.merge_eq_some_iff.mp h with ⟨h, -⟩ | ⟨-, h⟩ | ⟨old, new, ho, hn, rfl⟩
    · exact ha.2 key value h
    · exact hb.2 key value h
    · exact ih (ha.2 key old ho) (hb.2 key new hn)

/-- Trees with the same layers have their maps at the same depths. -/
theorem Layered.agreesOnMaps (ha : a.Layered depth) (hb : b.Layered depth) : a.AgreesOnMaps b := by
  induction depth generalizing a b with
  | zero => exact agreesOnMaps_leaves ha hb
  | succ depth ih =>
    exact .maps ha.1 hb.1 fun key x y hx hy => ih (ha.2 key x hx) (hb.2 key y hy)

/-- **Merges of trees with the same layers may be regrouped**, whatever they are merged with. -/
theorem Layered.merge_assoc (ha : a.Layered depth) (hb : b.Layered depth) (c : Node) :
    (a.merge b).merge c = a.merge (b.merge c) :=
  (merge_assoc_iff_regroups a b c).mpr ((ha.agreesOnMaps hb).regroups c)

/-- A tree in layers blocks no path through its maps. -/
theorem Layered.blocks_eq_false (h : a.Layered depth) {path : List String}
    (hlength : path.length ≤ depth) : a.blocks path = false := by
  induction path generalizing a depth with
  | nil => rfl
  | cons key path ih =>
    obtain ⟨depth, rfl⟩ := Nat.exists_eq_add_of_le' (Nat.lt_of_lt_of_le (Nat.zero_lt_succ _) hlength)
    rw [blocks_cons_of_isMap h.1]
    cases hkey : a.get? key with
    | none => rfl
    | some value => exact ih (h.2 key value hkey) (Nat.le_of_succ_le_succ hlength)

/-- What a path as long as the layers leads to is no map. -/
theorem Layered.not_isMap (h : a.Layered depth) {path : List String} (hlength : path.length = depth)
    {value : Node} (hv : a.getPath? path = some value) : value.isMap = false := by
  induction path generalizing a depth with
  | nil =>
    cases hv
    subst hlength
    exact h
  | cons key path ih =>
    subst hlength
    obtain ⟨inner, hkey, hv⟩ := getPath?_cons_eq_some_iff.mp hv
    exact ih (h.2 key inner hkey) rfl hv

/-- Through the maps of its layers, a merge has the paths of both trees. -/
theorem Layered.isSome_getPath?_merge (hb : b.Layered depth) {path : List String}
    (hlength : path.length ≤ depth) (a : Node) :
    ((a.merge b).getPath? path).isSome ↔ (a.getPath? path).isSome ∨ (b.getPath? path).isSome := by
  rw [getPath?_merge, hb.blocks_eq_false hlength, if_neg Bool.false_ne_true, Option.isSome_merge,
    Bool.or_eq_true]

/-- Below its layers, a merge holds what the incoming tree holds, or else what the other does. -/
theorem Layered.getPath?_merge (hb : b.Layered depth) {path : List String}
    (hlength : path.length = depth) (a : Node) :
    (a.merge b).getPath? path = (b.getPath? path).or (a.getPath? path) := by
  rw [Node.getPath?_merge, hb.blocks_eq_false (Nat.le_of_eq hlength), if_neg Bool.false_ne_true]
  cases hpath : b.getPath? path with
  | none => rw [Option.merge_none_right, Option.none_or]
  | some value =>
    have hvalue := hb.not_isMap hlength hpath
    cases a.getPath? path with
    | none => rfl
    | some old => exact congrArg some (merge_of_not_isMap old hvalue)

/-! ### Trees merged one after the other -/

section
variable {α : Type} {node : α → Node} (each : ∀ x, (node x).Layered (depth + 1))
include each

theorem Layered.foldl (xs : List α) (h : tree.Layered (depth + 1)) :
    (xs.foldl (fun tree x => tree.merge (node x)) tree).Layered (depth + 1) := by
  induction xs generalizing tree with
  | nil => exact h
  | cons x xs ih => exact ih (h.merge (each x))

/-- What is merged into a tree one after the other may be merged with each other first. -/
theorem Layered.foldl_merge (xs : List α) (h : tree.Layered (depth + 1)) :
    xs.foldl (fun tree x => tree.merge (node x)) tree =
      tree.merge (xs.foldl (fun tree x => tree.merge (node x)) empty) := by
  induction xs generalizing tree with
  | nil => exact (merge_empty h.1).symm
  | cons x xs ih =>
    rw [List.foldl_cons, List.foldl_cons, empty_merge, ih (h.merge (each x)), ih (each x),
      h.merge_assoc (each x)]

/-- The paths through maps are those of any of the trees. -/
theorem isSome_getPath?_foldl_merge (xs : List α) {path : List String} (hne : path ≠ [])
    (hlength : path.length ≤ depth + 1) :
    ((xs.foldl (fun tree x => tree.merge (node x)) empty).getPath? path).isSome ↔
      ∃ x ∈ xs, ((node x).getPath? path).isSome := by
  induction xs using List.reverseRecOn with
  | nil =>
    obtain ⟨key, path, rfl⟩ := List.exists_cons_of_ne_nil hne
    simp
  | append_singleton xs x ih =>
    rw [List.foldl_append, List.foldl_cons, List.foldl_nil,
      (each x).isSome_getPath?_merge hlength, ih]
    simp [or_and_right, exists_or]

/-- **Below the layers, the last tree that holds anything at a path decides.** -/
theorem getPath?_foldl_merge (xs : List α) {path : List String} (hlength : path.length = depth + 1) :
    (xs.foldl (fun tree x => tree.merge (node x)) empty).getPath? path =
      (xs.filterMap fun x => (node x).getPath? path).getLast? := by
  induction xs using List.reverseRecOn with
  | nil =>
    obtain ⟨key, path, rfl⟩ := List.exists_cons_of_length_eq_add_one hlength
    simp
  | append_singleton xs x ih =>
    rw [List.foldl_append, List.foldl_cons, List.foldl_nil, (each x).getPath?_merge hlength, ih,
      List.filterMap_append, List.getLast?_append]
    cases hx : (node x).getPath? path <;> simp [hx]

end

end KeyboardInfo.Node
