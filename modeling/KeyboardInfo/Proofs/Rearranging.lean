import KeyboardInfo.Proofs.Paths

/-! When merges may be rearranged.

Merging is neither associative nor commutative. A value that is no map wipes out the map
that it is merged into, and a later map then starts afresh; had the later map been merged
first, it would have met the earlier one. So `a`, `b` and `c` may be regrouped just when, at
every path where `b` has such a value between two maps, the map of `c` takes in all that the
map of `a` holds (`merge_assoc_iff`). Two trees may be swapped just when they hold two maps,
or the same node, wherever both hold anything (`merge_comm_iff`).

These conditions are on all paths. Each says something of the roots, and then the same again
of what lies under each key that the trees share (`throughout_iff`, `regroups_iff`). The two
equations on maps come apart in the same way (`merge_assoc_iff_of_maps`,
`merge_comm_iff_of_maps`). -/
namespace KeyboardInfo.Node

variable {a b c : Node}

/-! ### Maps and other nodes -/

/-- Unless both are maps, a merge is what is merged in. -/
theorem merge_of_not_maps (h : ¬ (a.isMap ∧ b.isMap)) : a.merge b = b := by
  by_cases ha : a.isMap
  · have hb : b.isMap = false := by simpa [ha] using h
    exact merge_of_not_isMap a hb
  · exact merge_into_not_isMap (by simpa using ha) b

/-- Maps are equal just when they find the same under every key. -/
theorem eq_iff_get? (ha : a.isMap) (hb : b.isMap) : a = b ↔ ∀ key, a.get? key = b.get? key :=
  ⟨fun h _ => h ▸ rfl, ext_get? ha hb⟩

/-! ### Shared paths -/

/-- A relation holds between two trees at every path that both have. -/
def Throughout (P : Node → Node → Prop) (a b : Node) : Prop :=
  ∀ path x y, a.getPath? path = some x → b.getPath? path = some y → P x y

/-- A relation holds at every shared path just when it holds between the roots and throughout
the nodes of every shared key. -/
theorem throughout_iff {P : Node → Node → Prop} : Throughout P a b ↔ P a b ∧
    ∀ key x y, a.get? key = some x → b.get? key = some y → Throughout P x y := by
  constructor
  · intro h
    refine ⟨h [] a b rfl rfl, fun key x y hx hy path u v hu hv => ?_⟩
    apply h (key :: path) u v
    · exact getPath?_cons_eq_some_iff.mpr ⟨x, hx, hu⟩
    · exact getPath?_cons_eq_some_iff.mpr ⟨y, hy, hv⟩
  · intro ⟨hroot, hkeys⟩ path u v hu hv
    cases path with
    | nil =>
      cases hu
      cases hv
      exact hroot
    | cons key path =>
      obtain ⟨x, hx, hu⟩ := getPath?_cons_eq_some_iff.mp hu
      obtain ⟨y, hy, hv⟩ := getPath?_cons_eq_some_iff.mp hv
      exact hkeys key x y hx hy path u v hu hv

/-- Where both trees hold anything, both hold maps or neither does. -/
def AgreesOnMaps : Node → Node → Prop := Throughout fun x y => x.isMap = y.isMap

theorem agreesOnMaps_leaves (ha : a.isMap = false) (hb : b.isMap = false) : a.AgreesOnMaps b := by
  refine throughout_iff.mpr ⟨ha.trans hb.symm, fun key x y hx => ?_⟩
  rw [get?_of_not_isMap ha] at hx
  cases hx

theorem AgreesOnMaps.maps (ha : a.isMap) (hb : b.isMap)
    (each : ∀ key x y, a.get? key = some x → b.get? key = some y → x.AgreesOnMaps y) :
    a.AgreesOnMaps b :=
  throughout_iff.mpr ⟨ha.trans hb.symm, each⟩

theorem AgreesOnMaps.single {key key' : String} (h : key = key' → a.AgreesOnMaps b) :
    (single key a).AgreesOnMaps (single key' b) := by
  refine .maps rfl rfl fun k x y hx hy => ?_
  obtain ⟨hkey, rfl⟩ := get?_single_eq_some_iff.mp hx
  obtain ⟨hkey', rfl⟩ := get?_single_eq_some_iff.mp hy
  exact h (hkey.symm.trans hkey')

/-! ### Regrouping -/

/-- Wherever three trees hold a map, something else and a map, the last map takes in the first
one whole. -/
def Regroups (a b c : Node) : Prop :=
  ∀ path x y z, a.getPath? path = some x → b.getPath? path = some y → c.getPath? path = some z →
    x.isMap → y.isMap = false → z.isMap → x.merge z = z

theorem regroups_iff : a.Regroups b c ↔
    (a.isMap → b.isMap = false → c.isMap → a.merge c = c) ∧
      ∀ key x y z, a.get? key = some x → b.get? key = some y → c.get? key = some z →
        x.Regroups y z := by
  constructor
  · intro h
    refine ⟨h [] a b c rfl rfl rfl, fun key x y z hx hy hz path u v w hu hv hw => ?_⟩
    apply h (key :: path) u v w
    · exact getPath?_cons_eq_some_iff.mpr ⟨x, hx, hu⟩
    · exact getPath?_cons_eq_some_iff.mpr ⟨y, hy, hv⟩
    · exact getPath?_cons_eq_some_iff.mpr ⟨z, hz, hw⟩
  · intro ⟨hroot, hkeys⟩ path u v w hu hv hw
    cases path with
    | nil =>
      cases hu
      cases hv
      cases hw
      exact hroot
    | cons key path =>
      obtain ⟨x, hx, hu⟩ := getPath?_cons_eq_some_iff.mp hu
      obtain ⟨y, hy, hv⟩ := getPath?_cons_eq_some_iff.mp hv
      obtain ⟨z, hz, hw⟩ := getPath?_cons_eq_some_iff.mp hw
      exact hkeys key x y z hx hy hz path u v w hu hv hw

/-- Three maps may be regrouped just when the nodes of every key that they share may be. -/
theorem merge_assoc_iff_of_maps (ha : a.isMap) (hb : b.isMap) (hc : c.isMap) :
    (a.merge b).merge c = a.merge (b.merge c) ↔
      ∀ key x y z, a.get? key = some x → b.get? key = some y → c.get? key = some z →
        (x.merge y).merge z = x.merge (y.merge z) := by
  have hleft (key : String) : ((a.merge b).merge c).get? key =
      Option.merge merge (Option.merge merge (a.get? key) (b.get? key)) (c.get? key) := by
    rw [get?_merge_eq (isMap_merge hb) hc, get?_merge_eq ha hb]
  have hright (key : String) : (a.merge (b.merge c)).get? key =
      Option.merge merge (a.get? key) (Option.merge merge (b.get? key) (c.get? key)) := by
    rw [get?_merge_eq ha (isMap_merge hc), get?_merge_eq hb hc]
  rw [eq_iff_get? (isMap_merge hc) (isMap_merge (isMap_merge hc))]
  constructor
  · intro h key x y z hx hy hz
    have hkey := h key
    rw [hleft, hright, hx, hy, hz] at hkey
    exact Option.some.inj hkey
  · intro h key
    rw [hleft, hright]
    -- A key that one of the three lacks leaves at most two nodes, and one way to merge them.
    cases hx : a.get? key with
    | none => simp only [Option.merge_none_left]
    | some x =>
      cases hy : b.get? key with
      | none => simp only [Option.merge_none_left, Option.merge_none_right]
      | some y =>
        cases hz : c.get? key with
        | none => simp only [Option.merge_none_right]
        | some z => exact congrArg some (h key x y z hx hy hz)

/-- Merges may be regrouped just when the last map takes in what was wiped out. -/
theorem merge_assoc_iff_regroups (a b c : Node) :
    (a.merge b).merge c = a.merge (b.merge c) ↔ a.Regroups b c := by
  induction c using mapInduct generalizing a b with
  | leaf c hc =>
    have hassoc : (a.merge b).merge c = a.merge (b.merge c) := by
      rw [merge_of_not_isMap _ hc, merge_of_not_isMap _ hc, merge_of_not_isMap _ hc]
    refine iff_of_true hassoc (regroups_iff.mpr ⟨fun _ _ h => ?_, fun key x y z _ _ hz => ?_⟩)
    · rw [hc] at h
      cases h
    · rw [get?_of_not_isMap hc] at hz
      cases hz
  | map c hc ih =>
    rw [regroups_iff]
    by_cases hb : b.isMap
    · have hroot : a.isMap → b.isMap = false → c.isMap → a.merge c = c := by simp [hb]
      rw [and_iff_right hroot]
      by_cases ha : a.isMap
      · rw [merge_assoc_iff_of_maps ha hb hc]
        constructor
        · intro h key x y z hx hy hz
          exact (ih key z hz x y).mp (h key x y z hx hy hz)
        · intro h key x y z hx hy hz
          exact (ih key z hz x y).mpr (h key x y z hx hy hz)
      · have ha : a.isMap = false := by simpa using ha
        rw [merge_into_not_isMap ha, merge_into_not_isMap ha]
        refine iff_of_true rfl fun key x y z hx => ?_
        rw [get?_of_not_isMap ha] at hx
        cases hx
    · -- Whatever `a` is, `b` wipes it out on the left and is wiped out itself on the right.
      have hb : b.isMap = false := by simpa using hb
      have hkeys : ∀ key x y z, a.get? key = some x → b.get? key = some y →
          c.get? key = some z → x.Regroups y z := by
        intro key x y z _ hy
        rw [get?_of_not_isMap hb] at hy
        cases hy
      rw [and_iff_left hkeys, merge_of_not_isMap a hb, merge_into_not_isMap hb]
      by_cases ha : a.isMap
      · simp only [ha, hb, hc, forall_const]
        exact eq_comm
      · rw [merge_into_not_isMap (by simpa using ha)]
        exact iff_of_true rfl fun h => absurd h ha

/-- Nothing wipes out a map of the first tree where the second agrees with it on the maps. -/
theorem AgreesOnMaps.regroups (h : a.AgreesOnMaps b) (c : Node) : a.Regroups b c := by
  intro path x y z hx hy _ hxmap hymap
  rw [h path x y hx hy, hymap] at hxmap
  cases hxmap

/-- **When merges may be regrouped.** They may just when, at every path where the tree in the
middle has something other than a map and the other two have maps, merging the first map into
the last one changes nothing. So they may whenever the three trees never disagree on which
paths hold maps. -/
theorem merge_assoc_iff (a b c : Node) :
    ((a.merge b).merge c = a.merge (b.merge c) ↔
      ∀ path x y z, a.getPath? path = some x → b.getPath? path = some y →
        c.getPath? path = some z → x.isMap → y.isMap = false → z.isMap → x.merge z = z) ∧
    (a.AgreesOnMaps b → b.AgreesOnMaps c → a.AgreesOnMaps c →
      (a.merge b).merge c = a.merge (b.merge c)) := by
  refine ⟨merge_assoc_iff_regroups a b c, fun hab _ _ => ?_⟩
  exact (merge_assoc_iff_regroups a b c).mpr (hab.regroups c)

/-- A text between two maps keeps them from being regrouped; a map in its place does not. -/
theorem merge_assoc_iff_flat :
    let first := single "layout" (single "length" (number 84))
    let flat := single "layout" (text "none")
    let middle := single "layout" (single "length" (number 42))
    let last := single "layout" (single "position" (number 0))
    (first.merge flat).merge last ≠ first.merge (flat.merge last) ∧
      first.AgreesOnMaps middle ∧ middle.AgreesOnMaps last ∧ first.AgreesOnMaps last ∧
      (first.merge middle).merge last = first.merge (middle.merge last) := by
  intro first flat middle last
  have leaves (m n : UInt64) : (number m).AgreesOnMaps (number n) := agreesOnMaps_leaves rfl rfl
  have hfm : first.AgreesOnMaps middle := .single fun _ => .single fun _ => leaves _ _
  have hml : middle.AgreesOnMaps last := .single fun _ => .single fun _ => leaves _ _
  have hfl : first.AgreesOnMaps last := .single fun _ => .single fun _ => leaves _ _
  refine ⟨fun h => ?_, hfm, hml, hfl, (merge_assoc_iff first middle last).2 hfm hml hfl⟩
  have habsorbs := (merge_assoc_iff first flat last).1.mp h ["layout"] _ _ _
    (getPath?_single ..) (getPath?_single ..) (getPath?_single ..) rfl rfl rfl
  exact absurd habsorbs (by decide)

/-! ### Swapping -/

/-- A merge may be swapped throughout two trees. -/
def Commutes : Node → Node → Prop := Throughout fun x y => (x.isMap ∧ y.isMap) ∨ x = y

/-- Unless both are maps, only the same node can be swapped with itself. -/
theorem commutes_iff_of_not_maps (h : ¬ (a.isMap ∧ b.isMap)) : a.Commutes b ↔ a = b := by
  constructor
  · intro hcommutes
    exact (throughout_iff.mp hcommutes).1.resolve_left h
  · intro heq path x y hx hy
    rw [heq, hy] at hx
    exact .inr (Option.some.inj hx).symm

theorem merge_comm_iff_of_not_maps (h : ¬ (a.isMap ∧ b.isMap)) :
    a.merge b = b.merge a ↔ a.Commutes b := by
  rw [commutes_iff_of_not_maps h, merge_of_not_maps h, merge_of_not_maps fun h' => h h'.symm]
  exact eq_comm

/-- Two maps may be swapped just when the nodes of every key that they share may be. -/
theorem merge_comm_iff_of_maps (ha : a.isMap) (hb : b.isMap) :
    a.merge b = b.merge a ↔
      ∀ key x y, a.get? key = some x → b.get? key = some y → x.merge y = y.merge x := by
  rw [eq_iff_get? (isMap_merge hb) (isMap_merge ha)]
  constructor
  · intro h key x y hx hy
    have hkey := h key
    rw [get?_merge_eq ha hb, get?_merge_eq hb ha, hx, hy] at hkey
    exact Option.some.inj hkey
  · intro h key
    rw [get?_merge_eq ha hb, get?_merge_eq hb ha]
    cases hx : a.get? key with
    | none => rw [Option.merge_none_left, Option.merge_none_right]
    | some x =>
      cases hy : b.get? key with
      | none => rw [Option.merge_none_left, Option.merge_none_right]
      | some y => exact congrArg some (h key x y hx hy)

/-- **When merges may be swapped.** They may just when, at every path that both trees have, the
root among them, both hold maps or both hold the same node. -/
theorem merge_comm_iff (a b : Node) :
    a.merge b = b.merge a ↔
      ∀ path x y, a.getPath? path = some x → b.getPath? path = some y →
        (x.isMap ∧ y.isMap) ∨ x = y := by
  show _ ↔ a.Commutes b
  induction a using mapInduct generalizing b with
  | leaf a ha => exact merge_comm_iff_of_not_maps (by simp [ha])
  | map a ha ih =>
    by_cases hb : b.isMap
    · rw [merge_comm_iff_of_maps ha hb, Commutes, throughout_iff, and_iff_right (.inl ⟨ha, hb⟩)]
      constructor
      · intro h key x y hx hy
        exact (ih key x hx y).mp (h key x y hx hy)
      · intro h key x y hx hy
        exact (ih key x hx y).mpr (h key x y hx hy)
    · exact merge_comm_iff_of_not_maps fun h => hb h.2

end KeyboardInfo.Node
