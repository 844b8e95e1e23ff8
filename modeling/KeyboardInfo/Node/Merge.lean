import KeyboardInfo.Node.Basic

/-! Merging one report tree into another.

Two maps merge key by key: a key of one map only keeps its node, and the two nodes
of a shared key are merged in turn. Where either side is no map, the incoming node
takes the place of the other. -/
namespace KeyboardInfo.Node

namespace Raw

mutual

/-- Merges a tree into `base`. -/
def merge (base : Raw) : Raw → Raw
  | .map additions =>
    match base with
    | .map entries => .map (mergeEntries entries additions)
    | _ => .map additions
  | incoming => incoming

/-- Merges the entries of a map, one after the other, into those of another. -/
def mergeEntries (entries : List (String × Raw)) : List (String × Raw) → List (String × Raw)
  | [] => entries
  | (key, value) :: additions =>
    let merged := match entries.lookup key with
      | some existing => merge existing value
      | none => value
    mergeEntries (Entries.insert key merged entries) additions

end

theorem Ordered.mergeEntries {additions : List (String × Raw)}
    (h : ∀ addition ∈ additions, Ordered addition.2 →
      ∀ {base : Raw}, Ordered base → Ordered (merge base addition.2))
    (ho : ∀ addition ∈ additions, Ordered addition.2) {entries : List (String × Raw)}
    (hb : Ordered (.map entries)) : Ordered (.map (Raw.mergeEntries entries additions)) := by
  induction additions generalizing entries with
  | nil => exact hb
  | cons addition additions ih =>
    obtain ⟨key, value⟩ := addition
    rw [Raw.mergeEntries]
    refine ih (fun a ha => h a (List.mem_cons_of_mem _ ha))
      (fun a ha => ho a (List.mem_cons_of_mem _ ha)) (hb.insert key ?_)
    have hv := ho _ (List.mem_cons_self ..)
    split
    · next existing found => exact h _ (List.mem_cons_self ..) hv (hb.get? key found)
    · exact hv

/-- Merging keeps every map in the order of its keys. -/
theorem Ordered.merge {base incoming : Raw} (hb : Ordered base) (hi : Ordered incoming) :
    Ordered (Raw.merge base incoming) := by
  induction incoming using Raw.induct generalizing base with
  | map additions ih =>
    cases base with
    | map entries =>
      rw [Raw.merge]
      exact .mergeEntries (fun a ha ho _ hbase => ih a ha hbase ho) hi.value hb
    | _ => exact hi
  | _ => exact hi

/-- What is found under a key after entries in order have been merged in. -/
theorem lookup_mergeEntries {entries additions : List (String × Raw)}
    (h : Entries.Ordered additions) (key : String) :
    (mergeEntries entries additions).lookup key =
      match entries.lookup key, additions.lookup key with
      | some existing, some value => some (merge existing value)
      | none, some value => some value
      | existing, none => existing := by
  induction additions generalizing entries with
  | nil =>
    rw [mergeEntries, List.lookup_nil]
    split <;> simp_all
  | cons addition additions ih =>
    obtain ⟨k, v⟩ := addition
    have ⟨hk, hrest⟩ := List.pairwise_cons.mp h
    rw [mergeEntries, ih hrest, Entries.lookup_insert, Entries.lookup_cons]
    by_cases heq : key = k
    · subst heq
      rw [if_pos rfl, if_pos rfl, Entries.lookup_eq_none hk]
      cases entries.lookup key <;> rfl
    · rw [if_neg heq, if_neg heq]

end Raw

/-- Merges a tree into another. -/
def merge (base incoming : Node) : Node :=
  ⟨base.raw.merge incoming.raw, base.ordered.merge incoming.ordered⟩

/-- Anything that is no map takes the place of what it is merged into. -/
theorem merge_of_not_isMap {incoming : Node} (base : Node) (h : incoming.isMap = false) :
    base.merge incoming = incoming := by
  obtain ⟨r, hr⟩ := incoming
  cases r with
  | map entries => cases h
  | _ => rfl

/-- A map takes the place of anything that is no map. -/
theorem merge_into_not_isMap {base : Node} (h : base.isMap = false) (incoming : Node) :
    base.merge incoming = incoming := by
  obtain ⟨r, hr⟩ := incoming
  obtain ⟨b, hb⟩ := base
  cases r with
  | map entries =>
    cases b with
    | map others => cases h
    | _ => rfl
  | _ => rfl

theorem isMap_merge {base incoming : Node} (hi : incoming.isMap) : (base.merge incoming).isMap := by
  obtain ⟨r, hr⟩ := incoming
  obtain ⟨b, hb⟩ := base
  cases r with
  | map entries => cases b <;> rfl
  | _ => cases hi

/-- Two maps merge key by key. -/
theorem get?_merge {base incoming : Node} (hb : base.isMap) (hi : incoming.isMap) (key : String) :
    (base.merge incoming).get? key =
      match base.get? key, incoming.get? key with
      | some existing, some value => some (existing.merge value)
      | none, some value => some value
      | existing, none => existing := by
  obtain ⟨r, hr⟩ := incoming
  obtain ⟨b, hbo⟩ := base
  cases r with
  | map additions =>
    cases b with
    | map entries =>
      have law := @Raw.lookup_mergeEntries entries _ hr.keys key
      split
      · next existing value he hv =>
        have he := get?_eq_some_iff.mp he
        have hv := get?_eq_some_iff.mp hv
        refine get?_eq_some_iff.mpr (law.trans ?_)
        rw [show entries.lookup key = _ from he, show additions.lookup key = _ from hv]
        rfl
      · next value he hv =>
        have he := get?_eq_none_iff.mp he
        have hv := get?_eq_some_iff.mp hv
        refine get?_eq_some_iff.mpr (law.trans ?_)
        rw [show entries.lookup key = _ from he, show additions.lookup key = _ from hv]
      · next existing hv =>
        have hv := get?_eq_none_iff.mp hv
        have law : (Raw.mergeEntries entries additions).lookup key = entries.lookup key := by
          rw [law, show additions.lookup key = _ from hv]
          split <;> simp_all
        simp only [get?, merge, Raw.merge, Raw.get?, law]
    | _ => cases hb
  | _ => cases hi

end KeyboardInfo.Node
