import KeyboardInfo.Dict

/-! Report trees.

A node is nothing, a number of 64 bits, a text, a list of nodes, or a map from text
keys to nodes. Every map in a node keeps its keys in strictly increasing order, so
that equal contents make equal nodes, whatever order they were put together in.

`Node.Raw` is the plain tree, `Node.Raw.Ordered` says that its maps are in order,
and `Node` is a tree with that order. -/
namespace KeyboardInfo

/-- A report tree whose maps may hold their entries in any order. -/
inductive Node.Raw where
  | null
  | number (value : UInt64)
  | text (value : String)
  | list (items : List Raw)
  | map (entries : List (String × Raw))

namespace Node.Raw

/-- A property holds of every tree if lists and maps inherit it from what they contain. -/
theorem induct {P : Raw → Prop} (null : P .null) (number : ∀ value, P (.number value))
    (text : ∀ value, P (.text value))
    (list : ∀ items, (∀ item ∈ items, P item) → P (.list items))
    (map : ∀ entries : List (String × Raw), (∀ entry ∈ entries, P entry.2) → P (.map entries))
    (r : Raw) : P r :=
  @Raw.rec P (fun items => ∀ item ∈ items, P item) (fun entries => ∀ entry ∈ entries, P entry.2)
    (fun entry => P entry.2) null number text list map
    nofun (fun _ _ hd tl => List.forall_mem_cons.mpr ⟨hd, tl⟩)
    nofun (fun _ _ hd tl => List.forall_mem_cons.mpr ⟨hd, tl⟩)
    (fun _ _ h => h) r

/-- Every map in the tree has its keys in strictly increasing order. -/
inductive Ordered : Raw → Prop where
  | null : Ordered .null
  | number (value : UInt64) : Ordered (.number value)
  | text (value : String) : Ordered (.text value)
  | list {items : List Raw} (each : ∀ item ∈ items, Ordered item) : Ordered (.list items)
  | map {entries : List (String × Raw)} (keys : Entries.Ordered entries)
      (each : ∀ entry ∈ entries, Ordered entry.2) : Ordered (.map entries)

theorem Ordered.keys {entries : List (String × Raw)} (h : Ordered (.map entries)) :
    Entries.Ordered entries := by
  cases h with
  | map keys _ => exact keys

theorem Ordered.value {entries : List (String × Raw)} (h : Ordered (.map entries)) :
    ∀ entry ∈ entries, Ordered entry.2 := by
  cases h with
  | map _ each => exact each

theorem Ordered.item {items : List Raw} (h : Ordered (.list items)) :
    ∀ item ∈ items, Ordered item := by
  cases h with
  | list each => exact each

/-- The node under a key, where the tree is a map that has the key. -/
def get? (r : Raw) (key : String) : Option Raw :=
  match r with
  | .map entries => entries.lookup key
  | _ => none

theorem Ordered.get? {r value : Raw} (h : Ordered r) (key : String)
    (found : r.get? key = some value) : Ordered value := by
  cases r with
  | map entries => exact h.value _ (Entries.mem_of_lookup found)
  | _ => cases found

/-- Puts a value under a key of a map; any other tree stays as it is. -/
def insert (r : Raw) (key : String) (value : Raw) : Raw :=
  match r with
  | .map entries => .map (Entries.insert key value entries)
  | r => r

theorem Ordered.insert {r value : Raw} (h : Ordered r) (key : String) (hv : Ordered value) :
    Ordered (r.insert key value) := by
  cases r with
  | map entries =>
    refine .map h.keys.insert fun entry he => ?_
    rcases Entries.mem_insert he with rfl | he
    · exact hv
    · exact h.value entry he
  | _ => exact h

/-- The number of entries of a map or items of a list; nothing else has any. -/
def size : Raw → Nat
  | .map entries => entries.length
  | .list items => items.length
  | _ => 0

/-! ### Equality -/

mutual

/-- Whether two trees are equal. -/
def decEq : (a b : Raw) → Decidable (a = b)
  | .null, .null => isTrue rfl
  | .number m, .number n => decidable_of_iff (m = n) (by simp)
  | .text s, .text t => decidable_of_iff (s = t) (by simp)
  | .list xs, .list ys =>
    match decEqItems xs ys with
    | isTrue h => isTrue (congrArg _ h)
    | isFalse h => isFalse fun eq => h (Raw.list.inj eq)
  | .map xs, .map ys =>
    match decEqEntries xs ys with
    | isTrue h => isTrue (congrArg _ h)
    | isFalse h => isFalse fun eq => h (Raw.map.inj eq)
  | .null, .number _ | .null, .text _ | .null, .list _ | .null, .map _ => isFalse nofun
  | .number _, .null | .number _, .text _ | .number _, .list _ | .number _, .map _ =>
    isFalse nofun
  | .text _, .null | .text _, .number _ | .text _, .list _ | .text _, .map _ => isFalse nofun
  | .list _, .null | .list _, .number _ | .list _, .text _ | .list _, .map _ => isFalse nofun
  | .map _, .null | .map _, .number _ | .map _, .text _ | .map _, .list _ => isFalse nofun

/-- Whether two lists of trees are equal. -/
def decEqItems : (xs ys : List Raw) → Decidable (xs = ys)
  | [], [] => isTrue rfl
  | [], _ :: _ | _ :: _, [] => isFalse nofun
  | x :: xs, y :: ys =>
    match decEq x y, decEqItems xs ys with
    | isTrue h, isTrue hs => isTrue (h ▸ hs ▸ rfl)
    | isFalse h, _ => isFalse fun eq => h (List.cons.inj eq).1
    | _, isFalse hs => isFalse fun eq => hs (List.cons.inj eq).2

/-- Whether two lists of entries are equal. -/
def decEqEntries : (xs ys : List (String × Raw)) → Decidable (xs = ys)
  | [], [] => isTrue rfl
  | [], _ :: _ | _ :: _, [] => isFalse nofun
  | (k, x) :: xs, (l, y) :: ys =>
    match decEq x y, decEqEntries xs ys with
    | isTrue h, isTrue hs => decidable_of_iff (k = l) (by simp [h, hs])
    | isFalse h, _ => isFalse fun eq => h (Prod.mk.inj (List.cons.inj eq).1).2
    | _, isFalse hs => isFalse fun eq => hs (List.cons.inj eq).2

end

instance : DecidableEq Raw := decEq

end Node.Raw

/-- A report tree. -/
structure Node where
  raw : Node.Raw
  ordered : raw.Ordered
  deriving DecidableEq

namespace Node

/-! ### Building -/

def null : Node := ⟨.null, .null⟩

def number (value : UInt64) : Node := ⟨.number value, .number value⟩

def text (value : String) : Node := ⟨.text value, .text value⟩

/-- A text, or nothing. -/
def textOrNull : Option String → Node
  | some value => text value
  | none => null

def list (items : List Node) : Node :=
  ⟨.list (items.map raw), .list fun item h => by
    obtain ⟨node, _, rfl⟩ := List.mem_map.mp h
    exact node.ordered⟩

/-- The map without entries. -/
def empty : Node := ⟨.map [], .map .nil nofun⟩

/-- The map with one more entry, in place of any under the same key. A node that is
no map is left as it is. -/
def insert (n : Node) (key : String) (value : Node) : Node :=
  ⟨n.raw.insert key value.raw, n.ordered.insert key value.ordered⟩

/-- The map of some entries; of two with the same key the later one counts. -/
def ofEntries (entries : List (String × Node)) : Node :=
  entries.foldl (fun n entry => n.insert entry.1 entry.2) empty

/-- The map with one entry. -/
def single (key : String) (value : Node) : Node := empty.insert key value

theorem ext_raw {a b : Node} (h : a.raw = b.raw) : a = b := by
  cases a
  cases b
  cases h
  rfl

/-! ### Looking in -/

/-- The node under a key of a map. -/
def get? (n : Node) (key : String) : Option Node :=
  Option.pmap mk (n.raw.get? key) fun _ found => n.ordered.get? key found

theorem map_raw_get? (n : Node) (key : String) : (n.get? key).map raw = n.raw.get? key := by
  simp [get?, Option.map_pmap]

theorem get?_eq_some_iff {n value : Node} {key : String} :
    n.get? key = some value ↔ n.raw.get? key = some value.raw := by
  rw [← map_raw_get?]
  refine ⟨fun h => by rw [h]; rfl, fun h => ?_⟩
  obtain ⟨found, hf, hr⟩ := Option.map_eq_some_iff.mp h
  rw [hf]
  cases found
  cases value
  cases hr
  rfl

theorem get?_eq_none_iff {n : Node} {key : String} :
    n.get? key = none ↔ n.raw.get? key = none := by
  rw [← map_raw_get?, Option.map_eq_none_iff]

/-- The node that a list of keys leads to. -/
def getPath? (n : Node) (path : List String) : Option Node := path.foldlM get? n

@[simp]
theorem getPath?_nil (n : Node) : n.getPath? [] = some n := rfl

@[simp]
theorem getPath?_cons (n : Node) (key : String) (path : List String) :
    n.getPath? (key :: path) = (n.get? key).bind (·.getPath? path) := rfl

/-- A path leads somewhere through the node of its first key. -/
theorem getPath?_cons_eq_some_iff {n m : Node} {key : String} {path : List String} :
    n.getPath? (key :: path) = some m ↔
      ∃ inner, n.get? key = some inner ∧ inner.getPath? path = some m :=
  Option.bind_eq_some_iff

def size (n : Node) : Nat := n.raw.size

def isEmpty (n : Node) : Bool := n.size == 0

def isMap (n : Node) : Bool :=
  match n.raw with
  | .map _ => true
  | _ => false

def number? (n : Node) : Option UInt64 :=
  match n.raw with
  | .number value => some value
  | _ => none

def text? (n : Node) : Option String :=
  match n.raw with
  | .text value => some value
  | _ => none

@[simp]
theorem get?_empty (key : String) : empty.get? key = none := rfl

/-- A map finds an inserted value under its key, and under every other key what it did. -/
theorem get?_insert {n : Node} (h : n.isMap) (key k : String) (value : Node) :
    (n.insert key value).get? k = if k = key then some value else n.get? k := by
  obtain ⟨r, hr⟩ := n
  cases r with
  | map entries =>
    split
    · next hk =>
      refine get?_eq_some_iff.mpr ?_
      exact (Entries.lookup_insert ..).trans (if_pos hk)
    · next hk =>
      have : (Entries.insert key value.raw entries).lookup k = entries.lookup k :=
        (Entries.lookup_insert ..).trans (if_neg hk)
      simp only [get?, insert, Raw.insert, Raw.get?, this]
  | _ => cases h

theorem isMap_insert {n : Node} (h : n.isMap) (key : String) (value : Node) :
    (n.insert key value).isMap := by
  obtain ⟨r, hr⟩ := n
  cases r with
  | map entries => rfl
  | _ => cases h

/-- Entries in order that are put into a map, one after the other, are found there. -/
theorem get?_foldl_insert {α : Type} (value : α → Node) {entries : List (String × α)}
    (h : Entries.Ordered entries) {n : Node} (hn : n.isMap) (key : String) :
    (entries.foldl (fun n entry => n.insert entry.1 (value entry.2)) n).get? key =
      ((entries.lookup key).map value).or (n.get? key) := by
  induction entries generalizing n with
  | nil => rfl
  | cons entry entries ih =>
    obtain ⟨k, v⟩ := entry
    have ⟨hk, hentries⟩ := List.pairwise_cons.mp h
    rw [List.foldl_cons, ih hentries (isMap_insert hn ..), get?_insert hn, Entries.lookup_cons]
    split
    · next heq =>
      subst heq
      rw [Entries.lookup_eq_none hk]
      rfl
    · rfl

theorem get?_single (key k : String) (value : Node) :
    (single key value).get? k = if k = key then some value else none := by
  rw [single, get?_insert rfl, get?_empty]

theorem get?_single_eq_some_iff {key k : String} {value found : Node} :
    (single key value).get? k = some found ↔ k = key ∧ value = found := by
  rw [get?_single, Option.ite_none_right_eq_some, Option.some.injEq]

/-- Maps are equal when they find the same under every key. -/
theorem ext_get? {a b : Node} (ha : a.isMap) (hb : b.isMap) (h : ∀ key, a.get? key = b.get? key) :
    a = b := by
  obtain ⟨r, hr⟩ := a
  obtain ⟨s, hs⟩ := b
  cases r with
  | map entries =>
    cases s with
    | map others =>
      have hentries : entries = others := hr.keys.ext hs.keys fun key => by
        have hkey := congrArg (Option.map raw) (h key)
        rwa [map_raw_get?, map_raw_get?] at hkey
      subst hentries
      rfl
    | _ => cases hb
  | _ => cases ha

/-- A property holds of every node if it holds of all that are no maps, and maps inherit
it from what they hold. -/
theorem mapInduct {P : Node → Prop} (leaf : ∀ n : Node, n.isMap = false → P n)
    (map : ∀ n : Node, n.isMap → (∀ key value, n.get? key = some value → P value) → P n)
    (n : Node) : P n := by
  obtain ⟨r, hr⟩ := n
  induction r using Raw.induct with
  | map entries ih =>
    refine map _ rfl fun key value hv => ?_
    exact ih _ (Entries.mem_of_lookup (get?_eq_some_iff.mp hv)) value.ordered
  | _ => exact leaf _ rfl

/-- The items of a list. -/
def items? : Node → Option (List Node)
  | ⟨.list items, h⟩ => some (items.pmap mk h.item)
  | _ => none

/-- The entries of a map, in the order of their keys. -/
def entries? : Node → Option (List (String × Node))
  | ⟨.map entries, h⟩ =>
    some (entries.pmap (fun entry he => (entry.1, ⟨entry.2, he⟩)) h.value)
  | _ => none

/-- The entries of a map are what it has under its keys, in their order. -/
theorem exists_entries {n : Node} (h : n.isMap) :
    ∃ entries, n.entries? = some entries ∧ Entries.Ordered entries ∧
      ∀ key value, (key, value) ∈ entries ↔ n.get? key = some value := by
  obtain ⟨r, hr⟩ := n
  cases r with
  | map raws =>
    refine ⟨_, rfl, ?_, fun key value => ?_⟩
    · rw [Entries.Ordered, List.pairwise_pmap]
      exact hr.keys.imp fun hlt _ _ => hlt
    · rw [get?_eq_some_iff, List.mem_pmap]
      refine Iff.trans ?_ hr.keys.lookup_eq_some_iff.symm
      constructor
      · rintro ⟨entry, hentry, heq⟩
        cases heq
        exact hentry
      · intro hentry
        exact ⟨(key, value.raw), hentry, rfl⟩
  | _ => cases h

theorem entries?_of_not_isMap {n : Node} (h : n.isMap = false) : n.entries? = none := by
  obtain ⟨r, hr⟩ := n
  cases r with
  | map entries => cases h
  | _ => rfl

/-- The keys of a map, in increasing order. -/
def keys? (n : Node) : Option (List String) :=
  match n.raw with
  | .map entries => some (entries.map Prod.fst)
  | _ => none

end Node

end KeyboardInfo
