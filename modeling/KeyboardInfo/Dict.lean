/-! Dictionaries with text keys, kept in the order of their keys.

The entries of a dictionary stand in strictly increasing order of their keys, as
texts compare code point by code point. So a key occurs once, and two dictionaries
with the same values under the same keys are equal. The operations are defined on
lists of entries (`Entries`), which trees use as they stand; `Dict` carries the
order with it. -/
namespace KeyboardInfo

universe u

namespace Entries
variable {α : Type u}

/-- Keys are strictly increasing. -/
def Ordered (entries : List (String × α)) : Prop :=
  entries.Pairwise fun a b => a.1 < b.1

instance (entries : List (String × α)) : Decidable (Ordered entries) :=
  inferInstanceAs (Decidable (List.Pairwise _ _))

/-- Puts a value under a key, in place of any that is there. -/
def insert (key : String) (value : α) : List (String × α) → List (String × α)
  | [] => [(key, value)]
  | (k, v) :: rest =>
    if key < k then (key, value) :: (k, v) :: rest
    else if key = k then (key, value) :: rest
    else (k, v) :: insert key value rest

/-- No key occurs twice. -/
theorem Ordered.nodup_keys {entries : List (String × α)} (h : Ordered entries) :
    (entries.map Prod.fst).Nodup := by
  rw [List.Nodup, List.pairwise_map]
  refine List.Pairwise.imp (fun {a b} hlt heq => ?_) h
  rw [heq] at hlt
  exact String.lt_irrefl _ hlt

theorem mem_insert {key : String} {value : α} {entries : List (String × α)} {e : String × α}
    (h : e ∈ insert key value entries) : e = (key, value) ∨ e ∈ entries := by
  induction entries with
  | nil => exact .inl (List.mem_singleton.mp h)
  | cons entry rest ih =>
    obtain ⟨k, v⟩ := entry
    rw [insert] at h
    split at h
    · exact List.mem_cons.mp h
    · split at h
      · exact (List.mem_cons.mp h).imp id (List.mem_cons_of_mem _)
      · rcases List.mem_cons.mp h with rfl | h
        · exact .inr (List.mem_cons_self ..)
        · exact (ih h).imp id (List.mem_cons_of_mem _)

theorem Ordered.insert {key : String} {value : α} {entries : List (String × α)}
    (h : Ordered entries) : Ordered (insert key value entries) := by
  induction entries with
  | nil => exact List.pairwise_singleton ..
  | cons entry rest ih =>
    obtain ⟨k, v⟩ := entry
    have ⟨hk, hrest⟩ := List.pairwise_cons.mp h
    rw [Entries.insert]
    split
    · next hlt =>
      refine List.pairwise_cons.mpr ⟨fun e he => ?_, h⟩
      rcases List.mem_cons.mp he with rfl | he
      · exact hlt
      · exact String.lt_trans hlt (hk e he)
    · next hge =>
      split
      · next heq => exact List.pairwise_cons.mpr ⟨fun e he => heq ▸ hk e he, hrest⟩
      · next hne =>
        refine List.pairwise_cons.mpr ⟨fun e he => ?_, ih hrest⟩
        rcases mem_insert he with rfl | he
        · rcases Std.lt_trichotomy k key with hlt | heq | hlt
          · exact hlt
          · exact absurd heq.symm hne
          · exact absurd hlt hge
        · exact hk e he

theorem lookup_cons (key k : String) (v : α) (rest : List (String × α)) :
    ((k, v) :: rest).lookup key = if key = k then some v else rest.lookup key := by
  by_cases h : key = k
  · simp [h]
  · simp [List.lookup_cons, beq_eq_false_iff_ne.mpr h, h]

/-- An inserted value is found under its key, and every other key finds what it did. -/
theorem lookup_insert (key k : String) (value : α) (entries : List (String × α)) :
    (insert key value entries).lookup k = if k = key then some value else entries.lookup k := by
  induction entries with
  | nil => exact lookup_cons ..
  | cons entry rest ih =>
    obtain ⟨k', v⟩ := entry
    rw [insert]
    split
    · exact lookup_cons ..
    · split
      · next heq => subst heq; simp only [lookup_cons]; split <;> rfl
      · next hne =>
        simp only [lookup_cons, ih]
        split
        · next h =>
          subst h
          rw [if_neg fun hk => hne hk.symm]
        · rfl

theorem mem_of_lookup {key : String} {value : α} {entries : List (String × α)}
    (h : entries.lookup key = some value) : (key, value) ∈ entries := by
  induction entries with
  | nil => simp at h
  | cons entry rest ih =>
    obtain ⟨k, v⟩ := entry
    rw [lookup_cons] at h
    split at h
    · next hk =>
      cases h
      exact hk ▸ List.mem_cons_self ..
    · exact List.mem_cons_of_mem _ (ih h)

/-- Entries in order are found under their keys, and nothing else is. -/
theorem Ordered.lookup_eq_some_iff {key : String} {value : α} {entries : List (String × α)}
    (h : Ordered entries) : entries.lookup key = some value ↔ (key, value) ∈ entries := by
  refine ⟨mem_of_lookup, fun hm => ?_⟩
  induction entries with
  | nil => cases hm
  | cons entry rest ih =>
    obtain ⟨k, v⟩ := entry
    have ⟨hk, hrest⟩ := List.pairwise_cons.mp h
    rw [lookup_cons]
    rcases List.mem_cons.mp hm with heq | hm
    · cases heq
      exact if_pos rfl
    · have hne : key ≠ k := fun heq => String.lt_irrefl _ (heq ▸ hk _ hm)
      rw [if_neg hne, ih hrest hm]

/-- A key that comes before every key of some entries is not among them. -/
theorem lookup_eq_none {key : String} {entries : List (String × α)}
    (h : ∀ e ∈ entries, key < e.1) : entries.lookup key = none := by
  induction entries with
  | nil => rfl
  | cons entry rest ih =>
    have hk : key ≠ entry.1 := fun eq => String.lt_irrefl _ (eq ▸ h entry (List.mem_cons_self ..))
    rw [lookup_cons, if_neg hk, ih fun e he => h e (List.mem_cons_of_mem _ he)]

theorem lookup_head (entry : String × α) (rest : List (String × α)) :
    (entry :: rest).lookup entry.1 = some entry.2 := by
  rw [lookup_cons, if_pos rfl]

theorem Ordered.lookup_before {key : String} {entry : String × α} {rest : List (String × α)}
    (h : Ordered (entry :: rest)) (hk : key < entry.1) : (entry :: rest).lookup key = none := by
  refine lookup_eq_none fun e he => ?_
  rcases List.mem_cons.mp he with rfl | he
  · exact hk
  · exact String.lt_trans hk ((List.pairwise_cons.mp h).1 e he)

/-- Entries in order are determined by what is found under each key. -/
theorem Ordered.ext {a b : List (String × α)} (ha : Ordered a) (hb : Ordered b)
    (h : ∀ key, a.lookup key = b.lookup key) : a = b := by
  induction a generalizing b with
  | nil =>
    cases b with
    | nil => rfl
    | cons y ys => cases (lookup_head y ys).symm.trans (h y.1).symm
  | cons x xs ih =>
    cases b with
    | nil => cases (lookup_head x xs).symm.trans (h x.1)
    | cons y ys =>
      have hkey : x.1 = y.1 := by
        rcases Std.lt_trichotomy x.1 y.1 with hlt | heq | hlt
        · cases (hb.lookup_before hlt).symm.trans ((h x.1).symm.trans (lookup_head x xs))
        · exact heq
        · cases (ha.lookup_before hlt).symm.trans ((h y.1).trans (lookup_head y ys))
      have hvalue : x.2 = y.2 := by
        have := h x.1
        rw [lookup_head, hkey, lookup_head] at this
        exact Option.some.inj this
      obtain rfl : x = y := Prod.ext hkey hvalue
      have ⟨hx, hxs⟩ := List.pairwise_cons.mp ha
      have ⟨hy, hys⟩ := List.pairwise_cons.mp hb
      refine congrArg (x :: ·) (ih hxs hys fun key => ?_)
      by_cases hk : key = x.1
      · rw [hk, lookup_eq_none hx, lookup_eq_none hy]
      · have := h key
        rwa [lookup_cons, if_neg hk, lookup_cons, if_neg hk] at this

end Entries

/-- A dictionary with text keys in increasing order. -/
structure Dict (α : Type u) where
  entries : List (String × α)
  ordered : Entries.Ordered entries
  deriving DecidableEq

namespace Dict
variable {α : Type u}

def empty : Dict α := ⟨[], .nil⟩

def insert (d : Dict α) (key : String) (value : α) : Dict α :=
  ⟨Entries.insert key value d.entries, d.ordered.insert⟩

def get? (d : Dict α) (key : String) : Option α := d.entries.lookup key

def isEmpty (d : Dict α) : Bool := d.entries.isEmpty

@[ext]
theorem ext {a b : Dict α} (h : ∀ key, a.get? key = b.get? key) : a = b := by
  obtain ⟨entries, ha⟩ := a
  obtain ⟨others, hb⟩ := b
  obtain rfl : entries = others := ha.ext hb h
  rfl

theorem get?_insert (d : Dict α) (key k : String) (value : α) :
    (d.insert key value).get? k = if k = key then some value else d.get? k :=
  Entries.lookup_insert ..

end Dict

end KeyboardInfo
