import Mathlib.Data.String.Basic

/-! Texts as UTF-8.

A byte below 128 is a character of its own and part of no other
(`encodeChar_eq_singleton`), so bytes may be cut into lines before they are read as text.
Bytes are in the order of the characters that they stand for, so texts compare byte by byte
as they compare character by character (`utf8_lt_iff`). -/
namespace KeyboardInfo.Text

/-- The bytes of a text. -/
def utf8 (cs : List Char) : List UInt8 := cs.flatMap String.utf8EncodeChar

@[simp]
theorem utf8_nil : utf8 [] = [] := rfl

theorem utf8_cons (c : Char) (cs : List Char) :
    utf8 (c :: cs) = String.utf8EncodeChar c ++ utf8 cs :=
  List.flatMap_cons

theorem utf8_append (a b : List Char) : utf8 (a ++ b) = utf8 a ++ utf8 b := List.flatMap_append

theorem toByteArray_utf8 (cs : List Char) : (String.ofList cs).toByteArray = ⟨(utf8 cs).toArray⟩ :=
  ByteArray.ext (Array.toList_inj.mp List.toList_data_toByteArray)

theorem toList_toUTF8 (s : String) : s.toUTF8.data.toList = utf8 s.toList := by
  have h := toByteArray_utf8 s.toList
  rw [String.ofList_toList] at h
  exact congrArg (·.data.toList) h

theorem le_of_mem_encodeChar {c : Char} (h : ¬ c.val.toNat ≤ 127) :
    ∀ b ∈ String.utf8EncodeChar c, 128 ≤ b.toNat := by
  simp only [String.utf8EncodeChar, if_neg h]
  split_ifs <;>
    simp only [List.forall_mem_cons, List.not_mem_nil, false_implies, implies_true, and_true,
      UInt8.toNat_ofNat'] <;>
    omega

/-- A byte below 128 in a character is all of it. -/
theorem encodeChar_eq_singleton {c : Char} {b : UInt8} (hb : b ∈ String.utf8EncodeChar c)
    (h : b.toNat < 128) : String.utf8EncodeChar c = [b] ∧ c.toNat = b.toNat := by
  by_cases hc : c.val.toNat ≤ 127
  · have hone : String.utf8EncodeChar c = [UInt8.ofNat c.val.toNat] := by
      simp only [String.utf8EncodeChar, if_pos hc]
    rw [hone, List.mem_singleton] at hb
    subst hb
    refine ⟨hone, ?_⟩
    rw [UInt8.toNat_ofNat', Nat.mod_eq_of_lt (by omega)]
    rfl
  · exact absurd h (Nat.not_lt.mpr (le_of_mem_encodeChar hc b hb))

/-! ### Order -/

/-- The bytes of a smaller character come first, whatever follows. -/
theorem encodeChar_append_lt {c d : Char} (h : c < d) (a b : List UInt8) :
    String.utf8EncodeChar c ++ a < String.utf8EncodeChar d ++ b := by
  have hlt : c.val.toNat < d.val.toNat := h
  have hmax : d.val.toNat < 0x110000 := by
    have := d.valid
    simp only [UInt32.isValidChar, Nat.isValidChar] at this
    omega
  generalize hm : c.val.toNat = m at hlt
  generalize hn : d.val.toNat = n at hlt hmax
  -- The first group of six bits in which the two differ, from the top.
  have first : m / 262144 < n / 262144 ∨ m / 262144 = n / 262144 ∧ m / 4096 < n / 4096 ∨
      m / 4096 = n / 4096 ∧ m / 64 < n / 64 ∨ m / 64 = n / 64 ∧ m % 64 < n % 64 := by omega
  simp only [String.utf8EncodeChar, hm, hn]
  split_ifs <;>
    simp only [List.cons_append, List.nil_append, List.cons_lt_cons_iff, UInt8.lt_iff_toNat_lt,
      ← UInt8.toNat_inj, UInt8.toNat_ofNat']
  all_goals rcases first with h | ⟨h₀, h⟩ | ⟨h₀, h⟩ | ⟨h₀, h⟩ <;> omega

theorem utf8_lt {a b : List Char} (h : a < b) : utf8 a < utf8 b := by
  induction a generalizing b with
  | nil =>
    cases b with
    | nil => exact absurd h (List.lt_irrefl _)
    | cons d b =>
      obtain ⟨byte, bytes, hd⟩ := List.exists_cons_of_ne_nil (String.utf8EncodeChar_ne_nil (c := d))
      rw [utf8_cons, hd]
      exact List.nil_lt_cons ..
  | cons c a ih =>
    cases b with
    | nil => exact absurd h (List.not_lt_nil _)
    | cons d b =>
      rw [utf8_cons, utf8_cons]
      rcases List.cons_lt_cons_iff.mp h with hcd | ⟨rfl, hab⟩
      · exact encodeChar_append_lt hcd ..
      · exact List.append_left_lt (ih hab)

/-- **Texts compare byte by byte as they compare character by character.** -/
theorem utf8_lt_iff {a b : List Char} : utf8 a < utf8 b ↔ a < b := by
  refine ⟨fun h => ?_, utf8_lt⟩
  rcases Std.lt_trichotomy a b with hlt | rfl | hlt
  · exact hlt
  · exact absurd h (List.lt_irrefl _)
  · exact absurd h (List.lt_asymm (utf8_lt hlt))

end KeyboardInfo.Text
