import KeyboardInfo.Text.Hex
import Mathlib.Data.Nat.Digits.Defs
import Mathlib.Tactic.Ring

/-! Numbers as they are written.

A numeral is an optional mark, an optional plus sign and then digits in either case, and it stands
for their positional value (`Numeral`). Taking a mark and a sign off a numeral leaves its digits and
nothing else, since no digits begin with either (`number?_eq_some_iff_numeral`). So the numerals
that fit in 64 bits are read, and no other text is: not one with its sign before the mark, with two
marks, or with a number that is too large (`reads_numerals`). -/
namespace KeyboardInfo.Text.Hex

/-! ### Digits -/

/-- The characters of a text are digits with the given values. -/
structure Digits (text : List Char) (values : List Nat) : Prop where
  small : ∀ d ∈ values, d < 16
  spelled : text.map Char.toLower = values.map Nat.digitChar

theorem digit?_ascii : ∀ n < 128, ∀ d < 16,
    digit? (Char.ofNat n) = some d ↔ (Char.ofNat n).toLower = d.digitChar := by decide +kernel

theorem bounds_of_digit? {c : Char} {d : Nat} (h : digit? c = some d) : c.toNat < 128 ∧ d < 16 := by
  unfold digit? at h
  simp only [Char.le_def, UInt32.le_iff_toNat_le] at h
  change (if 48 ≤ c.toNat ∧ c.toNat ≤ 57 then some (c.toNat - 48)
    else if 97 ≤ c.toNat ∧ c.toNat ≤ 102 then some (c.toNat - 97 + 10)
    else if 65 ≤ c.toNat ∧ c.toNat ≤ 70 then some (c.toNat - 65 + 10)
    else none) = some d at h
  split_ifs at h <;> cases h <;> omega

theorem toNat_le_toLower (c : Char) : c.toNat ≤ c.toLower.toNat := by
  unfold Char.toLower
  split
  · next h =>
    have hle : c.val.toNat ≤ 90 := UInt32.le_iff_toNat_le.mp h.2
    change c.val.toNat ≤ (c.val + 32).toNat
    have hadd : (c.val + 32).toNat = (c.val.toNat + 32) % 2 ^ 32 := UInt32.toNat_add c.val 32
    omega
  · exact Nat.le_refl _

/-- A digit is one of sixteen characters, in either case. -/
theorem digit?_eq_some_iff {c : Char} {d : Nat} :
    digit? c = some d ↔ d < 16 ∧ c.toLower = d.digitChar := by
  constructor
  · intro h
    obtain ⟨hc, hd⟩ := bounds_of_digit? h
    have hascii := digit?_ascii c.toNat hc d hd
    rw [Char.ofNat_toNat] at hascii
    exact ⟨hd, hascii.mp h⟩
  · rintro ⟨hd, h⟩
    have hsmall : ∀ d < 16, d.digitChar.toNat < 128 := by decide
    have hc : c.toNat < 128 := by
      have hle := toNat_le_toLower c
      rw [h] at hle
      exact Nat.lt_of_le_of_lt hle (hsmall d hd)
    have hascii := digit?_ascii c.toNat hc d hd
    rw [Char.ofNat_toNat] at hascii
    exact hascii.mpr h

theorem digits_nil {values : List Nat} : Digits [] values ↔ values = [] := by
  constructor
  · intro h
    simpa using h.spelled
  · rintro rfl
    exact ⟨nofun, rfl⟩

theorem digits_cons {c : Char} {text : List Char} {values : List Nat} :
    Digits (c :: text) values ↔
      ∃ d rest, values = d :: rest ∧ digit? c = some d ∧ Digits text rest := by
  constructor
  · rintro ⟨small, spelled⟩
    cases values with
    | nil => cases spelled
    | cons d rest =>
      obtain ⟨hd, hsmall⟩ := List.forall_mem_cons.mp small
      obtain ⟨hc, htext⟩ := List.cons.inj spelled
      exact ⟨d, rest, rfl, digit?_eq_some_iff.mpr ⟨hd, hc⟩, hsmall, htext⟩
  · rintro ⟨d, rest, rfl, hdigit, small, spelled⟩
    obtain ⟨hd, hc⟩ := digit?_eq_some_iff.mp hdigit
    exact ⟨List.forall_mem_cons.mpr ⟨hd, small⟩, congrArg₂ List.cons hc spelled⟩

/-- Digits that are read on from a value are worth as much as with that value before them. -/
theorem readDigits?_eq_some_iff {value n : Nat} {text : List Char} :
    readDigits? value text = some n ↔
      ∃ values, Digits text values ∧ n = Nat.ofDigits 16 (value :: values).reverse := by
  induction text generalizing value with
  | nil => simp [readDigits?, digits_nil, eq_comm]
  | cons c text ih =>
    have hshift (d : Nat) (values : List Nat) :
        Nat.ofDigits 16 ((value * 16 + d) :: values).reverse =
          Nat.ofDigits 16 (value :: d :: values).reverse := by
      simp only [Nat.ofDigits_reverse_cons, List.length_cons]
      ring
    rw [readDigits?]
    cases hc : digit? c with
    | none => simp [digits_cons, hc]
    | some d =>
      simp only [ih, digits_cons, hc, hshift]
      constructor
      · rintro ⟨values, hvalues, hn⟩
        exact ⟨d :: values, ⟨d, values, rfl, rfl, hvalues⟩, hn⟩
      · rintro ⟨_, ⟨_, values, rfl, hd, hvalues⟩, hn⟩
        cases hd
        exact ⟨values, hvalues, hn⟩

/-- The digits that are written for a number. -/
theorem exists_digits_write (n : Nat) :
    ∃ values : List Nat, (∀ d ∈ values, d < 16) ∧
      Nat.toDigits 16 n = values.map Nat.digitChar ∧ Nat.ofDigits 16 values.reverse = n := by
  induction n using Nat.strongRecOn with
  | ind n ih =>
    rw [Nat.toDigits_eq_if (by decide)]
    split
    · next hn => exact ⟨[n], by simpa using hn, rfl, Nat.ofDigits_singleton⟩
    · next hn =>
      obtain ⟨values, small, hwritten, hvalue⟩ := ih (n / 16) (by omega)
      refine ⟨values ++ [n % 16], ?_, by rw [hwritten, List.map_append, List.map_singleton], ?_⟩
      · intro d hd
        rcases List.mem_append.mp hd with hd | hd
        · exact small d hd
        · rw [List.mem_singleton.mp hd]
          exact Nat.mod_lt n (by decide)
      · rw [List.reverse_append, List.reverse_singleton, List.singleton_append, Nat.ofDigits_cons,
          hvalue]
        exact Nat.mod_add_div n 16

/-! ### Numerals -/

/-- What may stand before a number to mark it as one. -/
def marks : List (List Char) := [[], ['0', 'x'], ['0', 'X']]

/-- What may stand before the digits of a number. -/
def signs : List (List Char) := [[], ['+']]

/-- A text is a numeral with the given value. -/
inductive Numeral : List Char → Nat → Prop where
  | mk {mark sign text : List Char} {values : List Nat} (mark_mem : mark ∈ marks)
      (sign_mem : sign ∈ signs) (nonempty : text ≠ []) (digits : Digits text values) :
      Numeral (mark ++ (sign ++ text)) (Nat.ofDigits 16 values.reverse)

theorem exists_mark (token : List Char) : ∃ mark ∈ marks, token = mark ++ withoutMark token := by
  unfold withoutMark
  split
  · exact ⟨['0', 'x'], by decide, rfl⟩
  · exact ⟨['0', 'X'], by decide, rfl⟩
  · exact ⟨[], by decide, rfl⟩

theorem exists_sign (token : List Char) : ∃ sign ∈ signs, token = sign ++ withoutPlus token := by
  unfold withoutPlus
  split
  · exact ⟨['+'], by decide, rfl⟩
  · exact ⟨[], by decide, rfl⟩

theorem withoutPlus_append {sign text : List Char} {values : List Nat} (hsign : sign ∈ signs)
    (h : Digits text values) : withoutPlus (sign ++ text) = text := by
  simp only [signs, List.mem_cons, List.not_mem_nil, or_false] at hsign
  rcases hsign with rfl | rfl
  · -- The digits do not begin with a sign.
    rw [List.nil_append]
    unfold withoutPlus
    split
    · obtain ⟨d, _, _, hd, _⟩ := digits_cons.mp h
      cases hd
    · rfl
  · rfl

theorem withoutMark_append {mark sign text : List Char} {values : List Nat} (hmark : mark ∈ marks)
    (hsign : sign ∈ signs) (h : Digits text values) :
    withoutMark (mark ++ (sign ++ text)) = sign ++ text := by
  have hunmarked (c : Char) (rest : List Char) (hc : digit? c = none) :
      sign ++ text ≠ '0' :: c :: rest := by
    intro heq
    simp only [signs, List.mem_cons, List.not_mem_nil, or_false] at hsign
    rcases hsign with rfl | rfl
    · rw [List.nil_append] at heq
      rw [heq] at h
      obtain ⟨_, _, -, -, h⟩ := digits_cons.mp h
      obtain ⟨d, _, -, hd, -⟩ := digits_cons.mp h
      rw [hc] at hd
      cases hd
    · cases heq
  simp only [marks, List.mem_cons, List.not_mem_nil, or_false] at hmark
  rcases hmark with rfl | rfl | rfl
  · rw [List.nil_append]
    unfold withoutMark
    split
    · next rest heq => exact absurd heq (hunmarked 'x' rest rfl)
    · next rest heq => exact absurd heq (hunmarked 'X' rest rfl)
    · rfl
  · rfl
  · rfl

theorem number?_eq_some_iff {text : List Char} {n : Nat} :
    number? text = some n ↔
      text ≠ [] ∧ ∃ values, Digits text values ∧ n = Nat.ofDigits 16 values.reverse := by
  cases text with
  | nil => simp [number?]
  | cons c text => simp [number?, readDigits?_eq_some_iff, Nat.ofDigits_append]

/-- What is left without a mark and a sign are the digits of a numeral. -/
theorem number?_eq_some_iff_numeral {token : List Char} {n : Nat} :
    number? (withoutPlus (withoutMark token)) = some n ↔ Numeral token n := by
  constructor
  · intro h
    obtain ⟨nonempty, values, hvalues, rfl⟩ := number?_eq_some_iff.mp h
    obtain ⟨mark, hmark, htoken⟩ := exists_mark token
    obtain ⟨sign, hsign, hrest⟩ := exists_sign (withoutMark token)
    rw [htoken, hrest]
    exact .mk hmark hsign nonempty hvalues
  · rintro ⟨hmark, hsign, nonempty, hvalues⟩
    rw [withoutMark_append hmark hsign hvalues, withoutPlus_append hsign hvalues]
    exact number?_eq_some_iff.mpr ⟨nonempty, _, hvalues, rfl⟩

/-- A written number is a numeral, also in upper case, with zeros and a mark before it. -/
theorem numeral_written {mark text : List Char} {zeros : Nat} {v : UInt64} (hmark : mark ∈ marks)
    (h : text.map Char.toLower = List.replicate zeros '0' ++ (write v).toList) :
    Numeral (mark ++ text) v.toNat := by
  obtain ⟨values, small, hwritten, hvalue⟩ := exists_digits_write v.toNat
  have hdigits : Digits text (List.replicate zeros 0 ++ values) := by
    constructor
    case small =>
      intro d hd
      rcases List.mem_append.mp hd with hd | hd
      · rw [List.eq_of_mem_replicate hd]
        decide
      · exact small d hd
    case spelled =>
      rw [h, write, String.toList_ofList, hwritten, List.map_append, List.map_replicate]
      rfl
  have hne : text ≠ [] := by
    rintro rfl
    have hnil : (write v).toList = [] := (List.append_eq_nil_iff.mp h.symm).2
    rw [write, String.toList_ofList] at hnil
    exact Nat.toDigits_ne_nil hnil
  have hpadded : Nat.ofDigits 16 (List.replicate zeros 0 ++ values).reverse = v.toNat := by
    rw [List.reverse_append, List.reverse_replicate, Nat.ofDigits_append_replicate_zero, hvalue]
  have unsigned : [] ∈ signs := List.mem_cons_self ..
  rw [← hpadded]
  exact .mk hmark unsigned hne hdigits

/-! ### Main theorem -/

theorem read?_of_numeral {token : List Char} {n : Nat} (h : Numeral token n) :
    read? token = if n < UInt64.size then some (UInt64.ofNat n) else none := by
  rw [read?, number?_eq_some_iff_numeral.mpr h]

theorem read?_eq_some_iff {token : List Char} {v : UInt64} :
    read? token = some v ↔ Numeral token v.toNat := by
  constructor
  · intro h
    rw [read?] at h
    split at h
    · next n hn =>
      split at h
      · next hfits =>
        cases h
        rw [UInt64.toNat_ofNat_of_lt' hfits]
        exact number?_eq_some_iff_numeral.mp hn
      · cases h
    · cases h
  · intro h
    rw [read?_of_numeral h, if_pos v.toNat_lt_size, UInt64.ofNat_toNat]

/-- **Just the numerals that fit in 64 bits are read, and each as what it stands for.** Any other
text is refused, and a numeral that is too large with it. So a number is read back from how it is
written, with or without a mark, in either case and however many zeros stand before it. -/
theorem reads_numerals :
    (∀ token v, read? token = some v ↔ Numeral token v.toNat) ∧
      (∀ token, read? token = none ↔ ∀ n, Numeral token n → 2 ^ 64 ≤ n) ∧
      ∀ v, ∀ mark ∈ marks, ∀ text zeros,
        text.map Char.toLower = List.replicate zeros '0' ++ (write v).toList →
          read? (mark ++ text) = some v := by
  refine ⟨fun _ _ => read?_eq_some_iff, fun token => ⟨fun h n hn => ?_, fun h => ?_⟩,
    fun v mark hmark text zeros htext => read?_eq_some_iff.mpr (numeral_written hmark htext)⟩
  · rw [read?_of_numeral hn] at h
    split at h
    · cases h
    · next hlarge => exact Nat.le_of_not_lt hlarge
  · rw [Option.eq_none_iff_forall_ne_some]
    intro v hv
    have hlarge := h v.toNat (read?_eq_some_iff.mp hv)
    exact absurd v.toNat_lt_size (Nat.not_lt_of_le hlarge)

/-- A sign comes after the mark, and none before it. -/
example : read? "0x+1F".toList = some 31 ∧ read? "+0x1f".toList = none := by decide

end KeyboardInfo.Text.Hex
