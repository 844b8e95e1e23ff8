import KeyboardInfo.LinkerMap.Extraction
import KeyboardInfo.Proofs.Entries

/-! Which tokens of a line are taken for its extent and its symbol.

A number may begin inside a token, and is then what the token holds from the leftmost mark that
something follows (`numberIn?_eq_some_iff`). Of all tokens with a number, the search takes the first
one with the right neighbour (`firstNumber?_eq_some_iff`): for an extent the neighbour has to be a
number as a whole, and a token with a number before that is passed over; for a symbol any neighbour
will do, so that only the first token with a number counts (`captures_leftmost`). -/
namespace KeyboardInfo.LinkerMap
open Text

/-! ### Numbers in tokens -/

/-- A mark and something after it. -/
def IsNumber (text : List Char) : Prop := ∃ rest, rest ≠ [] ∧ text = Entry.mark ++ rest

/-- A token in which something follows a mark. -/
def HoldsNumber (token : List Char) : Prop :=
  ∃ before number, token = before ++ number ∧ IsNumber number

/-- The number in a token begins at the leftmost mark that can begin one. -/
theorem numberIn?_eq_some_iff {token number : List Char} :
    numberIn? token = some number ↔ Leftmost IsNumber token number := by
  induction token with
  | nil => simp [numberIn?, leftmost_nil, isNumber_iff, IsNumber, Entry.mark]
  | cons c token ih =>
    rw [numberIn?_cons, leftmost_cons, ← ih, ← show _ ↔ IsNumber (c :: token) from isNumber_iff]
    by_cases h : isNumber (c :: token) <;> simp [h, eq_comm]

theorem isSome_numberIn? {token : List Char} : (numberIn? token).isSome ↔ HoldsNumber token := by
  rw [Option.isSome_iff_exists]
  simp only [numberIn?_eq_some_iff, exists_leftmost_iff]
  constructor
  · rintro ⟨number, ⟨before, rfl⟩, h⟩
    exact ⟨before, number, rfl, h⟩
  · rintro ⟨before, number, rfl, h⟩
    exact ⟨number, List.suffix_append .., h⟩

/-! ### Numbers and their neighbours -/

/-- The first of some tokens has a number, and the others have a property. -/
def NumberThen (P : List (List Char) → Prop) : List (List Char) → Prop
  | [] => False
  | token :: others => HoldsNumber token ∧ P others

/-- The search takes the first number that is followed as it should be. -/
theorem firstNumber?_eq_some_iff {β : Type} {next : List (List Char) → Option β}
    {texts : List (List Char)} {number : List Char} {answer : β} :
    firstNumber? next texts = some (number, answer) ↔
      ∃ token others, Leftmost (NumberThen fun others => (next others).isSome) texts
        (token :: others) ∧ Leftmost IsNumber token number ∧ next others = some answer := by
  induction texts with
  | nil => simp [firstNumber?, leftmost_nil, NumberThen]
  | cons token texts ih =>
    have hstart : NumberThen (fun others => (next others).isSome) (token :: texts) ↔
        (numberIn? token).isSome ∧ (next texts).isSome := by
      rw [NumberThen, isSome_numberIn?]
    simp only [leftmost_cons, hstart, ← numberIn?_eq_some_iff] at ih ⊢
    rw [firstNumber?]
    cases hnumber : numberIn? token with
    | none => simpa using ih
    | some found =>
      cases hnext : next texts with
      | none => simpa using ih
      | some said => simp [hnumber, hnext]

/-! ### What a line gives -/

/-- A token with a number, and right after it one that is a number. -/
def NumberPair : List (List Char) → Prop
  | first :: second :: _ => HoldsNumber first ∧ IsNumber second
  | _ => False

/-- A token with a number, with any tokens after it. -/
def StartsWithNumber : List (List Char) → Prop
  | first :: _ => HoldsNumber first
  | [] => False

/-- A token with a number, and another one after it. -/
def NumberAndToken : List (List Char) → Prop
  | first :: _ :: _ => HoldsNumber first
  | _ => False

theorem numberPair_eq : NumberPair =
    NumberThen fun others => ((others.head?.filter isNumber).isSome : Prop) := by
  funext texts
  match texts with
  | [] => rfl
  | [_] => simp [NumberPair, NumberThen]
  | _ :: _ :: _ => simp [NumberPair, NumberThen, isNumber_iff, IsNumber]

theorem numberAndToken_eq :
    NumberAndToken = NumberThen fun others => (others.head?.isSome : Prop) := by
  funext texts
  match texts with
  | [] => rfl
  | [_] => simp [NumberAndToken, NumberThen]
  | _ :: _ :: _ => simp [NumberAndToken, NumberThen]

theorem extentTokens?_eq_some_iff {line position length : List Char} :
    Entry.extentTokens? line = some (position, length) ↔
      ∃ first others, Leftmost NumberPair (tokens line) (first :: length :: others) ∧
        Leftmost IsNumber first position := by
  rw [extentTokens?_eq, firstNumber?_eq_some_iff, ← numberPair_eq]
  constructor
  · rintro ⟨first, others, hpair, hposition, hlength⟩
    obtain ⟨hhead, -⟩ := Option.filter_eq_some_iff.mp hlength
    obtain ⟨others, rfl⟩ := List.head?_eq_some_iff.mp hhead
    exact ⟨first, others, hpair, hposition⟩
  · rintro ⟨first, others, hpair, hposition⟩
    refine ⟨first, length :: others, hpair, hposition, ?_⟩
    rw [List.head?_cons, Option.filter_some, if_pos (isNumber_iff.mpr hpair.holds.2)]

theorem symbolToken?_eq_some_iff {line name : List Char} :
    Entry.symbolToken? line = some name ↔
      ∃ first others, Leftmost NumberAndToken (tokens line) (first :: name :: others) := by
  rw [symbolToken?_eq, Option.map_eq_some_iff]
  constructor
  · rintro ⟨⟨number, _⟩, hfound, rfl⟩
    obtain ⟨first, others, hfirst, -, hhead⟩ := firstNumber?_eq_some_iff.mp hfound
    obtain ⟨others, rfl⟩ := List.head?_eq_some_iff.mp hhead
    exact ⟨first, others, numberAndToken_eq ▸ hfirst⟩
  · rintro ⟨first, others, hfirst⟩
    obtain ⟨number, hnumber⟩ := Option.isSome_iff_exists.mp (isSome_numberIn?.mpr hfirst.holds)
    have hfound := firstNumber?_eq_some_iff.mpr ⟨first, name :: others, numberAndToken_eq ▸ hfirst,
      numberIn?_eq_some_iff.mp hnumber, List.head?_cons⟩
    exact ⟨_, hfound, rfl⟩

/-- A token after one with a number comes after the first token with a number. -/
theorem leftmost_numberAndToken_iff {texts others : List (List Char)} {first name : List Char} :
    Leftmost NumberAndToken texts (first :: name :: others) ↔
      Leftmost StartsWithNumber texts (first :: name :: others) := by
  constructor
  · rintro ⟨suffix, holds, longest⟩
    refine ⟨suffix, holds, fun other hother h => ?_⟩
    match other, h with
    | [_], _ => simp
    | _ :: _ :: _, h => exact longest _ hother h
  · rintro ⟨suffix, holds, longest⟩
    refine ⟨suffix, holds, fun other hother h => longest other hother ?_⟩
    match other, h with
    | _ :: _ :: _, h => exact h

/-! ### Main theorem -/

theorem occursIn_extent (line : List Char) :
    Entry.extent.occursIn line = (Entry.extentTokens? line).isSome := by
  rw [extentTokens?_eq, ← readsTokens_number.matchLeftmost_eq, Option.isSome_map]
  rfl

theorem occursIn_symbol (line : List Char) :
    Entry.symbol.occursIn line = (Entry.symbolToken? line).isSome := by
  rw [symbolToken?_eq, Option.isSome_map, ← readsTokens_token.matchLeftmost_eq, Option.isSome_map]
  rfl

theorem occursIn_extent_iff {line : List Char} :
    Entry.extent.occursIn line ↔ ∃ rest, rest <:+ tokens line ∧ NumberPair rest := by
  rw [occursIn_extent, ← exists_leftmost_iff, Option.isSome_iff_exists]
  constructor
  · rintro ⟨⟨position, length⟩, h⟩
    obtain ⟨first, others, hpair, -⟩ := extentTokens?_eq_some_iff.mp h
    exact ⟨_, hpair⟩
  · rintro ⟨rest, hpair⟩
    match rest, hpair.holds with
    | first :: length :: others, ⟨hfirst, _⟩ =>
      obtain ⟨position, hposition⟩ := Option.isSome_iff_exists.mp (isSome_numberIn?.mpr hfirst)
      exact ⟨_, extentTokens?_eq_some_iff.mpr
        ⟨first, others, hpair, numberIn?_eq_some_iff.mp hposition⟩⟩

theorem occursIn_symbol_iff {line : List Char} :
    Entry.symbol.occursIn line ↔ ∃ rest, rest <:+ tokens line ∧ NumberAndToken rest := by
  rw [occursIn_symbol, ← exists_leftmost_iff, Option.isSome_iff_exists]
  constructor
  · rintro ⟨name, h⟩
    obtain ⟨first, others, hfirst⟩ := symbolToken?_eq_some_iff.mp h
    exact ⟨_, hfirst⟩
  · rintro ⟨rest, hfirst⟩
    match rest, hfirst.holds with
    | first :: name :: others, _ =>
      exact ⟨name, symbolToken?_eq_some_iff.mpr ⟨first, others, hfirst⟩⟩

/-- **What is found on a line are the first tokens that can be what is looked for.** A line has an
extent if a token with a number stands right before one that is a number. Of the first such pair,
the position is the number in the first token, from its leftmost mark on, and the length is the
second token, which is also what the header of a layout gives as the length of its section. A line
has a symbol if a token with a number is not the last one, and it is the token after the first one
with a number. -/
theorem captures_leftmost (line : String) :
    let texts := tokens line.toList
    (Entry.extent.occursIn line.toList ↔ ∃ rest, rest <:+ texts ∧ NumberPair rest) ∧
    (∀ position length, Entry.extentTokens? line.toList = some (position, length) ↔
      ∃ first others, Leftmost NumberPair texts (first :: length :: others) ∧
        Leftmost IsNumber first position) ∧
    (∀ number,
      (∃ first second others, Leftmost NumberPair texts (first :: second :: others) ∧
        sectionLengthAt number line = hexAt number second) ∨
      (∀ rest, rest <:+ texts → ¬ NumberPair rest) ∧
        sectionLengthAt number line = .error (.malformed number .noSectionLength)) ∧
    (Entry.symbol.occursIn line.toList ↔ ∃ rest, rest <:+ texts ∧ NumberAndToken rest) ∧
    ∀ name, Entry.symbolToken? line.toList = some name ↔
      ∃ first others, Leftmost StartsWithNumber texts (first :: name :: others) := by
  intro texts
  refine ⟨occursIn_extent_iff, fun _ _ => extentTokens?_eq_some_iff, fun number => ?_,
    occursIn_symbol_iff, fun name => ?_⟩
  · cases htokens : Entry.extentTokens? line.toList with
    | none =>
      refine .inr ⟨fun rest hsuffix hpair => ?_, by rw [sectionLengthAt, htokens]⟩
      have hoccurs := occursIn_extent_iff.mpr ⟨rest, hsuffix, hpair⟩
      rw [occursIn_extent, htokens] at hoccurs
      cases hoccurs
    | some found =>
      obtain ⟨position, length⟩ := found
      obtain ⟨first, others, hpair, -⟩ := extentTokens?_eq_some_iff.mp htokens
      exact .inl ⟨first, length, others, hpair, by rw [sectionLengthAt, htokens]⟩
  · simp only [symbolToken?_eq_some_iff, leftmost_numberAndToken_iff]
    rfl

end KeyboardInfo.LinkerMap
