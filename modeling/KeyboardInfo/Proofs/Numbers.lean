import KeyboardInfo.LinkerMap.Entry
import KeyboardInfo.Proofs.Patterns
import Mathlib.Data.List.Infix

/-! Numbers among the tokens of a line.

A number of a linker map begins at a mark, maybe inside a token, and goes on to the end of the
token (`numberIn?`). A pattern that looks for a number and what comes after it finds the first
token with a number after which the next tokens are as they should be (`firstNumber?`), however
wide the gaps between them are (`ReadsTokens.matchLeftmost_eq`). What may come after the number
is another one (`readsTokens_number`), any token (`readsTokens_token`), or a given token and the
end of the line (`readsTokens_last`). -/
namespace KeyboardInfo.LinkerMap
open Text

/-! ### Numbers -/

/-- Whether a text is a mark and something after it. -/
def isNumber (text : List Char) : Bool :=
  (afterLiteral? Entry.mark text).any fun rest => !rest.isEmpty

/-- The number in a token: what it holds from the first mark that something follows. -/
def numberIn? (token : List Char) : Option (List Char) := token.tails.find? isNumber

/-- The first number of some tokens after which `next` accepts the tokens that follow, and what
`next` says of them. -/
def firstNumber? {β : Type} (next : List (List Char) → Option β) :
    List (List Char) → Option (List Char × β)
  | [] => none
  | token :: others =>
    match numberIn? token, next others with
    | some number, some answer => some (number, answer)
    | _, _ => firstNumber? next others

theorem mark_solid : ∀ c ∈ Entry.mark, isBlank c = false := solid_of_all (by decide)

theorem isNumber_iff {text : List Char} :
    isNumber text ↔ ∃ rest, rest ≠ [] ∧ text = Entry.mark ++ rest := by
  simp [isNumber, Option.any_eq_true, afterLiteral?_eq_some_iff, and_comm]

theorem numberIn?_cons (c : Char) (text : List Char) :
    numberIn? (c :: text) = if isNumber (c :: text) then some (c :: text) else numberIn? text := by
  rw [numberIn?, List.tails_cons, List.find?_cons]
  cases isNumber (c :: text) <;> rfl

theorem suffix_of_numberIn? {token number : List Char} (h : numberIn? token = some number) :
    number <:+ token :=
  (List.mem_tails _ _).mp (List.mem_of_find?_eq_some h)

/-- What is found is the number of a token, and `next` accepts the tokens after that one. -/
theorem exists_of_firstNumber? {β : Type} {next : List (List Char) → Option β}
    {texts : List (List Char)} {number : List Char} {answer : β}
    (h : firstNumber? next texts = some (number, answer)) :
    ∃ before token others, texts = before ++ token :: others ∧ numberIn? token = some number ∧
      next others = some answer := by
  induction texts with
  | nil => cases h
  | cons token others ih =>
    rw [firstNumber?] at h
    split at h
    · next hnumber hanswer =>
      cases h
      exact ⟨[], token, others, rfl, hnumber, hanswer⟩
    · obtain ⟨before, later, rest, rfl, hfound⟩ := ih h
      exact ⟨token :: before, later, rest, rfl, hfound⟩

/-! ### Pieces that read tokens -/

/-- Pieces match only where a token begins, and what `read` makes of their texts is what `next`
says of the tokens from there on. -/
structure ReadsTokens {β : Type} (pieces : List Piece) (read : List (List Char) → β)
    (next : List (List Char) → Option β) : Prop where
  ends : next [] = none
  refuses : ∀ text, EndsToken text → matchHere pieces text = none
  reads : ∀ token rest, token ≠ [] → (∀ c ∈ token, isBlank c = false) → EndsToken rest →
    (matchHere pieces (token ++ rest)).map read = next (token :: tokens rest)

/-- A number goes on to the end of its token. -/
theorem matchHere_number {pieces : List Piece} {text rest : List Char}
    (solid : ∀ c ∈ text, isBlank c = false) (ends : EndsToken rest)
    (stuck : matchHere pieces rest = none →
      ∀ c cs, isBlank c = false → matchHere pieces (c :: cs) = none) :
    matchHere (.literal Entry.mark :: .run .solid 1 :: pieces) (text ++ rest) =
      if isNumber text then
        (matchHere pieces rest).map fun others => Entry.mark :: text.drop 2 :: others
      else none := by
  rw [matchHere, isNumber]
  cases htext : afterLiteral? Entry.mark text with
  | none =>
    cases hboth : afterLiteral? Entry.mark (text ++ rest) with
    | none => rfl
    | some others =>
      have hmark : Entry.mark <+: text ++ rest := ⟨others, (afterLiteral?_eq_some_iff.mp hboth).symm⟩
      obtain ⟨more, hmore⟩ := (prefix_token_append mark_solid ends).mp hmark
      rw [afterLiteral?_eq_some_iff.mpr hmore.symm] at htext
      cases htext
  | some digits =>
    obtain rfl := afterLiteral?_eq_some_iff.mp htext
    have hdigits : ∀ c ∈ digits, isBlank c = false := fun c hc => solid c (List.mem_append_right _ hc)
    rw [List.append_assoc, afterLiteral?_eq_some_iff.mpr rfl]
    dsimp only
    rw [matchHere, takeRun_token hdigits ends stuck]
    cases digits with
    | nil => rfl
    | cons d digits => simp [Entry.mark, Function.comp_def]

section
variable {β : Type} {pieces : List Piece} {read : List (List Char) → β}
  {next : List (List Char) → Option β}

/-- After a gap stands the next token, if there is one. -/
theorem ReadsTokens.matchHere_gap (h : ReadsTokens pieces read next) {rest : List Char}
    (ends : EndsToken rest) :
    (matchHere (.run .blank 1 :: pieces) rest).map (fun texts => read texts.tail) =
      next (tokens rest) := by
  have hnext : (matchHere pieces (trimStart rest)).map read = next (tokens (trimStart rest)) := by
    rcases trimStart_eq_nil_or_token rest with htrim | ⟨token, after, htrim, hne, solid, hafter⟩
    · rw [htrim, h.refuses [] nofun, tokens_nil, h.ends, Option.map_none]
    · rw [htrim, tokens_token_append hne solid hafter, h.reads token after hne solid hafter]
  have hstuck (c : Char) (cs : List Char) (hc : isBlank c) : matchHere pieces (c :: cs) = none :=
    h.refuses (c :: cs) (by simpa [EndsToken] using hc)
  rw [matchHere, takeRun_blanks fun _ => hstuck, ← tokens_trimStart, ← hnext]
  cases rest with
  | nil => rw [if_neg (by simp), trimStart, List.dropWhile_nil, h.refuses [] nofun]; rfl
  | cons c rest => simp [ends c rfl, trimStart, Function.comp_def]

/-! ### Searching for numbers -/

/-- The number that a match begins with, and what is read off its texts after the gap. -/
def numberAnd (read : List (List Char) → β) (texts : List (List Char)) : List Char × β :=
  ((texts.take 2).flatten, read (texts.drop 3))

theorem ReadsTokens.matchHere_number_gap (h : ReadsTokens pieces read next) {text rest : List Char}
    (solid : ∀ c ∈ text, isBlank c = false) (ends : EndsToken rest) :
    (matchHere (.literal Entry.mark :: .run .solid 1 :: .run .blank 1 :: pieces)
        (text ++ rest)).map (numberAnd read) =
      if isNumber text then (next (tokens rest)).map (text, ·) else none := by
  have hstuck (c : Char) (cs : List Char) (hc : isBlank c = false) :
      matchHere (.run .blank 1 :: pieces) (c :: cs) = none := by
    simp [matchHere, takeRun, takeNothing, CharKind.admits, hc]
  rw [matchHere_number solid ends fun _ => hstuck, ← h.matchHere_gap ends]
  split
  · next hnumber =>
    obtain ⟨digits, -, rfl⟩ := isNumber_iff.mp hnumber
    simp [Function.comp_def, numberAnd, Entry.mark]
  · rfl

/-- Of the starts inside one token, the leftmost one that is a number decides. -/
theorem ReadsTokens.matchLeftmost_token (h : ReadsTokens pieces read next) {text rest : List Char}
    (solid : ∀ c ∈ text, isBlank c = false) (ends : EndsToken rest) :
    (matchLeftmost (.literal Entry.mark :: .run .solid 1 :: .run .blank 1 :: pieces)
        (text ++ rest)).map (numberAnd read) =
      match numberIn? text, next (tokens rest) with
      | some number, some answer => some (number, answer)
      | _, _ => (matchLeftmost (.literal Entry.mark :: .run .solid 1 :: .run .blank 1 :: pieces)
          rest).map (numberAnd read) := by
  induction text with
  | nil => rfl
  | cons c text ih =>
    have hhere := h.matchHere_number_gap solid ends
    have hlater := ih fun d hd => solid d (List.mem_cons_of_mem _ hd)
    rw [List.cons_append] at hhere ⊢
    rw [matchLeftmost, numberIn?_cons]
    by_cases hnumber : isNumber (c :: text)
    · rw [if_pos hnumber] at hhere ⊢
      cases hnext : next (tokens rest) with
      | some answer =>
        rw [hnext] at hhere
        obtain ⟨texts, htexts, hread⟩ := Option.map_eq_some_iff.mp hhere
        rw [htexts]
        exact congrArg some hread
      | none =>
        -- Every later start in the token is followed by the same tokens.
        rw [hnext] at hhere hlater
        rw [Option.map_eq_none_iff.mp hhere, hlater]
        cases numberIn? text <;> rfl
    · rw [if_neg hnumber] at hhere ⊢
      rw [Option.map_eq_none_iff.mp hhere]
      exact hlater

/-- **The leftmost match begins with the first number that the tokens after it fit.** -/
theorem ReadsTokens.matchLeftmost_eq (h : ReadsTokens pieces read next) (line : List Char) :
    (matchLeftmost (.literal Entry.mark :: .run .solid 1 :: .run .blank 1 :: pieces) line).map
      (numberAnd read) = firstNumber? next (tokens line) := by
  induction line using tokenInduct with
  | nil => rfl
  | blank c line hc ih =>
    rw [tokens_cons_blank hc, ← ih, matchLeftmost, matchHere_literal_of_endsToken (by decide)
      mark_solid _ (by simpa [EndsToken] using hc)]
  | token token rest hne solid ends ih =>
    rw [tokens_token_append hne solid ends, firstNumber?, ← ih, h.matchLeftmost_token solid ends]

end

/-! ### What may follow a number -/

theorem readsTokens_number : ReadsTokens [.literal Entry.mark, .run .solid 1] List.flatten
    fun others => others.head?.filter isNumber := by
  constructor
  case ends => rfl
  case refuses =>
    intro text ends
    exact matchHere_literal_of_endsToken (by decide) mark_solid _ ends
  case reads =>
    intro token rest _ solid ends
    rw [matchHere_number solid ends (by simp [matchHere]), List.head?_cons, Option.filter_some]
    split
    · next hnumber =>
      obtain ⟨digits, -, rfl⟩ := isNumber_iff.mp hnumber
      simp [matchHere, Entry.mark]
    · rfl

theorem readsTokens_token : ReadsTokens [.run .solid 1] List.flatten List.head? := by
  constructor
  case ends => rfl
  case refuses =>
    intro text ends
    rw [matchHere, ← List.nil_append text, takeRun_token (by simp) ends (by simp [matchHere])]
    rfl
  case reads =>
    intro token rest hne solid ends
    have hlength : 1 ≤ token.length := List.length_pos_iff.mpr hne
    rw [matchHere, takeRun_token solid ends (by simp [matchHere]), if_pos hlength]
    simp [matchHere]

theorem isSome_matchHere_last {name line : List Char} :
    (matchHere [.literal name, .run .blank 0, .finish] line).isSome ↔
      ∃ blanks, (∀ c ∈ blanks, isBlank c) ∧ line = name ++ blanks := by
  constructor
  · intro h
    obtain ⟨texts, htexts⟩ := Option.isSome_iff_exists.mp h
    obtain ⟨_, _, _, rfl, hfits⟩ := (fits_of_matchHere htexts).of_literal
    obtain ⟨blanks, _, _, _, rfl, hblanks, _, hfits⟩ := hfits.of_run
    obtain rfl := hfits.of_finish
    exact ⟨blanks, hblanks, by rw [List.append_nil]⟩
  · rintro ⟨blanks, hblanks, rfl⟩
    rw [← List.append_nil blanks]
    exact (Fits.literal (.run hblanks (Nat.zero_le _) (.finish .nil))).isSome_matchHere

/-- A name stands at the end of a line when it is the last token, and blanks may follow. -/
theorem readsTokens_last {name : List Char} (hne : name ≠ [])
    (solid : ∀ c ∈ name, isBlank c = false) :
    ReadsTokens [.literal name, .run .blank 0, .finish] (fun _ => ())
      fun others => if others = [name] then some () else none := by
  constructor
  case ends => exact if_neg (by simp)
  case refuses =>
    intro text ends
    exact matchHere_literal_of_endsToken hne solid _ ends
  case reads =>
    intro token rest _ hsolid ends
    have hlast : (matchHere [.literal name, .run .blank 0, .finish] (token ++ rest)).isSome ↔
        token :: tokens rest = [name] := by
      rw [isSome_matchHere_last, List.cons.injEq, tokens_eq_nil_iff, trimStart,
        List.dropWhile_eq_nil_iff]
      constructor
      · rintro ⟨blanks, hblanks, hline⟩
        obtain ⟨more, rfl⟩ := (prefix_token_append solid ends).mp ⟨blanks, hline.symm⟩
        rw [List.append_assoc, List.append_cancel_left_eq] at hline
        cases more with
        | nil => exact ⟨List.append_nil _, by rwa [← hline] at hblanks⟩
        | cons c more =>
          have hc := hblanks c (by simp [← hline])
          rw [hsolid c (by simp)] at hc
          cases hc
      · rintro ⟨rfl, hblanks⟩
        exact ⟨rest, hblanks, rfl⟩
    split
    · next heq =>
      obtain ⟨texts, htexts⟩ := Option.isSome_iff_exists.mp (hlast.mpr heq)
      rw [htexts, Option.map_some]
    · next hne =>
      rw [Option.not_isSome_iff_eq_none.mp fun h => hne (hlast.mp h), Option.map_none]

end KeyboardInfo.LinkerMap
