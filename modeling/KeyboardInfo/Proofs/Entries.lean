import KeyboardInfo.LinkerMap.Record
import KeyboardInfo.Proofs.Numbers

/-! What the lines of a linker map give, token by token.

What is found on a line hangs on its tokens alone: the extent and the symbol that it gives
(`extentTokens?_eq`, `symbolToken?_eq`), the position of a symbol that it ends in
(`positionToken?_eq_some_iff`), and what section it opens, if any (`functionHeader_iff`,
`layoutHeader_iff`).

No line opens both kinds of section, since the two headers begin with different text
(`layoutHeader_of_functionHeader`), and no line ends in two symbols, so a line gives a position
to one matrix at most (`eq_of_positionToken?`). -/
namespace KeyboardInfo.LinkerMap
open Text

/-! ### What a line gives -/

theorem extentTokens?_eq (line : List Char) : Entry.extentTokens? line =
    firstNumber? (fun others => others.head?.filter isNumber) (tokens line) := by
  rw [← readsTokens_number.matchLeftmost_eq, Entry.extentTokens?]
  change _ = (Entry.extent.find? line).map _
  cases hfind : Entry.extent.find? line with
  | none => rfl
  | some texts =>
    obtain ⟨_, _, _, hfits⟩ := fits_of_find? hfind
    match texts, hfits.length_eq with
    | [first, position, _, second, length], _ => simp [numberAnd]

theorem symbolToken?_eq (line : List Char) : Entry.symbolToken? line =
    (firstNumber? List.head? (tokens line)).map Prod.snd := by
  rw [← readsTokens_token.matchLeftmost_eq, Entry.symbolToken?]
  change _ = ((Entry.symbol.find? line).map _).map _
  cases hfind : Entry.symbol.find? line with
  | none => rfl
  | some texts =>
    obtain ⟨_, _, _, hfits⟩ := fits_of_find? hfind
    match texts, hfits.length_eq with
    | [_, _, _, name], _ => simp [numberAnd]

theorem positionToken?_eq {name : List Char} (hne : name ≠ [])
    (solid : ∀ c ∈ name, isBlank c = false) (line : List Char) :
    Entry.positionToken? name line =
      (firstNumber? (fun others => if others = [name] then some () else none)
        (tokens line)).map Prod.fst := by
  rw [← (readsTokens_last hne solid).matchLeftmost_eq, Entry.positionToken?]
  change _ = (((Entry.symbolAtEnd name).find? line).map _).map _
  cases hfind : (Entry.symbolAtEnd name).find? line with
  | none => rfl
  | some texts =>
    obtain ⟨_, _, _, hfits⟩ := fits_of_find? hfind
    match texts, hfits.length_eq with
    | first :: position :: _, _ => simp [numberAnd]

/-- A line that ends in a name gives its position in the token before it. -/
theorem positionToken?_eq_some_iff {name : List Char} (hne : name ≠ [])
    (solid : ∀ c ∈ name, isBlank c = false) {line number : List Char} :
    Entry.positionToken? name line = some number ↔
      ∃ before address, tokens line = before ++ [address, name] ∧ numberIn? address = some number := by
  rw [positionToken?_eq hne solid]
  generalize tokens line = texts
  induction texts with
  | nil => simp [firstNumber?]
  | cons token others ih =>
    have hsplit : (∃ before address, token :: others = before ++ [address, name] ∧
        numberIn? address = some number) ↔ (others = [name] ∧ numberIn? token = some number) ∨
          ∃ before address, others = before ++ [address, name] ∧ numberIn? address = some number := by
      constructor
      · rintro ⟨before, address, heq, hnumber⟩
        rcases List.cons_eq_append_iff.mp heq with ⟨rfl, hone⟩ | ⟨before, rfl, hmore⟩
        · cases hone
          exact .inl ⟨rfl, hnumber⟩
        · exact .inr ⟨before, address, hmore, hnumber⟩
      · rintro (⟨rfl, hnumber⟩ | ⟨before, address, rfl, hnumber⟩)
        · exact ⟨[], token, rfl, hnumber⟩
        · exact ⟨token :: before, address, rfl, hnumber⟩
    rw [hsplit, ← ih, firstNumber?]
    by_cases hothers : others = [name]
    · subst hothers
      cases numberIn? token <;> simp [firstNumber?]
    · cases numberIn? token <;> simp [hothers]

/-- The position on a line is in one of its tokens, and the length is another one. -/
theorem exists_of_extentTokens? {line position length : List Char}
    (h : Entry.extentTokens? line = some (position, length)) :
    (∃ token ∈ tokens line, position <:+ token) ∧ length ∈ tokens line := by
  rw [extentTokens?_eq] at h
  obtain ⟨before, token, others, htokens, hposition, hlength⟩ := exists_of_firstNumber? h
  obtain ⟨hhead, -⟩ := Option.filter_eq_some_iff.mp hlength
  rw [htokens]
  refine ⟨⟨token, by simp, suffix_of_numberIn? hposition⟩, ?_⟩
  have := List.mem_of_head? hhead
  simp [this]

theorem mem_tokens_of_symbolToken? {line name : List Char}
    (h : Entry.symbolToken? line = some name) : name ∈ tokens line := by
  rw [symbolToken?_eq] at h
  obtain ⟨⟨number, _⟩, hfound, rfl⟩ := Option.map_eq_some_iff.mp h
  obtain ⟨before, token, others, htokens, -, hname⟩ := exists_of_firstNumber? hfound
  have := List.mem_of_head? hname
  simp [htokens, this]

/-! ### Headers -/

/-- Blanks before a header do not count. -/
theorem occursIn_indented {word : List Char} (hne : word ≠ [])
    (solid : ∀ c ∈ word, isBlank c = false) (pieces : List Piece) (line : List Char) :
    Pattern.occursIn ⟨true, .run .blank 0 :: .literal word :: pieces⟩ line =
      (matchHere (.literal word :: pieces) (trimStart line)).isSome := by
  have hstuck (c : Char) (cs : List Char) (hc : isBlank c) :
      matchHere (.literal word :: pieces) (c :: cs) = none :=
    matchHere_literal_of_endsToken hne solid _ (by simpa [EndsToken] using hc)
  change ((takeRun .blank (matchHere (.literal word :: pieces)) 0 line).map _).isSome = _
  rw [takeRun_blanks fun _ => hstuck, if_pos (Nat.zero_le _), Option.isSome_map, Option.isSome_map]

/-- What the first token of the section of a function begins with. -/
def functionSection : List Char := ".text.kbfun_".toList

/-- What the first token of a section with data begins with. -/
def dataSection : List Char := ".progmem.data".toList

/-- What the header of a layout names somewhere after that. -/
def layoutWord : List Char := "layout".toList

theorem functionSection_solid : ∀ c ∈ functionSection, isBlank c = false := solid_of_all (by decide)

theorem dataSection_solid : ∀ c ∈ dataSection, isBlank c = false := solid_of_all (by decide)

theorem layoutWord_solid : ∀ c ∈ layoutWord, isBlank c = false := solid_of_all (by decide)

theorem functionHeader_iff_trimStart {line : List Char} :
    Entry.functionHeader.occursIn line ↔ functionSection <+: trimStart line := by
  have hindented : Entry.functionHeader.occursIn line =
      (matchHere [.literal functionSection] (trimStart line)).isSome :=
    occursIn_indented (by decide) functionSection_solid [] line
  rw [hindented, matchHere]
  constructor
  · intro h
    cases hafter : afterLiteral? functionSection (trimStart line) with
    | none =>
      rw [hafter] at h
      cases h
    | some rest => exact ⟨rest, (afterLiteral?_eq_some_iff.mp hafter).symm⟩
  · rintro ⟨rest, hrest⟩
    rw [afterLiteral?_eq_some_iff.mpr hrest.symm]
    rfl

theorem layoutHeader_eq (line : List Char) : Entry.layoutHeader.occursIn line =
    (matchHere [.literal dataSection, .run .any 0, .literal layoutWord] (trimStart line)).isSome :=
  occursIn_indented (by decide) dataSection_solid _ line

theorem exists_of_layoutHeader {line : List Char} (h : Entry.layoutHeader.occursIn line) :
    ∃ after, trimStart line = dataSection ++ after ∧ layoutWord <:+: after := by
  rw [layoutHeader_eq] at h
  obtain ⟨texts, htexts⟩ := Option.isSome_iff_exists.mp h
  obtain ⟨_, after, _, htrim, hfits⟩ := (fits_of_matchHere htexts).of_literal
  obtain ⟨between, _, _, _, rfl, _, _, hfits⟩ := hfits.of_run
  obtain ⟨_, rest, _, rfl, _⟩ := hfits.of_literal
  exact ⟨_, htrim, between, rest, by rw [List.append_assoc]⟩

theorem layoutHeader_of_append {line after : List Char} (hline : '\n' ∉ line)
    (htrim : trimStart line = dataSection ++ after) (hword : layoutWord <:+: after) :
    Entry.layoutHeader.occursIn line := by
  obtain ⟨between, rest, rfl⟩ := hword
  have hsuffix : trimStart line <:+ line := List.dropWhile_suffix _
  have hbetween : ∀ c ∈ between, CharKind.any.admits c := by
    intro c hc
    have hmem : c ∈ line := hsuffix.subset (by simp [htrim, hc])
    simp only [CharKind.admits, bne_iff_ne, ne_eq]
    rintro rfl
    exact hline hmem
  rw [layoutHeader_eq, htrim, List.append_assoc]
  exact (Fits.literal (.run hbetween (Nat.zero_le _) (.literal .nil))).isSome_matchHere

/-- The section of a function opens with a line whose first token names it. -/
theorem functionHeader_iff {line : List Char} : Entry.functionHeader.occursIn line ↔
    ∃ first others, tokens line = first :: others ∧ functionSection <+: first := by
  rw [functionHeader_iff_trimStart]
  rcases trimStart_eq_nil_or_token line with htrim | ⟨token, rest, htrim, htoken, solid, ends⟩
  · rw [htrim, tokens_eq_nil_iff.mpr htrim]
    simp [show functionSection ≠ [] by decide]
  · rw [← tokens_trimStart, htrim, tokens_token_append htoken solid ends,
      prefix_token_append functionSection_solid ends]
    simp

/-- The section of a layout opens with a line whose first token names a section of data, if a
token has the word, or the first one goes on with it. -/
theorem layoutHeader_iff {line : List Char} (hline : '\n' ∉ line) :
    Entry.layoutHeader.occursIn line ↔
      ∃ more others, tokens line = (dataSection ++ more) :: others ∧
        ∃ token ∈ more :: others, layoutWord <:+: token := by
  have hword {more rest : List Char} (ends : EndsToken rest) : layoutWord <:+: more ++ rest ↔
      ∃ token ∈ more :: tokens rest, layoutWord <:+: token := by
    rw [infix_token_append (by decide) layoutWord_solid ends,
      infix_iff_exists_token (by decide) layoutWord_solid rest]
    simp
  rcases trimStart_eq_nil_or_token line with htrim | ⟨token, rest, htrim, htoken, solid, ends⟩
  · rw [tokens_eq_nil_iff.mpr htrim]
    refine iff_of_false (fun h => ?_) (by simp)
    obtain ⟨after, hafter, -⟩ := exists_of_layoutHeader h
    rw [htrim] at hafter
    exact absurd (List.append_eq_nil_iff.mp hafter.symm).1 (by decide)
  · rw [← tokens_trimStart, htrim, tokens_token_append htoken solid ends]
    constructor
    · intro h
      obtain ⟨after, hafter, hlayout⟩ := exists_of_layoutHeader h
      rw [htrim] at hafter
      obtain ⟨more, rfl⟩ := (prefix_token_append dataSection_solid ends).mp ⟨after, hafter.symm⟩
      rw [List.append_assoc, List.append_cancel_left_eq] at hafter
      rw [← hafter, hword ends] at hlayout
      exact ⟨more, tokens rest, rfl, hlayout⟩
    · rintro ⟨more, others, heq, hlayout⟩
      obtain ⟨rfl, rfl⟩ := List.cons.inj heq
      exact layoutHeader_of_append hline (htrim.trans (List.append_assoc ..)) ((hword ends).mpr hlayout)

/-- No line opens both a section of a function and one of a layout. -/
theorem layoutHeader_of_functionHeader {line : List Char}
    (h : Entry.functionHeader.occursIn line) : Entry.layoutHeader.occursIn line = false := by
  rw [← Bool.not_eq_true]
  intro hlayout
  obtain ⟨after, htrim, -⟩ := exists_of_layoutHeader hlayout
  have hfunction : functionSection <+: trimStart line := functionHeader_iff_trimStart.mp h
  have hdata : dataSection <+: trimStart line := ⟨after, htrim.symm⟩
  rcases List.prefix_or_prefix_of_prefix hfunction hdata with hprefix | hprefix <;>
    exact absurd hprefix (by decide)

/-! ### Matrices -/

theorem Matrix.symbol_solid (m : Matrix) : ∀ c ∈ m.symbol.toList, isBlank c = false :=
  solid_of_all (by cases m <;> decide)

theorem Matrix.symbol_ne_nil (m : Matrix) : m.symbol.toList ≠ [] := by
  cases m <;> decide

theorem Matrix.eq_of_symbol {m m' : Matrix} (h : m.symbol.toList = m'.symbol.toList) : m = m' := by
  cases m <;> cases m' <;> first | rfl | exact absurd h (by decide)

/-- A line that ends in the symbol of a matrix gives its position in the token before it. -/
theorem Matrix.positionToken?_eq_some_iff (m : Matrix) {line number : List Char} :
    Entry.positionToken? m.symbol.toList line = some number ↔ ∃ before address,
      tokens line = before ++ [address, m.symbol.toList] ∧ numberIn? address = some number :=
  LinkerMap.positionToken?_eq_some_iff m.symbol_ne_nil m.symbol_solid

/-- A line gives a position to one matrix at most. -/
theorem eq_of_positionToken? {m m' : Matrix} {line token token' : List Char}
    (h : Entry.positionToken? m.symbol.toList line = some token)
    (h' : Entry.positionToken? m'.symbol.toList line = some token') : m = m' := by
  obtain ⟨before, address, htokens, -⟩ := m.positionToken?_eq_some_iff.mp h
  obtain ⟨before', address', htokens', -⟩ := m'.positionToken?_eq_some_iff.mp h'
  have hlast := congrArg List.getLast? (htokens.symm.trans htokens')
  exact Matrix.eq_of_symbol (by simpa using hlast)

end KeyboardInfo.LinkerMap
