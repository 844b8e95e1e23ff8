import KeyboardInfo.Text.Blank
import Mathlib.Data.List.TakeWhile

/-! The tokens of a line: its longest runs of characters that are not blank.

A line is a blank and another line, or a whole token and what ends it, so facts about lines are
proved by putting one or the other before a line (`tokenInduct`). Text without blanks that is
found on a line is found in a token (`infix_iff_exists_token`).

What is looked for from left to right, in a line or among its tokens, is the longest end that has a
property (`Leftmost`). -/
namespace KeyboardInfo.Text

/-- The tokens of a line, in order. -/
def tokens (line : List Char) : List (List Char) := (line.splitOnP isBlank).filter (!·.isEmpty)

@[simp]
theorem tokens_nil : tokens [] = [] := rfl

/-- A blank ends the tokens before it, whatever follows. -/
theorem tokens_append_blank (a b : List Char) {c : Char} (h : isBlank c) :
    tokens (a ++ c :: b) = tokens a ++ tokens b := by
  simp only [tokens, List.splitOnP_append_cons a b h, List.filter_append]

theorem tokens_blanks_append {blanks : List Char} (h : ∀ c ∈ blanks, isBlank c)
    (line : List Char) : tokens (blanks ++ line) = tokens line := by
  induction blanks with
  | nil => rfl
  | cons c blanks ih =>
    have hc := tokens_append_blank [] (blanks ++ line) (h c (List.mem_cons_self ..))
    exact hc.trans (ih fun b hb => h b (List.mem_cons_of_mem _ hb))

/-- A given word is checked to have no blanks by running through it. -/
theorem solid_of_all {word : List Char} (h : word.all fun c => !isBlank c) :
    ∀ c ∈ word, isBlank c = false := by
  simpa using h

theorem tokens_of_solid {token : List Char} (hne : token ≠ []) (h : ∀ c ∈ token, isBlank c = false) :
    tokens token = [token] := by
  rw [tokens, List.splitOnP_eq_singleton h]
  cases token with
  | nil => exact absurd rfl hne
  | cons c rest => rfl

theorem tokens_cons_blank {c : Char} (h : isBlank c) (line : List Char) :
    tokens (c :: line) = tokens line :=
  tokens_append_blank [] line h

theorem tokens_trimStart (line : List Char) : tokens (trimStart line) = tokens line := by
  rw [← tokens_blanks_append (fun c hc => List.mem_takeWhile_imp hc) (trimStart line), trimStart,
    List.takeWhile_append_dropWhile]

/-! ### One token after the other -/

/-- No token before this text goes on in it, since it is empty or begins with a blank. -/
def EndsToken (text : List Char) : Prop := ∀ c ∈ text.head?, isBlank c

theorem tokens_token_append {token rest : List Char} (hne : token ≠ [])
    (solid : ∀ c ∈ token, isBlank c = false) (ends : EndsToken rest) :
    tokens (token ++ rest) = token :: tokens rest := by
  cases rest with
  | nil => rw [List.append_nil, tokens_of_solid hne solid, tokens_nil]
  | cons c rest =>
    have hc := ends c rfl
    rw [tokens_append_blank _ _ hc, tokens_of_solid hne solid, tokens_cons_blank hc,
      List.singleton_append]

/-- A line that begins with no blank begins with a token. -/
theorem exists_token_append {c : Char} (hc : isBlank c = false) (line : List Char) :
    ∃ token rest, c :: line = token ++ rest ∧ token ≠ [] ∧ (∀ c ∈ token, isBlank c = false) ∧
      EndsToken rest := by
  let solid := fun c => !isBlank c
  refine ⟨(c :: line).takeWhile solid, (c :: line).dropWhile solid,
    List.takeWhile_append_dropWhile.symm, by simp [solid, hc], fun d hd => ?_, fun d hd => ?_⟩
  · simpa [solid] using List.mem_takeWhile_imp hd
  · have hhead := List.head?_dropWhile_not solid (c :: line)
    rw [hd] at hhead
    simpa [solid] using hhead

/-- A property holds of every line if it holds of the empty one, and still holds where a blank
or a whole token is put before a line. -/
theorem tokenInduct {P : List Char → Prop} (nil : P [])
    (blank : ∀ c line, isBlank c → P line → P (c :: line))
    (token : ∀ token rest, token ≠ [] → (∀ c ∈ token, isBlank c = false) → EndsToken rest →
      P rest → P (token ++ rest))
    (line : List Char) : P line := by
  induction hlength : line.length using Nat.strongRecOn generalizing line with
  | ind n ih =>
    subst hlength
    cases line with
    | nil => exact nil
    | cons c line =>
      by_cases hc : isBlank c
      · exact blank c line hc (ih _ (Nat.lt_succ_self _) line rfl)
      · obtain ⟨first, rest, hline, hne, solid, ends⟩ :=
          exists_token_append (by simpa using hc) line
        rw [hline] at ih ⊢
        refine token first rest hne solid ends (ih _ ?_ rest rfl)
        rw [List.length_append]
        exact Nat.lt_add_of_pos_left (List.length_pos_iff.mpr hne)

/-- A line is blank, or it begins with a token but for the blanks before that. -/
theorem trimStart_eq_nil_or_token (line : List Char) :
    trimStart line = [] ∨ ∃ token rest, trimStart line = token ++ rest ∧ token ≠ [] ∧
      (∀ c ∈ token, isBlank c = false) ∧ EndsToken rest := by
  cases htrim : trimStart line with
  | nil => exact .inl rfl
  | cons c text => exact .inr (exists_token_append (not_isBlank_of_head?_trimStart (by rw [htrim]; rfl)) text)

theorem tokens_eq_nil_iff {line : List Char} : tokens line = [] ↔ trimStart line = [] := by
  constructor
  · intro h
    rcases trimStart_eq_nil_or_token line with htrim | ⟨token, rest, htrim, hne, solid, ends⟩
    · exact htrim
    · rw [← tokens_trimStart, htrim, tokens_token_append hne solid ends] at h
      cases h
  · intro h
    rw [← tokens_trimStart, h, tokens_nil]

theorem solid_of_mem_tokens {line token : List Char} (h : token ∈ tokens line) :
    ∀ c ∈ token, isBlank c = false := by
  induction line using tokenInduct with
  | nil => cases h
  | blank c line hc ih =>
    rw [tokens_cons_blank hc] at h
    exact ih h
  | token first rest hne solid ends ih =>
    rw [tokens_token_append hne solid ends] at h
    rcases List.mem_cons.mp h with rfl | h
    · exact solid
    · exact ih h

/-! ### Text inside tokens -/

section
variable {word : List Char} (hne : word ≠ []) (solid : ∀ c ∈ word, isBlank c = false)
include solid

/-- Text without blanks that begins a token with what comes after it begins the token. -/
theorem prefix_token_append {token rest : List Char} (ends : EndsToken rest) :
    word <+: token ++ rest ↔ word <+: token := by
  refine ⟨fun h => ?_, fun h => h.trans (List.prefix_append ..)⟩
  rcases List.prefix_or_prefix_of_prefix h (List.prefix_append token rest) with hword | ⟨more, hmore⟩
  · exact hword
  · cases more with
    | nil => exact ⟨[], by rw [← hmore, List.append_nil, List.append_nil]⟩
    | cons c more =>
      rw [← hmore, List.prefix_append_right_inj] at h
      obtain ⟨others, rfl⟩ := h
      have hblank := ends c rfl
      rw [solid c (by simp [← hmore])] at hblank
      cases hblank

include hne

theorem not_prefix_of_endsToken {line : List Char} (ends : EndsToken line) : ¬ word <+: line := by
  intro h
  have hnil : word <+: [] := (prefix_token_append solid ends).mp h
  exact hne (List.prefix_nil.mp hnil)

theorem infix_token_append {token rest : List Char} (ends : EndsToken rest) :
    word <:+: token ++ rest ↔ word <:+: token ∨ word <:+: rest := by
  induction token with
  | nil => simp [hne]
  | cons c token ih =>
    rw [List.cons_append, List.infix_cons_iff, List.infix_cons_iff, ih, ← List.cons_append,
      prefix_token_append solid ends, or_assoc]

/-- Text without blanks that is found on a line is found in one of its tokens. -/
theorem infix_iff_exists_token (line : List Char) :
    word <:+: line ↔ ∃ token ∈ tokens line, word <:+: token := by
  induction line using tokenInduct with
  | nil => simp [hne]
  | blank c line hc ih =>
    have hstart : ¬ word <+: c :: line :=
      not_prefix_of_endsToken hne solid (by simpa [EndsToken] using hc)
    rw [tokens_cons_blank hc, List.infix_cons_iff, or_iff_right hstart, ih]
  | token token rest htoken hsolid ends ih =>
    rw [infix_token_append hne solid ends, ih, tokens_token_append htoken hsolid ends]
    simp only [List.mem_cons, exists_eq_or_imp]

end

/-! ### The first place -/

/-- The end of a list from the first place on at which a property holds. -/
structure Leftmost {α : Type} (P : List α → Prop) (xs rest : List α) : Prop where
  suffix : rest <:+ xs
  holds : P rest
  longest : ∀ other, other <:+ xs → P other → other.length ≤ rest.length

section
variable {α : Type} {P : List α → Prop}

theorem leftmost_nil {rest : List α} : Leftmost P [] rest ↔ rest = [] ∧ P [] := by
  constructor
  · rintro ⟨suffix, holds, -⟩
    obtain rfl := List.suffix_nil.mp suffix
    exact ⟨rfl, holds⟩
  · rintro ⟨rfl, holds⟩
    exact ⟨List.suffix_rfl, holds, fun other suffix _ => suffix.length_le⟩

/-- The first place is the start of a list, or the first place of its tail. -/
theorem leftmost_cons {x : α} {xs rest : List α} :
    Leftmost P (x :: xs) rest ↔
      P (x :: xs) ∧ rest = x :: xs ∨ ¬ P (x :: xs) ∧ Leftmost P xs rest := by
  constructor
  · rintro ⟨suffix, holds, longest⟩
    by_cases hstart : P (x :: xs)
    · exact .inl ⟨hstart, suffix.eq_of_length_le (longest _ List.suffix_rfl hstart)⟩
    · rcases List.suffix_cons_iff.mp suffix with rfl | suffix
      · exact absurd holds hstart
      · have htail : ∀ other, other <:+ xs → P other → other.length ≤ rest.length :=
          fun other hother => longest other (hother.trans (List.suffix_cons x xs))
        exact .inr ⟨hstart, suffix, holds, htail⟩
  · rintro (⟨hstart, rfl⟩ | ⟨hstart, suffix, holds, longest⟩)
    · exact ⟨List.suffix_rfl, hstart, fun other suffix _ => suffix.length_le⟩
    · refine ⟨suffix.trans (List.suffix_cons x xs), holds, fun other hother h => ?_⟩
      rcases List.suffix_cons_iff.mp hother with rfl | hother
      · exact absurd h hstart
      · exact longest other hother h

theorem exists_leftmost_iff {xs : List α} :
    (∃ rest, Leftmost P xs rest) ↔ ∃ rest, rest <:+ xs ∧ P rest := by
  constructor
  · rintro ⟨rest, h⟩
    exact ⟨rest, h.suffix, h.holds⟩
  · rintro ⟨rest, suffix, holds⟩
    induction xs with
    | nil =>
      obtain rfl := List.suffix_nil.mp suffix
      exact ⟨[], leftmost_nil.mpr ⟨rfl, holds⟩⟩
    | cons x xs ih =>
      by_cases hstart : P (x :: xs)
      · exact ⟨x :: xs, leftmost_cons.mpr (.inl ⟨hstart, rfl⟩)⟩
      · rcases List.suffix_cons_iff.mp suffix with rfl | suffix
        · exact absurd holds hstart
        · obtain ⟨first, hfirst⟩ := ih suffix
          exact ⟨first, leftmost_cons.mpr (.inr ⟨hstart, hfirst⟩)⟩

end

end KeyboardInfo.Text
