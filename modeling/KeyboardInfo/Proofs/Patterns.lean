import KeyboardInfo.Text.Pattern
import KeyboardInfo.Proofs.Tokens

/-! What a match looks like.

`Fits` says of a row of pieces which texts they may take from the start of a line,
without saying how they are found. A match that the search comes up with fits
(`fits_of_find?`), and where some texts fit there is a match (`Fits.isSome_matchHere`).
A run goes on to the last character of its kind where nothing that begins inside it could
match (`takeRun_append`). -/
namespace KeyboardInfo.Text

/-- The pieces can take these texts, one after the other, from the start of a line. -/
inductive Fits : List Piece → List (List Char) → List Char → Prop where
  | nil {rest : List Char} : Fits [] [] rest
  | literal {text rest : List Char} {pieces : List Piece} {texts : List (List Char)}
      (others : Fits pieces texts rest) :
      Fits (.literal text :: pieces) (text :: texts) (text ++ rest)
  | run {kind : CharKind} {least : Nat} {taken rest : List Char} {pieces : List Piece}
      {texts : List (List Char)} (kinds : ∀ c ∈ taken, kind.admits c)
      (enough : least ≤ taken.length) (others : Fits pieces texts rest) :
      Fits (.run kind least :: pieces) (taken :: texts) (taken ++ rest)
  | finish {pieces : List Piece} {texts : List (List Char)} (others : Fits pieces texts []) :
      Fits (.finish :: pieces) ([] :: texts) []

/-! ### One piece at a time -/

section
variable {pieces : List Piece} {texts : List (List Char)} {line : List Char}

theorem Fits.of_literal {text : List Char} (h : Fits (.literal text :: pieces) texts line) :
    ∃ others rest, texts = text :: others ∧ line = text ++ rest ∧ Fits pieces others rest := by
  cases h with
  | literal others => exact ⟨_, _, rfl, rfl, others⟩

theorem Fits.of_run {kind : CharKind} {least : Nat}
    (h : Fits (.run kind least :: pieces) texts line) :
    ∃ taken others rest, texts = taken :: others ∧ line = taken ++ rest ∧
      (∀ c ∈ taken, kind.admits c) ∧ least ≤ taken.length ∧ Fits pieces others rest := by
  cases h with
  | run kinds enough others => exact ⟨_, _, _, rfl, rfl, kinds, enough, others⟩

theorem Fits.of_finish (h : Fits (.finish :: pieces) texts line) : line = [] := by
  cases h with
  | finish others => rfl

end

/-- A row of pieces takes one text for each piece. -/
theorem Fits.length_eq {pieces : List Piece} {texts : List (List Char)} {line : List Char}
    (h : Fits pieces texts line) : texts.length = pieces.length := by
  induction h with
  | nil => rfl
  | literal _ ih => simp [ih]
  | run _ _ _ ih => simp [ih]
  | finish _ ih => simp [ih]

/-! ### What is found -/

theorem fits_of_matchHere {pieces : List Piece} {cs : List Char} {texts : List (List Char)}
    (h : matchHere pieces cs = some texts) : Fits pieces texts cs := by
  induction pieces generalizing cs texts with
  | nil =>
    cases h
    exact .nil
  | cons piece pieces ih =>
    cases piece with
    | literal text =>
      rw [matchHere] at h
      split at h
      · next rest heq =>
        obtain ⟨others, ho, rfl⟩ := Option.map_eq_some_iff.mp h
        rw [afterLiteral?_eq_some_iff.mp heq]
        exact .literal (ih ho)
      · cases h
    | run kind least =>
      rw [matchHere] at h
      obtain ⟨⟨taken, others⟩, ht, rfl⟩ := Option.map_eq_some_iff.mp h
      obtain ⟨hkinds, henough, rest, rfl, ho⟩ := takeRun_eq_some ht
      exact .run hkinds henough (ih ho)
    | finish =>
      rw [matchHere] at h
      split at h
      · next hempty =>
        obtain ⟨others, ho, rfl⟩ := Option.map_eq_some_iff.mp h
        obtain rfl := List.isEmpty_iff.mp hempty
        exact .finish (ih ho)
      · cases h

theorem fits_of_matchLeftmost {pieces : List Piece} {cs : List Char} {texts : List (List Char)}
    (h : matchLeftmost pieces cs = some texts) :
    ∃ before rest, cs = before ++ rest ∧ Fits pieces texts rest := by
  induction cs with
  | nil => exact ⟨[], [], rfl, fits_of_matchHere h⟩
  | cons c cs ih =>
    rw [matchLeftmost] at h
    split at h
    · next found heq =>
      cases h
      exact ⟨[], c :: cs, rfl, fits_of_matchHere heq⟩
    · obtain ⟨before, rest, rfl, hfits⟩ := ih h
      exact ⟨c :: before, rest, rfl, hfits⟩

/-- What a pattern finds fits somewhere on the line. -/
theorem fits_of_find? {p : Pattern} {cs : List Char} {texts : List (List Char)}
    (h : p.find? cs = some texts) : ∃ before rest, cs = before ++ rest ∧ Fits p.pieces texts rest := by
  rw [Pattern.find?] at h
  split at h
  · exact ⟨[], cs, rfl, fits_of_matchHere h⟩
  · exact fits_of_matchLeftmost h

/-! ### What fits is found -/

/-- Where a run of the right kind leads to a match, some run is taken. -/
theorem isSome_takeRun {β : Type} {kind : CharKind} {next : List Char → Option β} {least : Nat}
    {taken rest : List Char} (kinds : ∀ c ∈ taken, kind.admits c) (enough : least ≤ taken.length)
    (h : (next rest).isSome) : (takeRun kind next least (taken ++ rest)).isSome := by
  induction taken generalizing least with
  | nil =>
    obtain rfl : least = 0 := Nat.le_zero.mp enough
    have hnothing : (takeNothing next 0 rest).isSome := by
      rw [takeNothing, if_pos rfl, Option.isSome_map]
      exact h
    cases rest with
    | nil => exact hnothing
    | cons c rest =>
      rw [List.nil_append, takeRun]
      split
      · split
        · rfl
        · exact hnothing
      · exact hnothing
  | cons c taken ih =>
    obtain ⟨hc, kinds⟩ := List.forall_mem_cons.mp kinds
    rw [List.length_cons] at enough
    obtain ⟨found, hfound⟩ := Option.isSome_iff_exists.mp (ih kinds (Nat.sub_le_of_le_add enough))
    rw [List.cons_append, takeRun, if_pos hc, hfound]
    rfl

/-- The run that is taken is the longest: after no longer one is the rest accepted. -/
theorem next_eq_none_of_takeRun {β : Type} {kind : CharKind} {next : List Char → Option β}
    {least : Nat} {taken more rest : List Char} {answer : β}
    (h : takeRun kind next least (taken ++ (more ++ rest)) = some (taken, answer)) (hne : more ≠ [])
    (kinds : ∀ c ∈ more, kind.admits c) : next rest = none := by
  induction taken generalizing least with
  | nil =>
    obtain ⟨c, more, rfl⟩ := List.exists_cons_of_ne_nil hne
    obtain ⟨hc, kinds⟩ := List.forall_mem_cons.mp kinds
    rw [List.nil_append, List.cons_append, takeRun, if_pos hc] at h
    split at h
    · cases h
    · next hnone =>
      obtain ⟨-, rfl, -⟩ := takeNothing_eq_some h
      by_contra hrest
      have hlonger : (takeRun kind next (0 - 1) (more ++ rest)).isSome :=
        isSome_takeRun kinds (Nat.zero_le _) (Option.isSome_iff_ne_none.mpr hrest)
      rw [hnone] at hlonger
      cases hlonger
  | cons c taken ih =>
    rw [List.cons_append, takeRun] at h
    split at h
    · split at h
      · next found hfound =>
        cases h
        exact ih hfound
      · cases (takeNothing_eq_some h).1
    · cases (takeNothing_eq_some h).1

/-- A run goes on to the last character of its kind, if it is long enough then. That holds
where the text after the run is accepted, and also where it is not, so long as no text is
accepted that begins inside the run. -/
theorem takeRun_append {β : Type} {kind : CharKind} {next : List Char → Option β} {least : Nat}
    {taken rest : List Char} (kinds : ∀ c ∈ taken, kind.admits c)
    (ends : ∀ c ∈ rest.head?, kind.admits c = false)
    (stuck : next rest = none → ∀ c cs, kind.admits c → next (c :: cs) = none) :
    takeRun kind next least (taken ++ rest) =
      if least ≤ taken.length then (next rest).map (taken, ·) else none := by
  induction taken generalizing least with
  | nil =>
    have hnothing : takeRun kind next least rest = takeNothing next least rest := by
      cases rest with
      | nil => rfl
      | cons c rest => rw [takeRun, if_neg (by simp [ends c rfl])]
    rw [List.nil_append, hnothing, takeNothing]
    simp only [List.length_nil, Nat.le_zero]
  | cons c taken ih =>
    obtain ⟨hc, kinds⟩ := List.forall_mem_cons.mp kinds
    rw [List.cons_append, takeRun, if_pos hc, ih kinds, List.length_cons]
    by_cases hlong : least ≤ taken.length + 1
    · rw [if_pos hlong, if_pos (Nat.sub_le_of_le_add hlong)]
      cases hrest : next rest with
      | some answer => rfl
      | none =>
        simp only [Option.map_none, takeNothing, stuck hrest c _ hc, ite_self]
    · rw [if_neg hlong, if_neg (by omega)]
      exact if_neg (by omega)

/-- Where nothing that begins inside a token is accepted, a run takes what is left of the token. -/
theorem takeRun_token {β : Type} {next : List Char → Option β} {least : Nat}
    {token rest : List Char} (solid : ∀ c ∈ token, isBlank c = false) (ends : EndsToken rest)
    (stuck : next rest = none → ∀ c cs, isBlank c = false → next (c :: cs) = none) :
    takeRun .solid next least (token ++ rest) =
      if least ≤ token.length then (next rest).map (token, ·) else none := by
  refine takeRun_append (fun c hc => ?_) (fun c hc => ?_) fun hnone c cs hc => stuck hnone c cs ?_
  · simp [CharKind.admits, solid c hc]
  · simp [CharKind.admits, ends c hc]
  · simpa [CharKind.admits] using hc

/-- Where nothing that begins with a blank is accepted, a run of blanks takes all of them. -/
theorem takeRun_blanks {β : Type} {next : List Char → Option β} {least : Nat} {line : List Char}
    (stuck : next (trimStart line) = none → ∀ c cs, isBlank c → next (c :: cs) = none) :
    takeRun .blank next least line =
      if least ≤ (line.takeWhile isBlank).length then
        (next (trimStart line)).map (line.takeWhile isBlank, ·)
      else none := by
  have hblanks : ∀ c ∈ line.takeWhile isBlank, CharKind.blank.admits c :=
    fun c hc => List.mem_takeWhile_imp hc
  have hends : ∀ c ∈ (trimStart line).head?, CharKind.blank.admits c = false :=
    fun c hc => not_isBlank_of_head?_trimStart hc
  have hsplit : line.takeWhile isBlank ++ trimStart line = line := List.takeWhile_append_dropWhile
  rw [← takeRun_append hblanks hends stuck, hsplit]

/-- A row of pieces that fits is matched, if maybe with other texts. -/
theorem Fits.isSome_matchHere {pieces : List Piece} {texts : List (List Char)} {line : List Char}
    (h : Fits pieces texts line) : (matchHere pieces line).isSome := by
  induction h with
  | nil => rfl
  | literal others ih =>
    rw [matchHere, afterLiteral?_eq_some_iff.mpr rfl]
    simpa using ih
  | run kinds enough others ih =>
    rw [matchHere, Option.isSome_map]
    exact isSome_takeRun kinds enough ih
  | finish others ih => simpa [matchHere] using ih

/-- Text that stands at the start is taken, and the other pieces match what is after it. -/
theorem matchHere_literal_append (pieces : List Piece) (text rest : List Char) :
    matchHere (.literal text :: pieces) (text ++ rest) =
      (matchHere pieces rest).map (text :: ·) := by
  rw [matchHere, afterLiteral?_eq_some_iff.mpr rfl]

/-- Text without blanks matches only where a token begins or goes on. -/
theorem matchHere_literal_of_endsToken {word : List Char} (hne : word ≠ [])
    (solid : ∀ c ∈ word, isBlank c = false) (pieces : List Piece) {text : List Char}
    (ends : EndsToken text) : matchHere (.literal word :: pieces) text = none := by
  have hnone : afterLiteral? word text = none := by
    rw [Option.eq_none_iff_forall_ne_some]
    intro rest hrest
    exact not_prefix_of_endsToken hne solid ends ⟨rest, (afterLiteral?_eq_some_iff.mp hrest).symm⟩
  rw [matchHere, hnone]

/-- A match at the start of the line is the leftmost one. -/
theorem find?_of_matchHere {p : Pattern} {cs : List Char} {texts : List (List Char)}
    (h : matchHere p.pieces cs = some texts) : p.find? cs = some texts := by
  rw [Pattern.find?]
  split
  · exact h
  · cases cs with
    | nil => exact h
    | cons c cs => rw [matchLeftmost, h]

end KeyboardInfo.Text
