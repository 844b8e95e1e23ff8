import KeyboardInfo.Proofs.Declarations
import Mathlib.Order.WellFounded

/-! Which tokens of a line are taken for the name of a declared function.

A name stands right after a token that ends in `void`, so two neighbouring tokens decide, and the
first pair that can be a declaration does (`BeginsDeclaration`). The name goes on to the end of its
token if the next token begins with a parameter list. Otherwise it ends before a list inside the
token, and of several it is the last one that counts (`NamedBy`). -/
namespace KeyboardInfo.Source
open Text

/-! ### Names in tokens -/

/-- The mark of names and something after it. -/
def IsName (text : List Char) : Prop := ∃ suffix, suffix ≠ [] ∧ text = "kbfun_".toList ++ suffix

/-- The next token begins with a parameter list. -/
def ListNext (others : List (List Char)) : Prop := ∃ next ∈ others.head?, parameterList <+: next

/-- A token begins with a name, and a parameter list touches that. -/
structure ListedIn (token name : List Char) : Prop where
  isName : IsName name
  listed : name ++ parameterList <+: token

/-- The name that a token gives, from what the tokens after it are. -/
inductive NamedBy (token : List Char) (others : List (List Char)) : List Char → Prop where
  | whole (isName : IsName token) (next : ListNext others) : NamedBy token others token
  | inside {name : List Char} (apart : ¬ ListNext others) (listed : ListedIn token name)
      (last : ∀ other, ListedIn token other → other.length ≤ name.length) :
      NamedBy token others name

theorem NamedBy.unique {token name name' : List Char} {others : List (List Char)}
    (h : NamedBy token others name) (h' : NamedBy token others name') : name = name' := by
  cases h with
  | whole _ next =>
    cases h' with
    | whole => rfl
    | inside apart => exact absurd next apart
  | inside apart listed last =>
    cases h' with
    | whole _ next => exact absurd next apart
    | inside _ listed' last' =>
      have hstart := (List.prefix_append name _).trans listed.listed
      have hstart' := (List.prefix_append name' _).trans listed'.listed
      have hprefix := List.prefix_of_prefix_length_le hstart hstart' (last' _ listed)
      exact hprefix.eq_of_length_le (last _ listed')

theorem listedIn_iff {suffix name : List Char} : ListedIn ("kbfun_".toList ++ suffix) name ↔
    ∃ run, run ≠ [] ∧ name = "kbfun_".toList ++ run ∧ run ++ parameterList <+: suffix := by
  constructor
  · rintro ⟨⟨run, hne, rfl⟩, hlist⟩
    rw [List.append_assoc, List.prefix_append_right_inj] at hlist
    exact ⟨run, hne, rfl, hlist⟩
  · rintro ⟨run, hne, rfl, hlist⟩
    refine ⟨⟨run, hne, rfl⟩, ?_⟩
    rwa [List.append_assoc, List.prefix_append_right_inj]

theorem listNext_iff {rest : List Char} :
    ListNext (tokens rest) ↔ parameterList <+: trimStart rest := by
  rcases trimStart_eq_nil_or_token rest with htrim | ⟨token, after, htrim, hne, solid, ends⟩
  · rw [htrim, tokens_eq_nil_iff.mpr htrim]
    exact iff_of_false (by simp [ListNext]) (by decide)
  · rw [← tokens_trimStart, htrim, tokens_token_append hne solid ends,
      prefix_token_append Declaration.solid_parameterList ends]
    simp [ListNext]

section
variable {suffix rest : List Char} (solid : ∀ c ∈ suffix, isBlank c = false)
  (ends : EndsToken rest)
include solid ends

/-- In a token a run is followed by a parameter list right away, or it is all of the token. -/
theorem listsAfter_token_iff {run : List Char} : ListsAfter run (suffix ++ rest) ↔
    run = suffix ∧ ListNext (tokens rest) ∨ run ++ parameterList <+: suffix := by
  rw [listNext_iff]
  constructor
  · rintro ⟨hrun, after, heq, hlist⟩
    obtain ⟨more, rfl⟩ := (prefix_token_append hrun ends).mp ⟨after, heq.symm⟩
    rw [List.append_assoc] at heq
    obtain rfl := List.append_cancel_left heq
    cases more with
    | nil => exact .inl ⟨(List.append_nil run).symm, hlist⟩
    | cons c more =>
      have hc : isBlank c = false := solid c (by simp)
      rw [List.cons_append, trimStart_of_head hc, ← List.cons_append,
        prefix_token_append Declaration.solid_parameterList ends] at hlist
      exact .inr ((List.prefix_append_right_inj run).mpr hlist)
  · rintro (⟨rfl, hlist⟩ | ⟨more, rfl⟩)
    · exact ⟨solid, rest, rfl, hlist⟩
    · refine ⟨fun c hc => solid c (by simp [hc]), parameterList ++ (more ++ rest), by simp, ?_⟩
      exact List.prefix_append ..

/-- The longest run is the name in the token. -/
theorem namedBy_of_isLongest {run : List Char} (hne : run ≠ [])
    (h : IsLongest run (suffix ++ rest)) :
    NamedBy ("kbfun_".toList ++ suffix) (tokens rest) ("kbfun_".toList ++ run) := by
  have hrun := (listsAfter_token_iff solid ends).mp h.toListsAfter
  by_cases hnext : ListNext (tokens rest)
  · have hall : ListsAfter suffix (suffix ++ rest) :=
      (listsAfter_token_iff solid ends).mpr (.inl ⟨rfl, hnext⟩)
    have hle := h.longest _ hall
    rcases hrun with ⟨rfl, -⟩ | hlisted
    · exact .whole ⟨run, hne, rfl⟩ hnext
    · -- A run that a list touches would be shorter than the token.
      have hlength := hlisted.length_le
      rw [List.length_append, length_parameterList] at hlength
      omega
  · have hlisted := hrun.resolve_left fun hall => hnext hall.2
    refine .inside hnext (listedIn_iff.mpr ⟨run, hne, rfl, hlisted⟩) fun other hother => ?_
    obtain ⟨longer, -, rfl, hlonger⟩ := listedIn_iff.mp hother
    have hle := h.longest _ ((listsAfter_token_iff solid ends).mpr (.inr hlonger))
    rw [List.length_append, List.length_append]
    omega

/-- What ends a name in the pattern of declarations finds the name in the token. -/
theorem matchHere_nameEnd_iff {name : List Char} :
    (matchHere nameEnd (suffix ++ rest)).map
        (fun texts => "kbfun_".toList ++ (texts.take 1).flatten) = some name ↔
      NamedBy ("kbfun_".toList ++ suffix) (tokens rest) name := by
  have hnamed {run : List Char} (hrun : ListsAfter run (suffix ++ rest)) (hne : run ≠ []) :
      ∃ longest texts, matchHere nameEnd (suffix ++ rest) = some (longest :: texts) ∧
        NamedBy ("kbfun_".toList ++ suffix) (tokens rest) ("kbfun_".toList ++ longest) := by
    obtain ⟨longest, texts, hmatch, hlongest⟩ := exists_matchHere_nameEnd hrun hne
    have hpos : longest ≠ [] := by
      have hle := hlongest.longest run hrun
      exact List.length_pos_iff.mp (Nat.lt_of_lt_of_le (List.length_pos_iff.mpr hne) hle)
    exact ⟨longest, texts, hmatch, namedBy_of_isLongest solid ends hpos hlongest⟩
  constructor
  · intro h
    obtain ⟨texts, hmatch, rfl⟩ := Option.map_eq_some_iff.mp h
    obtain ⟨run, others, after, rfl, htext, hkinds, hlong, hlist⟩ :=
      (fits_of_matchHere hmatch).of_run
    have hrun : ListsAfter run (suffix ++ rest) :=
      ⟨by simpa [CharKind.admits] using hkinds, after, htext,
        (isSome_matchHere_parameterList after).mp hlist.isSome_matchHere⟩
    obtain ⟨longest, texts, hlongest, hname⟩ := hnamed hrun (List.length_pos_iff.mp hlong)
    rw [hmatch] at hlongest
    cases hlongest
    simpa using hname
  · intro h
    obtain ⟨run, hne, hrun⟩ : ∃ run, run ≠ [] ∧ ListsAfter run (suffix ++ rest) := by
      simp only [listsAfter_token_iff solid ends]
      cases h with
      | whole isName next =>
        obtain ⟨more, hmore, heq⟩ := isName
        obtain rfl := List.append_cancel_left heq
        exact ⟨suffix, hmore, .inl ⟨rfl, next⟩⟩
      | inside _ listed =>
        obtain ⟨run, hrun, -, hlist⟩ := listedIn_iff.mp listed
        exact ⟨run, hrun, .inr hlist⟩
    obtain ⟨longest, texts, hlongest, hname⟩ := hnamed hrun hne
    rw [hlongest, h.unique hname]
    simp

end

theorem NamedBy.isName {token name : List Char} {others : List (List Char)}
    (h : NamedBy token others name) : IsName token := by
  cases h with
  | whole isName _ => exact isName
  | inside _ listed =>
    obtain ⟨⟨run, hrun, rfl⟩, more, rfl⟩ := listed
    exact ⟨run ++ (parameterList ++ more), by simp [hrun], by simp⟩

/-! ### Pairs of tokens -/

/-- The name in the texts of a declaration. -/
def recordedIn (texts : List (List Char)) : List Char := ((texts.drop 2).take 2).flatten

theorem declaredName?_eq (line : List Char) :
    declaredName? line = (matchLeftmost declaration.pieces line).map recordedIn := by
  change declaredName? line = (declaration.find? line).map recordedIn
  rw [declaredName?]
  cases hfind : declaration.find? line with
  | none => rfl
  | some texts =>
    obtain ⟨_, _, _, hfits⟩ := fits_of_find? hfind
    match texts, hfits.length_eq with
    | [_, _, _, _, _, _], _ => simp [recordedIn]

/-- What ends a token is a gap, if anything comes next. -/
theorem exists_gap {rest : List Char} (ends : EndsToken rest) (hne : trimStart rest ≠ []) :
    ∃ gap, gap ≠ [] ∧ (∀ c ∈ gap, isBlank c) ∧ rest = gap ++ trimStart rest := by
  refine ⟨rest.takeWhile isBlank, ?_, fun c hc => List.mem_takeWhile_imp hc,
    List.takeWhile_append_dropWhile.symm⟩
  cases rest with
  | nil => exact absurd rfl hne
  | cons c rest =>
    rw [List.takeWhile_cons_of_pos (ends c rfl)]
    exact List.cons_ne_nil _ _

/-- A declaration has its name after the gap behind `void`. -/
theorem mark_of_matchHere_void {rest : List Char} {texts : List (List Char)}
    (h : matchHere declaration.pieces ("void".toList ++ rest) = some texts) :
    "kbfun_".toList <+: trimStart rest := by
  obtain ⟨_, _, -, heq, hfits⟩ := (fits_of_matchHere h).of_literal
  obtain rfl := List.append_cancel_left heq
  obtain ⟨gap, _, _, -, rfl, hblank, -, hfits⟩ := hfits.of_run
  obtain ⟨_, more, -, rfl, -⟩ := hfits.of_literal
  have hgap : ∀ c ∈ gap, isBlank c := hblank
  rw [trimStart, List.dropWhile_append_of_pos hgap]
  exact ⟨more, rfl⟩

/-- After `void` the next token gives the name. -/
theorem matchHere_void_iff {rest name : List Char} (ends : EndsToken rest) :
    (matchHere declaration.pieces ("void".toList ++ rest)).map recordedIn = some name ↔
      ∃ token others, tokens rest = token :: others ∧ NamedBy token others name := by
  rcases trimStart_eq_nil_or_token rest with htrim | ⟨token, after, htrim, hne, solid, hafter⟩
  · rw [tokens_eq_nil_iff.mpr htrim]
    refine iff_of_false (fun h => ?_) (by simp)
    obtain ⟨texts, hmatch, -⟩ := Option.map_eq_some_iff.mp h
    have hmark := mark_of_matchHere_void hmatch
    rw [htrim] at hmark
    exact absurd hmark (by decide)
  · have htokens : tokens rest = token :: tokens after := by
      rw [← tokens_trimStart, htrim, tokens_token_append hne solid hafter]
    have hmarkSolid : ∀ c ∈ "kbfun_".toList, isBlank c = false := solid_of_all (by decide)
    by_cases hmark : "kbfun_".toList <+: token
    · obtain ⟨suffix, rfl⟩ := hmark
      have hsuffix : ∀ c ∈ suffix, isBlank c = false :=
        fun c hc => solid c (List.mem_append_right _ hc)
      obtain ⟨gap, hgap, hblank, hrest⟩ := exists_gap ends (by rw [htrim]; simp)
      rw [htrim, List.append_assoc] at hrest
      have hread : (recordedIn ∘ fun texts => "void".toList :: gap :: "kbfun_".toList :: texts) =
          fun texts => "kbfun_".toList ++ (texts.take 1).flatten := by
        funext texts
        simp [recordedIn]
      rw [htokens, hrest, matchHere_declaration hgap hblank, Option.map_map, hread,
        matchHere_nameEnd_iff hsuffix hafter]
      constructor
      · intro h
        exact ⟨_, _, rfl, h⟩
      · rintro ⟨_, _, heq, h⟩
        cases heq
        exact h
    · refine iff_of_false (fun h => hmark ?_) ?_
      · obtain ⟨texts, hmatch, -⟩ := Option.map_eq_some_iff.mp h
        have hstart := mark_of_matchHere_void hmatch
        rwa [htrim, prefix_token_append hmarkSolid hafter] at hstart
      · rintro ⟨_, _, heq, hnamed⟩
        rw [htokens] at heq
        cases heq
        obtain ⟨suffix, -, rfl⟩ := hnamed.isName
        exact hmark (List.prefix_append ..)

/-- No declaration begins inside a token, unless it is with a `void` at the end of the token. -/
theorem matchHere_declaration_eq_none {text rest : List Char}
    (solid : ∀ c ∈ text, isBlank c = false) (ends : EndsToken rest) (hne : text ≠ "void".toList) :
    matchHere declaration.pieces (text ++ rest) = none := by
  have hvoid : ∀ c ∈ "void".toList, isBlank c = false := solid_of_all (by decide)
  rw [Option.eq_none_iff_forall_ne_some]
  intro texts hmatch
  obtain ⟨_, after, -, heq, hfits⟩ := (fits_of_matchHere hmatch).of_literal
  obtain ⟨gap, _, _, -, rfl, hblank, hlong, -⟩ := hfits.of_run
  obtain ⟨more, rfl⟩ := (prefix_token_append hvoid ends).mp ⟨_, heq.symm⟩
  obtain ⟨g, gap, rfl⟩ := List.exists_cons_of_ne_nil (List.length_pos_iff.mp hlong)
  rw [List.append_assoc, List.append_cancel_left_eq] at heq
  cases more with
  | nil => exact hne (List.append_nil _)
  | cons c more =>
    have hc := hblank g (List.mem_cons_self ..)
    rw [← (List.cons.inj heq).1] at hc
    rw [CharKind.admits, solid c (by simp)] at hc
    cases hc

/-- Two tokens that declare a name, and what comes after them. -/
def Declares : List (List Char) → List Char → Prop
  | first :: token :: others, name => "void".toList <:+ first ∧ NamedBy token others name
  | _, _ => False

theorem declares_cons {first name : List Char} {texts : List (List Char)} :
    Declares (first :: texts) name ↔ "void".toList <:+ first ∧
      ∃ token others, texts = token :: others ∧ NamedBy token others name := by
  cases texts <;> simp [Declares]

/-- Of the starts inside one token, only that of a `void` at its end can be a declaration. -/
theorem matchLeftmost_token_iff {text rest name : List Char}
    (solid : ∀ c ∈ text, isBlank c = false) (ends : EndsToken rest) :
    (matchLeftmost declaration.pieces (text ++ rest)).map recordedIn = some name ↔
      Declares (text :: tokens rest) name ∨ (¬ ∃ other, Declares (text :: tokens rest) other) ∧
        (matchLeftmost declaration.pieces rest).map recordedIn = some name := by
  induction text with
  | nil => simp [declares_cons]
  | cons c text ih =>
    have hlater := ih fun d hd => solid d (List.mem_cons_of_mem _ hd)
    rw [List.cons_append, matchLeftmost, ← List.cons_append]
    by_cases hvoid : c :: text = "void".toList
    · have hhere (name : List Char) : Declares ((c :: text) :: tokens rest) name ↔
          (matchHere declaration.pieces (c :: text ++ rest)).map recordedIn = some name := by
        rw [hvoid, matchHere_void_iff ends, declares_cons, and_iff_right List.suffix_rfl]
      have hshort : ¬ "void".toList <:+ text := by
        rw [← hvoid]
        exact fun h => Nat.not_succ_le_self _ h.length_le
      simp only [hhere]
      simp only [declares_cons, hshort, false_and, exists_false, not_false_eq_true, true_and,
        false_or] at hlater
      cases matchHere declaration.pieces (c :: text ++ rest) with
      | none => simpa using hlater
      | some texts => simp
    · have hsuffix : "void".toList <:+ c :: text ↔ "void".toList <:+ text := by
        rw [List.suffix_cons_iff, or_iff_right (Ne.symm hvoid)]
      simp only [declares_cons, hsuffix] at hlater ⊢
      rw [matchHere_declaration_eq_none solid ends hvoid]
      exact hlater

/-- The first pair of tokens that declares a name decides. -/
theorem declaredName?_eq_some_iff {line name : List Char} :
    declaredName? line = some name ↔ ∃ rest,
      Leftmost (fun texts => ∃ name, Declares texts name) (tokens line) rest ∧
        Declares rest name := by
  rw [declaredName?_eq]
  induction line using tokenInduct with
  | nil =>
    rw [tokens_nil]
    refine iff_of_false (fun h => ?_) (by simp [leftmost_nil, Declares])
    cases h
  | blank c line hc ih =>
    have ends : EndsToken (c :: line) := by simpa [EndsToken] using hc
    have hnone : matchHere declaration.pieces ([] ++ c :: line) = none :=
      matchHere_declaration_eq_none (List.forall_mem_nil _) ends (by decide)
    rw [List.nil_append] at hnone
    rw [tokens_cons_blank hc, ← ih, matchLeftmost, hnone]
  | token token rest hne solid ends ih =>
    rw [matchLeftmost_token_iff solid ends, tokens_token_append hne solid ends, ih]
    simp only [leftmost_cons]
    constructor
    · rintro (here | ⟨hnone, later, hfirst, h⟩)
      · exact ⟨_, .inl ⟨⟨name, here⟩, rfl⟩, here⟩
      · exact ⟨later, .inr ⟨hnone, hfirst⟩, h⟩
    · rintro ⟨later, ⟨-, rfl⟩ | ⟨hnone, hfirst⟩, h⟩
      · exact .inl h
      · exact .inr ⟨hnone, later, hfirst, h⟩

/-! ### Main theorem -/

/-- A token that ends in `void`, and right after it one that begins with a name, such that a
parameter list begins the next token or touches a name in this one. -/
def BeginsDeclaration : List (List Char) → Prop
  | first :: token :: others =>
    "void".toList <:+ first ∧ IsName token ∧ (ListNext others ∨ ∃ name, ListedIn token name)
  | _ => False

/-- Of the parameter lists in a token one is the last. -/
theorem exists_last_listed {token : List Char} (h : ∃ name, ListedIn token name) :
    ∃ name, ListedIn token name ∧ ∀ other, ListedIn token other → other.length ≤ name.length := by
  have hwf := (measure fun name : List Char => token.length - name.length).wf
  obtain ⟨name, listed, hlast⟩ := hwf.has_min {name | ListedIn token name} h
  refine ⟨name, listed, fun other hother => ?_⟩
  have hbound := ((List.prefix_append other _).trans hother.listed).length_le
  have hmost : ¬ token.length - other.length < token.length - name.length := hlast other hother
  omega

theorem exists_declares_iff {texts : List (List Char)} :
    (∃ name, Declares texts name) ↔ BeginsDeclaration texts := by
  match texts with
  | [] => simp [Declares, BeginsDeclaration]
  | [_] => simp [Declares, BeginsDeclaration]
  | first :: token :: others =>
    simp only [Declares, BeginsDeclaration, exists_and_left]
    refine and_congr_right fun _ => ⟨?_, ?_⟩
    · rintro ⟨name, h⟩
      refine ⟨h.isName, ?_⟩
      cases h with
      | whole _ next => exact .inl next
      | inside _ listed _ => exact .inr ⟨name, listed⟩
    · rintro ⟨isName, hlist⟩
      by_cases next : ListNext others
      · exact ⟨token, .whole isName next⟩
      · obtain ⟨name, listed, last⟩ := exists_last_listed (hlist.resolve_left next)
        exact ⟨name, .inside next listed last⟩

/-- **The first two tokens that can declare a name do so.** A line declares a function if a token
that ends in `void` stands right before one that begins with a name, and a parameter list begins
the next token or touches a name in this one. The first such pair decides, whatever tokens stand
before it. The name is the whole second token in the one case, and in the other what stands in it
before the last list. -/
theorem declares_leftmost (line : List Char) :
    (declaration.occursIn line ↔ ∃ rest, rest <:+ tokens line ∧ BeginsDeclaration rest) ∧
    ∀ name, declaredName? line = some name ↔ ∃ first token others,
      Leftmost BeginsDeclaration (tokens line) (first :: token :: others) ∧
        NamedBy token others name := by
  have hbegins : (fun texts => ∃ name, Declares texts name) = BeginsDeclaration :=
    funext fun _ => propext exists_declares_iff
  have hname (name : List Char) : declaredName? line = some name ↔
      ∃ rest, Leftmost BeginsDeclaration (tokens line) rest ∧ Declares rest name := by
    rw [declaredName?_eq_some_iff, hbegins]
  have hoccurs : declaration.occursIn line = (declaredName? line).isSome := by
    rw [declaredName?_eq, Option.isSome_map]
    rfl
  refine ⟨?_, fun name => ?_⟩
  · rw [hoccurs, Option.isSome_iff_exists, ← exists_leftmost_iff]
    simp only [hname]
    constructor
    · rintro ⟨name, rest, hfirst, -⟩
      exact ⟨rest, hfirst⟩
    · rintro ⟨rest, hfirst⟩
      obtain ⟨name, hdeclares⟩ := exists_declares_iff.mpr hfirst.holds
      exact ⟨name, rest, hfirst, hdeclares⟩
  · rw [hname]
    constructor
    · rintro ⟨rest, hfirst, hdeclares⟩
      match rest, hdeclares with
      | first :: token :: others, ⟨_, hnamed⟩ => exact ⟨first, token, others, hfirst, hnamed⟩
    · rintro ⟨first, token, others, hfirst, hnamed⟩
      exact ⟨_, hfirst, hfirst.holds.1, hnamed⟩

end KeyboardInfo.Source
