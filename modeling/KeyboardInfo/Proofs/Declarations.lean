import KeyboardInfo.Proofs.Patterns
import KeyboardInfo.Proofs.Spans
import KeyboardInfo.Proofs.Trimming

/-! The name that a declaration is recorded under.

A declaration has a name, blanks on either side of it, a parameter list, and then whatever else
stands on the line (`Declaration`). The pattern of declarations lets the name go on for as long as
a parameter list can still follow (`IsLongest`), and parameter lists are found in more places than
after names: a cast to `void` looks the same. So a name that has a blank after it is recorded as it
is declared. One that the parameter list touches is so only if no other list follows in the same
run of characters or after blanks behind it, and else runs on to the last of those
(`records_declared_name`). -/
namespace KeyboardInfo.Source
open Files Text

/-! ### Names -/

/-- A character that names of functions are made of. -/
def NameChar (c : Char) : Prop := c.isAlphanum ∨ c = '_'

instance (c : Char) : Decidable (NameChar c) := inferInstanceAs (Decidable (_ ∨ _))

theorem NameChar.bounds {c : Char} (h : NameChar c) : 48 ≤ c.toNat ∧ c.toNat ≤ 122 := by
  rcases h with h | rfl
  · unfold Char.isAlphanum Char.isAlpha Char.isUpper Char.isLower Char.isDigit at h
    simp only [Bool.or_eq_true, Bool.and_eq_true, decide_eq_true_eq, UInt32.le_iff_toNat_le,
      ge_iff_le] at h
    change (65 ≤ c.toNat ∧ c.toNat ≤ 90 ∨ 97 ≤ c.toNat ∧ c.toNat ≤ 122) ∨
      48 ≤ c.toNat ∧ c.toNat ≤ 57 at h
    omega
  · decide

theorem NameChar.not_isBlank {c : Char} (h : NameChar c) : isBlank c = false := by
  have := h.bounds
  simp only [isBlank, blankRanges, List.any_cons, List.any_nil, Bool.or_false,
    Bool.or_eq_false_iff, Bool.and_eq_false_iff, decide_eq_false_iff_not]
  omega

theorem newline_not_mem_of_nameChars {cs : List Char} (h : ∀ c ∈ cs, NameChar c) : '\n' ∉ cs :=
  fun hnewline => absurd (h _ hnewline).bounds.1 (by decide)

/-! ### Parameter lists -/

/-- What a declaration without parameters has in their place. -/
def parameterList : List Char := "(void)".toList

theorem length_parameterList : parameterList.length = 6 := rfl

/-- A run of characters that are not blank begins a text, and a parameter list comes next, maybe
after blanks. -/
structure ListsAfter (run text : List Char) : Prop where
  solid : ∀ c ∈ run, isBlank c = false
  listed : ∃ rest, text = run ++ rest ∧ parameterList <+: trimStart rest

/-- The longest run that a parameter list comes after. -/
structure IsLongest (run text : List Char) : Prop extends ListsAfter run text where
  longest : ∀ other, ListsAfter other text → other.length ≤ run.length

theorem ListsAfter.append {start run text : List Char} (h : ListsAfter run text)
    (solid : ∀ c ∈ start, isBlank c = false) : ListsAfter (start ++ run) (start ++ text) := by
  obtain ⟨rest, rfl, hlist⟩ := h.listed
  exact ⟨List.forall_mem_append.mpr ⟨solid, h.solid⟩, rest, by rw [List.append_assoc], hlist⟩

theorem IsLongest.of_append {start run text : List Char}
    (h : IsLongest (start ++ run) (start ++ text)) : IsLongest run text := by
  have solid := List.forall_mem_append.mp h.solid
  obtain ⟨rest, heq, hlist⟩ := h.listed
  rw [List.append_assoc] at heq
  refine ⟨⟨solid.2, rest, List.append_cancel_left heq, hlist⟩, fun other hother => ?_⟩
  have hlength := h.longest _ (hother.append solid.1)
  rw [List.length_append, List.length_append] at hlength
  exact Nat.le_of_add_le_add_left hlength

/-- A parameter list begins with a parenthesis, and has no other that opens. -/
theorem listsAfter_prefix {run rest after : List Char} (hne : run ≠ [])
    (heq : run ++ rest = parameterList ++ after) (h : parameterList <+: trimStart rest) :
    parameterList <+: run := by
  have hlist : parameterList <+: run ++ rest := ⟨after, heq.symm⟩
  rcases List.prefix_or_prefix_of_prefix hlist (List.prefix_append run rest) with
    hrun | ⟨more, hmore⟩
  · exact hrun
  · -- The list that comes next would begin inside this one.
    obtain ⟨c, run, rfl⟩ := List.exists_cons_of_ne_nil hne
    rw [← hmore, List.append_assoc] at heq
    obtain rfl := List.append_cancel_left heq
    cases more with
    | nil => exact ⟨[], by rw [← hmore, List.append_nil, List.append_nil]⟩
    | cons d more =>
      have htail : run ++ d :: more = "void)".toList := (List.cons.inj hmore).2
      have hinside : "void)".toList.all fun d => !isBlank d && '(' != d := by decide
      have hd := List.all_eq_true.mp hinside d (by rw [← htail]; simp)
      obtain ⟨hblank, hparen⟩ : isBlank d = false ∧ '(' ≠ d := by simpa using hd
      rw [List.cons_append, trimStart_of_head hblank] at h
      exact absurd (List.cons_prefix_cons.mp h).1 hparen

/-- A parameter list, maybe after blanks, is what the end of the pattern of declarations asks for. -/
theorem isSome_matchHere_parameterList (text : List Char) :
    (matchHere [.run .blank 0, .literal parameterList] text).isSome ↔
      parameterList <+: trimStart text := by
  constructor
  · intro h
    obtain ⟨texts, htexts⟩ := Option.isSome_iff_exists.mp h
    obtain ⟨blanks, _, rest, -, rfl, hblanks, -, hlist⟩ := (fits_of_matchHere htexts).of_run
    obtain ⟨_, after, -, rfl, -⟩ := hlist.of_literal
    have htrim : trimStart (blanks ++ (parameterList ++ after)) = parameterList ++ after :=
      List.dropWhile_append_of_pos hblanks
    exact ⟨after, htrim.symm⟩
  · rintro ⟨after, hafter⟩
    have hsplit : text = text.takeWhile isBlank ++ (parameterList ++ after) := by
      rw [hafter]
      exact List.takeWhile_append_dropWhile.symm
    have hblanks : ∀ c ∈ text.takeWhile isBlank, CharKind.blank.admits c :=
      fun c hc => List.mem_takeWhile_imp hc
    rw [hsplit]
    exact (Fits.run hblanks (Nat.zero_le _) (.literal .nil)).isSome_matchHere

/-! ### What the pattern finds -/

/-- The pieces of a declaration after the mark of its name. -/
def nameEnd : List Piece := [.run .solid 1, .run .blank 0, .literal parameterList]

/-- A declaration matches at its start if its name ends as it should. -/
theorem matchHere_declaration {blanks : List Char} (hne : blanks ≠ [])
    (hblanks : ∀ c ∈ blanks, isBlank c) (text : List Char) :
    matchHere declaration.pieces ("void".toList ++ (blanks ++ ("kbfun_".toList ++ text))) =
      (matchHere nameEnd text).map fun texts =>
        "void".toList :: blanks :: "kbfun_".toList :: texts := by
  have hmark : ∀ c ∈ "kbfun_".toList, isBlank c = false := solid_of_all (by decide)
  have hlong : 1 ≤ blanks.length := List.length_pos_iff.mpr hne
  have hgap : matchHere (.run .blank 1 :: .literal "kbfun_".toList :: nameEnd)
      (blanks ++ ("kbfun_".toList ++ text)) =
        (matchHere nameEnd text).map fun texts => blanks :: "kbfun_".toList :: texts := by
    rw [matchHere, takeRun_append hblanks, if_pos hlong, matchHere_literal_append]
    · simp [Function.comp_def]
    · intro c hc
      cases hc
      rfl
    · intro _ c cs hc
      have hblank : isBlank c := hc
      exact matchHere_literal_of_endsToken (by decide) hmark nameEnd (by simpa [EndsToken])
  rw [show declaration.pieces = .literal "void".toList :: .run .blank 1 ::
    .literal "kbfun_".toList :: nameEnd from rfl, matchHere_literal_append, hgap, Option.map_map]
  rfl

/-- A name goes on for as long as a parameter list can still follow. -/
theorem exists_matchHere_nameEnd {text other : List Char} (h : ListsAfter other text)
    (hne : other ≠ []) :
    ∃ run texts, matchHere nameEnd text = some (run :: texts) ∧ IsLongest run text := by
  have hsolid {run : List Char} (h : ∀ c ∈ run, isBlank c = false) :
      ∀ c ∈ run, CharKind.solid.admits c := fun c hc => by simp [CharKind.admits, h c hc]
  obtain ⟨rest, htext, hlist⟩ := h.listed
  -- Some run is taken, since there is one that can be.
  obtain ⟨⟨run, texts⟩, hrun⟩ : ∃ found, takeRun .solid
      (matchHere [.run .blank 0, .literal parameterList]) 1 text = some found := by
    rw [htext]
    exact Option.isSome_iff_exists.mp (isSome_takeRun (hsolid h.solid)
      (List.length_pos_iff.mpr hne) ((isSome_matchHere_parameterList rest).mpr hlist))
  obtain ⟨hkinds, -, later, hlater, haccepted⟩ := takeRun_eq_some hrun
  have hleads : ListsAfter run text := by
    refine ⟨by simpa [CharKind.admits] using hkinds, later, hlater, ?_⟩
    exact (isSome_matchHere_parameterList later).mp (Option.isSome_of_mem haccepted)
  refine ⟨run, texts, by rw [nameEnd, matchHere, hrun]; rfl, hleads, fun longer hlonger => ?_⟩
  by_contra hlength
  obtain ⟨after, hafter, hlist⟩ := hlonger.listed
  obtain ⟨more, rfl⟩ : run <+: longer :=
    List.prefix_of_prefix_length_le ⟨later, hlater.symm⟩ ⟨after, hafter.symm⟩ (by omega)
  have hmore : more ≠ [] := by
    rintro rfl
    simp at hlength
  rw [hafter, List.append_assoc] at hrun
  have hnone := next_eq_none_of_takeRun hrun hmore
    (hsolid (List.forall_mem_append.mp hlonger.solid).2)
  have hlisted := (isSome_matchHere_parameterList after).mpr hlist
  rw [hnone] at hlisted
  cases hlisted

/-! ### Lines that declare a function -/

/-- A line that declares a function: the blanks before its name, the name without its mark, the
blanks after it, and what stands after the parameter list. -/
structure Declaration where
  blanks : List Char
  suffix : List Char
  gap : List Char
  after : List Char
  deriving DecidableEq, Repr

namespace Declaration

def name (d : Declaration) : List Char := "kbfun_".toList ++ d.suffix

def line (d : Declaration) : List Char :=
  "void".toList ++ (d.blanks ++ (d.name ++ (d.gap ++ (parameterList ++ d.after))))

/-- Names are identifiers, something is between them and what they are of, and all is on one line. -/
structure WellFormed (d : Declaration) : Prop where
  blanks : d.blanks ≠ [] ∧ ∀ c ∈ d.blanks, isBlank c
  suffix : d.suffix ≠ [] ∧ ∀ c ∈ d.suffix, NameChar c
  gap : ∀ c ∈ d.gap, isBlank c
  newline : '\n' ∉ d.blanks ∧ '\n' ∉ d.gap ∧ '\n' ∉ d.after

theorem wellFormed_iff (d : Declaration) :
    d.WellFormed ↔ (d.blanks ≠ [] ∧ d.blanks.all isBlank) ∧
      (d.suffix ≠ [] ∧ d.suffix.all fun c => NameChar c) ∧ d.gap.all isBlank ∧
      '\n' ∉ d.blanks ∧ '\n' ∉ d.gap ∧ '\n' ∉ d.after := by
  simp only [List.all_eq_true, decide_eq_true_eq]
  exact ⟨fun ⟨blanks, suffix, gap, newline⟩ => ⟨blanks, suffix, gap, newline⟩,
    fun ⟨blanks, suffix, gap, newline⟩ => ⟨blanks, suffix, gap, newline⟩⟩

instance (d : Declaration) : Decidable d.WellFormed := decidable_of_iff _ d.wellFormed_iff.symm

/-- What a declaration is recorded under: its name, or the name and what follows it up to the last
parameter list that it runs on to. -/
inductive RecordedAs (d : Declaration) : List Char → Prop where
  | declared (apart : d.gap ≠ [] ∨ ∀ run, ¬ ListsAfter run d.after) : RecordedAs d d.name
  | runsOn {run : List Char} (attached : d.gap = []) (last : IsLongest run d.after) :
      RecordedAs d (d.name ++ parameterList ++ run)

variable {d : Declaration}

theorem name_append (d : Declaration) (rest : List Char) :
    d.name ++ rest = "kbfun_".toList ++ (d.suffix ++ rest) := List.append_assoc ..

theorem line_eq (d : Declaration) : d.line = "void".toList ++ (d.blanks ++ ("kbfun_".toList ++
    (d.suffix ++ (d.gap ++ (parameterList ++ d.after))))) :=
  congrArg (fun rest => "void".toList ++ (d.blanks ++ rest)) (d.name_append _)

theorem solid_suffix (h : d.WellFormed) : ∀ c ∈ d.suffix, isBlank c = false :=
  fun c hc => (h.suffix.2 c hc).not_isBlank

theorem listsAfter_suffix (h : d.WellFormed) :
    ListsAfter d.suffix (d.suffix ++ (d.gap ++ (parameterList ++ d.after))) := by
  refine ⟨solid_suffix h, _, rfl, d.after, ?_⟩
  rw [trimStart, List.dropWhile_append_of_pos h.gap]
  rfl

theorem solid_parameterList : ∀ c ∈ parameterList, isBlank c = false := solid_of_all (by decide)

/-- The longest run is the name, or goes on to a parameter list behind the one that touches the
name. -/
theorem recordedAs_of_isLongest (h : d.WellFormed) {run : List Char}
    (hrun : IsLongest run (d.suffix ++ (d.gap ++ (parameterList ++ d.after)))) :
    d.RecordedAs ("kbfun_".toList ++ run) := by
  obtain ⟨rest, hrest, hlist⟩ := hrun.listed
  obtain ⟨extra, rfl⟩ : d.suffix <+: run :=
    List.prefix_of_prefix_length_le (List.prefix_append ..) ⟨rest, hrest.symm⟩
      (hrun.longest _ (listsAfter_suffix h))
  rw [List.append_assoc] at hrest
  have heq := List.append_cancel_left hrest
  cases extra with
  | nil =>
    rw [List.append_nil]
    refine .declared (or_iff_not_imp_left.mpr fun hgap run hafter => ?_)
    have hgap : d.gap = [] := not_not.mp hgap
    have hlonger := (hafter.append solid_parameterList).append (solid_suffix h)
    rw [hgap, List.nil_append, List.append_nil] at hrun
    have hlength := hrun.longest _ hlonger
    rw [List.length_append, List.length_append, length_parameterList] at hlength
    omega
  | cons c extra =>
    have hgap : d.gap = [] := by
      cases hd : d.gap with
      | nil => rfl
      | cons g gap =>
        rw [hd] at heq
        have hblank := h.gap g (by rw [hd]; exact List.mem_cons_self ..)
        rw [(List.cons.inj heq).1, hrun.solid c (by simp)] at hblank
        cases hblank
    rw [hgap, List.nil_append] at heq hrun
    obtain ⟨run, hextra⟩ := listsAfter_prefix (List.cons_ne_nil c extra) heq.symm hlist
    rw [← hextra] at hrun ⊢
    have hlast : IsLongest run d.after := hrun.of_append.of_append
    rw [← name_append, ← List.append_assoc]
    exact .runsOn hgap hlast

/-- The name that is found in a declaration. -/
theorem exists_declaredName (h : d.WellFormed) :
    ∃ recorded, declaredName? d.line = some recorded ∧ d.RecordedAs recorded := by
  obtain ⟨run, texts, hend, hlongest⟩ :=
    exists_matchHere_nameEnd (listsAfter_suffix h) h.suffix.1
  refine ⟨_, ?_, recordedAs_of_isLongest h hlongest⟩
  have hmatch : matchHere declaration.pieces d.line =
      some ("void".toList :: d.blanks :: "kbfun_".toList :: run :: texts) := by
    rw [d.line_eq, matchHere_declaration h.blanks.1 h.blanks.2, hend]
    rfl
  unfold declaredName?
  match texts, (fits_of_matchHere hmatch).length_eq with
  | [gap, list], _ => rw [find?_of_matchHere hmatch]

theorem newline_not_mem_line (h : d.WellFormed) : '\n' ∉ d.line := by
  have hsuffix := newline_not_mem_of_nameChars h.suffix.2
  have hwords : '\n' ∉ "void".toList ∧ '\n' ∉ "kbfun_".toList ∧ '\n' ∉ parameterList := by decide
  obtain ⟨hblanks, hgap, hafter⟩ := h.newline
  simp only [d.line_eq, List.mem_append, not_or]
  exact ⟨hwords.1, hblanks, hwords.2.1, hsuffix, hgap, hwords.2.2, hafter⟩

theorem exists_line_eq_cons (d : Declaration) : ∃ rest, d.line = 'v' :: rest :=
  ⟨"oid".toList ++ (d.blanks ++ (d.name ++ (d.gap ++ (parameterList ++ d.after)))), rfl⟩

/-- A declaration begins no comment. -/
theorem opensComment_line (d : Declaration) : opensComment d.line = false := by
  obtain ⟨rest, hline⟩ := d.exists_line_eq_cons
  have hprefix : trim ('v' :: rest) <+: 'v' :: rest := trim_prefix _
  rw [hline, opensComment, beq_eq_false_iff_ne]
  intro hopener
  rw [hopener] at hprefix
  exact absurd (List.cons_prefix_cons.mp hprefix).1 (by decide)

theorem RecordedAs.eq_name_iff {recorded : List Char} (h : d.RecordedAs recorded) :
    recorded = d.name ↔ d.gap ≠ [] ∨ ∀ run, ¬ ListsAfter run d.after := by
  cases h with
  | declared apart => exact iff_of_true rfl apart
  | @runsOn run attached last =>
    refine iff_of_false ?_ ?_
    · intro heq
      have hlength := congrArg List.length heq
      rw [List.length_append, List.length_append, length_parameterList] at hlength
      omega
    · rintro (apart | apart)
      · exact apart attached
      · exact apart run last.toListsAfter

end Declaration

/-! ### Main theorem -/

/-- **A declaration is found, and is recorded as it is declared unless its name runs on.** A line
that begins with a declaration is a source with one function, whatever else it holds. The name is
the declared one just when a blank comes after it, or when no parameter list follows in the same
run of characters or after blanks behind it. -/
theorem records_declared_name (path : String) {d : Declaration} (h : d.WellFormed) :
    ∃ recorded,
      (Scan.ofCursor path (.ofContent (String.ofList d.line).toUTF8)).result =
        .ok [⟨String.ofList recorded, .empty⟩] ∧
      d.RecordedAs recorded ∧
      (recorded = d.name ↔ d.gap ≠ [] ∨ ∀ run, ¬ ListsAfter run d.after) := by
  obtain ⟨recorded, hname, hrecorded⟩ := d.exists_declaredName h
  have hne : d.line ≠ [] := by
    obtain ⟨rest, hline⟩ := d.exists_line_eq_cons
    rw [hline]
    exact List.cons_ne_nil 'v' rest
  have text := linesOf_line hne (d.newline_not_mem_line h)
  have hs : Segmented [String.ofList d.line] [.code (String.ofList d.line)] := by
    refine .cons (.code ?_) .nil
    rw [String.toList_ofList]
    exact d.opensComment_line
  have hdeclared : (Segment.code (String.ofList d.line)).declared? =
      some (String.ofList recorded) := by
    rw [Segment.declared?, String.toList_ofList, hname, Option.map_some]
  refine ⟨recorded, ?_, hrecorded, hrecorded.eq_name_iff⟩
  rw [hs.result text path, bindings, Segment.binding, hdeclared]
  rfl

/-- Two prototypes on a line: the parameter list of the second stands after its own name. -/
theorem records_declared_name_prototypes :
    let d : Declaration := ⟨[' ', '\t'], "a_1".toList, [], "; void kbfun_b(void);".toList⟩
    let scan := Scan.ofCursor "basic.c" (.ofContent (String.ofList d.line).toUTF8)
    d.WellFormed ∧ scan.result = .ok [⟨"kbfun_a_1", .empty⟩] ∧ d.RecordedAs d.name ∧
      ∀ run, ¬ ListsAfter run d.after := by
  intro d scan
  have h : d.WellFormed := by decide
  have hresult : scan.result = .ok [⟨"kbfun_a_1", .empty⟩] := by decide +kernel
  obtain ⟨recorded, hscan, hrecorded, hiff⟩ := records_declared_name "basic.c" h
  have hone := List.cons.inj (Except.ok.inj (hresult.symm.trans hscan))
  have hname : String.ofList d.name = String.ofList recorded := (DocumentedFunction.mk.inj hone.1).1
  obtain rfl : d.name = recorded := String.ofList_injective hname
  exact ⟨h, hresult, hrecorded, (hiff.mp rfl).resolve_left (by decide)⟩

/-- The name runs on to the cast in the body of the function. -/
theorem declared_name_runs_on :
    let d : Declaration := ⟨[' '], ['a'], [], "\x7b(void)0;\x7d".toList⟩
    let scan := Scan.ofCursor "basic.c" (.ofContent (String.ofList d.line).toUTF8)
    d.WellFormed ∧ d.name = "kbfun_a".toList ∧
      scan.result = .ok [⟨"kbfun_a(void)\x7b", .empty⟩] ∧
      ¬ ∃ comments, scan.result = .ok [⟨String.ofList d.name, comments⟩] := by
  intro d scan
  have hresult : scan.result = .ok [⟨"kbfun_a(void)\x7b", .empty⟩] := by decide +kernel
  refine ⟨by decide, rfl, hresult, ?_⟩
  rintro ⟨comments, hdeclared⟩
  have hone := List.cons.inj (Except.ok.inj (hresult.symm.trans hdeclared))
  exact absurd (DocumentedFunction.mk.inj hone.1).1 (by decide)

end KeyboardInfo.Source
