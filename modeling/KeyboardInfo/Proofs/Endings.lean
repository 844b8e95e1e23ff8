import KeyboardInfo.Proofs.Stages

/-! Source files by the ending of their names.

The extension of a name is what stands after its last dot, so it has no dot itself, and something
stands before that dot (`extension?_eq_some_iff`). An extension that a report is asked for loses the
dots in front of it and no others (`bareExtension_bareExtension`). What is left chooses the names
that end in a dot and the extension, if it has no dot inside; and if it has one, then it passes the
check of the configuration all the same and chooses no file at all (`isSourceFile_iff_ending`). -/
namespace KeyboardInfo.Source
open Files

/-! ### Extensions -/

/-- A text with a dot is split at its last one. -/
theorem exists_last_dot {text : List Char} (h : '.' ∈ text) :
    ∃ before after, text = before ++ '.' :: after ∧ '.' ∉ after := by
  obtain ⟨reversed, rest, hsplit, hnone⟩ :=
    List.eq_append_cons_of_mem (List.mem_reverse.mpr h)
  refine ⟨rest.reverse, reversed.reverse, ?_, by simpa using hnone⟩
  rw [← List.reverse_reverse text, hsplit, List.reverse_append, List.reverse_cons,
    List.append_assoc, List.singleton_append]

/-- The text after the last dot of a name is its extension, if there is any before that dot. -/
theorem extension?_of_split {name : String} {before after : List Char}
    (hname : name.toList = before ++ '.' :: after) (hafter : '.' ∉ after) :
    Path.extension? name = if before = [] then none else some (String.ofList after) := by
  have hreverse : name.toList.reverse = after.reverse ++ '.' :: before.reverse := by
    rw [hname, List.reverse_append, List.reverse_cons, List.append_assoc, List.singleton_append]
  have hdots : ∀ c ∈ after.reverse, (c != '.') = true := by
    intro c hc
    rw [bne_iff_ne]
    rintro rfl
    exact hafter (List.mem_reverse.mp hc)
  unfold Path.extension?
  dsimp only
  rw [hreverse, List.takeWhile_append_of_pos hdots, List.dropWhile_append_of_pos hdots,
    List.takeWhile_cons_of_neg (by decide), List.dropWhile_cons_of_neg (by decide),
    List.append_nil, List.reverse_reverse]
  cases hbefore : before.reverse with
  | nil => rw [if_pos (List.reverse_eq_nil_iff.mp hbefore)]
  | cons c rest =>
    have hne : before ≠ [] := by
      rintro rfl
      cases hbefore
    rw [if_neg hne]

theorem extension?_of_no_dot {name : String} (h : '.' ∉ name.toList) :
    Path.extension? name = none := by
  have hdrop : name.toList.reverse.dropWhile (· != '.') = [] := by
    rw [List.dropWhile_eq_nil_iff]
    intro c hc
    rw [bne_iff_ne]
    rintro rfl
    exact h (List.mem_reverse.mp hc)
  unfold Path.extension?
  dsimp only
  rw [hdrop]

theorem extension?_eq_some_iff {name extension : String} :
    Path.extension? name = some extension ↔
      '.' ∉ extension.toList ∧ ∃ stem, stem ≠ "" ∧ name = stem ++ "." ++ extension := by
  constructor
  · intro h
    by_cases hdot : '.' ∈ name.toList
    · obtain ⟨before, after, hname, hafter⟩ := exists_last_dot hdot
      rw [extension?_of_split hname hafter] at h
      split at h
      · cases h
      · next hbefore =>
        cases h
        refine ⟨by rwa [String.toList_ofList], String.ofList before, ?_, ?_⟩
        · rwa [Ne, ← String.toList_eq_nil_iff, String.toList_ofList]
        · rw [← String.toList_inj, hname]
          simp
    · rw [extension?_of_no_dot hdot] at h
      cases h
  · rintro ⟨hdot, stem, hstem, rfl⟩
    have hname : (stem ++ "." ++ extension).toList = stem.toList ++ '.' :: extension.toList := by
      simp
    rw [extension?_of_split hname hdot, if_neg (by simpa using hstem), String.ofList_toList]

theorem bareExtension_bareExtension (text : String) :
    Path.bareExtension (Path.bareExtension text) = Path.bareExtension text := by
  unfold Path.bareExtension
  rw [String.toList_ofList, List.dropWhile_idempotent]

/-! ### Main theorem -/

/-- **A source is a file whose name ends in a dot and the extension, if that has no dot inside.**
The extension is what is left of the text that was asked for, in a configuration that passes its
check; and something has to stand before the ending. With a dot inside the extension no file is a
source, also not where the name ends in it. -/
theorem isSourceFile_iff_ending {v : View} {c : Config} {text path name : String}
    (accepted : (c.withExtension text).check v = .ok ())
    (named : Path.fileName? path = some name) :
    let extension := (c.withExtension text).extension
    extension ≠ "" ∧
      (isSourceFile (Path.bareExtension extension) path ↔
        '.' ∉ extension.toList ∧ ∃ stem, stem ≠ "" ∧ name = stem ++ "." ++ extension) := by
  intro extension
  have hbare : Path.bareExtension extension = extension := bareExtension_bareExtension text
  refine ⟨(Report.check_eq_ok_iff.mp accepted).extension, ?_⟩
  rw [isSourceFile, hbare, named, Option.bind_some, beq_iff_eq]
  exact extension?_eq_some_iff

/-- The stem may have dots of its own, also in front. -/
theorem isSourceFile_iff_ending_hidden :
    let v := ((Tree.empty.addFile ["firmware.map"] .empty).addFolder ["src"]).view
    let c := (Config.ofInputs "firmware.map" "src" "2013" "e5d2").withExtension "..c"
    let path := "src/.basic.old.c/."
    c.check v = .ok () ∧ Path.fileName? path = some ".basic.old.c" ∧
      isSourceFile (Path.bareExtension c.extension) path := by
  intro v c path
  have accepted : c.check v = .ok () :=
    Report.check_eq_ok_iff.mpr ⟨by decide +kernel, by decide +kernel, by decide +kernel⟩
  have named : Path.fileName? path = some ".basic.old.c" := by decide +kernel
  have chosen := (isSourceFile_iff_ending accepted named).2
  exact ⟨accepted, named, chosen.mpr ⟨by decide +kernel, ".basic.old", by decide, by decide⟩⟩

/-- A file whose name ends in a dot and the extension, and which is no source. -/
theorem inner_dot_not_chosen :
    let v := ((Tree.empty.addFile ["firmware.map"] .empty).addFolder ["src"]).view
    let c := (Config.ofInputs "firmware.map" "src" "2013" "e5d2").withExtension "b.c"
    c.check v = .ok () ∧ Path.fileName? "src/a.b.c" = some "a.b.c" ∧
      "a.b.c" = "a" ++ "." ++ c.extension ∧
      isSourceFile (Path.bareExtension c.extension) "src/a.b.c" = false := by
  intro v c
  have accepted : c.check v = .ok () :=
    Report.check_eq_ok_iff.mpr ⟨by decide +kernel, by decide +kernel, by decide +kernel⟩
  exact ⟨accepted, by decide +kernel, by decide +kernel, by decide +kernel⟩

end KeyboardInfo.Source
