import KeyboardInfo.CommandLine.Run
import KeyboardInfo.Proofs.Stages
import KeyboardInfo.Proofs.Writing

/-! Runs that print a report and runs that write it to a file.

A command line that asks for a report on the standard output asks for the same report in a
file once the option for it is added between any two of its options (`ofArguments_output`). Any
path at all can be added that way (`spells_output`). The two runs then differ only in where the
report goes (`output_instead_of_stdout`): all that is read is read before anything is written,
so it does not matter which file that is, and a run that fails writes nothing. Only a run that
breaks off, for an indentation that is too wide, leaves the file empty. -/
namespace KeyboardInfo.CommandLine
open Files LinkerMap Log Report

/-! ### Whole options -/

/-- Arguments that are whole options, and the steps that they stand for. -/
inductive Spells : List String → List Item → Prop where
  | nil : Spells [] []
  | item {text : String} {i : Item} {rest : List String} {others : List Item}
      (h : Argument.ofText text = .item i) (hrest : Spells rest others) :
      Spells (text :: rest) (i :: others)
  | setting {text next value : String} {s : Setting} {rest : List String} {others : List Item}
      (h : Argument.ofText text = .needsValue s) (hnext : Argument.ofText next = .value value)
      (hrest : Spells rest others) : Spells (text :: next :: rest) (.setting s value :: others)

/-- Whole options are read by themselves, whatever comes after them. -/
theorem Spells.items_append {arguments : List String} {steps : List Item}
    (h : Spells arguments steps) (later : List String) :
    items (arguments ++ later) = steps ++ items later := by
  induction h with
  | nil => rfl
  | item h _ ih =>
    rw [List.cons_append, items, h]
    exact congrArg _ ih
  | setting h hnext _ ih =>
    rw [List.cons_append, List.cons_append, items, h]
    dsimp only
    rw [hnext]
    exact congrArg _ ih

/-- Every path can be asked for by the long option. -/
theorem spells_output (path : String) : Spells ["--output=" ++ path] [.setting .output path] := by
  refine .item ?_ .nil
  unfold Argument.ofText
  rw [String.toList_append]
  show Argument.item (.setting .output (String.ofList path.toList)) = _
  rw [String.ofList_toList]

/-! ### One more option -/

/-- Whatever else is set leaves the output as it is. -/
theorem set_withOutput {s : Setting} (hs : s ≠ .output) (g : Given) (value : String)
    (output : Option String) :
    ({g with output}).set s value = (g.set s value).map fun g => {g with output} := by
  cases s with
  | output => exact absurd rfl hs
  | commitDate =>
    simp only [Given.set]
    cases once Setting.commitDate g.commitDate value <;> rfl
  | commitId =>
    simp only [Given.set]
    cases once Setting.commitId g.commitId value <;> rfl
  | mapFile =>
    simp only [Given.set]
    cases oncePath Setting.mapFile g.mapFile value <;> rfl
  | sources =>
    simp only [Given.set]
    cases oncePath Setting.sources g.sources value <;> rfl
  | extension =>
    simp only [Given.set]
    cases once Setting.extension g.extension value <;> rfl
  | logLevel =>
    simp only [Given.set]
    cases once Setting.logLevel g.logLevel value <;> rfl
  | indent =>
    simp only [Given.set]
    cases number? value with
    | none => rfl
    | some n =>
      dsimp only
      cases once Setting.indent g.indent n <;> rfl

/-- The output can be set to a path if it has not been set. -/
theorem set_output {g : Given} (h : g.output = none) {path : String}
    (hpath : path.isEmpty = false) : g.set .output path = .ok {g with output := some path} := by
  simp only [Given.set, oncePath, once, hpath, h]
  rfl

/-- What leaves the output open has not set it, and found it open. -/
theorem output_eq_none_of_set {g g' : Given} {s : Setting} {value : String}
    (h : g.set s value = .ok g') (hnone : g'.output = none) : s ≠ .output ∧ g.output = none := by
  by_cases hs : s = .output
  · subst hs
    simp only [Given.set, oncePath, once] at h
    split at h
    · cases h
    · split at h
      · cases h
      · cases h
        cases hnone
  · have hsame := set_withOutput hs g value g.output
    rw [show {g with output := g.output} = g from rfl, h] at hsame
    have heq : g' = {g' with output := g.output} := Except.ok.inj hsame
    rw [heq] at hnone
    exact ⟨hs, hnone⟩

/-- The options of a run that writes its report to a file. -/
def Options.toFile (options : Options) (path : String) : Options :=
  {options with config := {options.config with output := some path}}

theorem complete_withOutput (g : Given) (path : String) :
    ({g with output := some path}).complete =
      g.complete.map fun options => options.toFile path := by
  simp only [Given.complete]
  cases required .commitDate g.commitDate with
  | error e => rfl
  | ok commitDate =>
    cases required .commitId g.commitId with
    | error e => rfl
    | ok commitId =>
      cases required .mapFile g.mapFile with
      | error e => rfl
      | ok mapFile => cases required .sources g.sources <;> rfl

theorem output_of_complete {g : Given} {options : Options} (h : g.complete = .ok options) :
    options.config.output = g.output := by
  simp only [Given.complete] at h
  obtain ⟨commitDate, -, h⟩ := exists_of_bind_eq_ok h
  obtain ⟨commitId, -, h⟩ := exists_of_bind_eq_ok h
  obtain ⟨mapFile, -, h⟩ := exists_of_bind_eq_ok h
  obtain ⟨sources, -, h⟩ := exists_of_bind_eq_ok h
  cases h
  rfl

/-- Steps that leave the output open come to the same with an output that is set before. -/
theorem followItems_withOutput {g : Given} {steps : List Item} {options : Options}
    (h : followItems g steps = .ok (.make options)) (hnone : options.config.output = none)
    (path : String) : g.output = none ∧
      followItems {g with output := some path} steps = .ok (.make (options.toFile path)) := by
  induction steps generalizing g with
  | nil =>
    rw [followItems] at h
    cases hcomplete : g.complete with
    | error e =>
      rw [hcomplete] at h
      cases h
    | ok completed =>
      rw [hcomplete] at h
      cases h
      refine ⟨(output_of_complete hcomplete).symm.trans hnone, ?_⟩
      rw [followItems, complete_withOutput, hcomplete]
      rfl
  | cons step steps ih =>
    cases step with
    | fault e => cases h
    | switch s =>
      cases s with
      | version => cases h
      | help => cases h
      | undated =>
        rw [followItems] at h
        rw [followItems]
        split at h
        · cases h
        · next hg =>
          rw [if_neg hg]
          exact ih h
    | setting s value =>
      rw [followItems] at h
      split at h
      · next g' hg =>
        obtain ⟨hnone', hrest⟩ := ih h
        obtain ⟨hs, hopen⟩ := output_eq_none_of_set hg hnone'
        refine ⟨hopen, ?_⟩
        rw [followItems, set_withOutput hs, hg]
        exact hrest
      · cases h

/-- Where steps make a report, the first of them only add to the options for the others. -/
theorem exists_given_of_append {g : Given} {before after : List Item} {options : Options}
    (h : followItems g (before ++ after) = .ok (.make options)) :
    ∃ g', followItems g' after = .ok (.make options) ∧
      ∀ later, followItems g (before ++ later) = followItems g' later := by
  induction before generalizing g with
  | nil => exact ⟨g, h, fun _ => rfl⟩
  | cons step before ih =>
    simp only [List.cons_append] at h ⊢
    cases step with
    | fault e => cases h
    | switch s =>
      cases s with
      | version => cases h
      | help => cases h
      | undated =>
        simp only [followItems] at h ⊢
        split at h
        · cases h
        · next hg =>
          simp only [if_neg hg]
          exact ih h
    | setting s value =>
      simp only [followItems] at h ⊢
      split at h
      · exact ih h
      · cases h

/-- A step that sets the output may come between any others. -/
theorem followItems_insert {g : Given} {before after : List Item} {options : Options}
    (h : followItems g (before ++ after) = .ok (.make options))
    (hnone : options.config.output = none) {path : String} (hpath : path.isEmpty = false) :
    followItems g (before ++ .setting .output path :: after) =
      .ok (.make (options.toFile path)) := by
  obtain ⟨g', hafter, hbefore⟩ := exists_given_of_append h
  obtain ⟨hopen, hrest⟩ := followItems_withOutput hafter hnone path
  rw [hbefore, followItems, set_output hopen hpath]
  exact hrest

/-- The option for an output may be added between any two options, and nothing else changes. -/
theorem ofArguments_output {first added second : List String} {steps : List Item}
    {options : Options} {path : String} (whole : Spells first steps)
    (adds : Spells added [.setting .output path])
    (h : Request.ofArguments (first ++ second) = .ok (.make options))
    (hnone : options.config.output = none) (hpath : path.isEmpty = false) :
    Request.ofArguments (first ++ added ++ second) = .ok (.make (options.toFile path)) := by
  unfold Request.ofArguments at h ⊢
  rw [whole.items_append] at h
  rw [List.append_assoc, whole.items_append, adds.items_append]
  exact followItems_insert h hnone hpath

/-! ### One report -/

/-- A report that is not dated is the same at any time, wherever it goes. -/
theorem result_assemble_undated (v : View) (clock clock' : Clock) {c : Config}
    (h : c.dated = false) (output : Option String) :
    (assemble v clock' {c with output}).result = (assemble v clock c).result := by
  have hmetadata : metadataOf clock' {c with output} = metadataOf clock c := by
    simp [metadataOf, h]
  cases hcheck : c.check v with
  | error cause =>
    have hcheck' : ({c with output} : Config).check v = .error cause := hcheck
    rw [result_of_check_error hcheck, result_of_check_error hcheck']
  | ok _ =>
    have hpasses := check_eq_ok_iff.mp hcheck
    have hpasses' : Passes v {c with output} :=
      ⟨hpasses.mapFile, hpasses.sources, hpasses.extension⟩
    rw [result_of_passes hpasses, result_of_passes hpasses', hmetadata]
    rfl

/-! ### Two runs -/

theorem run_of_options {arguments : List String} {options : Options}
    (h : Request.ofArguments arguments = .ok (.make options)) (t : Tree) (clock : Clock) :
    run t clock arguments =
      (draft clock options (assemble t.view clock options.config)).carryOut t := by
  unfold run
  rw [h]
  rfl

/-- The causes of a failure, from that of the run to the innermost. -/
def failureChain (e : ReportError) : List String :=
  "Failed to generate UI info" :: e.message :: e.causes

theorem draft_of_error {clock : Clock} {options : Options}
    {assembled : Logged (Except ReportError Node)} {e : ReportError}
    (h : assembled.result = .error e) :
    draft clock options assembled =
      .finished (failed (Verbosity.ofName options.logLevel) assembled.events (failureChain e)) := by
  unfold draft
  rw [h]
  rfl

/-- The text of a report as the options want it, if there is room for their indentation. -/
def reportText (options : Options) (report : Node) : Except Crash String :=
  Json.serialize (.indented options.config.indent) report

/-- An indentation for which there is room breaks nothing off. -/
theorem exists_reportText {options : Options} (h : options.config.indent < UInt64.size / 2)
    (report : Node) : ∃ text, reportText options report = .ok text :=
  ⟨_, Json.serialize_of_lt h⟩

section
variable {clock : Clock} {options : Options} {assembled : Logged (Except ReportError Node)}
  {report : Node} {text : String} {crash : Crash}

theorem draft_to_stdout (h : assembled.result = .ok report) (hnone : options.config.output = none)
    (htext : reportText options report = .ok text) :
    draft clock options assembled =
      .finished (succeeded (Verbosity.ofName options.logLevel) clock assembled.events text) := by
  unfold reportText at htext
  unfold draft
  rw [h, hnone]
  dsimp only
  rw [htext]

theorem draft_to_stdout_of_crash (h : assembled.result = .ok report)
    (hnone : options.config.output = none) (hcrash : reportText options report = .error crash) :
    draft clock options assembled =
      .finished (brokenOff (Verbosity.ofName options.logLevel) assembled.events crash) := by
  unfold reportText at hcrash
  unfold draft
  rw [h, hnone]
  dsimp only
  rw [hcrash]

theorem draft_to_file (h : assembled.result = .ok report) (path : String)
    (htext : reportText options report = .ok text) :
    draft clock (options.toFile path) assembled =
      .toFile path text
        (concluded (Verbosity.ofName options.logLevel) clock assembled.events path) := by
  change Json.serialize (.indented (options.toFile path).config.indent) report = .ok text at htext
  unfold draft
  rw [h]
  dsimp only
  rw [htext]
  rfl

theorem draft_to_file_of_crash (h : assembled.result = .ok report) (path : String)
    (hcrash : reportText options report = .error crash) :
    draft clock (options.toFile path) assembled =
      .toFile path ""
        (abandoned (Verbosity.ofName options.logLevel) assembled.events path crash) := by
  change Json.serialize (.indented (options.toFile path).config.indent) report = _ at hcrash
  unfold draft
  rw [h]
  dsimp only
  rw [hcrash]
  rfl

end

/-- A run that prints its report and one that writes it to a path do the same, but for where the
report goes. Both break off if there is no room for their indentation, and may do so only then. -/
structure SameReport (t : Tree) (path : String) (indent : Nat) (printing writing : Outcome × Tree) :
    Prop where
  exits : indent < UInt64.size / 2 → printing.1.exitCode = 0 ∨ printing.1.exitCode = 1
  keeps : printing.2 = t
  made : printing.1.exitCode = 0 → writing.1.exitCode = 0 ∧ writing.1.stdout = "" ∧
    writing.2.entry path = .ok (.file printing.1.stdout.toUTF8)
  failed : printing.1.exitCode = 1 → printing.1.stdout = "" ∧ writing.1.exitCode = 1 ∧
    writing.1.stdout = "" ∧ writing.2 = t ∧
    ∃ verbosity events events' chain,
      printing.1.stderr = logText verbosity events ++ failureLine chain ∧
      writing.1.stderr = logText verbosity events' ++ failureLine chain
  brokenOff : printing.1.exitCode ≠ 0 → printing.1.exitCode ≠ 1 →
    printing.1.stdout = "" ∧ writing.1.exitCode = printing.1.exitCode ∧ writing.1.stdout = "" ∧
    writing.2.entry path = .ok (.file .empty)

/-- **A report goes to a file as it goes to the standard output, or nowhere.** A run that makes a
report writes to a file just what it would print, even over a file that it reads; and a run that
fails touches no file and fails with the same line. A run that breaks off leaves an empty file. -/
theorem output_instead_of_stdout (t : Tree) (clock clock' : Clock)
    {first added second : List String} {steps : List Item} {options : Options} {path : String}
    (make : Request.ofArguments (first ++ second) = .ok (.make options))
    (prints : options.config.output = none) (undated : options.config.dated = false)
    (whole : Spells first steps) (adds : Spells added [.setting .output path])
    (writable : ∃ content written, t.write path content = .ok written) :
    SameReport t path options.config.indent (run t clock (first ++ second))
      (run t clock' (first ++ added ++ second)) := by
  obtain ⟨content, before, hbefore⟩ := writable
  obtain ⟨trail, entries, parts, name, hwritable, -⟩ := Tree.write_eq_ok_iff.mp hbefore
  have hmake := ofArguments_output whole adds make prints hwritable.nonempty
  rw [run_of_options make, run_of_options hmake]
  have hsame : (assemble t.view clock' (options.toFile path).config).result =
      (assemble t.view clock options.config).result :=
    result_assemble_undated t.view clock clock' undated (some path)
  cases hresult : (assemble t.view clock options.config).result with
  | error e =>
    rw [draft_of_error hresult, draft_of_error (hsame.trans hresult)]
    constructor
    case exits => exact fun _ => .inr rfl
    case keeps => rfl
    case made => exact nofun
    case failed =>
      intro _
      exact ⟨rfl, rfl, rfl, rfl, _, _, _, _, rfl, rfl⟩
    case brokenOff => exact fun _ hfails => absurd rfl hfails
  | ok report =>
    have hwriting := hsame.trans hresult
    cases htext : reportText options report with
    | ok text =>
      obtain ⟨written, hwritten⟩ := Tree.exists_write hbefore text.toUTF8
      rw [draft_to_stdout hresult prints htext, draft_to_file hwriting path htext]
      simp only [Draft.carryOut, hwritten]
      constructor
      case exits => exact fun _ => .inl rfl
      case keeps => rfl
      case made =>
        intro _
        exact ⟨rfl, rfl, Tree.entry_of_write hwritten⟩
      case failed => exact nofun
      case brokenOff => exact fun hfails => absurd rfl hfails
    | error crash =>
      obtain ⟨emptied, hemptied⟩ := Tree.exists_write hbefore "".toUTF8
      rw [draft_to_stdout_of_crash hresult prints htext, draft_to_file_of_crash hwriting path htext]
      simp only [Draft.carryOut, hemptied]
      constructor
      case exits =>
        intro hroom
        obtain ⟨text, hok⟩ := exists_reportText hroom report
        cases hok.symm.trans htext
      case keeps => rfl
      case made => exact fun hexit => absurd hexit (by decide : (101 : UInt32) ≠ 0)
      case failed => exact fun hexit => absurd hexit (by decide : (101 : UInt32) ≠ 1)
      case brokenOff =>
        intro _ _
        exact ⟨rfl, rfl, rfl, Tree.entry_of_write hemptied⟩

/-- A report may take the place of the linker map that it was made from. -/
theorem output_instead_of_stdout_over_map :
    let map := ".progmem.data.layout 0x20 0x1a4\n 0x20 _kb_layout\n 0x74 _kb_layout_press\n" ++
      " 0x11c _kb_layout_release\n"
    let t := (Tree.empty.addFile ["firmware.map"] map.toUTF8).addFolder ["src"]
    let first := ["--git-commit-date", "2013", "--git-commit-id", "e5d2"]
    let second := ["--map-file-path", "firmware.map", "--source-code-path", "src", "--no-timestamp"]
    let clock : Clock := ⟨⟨2013, 6, 1, 12, 0, 0, 0⟩, ⟨1⟩, ⟨1⟩, ⟨2⟩⟩
    let printing := run t clock (first ++ second)
    let writing := run t clock (first ++ ["-o", "src/../firmware.map"] ++ second)
    printing.1.exitCode = 0 ∧ writing.1.exitCode = 0 ∧ writing.1.stdout = "" ∧
      writing.2.entry "src/../firmware.map" = .ok (.file printing.1.stdout.toUTF8) := by
  intro map t first second clock printing writing
  let options : Options := ⟨⟨"firmware.map", "src", "2013", "e5d2", none, "c", false, 4⟩, "warn"⟩
  have make : Request.ofArguments (first ++ second) = .ok (.make options) := by decide +kernel
  have whole : Spells first [.setting .commitDate "2013", .setting .commitId "e5d2"] :=
    .setting (by decide) (by decide) (.setting (by decide) (by decide) .nil)
  have adds : Spells ["-o", "src/../firmware.map"] [.setting .output "src/../firmware.map"] :=
    .setting (by decide) (by decide) .nil
  have writable : ∃ content written, t.write "src/../firmware.map" content = .ok written := by
    have hok : (t.write "src/../firmware.map" .empty).isOk := by decide +kernel
    cases hwrite : t.write "src/../firmware.map" .empty with
    | error cause =>
      rw [hwrite] at hok
      cases hok
    | ok written => exact ⟨.empty, written, hwrite⟩
  have hsame : SameReport t "src/../firmware.map" 4 printing writing :=
    output_instead_of_stdout t clock clock make rfl rfl whole adds writable
  have hexit : printing.1.exitCode = 0 := by decide +kernel
  exact ⟨hexit, hsame.made hexit⟩

end KeyboardInfo.CommandLine
