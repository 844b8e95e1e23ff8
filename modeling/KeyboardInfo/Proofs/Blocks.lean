import KeyboardInfo.Proofs.Lines
import KeyboardInfo.Proofs.Steps
import KeyboardInfo.Proofs.Windows

/-! The blocks of a linker map.

`Complete` is the grammar of a block: a line that opens no section, the three lines of
a keyboard function, or a layout header and the three lines after it. `Broken` says
what is wrong with lines that begin no complete block. Any lines do one or the other
(`complete_or_broken`), and reading a block finds out which (`blockAt_of_complete`,
`blockAt_of_broken`). -/
namespace KeyboardInfo.LinkerMap
open Files (Line readable)
open Text

/-! ### What lines give -/

/-- A line gives an extent. -/
def GivesExtent (line : String) (extent : Extent) : Prop :=
  ∃ position length, Entry.extentTokens? line.toList = some (position, length) ∧
    Hex.read? position = some extent.position ∧ Hex.read? length = some extent.length

/-- A line names a keyboard function. -/
def NamesFunction (line name : String) : Prop :=
  ∃ token, Entry.symbolToken? line.toList = some token ∧ functionMark <+: token ∧
    String.ofList token = name

/-- A header gives the length of its section. -/
def GivesLength (header : String) (length : UInt64) : Prop :=
  ∃ position token, Entry.extentTokens? header.toList = some (position, token) ∧
    Hex.read? token = some length

/-- Why a line gives no extent. -/
inductive ExtentFault (line : String) : Fault → Prop where
  | missing (h : Entry.extentTokens? line.toList = none) : ExtentFault line .noExtent
  | position {position length : List Char}
      (h : Entry.extentTokens? line.toList = some (position, length))
      (unread : Hex.read? position = none) : ExtentFault line (.notHex (String.ofList position))
  | length {position length : List Char}
      (h : Entry.extentTokens? line.toList = some (position, length))
      (read : (Hex.read? position).isSome) (unread : Hex.read? length = none) :
      ExtentFault line (.notHex (String.ofList length))

/-- Why a line names no keyboard function. -/
inductive NameFault (line : String) : Fault → Prop where
  | missing (h : Entry.symbolToken? line.toList = none) : NameFault line .noSymbol
  | unmarked {token : List Char} (h : Entry.symbolToken? line.toList = some token)
      (mark : ¬ functionMark <+: token) : NameFault line (.notKeyFunction (String.ofList token))

/-- Why a header gives no length. -/
inductive LengthFault (header : String) : Fault → Prop where
  | missing (h : Entry.extentTokens? header.toList = none) : LengthFault header .noSectionLength
  | notHex {position token : List Char}
      (h : Entry.extentTokens? header.toList = some (position, token))
      (unread : Hex.read? token = none) : LengthFault header (.notHex (String.ofList token))

/-! ### The grammar -/

/-- The lines of one block, and what it records. -/
inductive Complete : List String → Option Record → Prop where
  | plain {line : String} (function : Entry.functionHeader.occursIn line.toList = false)
      (layout : Entry.layoutHeader.occursIn line.toList = false) : Complete [line] none
  | function {header extentLine nameLine name : String} {extent : Extent}
      (opens : Entry.functionHeader.occursIn header.toList)
      (gives : GivesExtent extentLine extent) (names : NamesFunction nameLine name) :
      Complete [header, extentLine, nameLine] (some (.function ⟨name, extent⟩))
  | layout {header : String} {window : List String} {length keys press release : UInt64}
      (opens : Entry.layoutHeader.occursIn header.toList) (gives : GivesLength header length)
      (full : window.length = layoutWindow) (keysAt : Positioned window .keys keys)
      (pressAt : Positioned window .press press)
      (releaseAt : Positioned window .release release) :
      Complete (header :: window)
        (some (.layout (.ofKeyLength (length / layoutShares) keys press release)))

/-- What is wrong with a block that opens on line `number`, from its first line on. -/
inductive Broken (number : Nat) : List String → MapError → Prop where
  | endsBeforeExtent {header : String} (opens : Entry.functionHeader.occursIn header.toList) :
      Broken number [header] (.malformed number .endsBeforeExtent)
  | extent {header line : String} {rest : List String} {fault : Fault}
      (opens : Entry.functionHeader.occursIn header.toList) (h : ExtentFault line fault) :
      Broken number (header :: line :: rest) (.malformed (number + 1) fault)
  | endsBeforeName {header line : String} {extent : Extent}
      (opens : Entry.functionHeader.occursIn header.toList) (gives : GivesExtent line extent) :
      Broken number [header, line] (.malformed number .endsBeforeName)
  | name {header line nameLine : String} {rest : List String} {extent : Extent} {fault : Fault}
      (opens : Entry.functionHeader.occursIn header.toList) (gives : GivesExtent line extent)
      (h : NameFault nameLine fault) :
      Broken number (header :: line :: nameLine :: rest) (.malformed (number + 2) fault)
  | length {header : String} {rest : List String} {fault : Fault}
      (opens : Entry.layoutHeader.occursIn header.toList) (h : LengthFault header fault) :
      Broken number (header :: rest) (.malformed number fault)
  | position {header : String} {rest : List String} {length : UInt64} {m : Matrix}
      {token : List Char} (opens : Entry.layoutHeader.occursIn header.toList)
      (gives : GivesLength header length) (h : tokenIn (rest.take layoutWindow) m = some token)
      (unread : Hex.read? token = none)
      (before : ∀ other ∈ m.before, ReadsWell (rest.take layoutWindow) other) :
      Broken number (header :: rest) (.malformed number (.notHex (String.ofList token)))
  | incomplete {header : String} {rest : List String} {length : UInt64}
      (opens : Entry.layoutHeader.occursIn header.toList) (gives : GivesLength header length)
      (read : ∀ m, ReadsWell (rest.take layoutWindow) m)
      (missing : missingIn (rest.take layoutWindow) ≠ []) :
      Broken number (header :: rest)
        (.incompleteLayout number (missingIn (rest.take layoutWindow)))

theorem Complete.exists_cons {lines : List String} {record : Option Record}
    (h : Complete lines record) : ∃ first further, lines = first :: further := by
  cases h with
  | _ => exact ⟨_, _, rfl⟩

theorem Broken.exists_cons {number : Nat} {lines : List String} {e : MapError}
    (h : Broken number lines e) : ∃ first rest, lines = first :: rest := by
  cases h with
  | _ => exact ⟨_, _, rfl⟩

/-! ### Reading one line -/

theorem hexAt_of_read {token : List Char} {value : UInt64} (h : Hex.read? token = some value)
    (number : Nat) : hexAt number token = .ok value := by
  rw [hexAt, h]

theorem hexAt_of_unread {token : List Char} (h : Hex.read? token = none) (number : Nat) :
    hexAt number token = .error (.malformed number (.notHex (String.ofList token))) := by
  rw [hexAt, h]

theorem extentAt_of_gives {line : String} {extent : Extent} (h : GivesExtent line extent)
    (number : Nat) : extentAt number line = .ok extent := by
  obtain ⟨position, length, ht, hp, hl⟩ := h
  simp only [extentAt, ht, hexAt_of_read hp, hexAt_of_read hl]
  rfl

theorem extentAt_of_fault {line : String} {fault : Fault} (h : ExtentFault line fault)
    (number : Nat) : extentAt number line = .error (.malformed number fault) := by
  cases h with
  | missing h => simp only [extentAt, h]
  | position h unread =>
    simp only [extentAt, h, hexAt_of_unread unread]
    rfl
  | length h read unread =>
    obtain ⟨value, hv⟩ := Option.isSome_iff_exists.mp read
    simp only [extentAt, h, hexAt_of_read hv, hexAt_of_unread unread]
    rfl

theorem givesExtent_or_fault (line : String) :
    (∃ extent, GivesExtent line extent) ∨ ∃ fault, ExtentFault line fault := by
  cases ht : Entry.extentTokens? line.toList with
  | none => exact .inr ⟨_, .missing ht⟩
  | some tokens =>
    obtain ⟨position, length⟩ := tokens
    cases hp : Hex.read? position with
    | none => exact .inr ⟨_, .position ht hp⟩
    | some p =>
      cases hl : Hex.read? length with
      | none => exact .inr ⟨_, .length ht (by rw [hp]; rfl) hl⟩
      | some l => exact .inl ⟨⟨p, l⟩, position, length, ht, hp, hl⟩

theorem functionNameAt_of_names {line name : String} (h : NamesFunction line name)
    (number : Nat) : functionNameAt number line = .ok name := by
  obtain ⟨token, ht, hmark, rfl⟩ := h
  simp only [functionNameAt, ht]
  rw [if_pos (List.isPrefixOf_iff_prefix.mpr hmark)]

theorem functionNameAt_of_fault {line : String} {fault : Fault} (h : NameFault line fault)
    (number : Nat) : functionNameAt number line = .error (.malformed number fault) := by
  cases h with
  | missing h => simp only [functionNameAt, h]
  | unmarked h mark =>
    simp only [functionNameAt, h]
    rw [if_neg fun hp => mark (List.isPrefixOf_iff_prefix.mp hp)]

theorem namesFunction_or_fault (line : String) :
    (∃ name, NamesFunction line name) ∨ ∃ fault, NameFault line fault := by
  cases ht : Entry.symbolToken? line.toList with
  | none => exact .inr ⟨_, .missing ht⟩
  | some token =>
    by_cases hmark : functionMark <+: token
    · exact .inl ⟨_, token, ht, hmark, rfl⟩
    · exact .inr ⟨_, .unmarked ht hmark⟩

theorem sectionLengthAt_of_gives {header : String} {length : UInt64} (h : GivesLength header length)
    (number : Nat) : sectionLengthAt number header = .ok length := by
  obtain ⟨position, token, ht, hl⟩ := h
  simp only [sectionLengthAt, ht, hexAt_of_read hl]

theorem sectionLengthAt_of_fault {header : String} {fault : Fault} (h : LengthFault header fault)
    (number : Nat) : sectionLengthAt number header = .error (.malformed number fault) := by
  cases h with
  | missing h => simp only [sectionLengthAt, h]
  | notHex h unread => simp only [sectionLengthAt, h, hexAt_of_unread unread]

theorem givesLength_or_fault (header : String) :
    (∃ length, GivesLength header length) ∨ ∃ fault, LengthFault header fault := by
  cases ht : Entry.extentTokens? header.toList with
  | none => exact .inr ⟨_, .missing ht⟩
  | some tokens =>
    obtain ⟨position, token⟩ := tokens
    cases hl : Hex.read? token with
    | none => exact .inr ⟨_, .notHex ht hl⟩
    | some length => exact .inl ⟨length, position, token, ht, hl⟩

/-! ### Reading a block -/

theorem ofCursor_ofContent {content : ByteArray} {lines : List String}
    (text : Files.linesOf content = readable lines) :
    Extraction.ofCursor (.ofContent content) = Extraction.ofLines 0 0 (readable lines) := by
  rw [Extraction.ofCursor, Files.lines_ofContent, text]
  rfl

theorem lineAhead_readable (lines : List String) (distance : Nat) (missing : MapError) :
    lineAhead (readable lines) distance missing =
      match lines[distance]? with
      | some line => .ok line
      | none => .error missing := by
  rw [lineAhead, readable, List.getElem?_map]
  cases lines[distance]? <;> rfl

theorem mapM_id_readable (lines : List String) : (readable lines).mapM id = .ok lines :=
  mapM_eq_ok_iff.mpr (List.map_id _)

theorem window_readable (lines : List String) :
    (((readable lines).take layoutWindow).mapM id).mapError MapError.unreadable =
      .ok (lines.take layoutWindow) := by
  rw [readable, ← List.map_take]
  exact congrArg _ (mapM_id_readable _)

theorem layoutAfter_of_take {number : Nat} {header : String} {length : UInt64}
    (h : GivesLength header length) {rest : List Line} {window : List String}
    (htake : rest.take layoutWindow = readable window) :
    layoutAfter number header rest = matricesIn number (length / layoutShares) window := by
  rw [layoutAfter, sectionLengthAt_of_gives h, htake, mapM_id_readable]
  rfl

theorem layoutAfter_readable {number : Nat} {header : String} {length : UInt64}
    (h : GivesLength header length) (rest : List String) :
    layoutAfter number header (readable rest) =
      matricesIn number (length / layoutShares) (rest.take layoutWindow) :=
  layoutAfter_of_take h (by rw [readable, readable, List.map_take])

theorem blockAt_of_function {first : String} (h : Entry.functionHeader.occursIn first.toList)
    (number : Nat) (rest : List Line) :
    blockAt number first rest =
      (functionAfter number rest).map fun f => ⟨some (.function f), functionLines⟩ := by
  rw [blockAt, if_pos h]
  cases functionAfter number rest <;> rfl

theorem blockAt_of_layout {first : String} (h : Entry.layoutHeader.occursIn first.toList)
    (number : Nat) (rest : List Line) :
    blockAt number first rest =
      (layoutAfter number first rest).map fun m => ⟨some (.layout m), layoutWindow⟩ := by
  have hf : ¬ Entry.functionHeader.occursIn first.toList := by
    intro hf
    rw [layoutHeader_of_functionHeader hf] at h
    cases h
  rw [blockAt, if_neg hf, if_pos h]
  cases layoutAfter number first rest <;> rfl

theorem matricesIn_of_positioned {window : List String} {keys press release : UInt64}
    (full : window.length = layoutWindow) (keysAt : Positioned window .keys keys)
    (pressAt : Positioned window .press press) (releaseAt : Positioned window .release release)
    (number : Nat) (length : UInt64) :
    matricesIn number length window = .ok (.ofKeyLength length keys press release) := by
  have all (m : Matrix) : ∃ position, Positioned window m position := by
    cases m with
    | keys => exact ⟨keys, keysAt⟩
    | press => exact ⟨press, pressAt⟩
    | release => exact ⟨release, releaseAt⟩
  rw [matricesIn, positionIn_of_positioned full all keysAt, positionIn_of_positioned full all pressAt,
    positionIn_of_positioned full all releaseAt]
  rfl

/-- Positions are read in the order of the matrices, and the first that cannot be read
ends it. -/
theorem matricesIn_of_unread {window : List String} {m : Matrix} {token : List Char}
    (h : tokenIn window m = some token) (unread : Hex.read? token = none)
    (before : ∀ other ∈ m.before, ReadsWell window other) (number : Nat) (length : UInt64) :
    matricesIn number length window =
      .error (.malformed number (.notHex (String.ofList token))) := by
  have herror := positionIn_of_unread h unread number
  cases m with
  | keys =>
    rw [matricesIn, herror]
    rfl
  | press =>
    obtain ⟨keys, hk, _⟩ := positionIn_of_readsWell (before .keys (by decide)) number
    rw [matricesIn, hk, herror]
    rfl
  | release =>
    obtain ⟨keys, hk, _⟩ := positionIn_of_readsWell (before .keys (by decide)) number
    obtain ⟨press, hp, _⟩ := positionIn_of_readsWell (before .press (by decide)) number
    rw [matricesIn, hk, hp, herror]
    rfl

theorem matricesIn_of_missing {window : List String} (read : ∀ m, ReadsWell window m)
    (missing : missingIn window ≠ []) (number : Nat) (length : UInt64) :
    matricesIn number length window = .error (.incompleteLayout number (missingIn window)) := by
  choose position hread hnone using fun m => positionIn_of_readsWell (read m) number
  have hmissing : missingIn window = Matrix.all.filter fun m => (position m).isNone := by
    simp only [missingIn, hnone]
  have hzip : Matrix.all.zip [position .keys, position .press, position .release] =
      Matrix.all.map fun m => (m, position m) := rfl
  have hfound : ((Matrix.all.map fun m => (m, position m)).filter fun found => found.2.isNone).map
      Prod.fst = Matrix.all.filter fun m => (position m).isNone := by
    rw [List.filter_map, List.map_map]
    exact List.map_id _
  rw [matricesIn, hread, hread, hread]
  simp only [bind, Except.bind]
  split
  · next hk hp hr =>
    refine absurd ?_ missing
    rw [hmissing]
    simp [Matrix.all, hk, hp, hr]
  · rw [hzip, hfound, ← hmissing]

/-- A complete block is read as it stands, whatever comes after it. -/
theorem blockAt_of_complete {first : String} {further : List String} {record : Option Record}
    (h : Complete (first :: further) record) (number : Nat) (later : List String) :
    blockAt number first (readable (further ++ later)) = .ok ⟨record, further.length⟩ := by
  cases h with
  | plain function layout =>
    rw [blockAt, function, layout]
    rfl
  | function opens gives names =>
    rw [blockAt_of_function opens]
    simp only [functionAfter, lineAhead_readable, List.cons_append, List.getElem?_cons_zero,
      List.getElem?_cons_succ, bind, Except.bind, extentAt_of_gives gives,
      functionNameAt_of_names names]
    rfl
  | layout opens gives full keysAt pressAt releaseAt =>
    rw [blockAt_of_layout opens, layoutAfter_readable gives, List.take_left' full,
      matricesIn_of_positioned full keysAt pressAt releaseAt, full]
    rfl

/-- Reading a broken block tells what is wrong with it. -/
theorem blockAt_of_broken {number : Nat} {first : String} {rest : List String} {e : MapError}
    (h : Broken number (first :: rest) e) :
    blockAt number first (readable rest) = .error e := by
  cases h with
  | endsBeforeExtent opens =>
    rw [blockAt_of_function opens]
    rfl
  | extent opens h =>
    rw [blockAt_of_function opens]
    simp only [functionAfter, lineAhead_readable, List.getElem?_cons_zero, bind, Except.bind,
      extentAt_of_fault h]
    rfl
  | endsBeforeName opens gives =>
    rw [blockAt_of_function opens]
    simp only [functionAfter, lineAhead_readable, List.getElem?_cons_zero, List.getElem?_cons_succ,
      List.getElem?_nil, bind, Except.bind, extentAt_of_gives gives]
    rfl
  | name opens gives h =>
    rw [blockAt_of_function opens]
    simp only [functionAfter, lineAhead_readable, List.getElem?_cons_zero, List.getElem?_cons_succ,
      bind, Except.bind, extentAt_of_gives gives, functionNameAt_of_fault h]
    rfl
  | length opens h =>
    rw [blockAt_of_layout opens, layoutAfter, sectionLengthAt_of_fault h]
    rfl
  | position opens gives h unread before =>
    rw [blockAt_of_layout opens, layoutAfter_readable gives, matricesIn_of_unread h unread before]
    rfl
  | incomplete opens gives read missing =>
    rw [blockAt_of_layout opens, layoutAfter_readable gives, matricesIn_of_missing read missing]
    rfl

/-! ### Complete or broken -/

theorem function_complete_or_broken {header : String}
    (opens : Entry.functionHeader.occursIn header.toList) (number : Nat) (rest : List String) :
    (∃ further later record, rest = further ++ later ∧ Complete (header :: further) record) ∨
      ∃ e, Broken number (header :: rest) e := by
  cases rest with
  | nil => exact .inr ⟨_, .endsBeforeExtent opens⟩
  | cons line rest =>
    rcases givesExtent_or_fault line with ⟨extent, gives⟩ | ⟨fault, h⟩
    · cases rest with
      | nil => exact .inr ⟨_, .endsBeforeName opens gives⟩
      | cons nameLine rest =>
        rcases namesFunction_or_fault nameLine with ⟨name, names⟩ | ⟨fault, h⟩
        · exact .inl ⟨[line, nameLine], rest, _, rfl, .function opens gives names⟩
        · exact .inr ⟨_, .name opens gives h⟩
    · exact .inr ⟨_, .extent opens h⟩

/-- Some matrix is the first whose position cannot be read, or all of them read well. -/
theorem readsWell_or_unread (window : List String) :
    (∀ m, ReadsWell window m) ∨ ∃ m token, tokenIn window m = some token ∧
      Hex.read? token = none ∧ ∀ other ∈ m.before, ReadsWell window other := by
  have unread {m : Matrix} (h : ¬ ReadsWell window m) :
      ∃ token, tokenIn window m = some token ∧ Hex.read? token = none := by
    simpa [ReadsWell] using h
  by_cases hk : ReadsWell window .keys
  · by_cases hp : ReadsWell window .press
    · by_cases hr : ReadsWell window .release
      · left
        intro m
        cases m <;> assumption
      · obtain ⟨token, ht, hu⟩ := unread hr
        refine .inr ⟨.release, token, ht, hu, ?_⟩
        simp [Matrix.before, Matrix.all, hk, hp]
    · obtain ⟨token, ht, hu⟩ := unread hp
      refine .inr ⟨.press, token, ht, hu, ?_⟩
      simp [Matrix.before, Matrix.all, hk]
  · obtain ⟨token, ht, hu⟩ := unread hk
    exact .inr ⟨.keys, token, ht, hu, by simp [Matrix.before, Matrix.all]⟩

theorem layout_complete_or_broken {header : String}
    (opens : Entry.layoutHeader.occursIn header.toList) (number : Nat) (rest : List String) :
    (∃ further later record, rest = further ++ later ∧ Complete (header :: further) record) ∨
      ∃ e, Broken number (header :: rest) e := by
  rcases givesLength_or_fault header with ⟨length, gives⟩ | ⟨fault, h⟩
  · rcases readsWell_or_unread (rest.take layoutWindow) with read | ⟨m, token, ht, hu, before⟩
    · by_cases hmissing : missingIn (rest.take layoutWindow) = []
      · obtain ⟨full, positioned⟩ := positioned_of_readsWell (List.length_take_le ..) read hmissing
        choose position hposition using positioned
        exact .inl ⟨rest.take layoutWindow, rest.drop layoutWindow, _,
          (List.take_append_drop ..).symm,
          .layout opens gives full (hposition .keys) (hposition .press) (hposition .release)⟩
      · exact .inr ⟨_, .incomplete opens gives read hmissing⟩
    · exact .inr ⟨_, .position opens gives ht hu before⟩
  · exact .inr ⟨_, .length opens h⟩

/-- **Any line begins a complete block, or one with something wrong with it.** -/
theorem complete_or_broken (number : Nat) (first : String) (rest : List String) :
    (∃ further later record, rest = further ++ later ∧ Complete (first :: further) record) ∨
      ∃ e, Broken number (first :: rest) e := by
  by_cases hf : Entry.functionHeader.occursIn first.toList
  · exact function_complete_or_broken hf number rest
  · by_cases hl : Entry.layoutHeader.occursIn first.toList
    · exact layout_complete_or_broken hl number rest
    · exact .inl ⟨[], rest, none, rfl, .plain (by simpa using hf) (by simpa using hl)⟩

end KeyboardInfo.LinkerMap
