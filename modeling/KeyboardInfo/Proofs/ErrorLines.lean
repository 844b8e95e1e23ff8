import KeyboardInfo.Proofs.Grammar

/-! The lines that errors point at.

An error in an entry of a linker map comes with the number of a line. The line holds the text that
the error quotes, or it is the line that was searched in vain, or the map ended and the line is
the header of the section (`PointsAt`). One fault is the exception: when the position of a matrix
is no number, the error has the line of the layout header and not the line with the position
(`MisplacedPosition`). -/
namespace KeyboardInfo.LinkerMap
open Files (readable linesOf)
open Text

/-- The line with some number, counted from 1. -/
def lineAt? (lines : List String) : Nat → Option String
  | 0 => none
  | before + 1 => lines[before]?

/-- An error with this line number points at what its fault is about. -/
inductive PointsAt (lines : List String) : Nat → Fault → Prop where
  | endsBeforeExtent {number : Nat} {header : String} (on : lineAt? lines number = some header)
      (opens : Entry.functionHeader.occursIn header.toList) (ends : lines.length = number) :
      PointsAt lines number .endsBeforeExtent
  | endsBeforeName {number : Nat} {header : String} (on : lineAt? lines number = some header)
      (opens : Entry.functionHeader.occursIn header.toList) (ends : lines.length = number + 1) :
      PointsAt lines number .endsBeforeName
  | noExtent {number : Nat} {header line : String} (above : lineAt? lines number = some header)
      (opens : Entry.functionHeader.occursIn header.toList)
      (searched : lineAt? lines (number + 1) = some line)
      (h : Entry.extentTokens? line.toList = none) : PointsAt lines (number + 1) .noExtent
  | noSymbol {number : Nat} {header line : String} (above : lineAt? lines number = some header)
      (opens : Entry.functionHeader.occursIn header.toList)
      (searched : lineAt? lines (number + 2) = some line)
      (h : Entry.symbolToken? line.toList = none) : PointsAt lines (number + 2) .noSymbol
  | noSectionLength {number : Nat} {header : String} (searched : lineAt? lines number = some header)
      (opens : Entry.layoutHeader.occursIn header.toList)
      (h : Entry.extentTokens? header.toList = none) : PointsAt lines number .noSectionLength
  | notHex {number : Nat} {line token : String} (on : lineAt? lines number = some line)
      (quoted : ∃ word ∈ tokens line.toList, token.toList <:+ word)
      (unread : Hex.read? token.toList = none) : PointsAt lines number (.notHex token)
  | notKeyFunction {number : Nat} {line symbol : String} (on : lineAt? lines number = some line)
      (quoted : symbol.toList ∈ tokens line.toList) (unmarked : ¬ functionMark <+: symbol.toList) :
      PointsAt lines number (.notKeyFunction symbol)

/-- The line with this number is the header of a layout, and a token that is no number stands as
the position of a matrix on one of the lines after it. -/
structure MisplacedPosition (lines : List String) (number : Nat) (token : String) : Prop where
  header : ∃ header, lineAt? lines number = some header ∧
    Entry.layoutHeader.occursIn header.toList
  below : ∃ distance line m, distance < layoutWindow ∧
    lineAt? lines (number + 1 + distance) = some line ∧
    Entry.positionToken? (Matrix.symbol m).toList line.toList = some token.toList
  unread : Hex.read? token.toList = none

theorem lineAt?_append (start rest : List String) (distance : Nat) :
    lineAt? (start ++ rest) (start.length + 1 + distance) = rest[distance]? := by
  rw [Nat.add_right_comm, lineAt?, List.getElem?_append_right (Nat.le_add_right ..),
    Nat.add_sub_cancel_left]

/-! ### Faults of one line -/

section
variable {lines : List String} {number : Nat} {line : String}
  (on : lineAt? lines number = some line)
include on

theorem pointsAt_of_unread {token : List Char}
    (quoted : ∃ word ∈ tokens line.toList, token <:+ word) (unread : Hex.read? token = none) :
    PointsAt lines number (.notHex (String.ofList token)) := by
  refine .notHex on ?_ ?_
  · simpa only [String.toList_ofList] using quoted
  · simpa only [String.toList_ofList] using unread

theorem pointsAt_of_position {position length : List Char}
    (h : Entry.extentTokens? line.toList = some (position, length))
    (unread : Hex.read? position = none) :
    PointsAt lines number (.notHex (String.ofList position)) := by
  obtain ⟨quoted, -⟩ := exists_of_extentTokens? h
  exact pointsAt_of_unread on quoted unread

theorem pointsAt_of_length {position length : List Char}
    (h : Entry.extentTokens? line.toList = some (position, length))
    (unread : Hex.read? length = none) :
    PointsAt lines number (.notHex (String.ofList length)) := by
  obtain ⟨-, quoted⟩ := exists_of_extentTokens? h
  exact pointsAt_of_unread on ⟨length, quoted, List.suffix_rfl⟩ unread

theorem pointsAt_of_unmarked {symbol : List Char}
    (h : Entry.symbolToken? line.toList = some symbol) (unmarked : ¬ functionMark <+: symbol) :
    PointsAt lines number (.notKeyFunction (String.ofList symbol)) := by
  refine .notKeyFunction on ?_ ?_
  · simpa only [String.toList_ofList] using mem_tokens_of_symbolToken? h
  · simpa only [String.toList_ofList] using unmarked

end

/-! ### Faults of a block -/

/-- The position of a matrix is on one of the lines after the header. -/
theorem misplacedPosition {start rest : List String} {header : String} {m : Matrix}
    {token : List Char} (opens : Entry.layoutHeader.occursIn header.toList)
    (h : tokenIn (rest.take layoutWindow) m = some token) (unread : Hex.read? token = none) :
    MisplacedPosition (start ++ header :: rest) (start.length + 1) (String.ofList token) := by
  obtain ⟨line, hline, htoken⟩ := exists_line_of_tokenIn h
  obtain ⟨distance, hdistance⟩ := List.mem_iff_getElem?.mp hline
  rw [List.getElem?_take] at hdistance
  split at hdistance
  · next hnear =>
    constructor
    case header => exact ⟨header, lineAt?_append start (header :: rest) 0, opens⟩
    case below =>
      refine ⟨distance, line, m, hnear, ?_, by rw [htoken, String.toList_ofList]⟩
      rw [Nat.add_assoc, Nat.add_comm 1, lineAt?_append, List.getElem?_cons_succ, hdistance]
    case unread => rw [String.toList_ofList, unread]
  · cases hdistance

theorem Broken.pointsAt {start rest : List String} {number : Nat} {fault : Fault}
    (h : Broken (start.length + 1) rest (.malformed number fault)) :
    PointsAt (start ++ rest) number fault ∨
      ∃ token, fault = .notHex token ∧ MisplacedPosition (start ++ rest) number token := by
  have on (distance : Nat) : lineAt? (start ++ rest) (start.length + 1 + distance) =
      rest[distance]? := lineAt?_append start rest distance
  cases h with
  | endsBeforeExtent opens => exact .inl (.endsBeforeExtent (on 0) opens (by simp))
  | extent opens h =>
    cases h with
    | missing h => exact .inl (.noExtent (on 0) opens (on 1) h)
    | position h unread => exact .inl (pointsAt_of_position (on 1) h unread)
    | length h read unread => exact .inl (pointsAt_of_length (on 1) h unread)
  | endsBeforeName opens gives => exact .inl (.endsBeforeName (on 0) opens (by simp))
  | name opens gives h =>
    cases h with
    | missing h => exact .inl (.noSymbol (on 0) opens (on 2) h)
    | unmarked h mark => exact .inl (pointsAt_of_unmarked (on 2) h mark)
  | length opens h =>
    cases h with
    | missing h => exact .inl (.noSectionLength (on 0) opens h)
    | notHex h unread => exact .inl (pointsAt_of_length (on 0) h unread)
  | position opens gives h unread before =>
    exact .inr ⟨_, rfl, misplacedPosition opens h unread⟩

/-- **An error points at the line that it is about**, unless it is about the position of a matrix:
then it has the number of the layout header, and the position is on one of the lines below. -/
theorem malformed_points_at {content : ByteArray} {lines : List String}
    (text : linesOf content = readable lines) {number : Nat} {fault : Fault}
    (h : (Extraction.ofCursor (.ofContent content)).result = .error (.malformed number fault)) :
    PointsAt lines number fault ∨
      ∃ token, fault = .notHex token ∧ MisplacedPosition lines number token := by
  rw [ofCursor_ofContent text] at h
  obtain ⟨blocks, start, rest, -, rfl, hbroken⟩ := exists_broken_of_result h
  exact hbroken.pointsAt

/-- One function is recorded, and then line 6 names something else. -/
theorem malformed_points_at_symbol :
    let lines := [".text.kbfun_a", " 0x10 0x4 a.o", " 0x10 kbfun_a", ".text.kbfun_b",
      " 0x20 0x4 b.o", " 0x20 main"]
    let content := ("\n".intercalate lines).toUTF8
    linesOf content = readable lines ∧
      (Extraction.ofCursor (.ofContent content)).result =
        .error (.malformed 6 (.notKeyFunction "main")) ∧
      PointsAt lines 6 (.notKeyFunction "main") := by
  intro lines content
  have text : linesOf content = readable lines := by decide +kernel
  have h : (Extraction.ofCursor (.ofContent content)).result =
      .error (.malformed 6 (.notKeyFunction "main")) := by decide +kernel
  refine ⟨text, h, ?_⟩
  rcases malformed_points_at text h with points | ⟨token, hfault, -⟩
  · exact points
  · cases hfault

/-- The position on line 2 is no number, but the error has line 1, where nothing is wrong. -/
theorem malformed_not_pointsAt :
    let lines := [" .progmem.data.layout 0x68 0x690 l.o", " 0xzz _kb_layout",
      " 0x1f4 _kb_layout_press", " 0x50c _kb_layout_release"]
    let content := ("\n".intercalate lines).toUTF8
    linesOf content = readable lines ∧
      (Extraction.ofCursor (.ofContent content)).result = .error (.malformed 1 (.notHex "0xzz")) ∧
      ¬ PointsAt lines 1 (.notHex "0xzz") ∧ PointsAt lines 2 (.notHex "0xzz") := by
  intro lines content
  have points : PointsAt lines 2 (.notHex "0xzz") :=
    .notHex rfl ⟨"0xzz".toList, by decide +kernel, List.suffix_rfl⟩ (by decide)
  refine ⟨by decide +kernel, by decide +kernel, fun h => ?_, points⟩
  cases h with
  | notHex on quoted unread =>
    cases on
    revert quoted
    decide +kernel

end KeyboardInfo.LinkerMap
