import KeyboardInfo.LinkerMap.Entry
import KeyboardInfo.LinkerMap.Error
import KeyboardInfo.Files.Cursor
import KeyboardInfo.Node.Merge

/-! Extracting records from the lines of a linker map.

A map is read block by block. A header line opens a block that takes in the lines
its entry needs; any other line is a block by itself and records nothing. The first
block that cannot be completed ends the extraction; what was recorded before stands. -/
namespace KeyboardInfo.LinkerMap
open Log (Event)
open Files (Cursor Line)
open Text

/-! ### The lines of an entry -/

/-- The number that a token on line `number` stands for. -/
def hexAt (number : Nat) (token : List Char) : Except MapError UInt64 :=
  match Hex.read? token with
  | some value => .ok value
  | none => .error (.malformed number (.notHex (String.ofList token)))

/-- The extent that line `number` gives; its position is read first. -/
def extentAt (number : Nat) (line : String) : Except MapError Extent :=
  match Entry.extentTokens? line.toList with
  | some (position, length) => do return ⟨← hexAt number position, ← hexAt number length⟩
  | none => .error (.malformed number .noExtent)

/-- What the name of every keyboard function begins with. -/
def functionMark : List Char := "kbfun_".toList

/-- The keyboard function that line `number` names. -/
def functionNameAt (number : Nat) (line : String) : Except MapError String :=
  match Entry.symbolToken? line.toList with
  | some name =>
    if functionMark.isPrefixOf name then .ok (String.ofList name)
    else .error (.malformed number (.notKeyFunction (String.ofList name)))
  | none => .error (.malformed number .noSymbol)

/-- The length of a layout section, from its header. -/
def sectionLengthAt (number : Nat) (header : String) : Except MapError UInt64 :=
  match Entry.extentTokens? header.toList with
  | some (_, length) => hexAt number length
  | none => .error (.malformed number .noSectionLength)

/-! ### Blocks -/

/-- The line at some distance ahead; `missing` tells what it means that there is none. -/
def lineAhead (lines : List Line) (distance : Nat) (missing : MapError) : Except MapError String :=
  match lines[distance]? with
  | some (.ok line) => .ok line
  | some (.error cause) => .error (.unreadable cause)
  | none => .error missing

/-- How many lines after its header the entry of a keyboard function takes. -/
def functionLines : Nat := 2

/-- The keyboard function whose header has number `number`, from the lines after it. -/
def functionAfter (number : Nat) (rest : List Line) : Except MapError KeyFunction := do
  let extentLine ← lineAhead rest 0 (.malformed number .endsBeforeExtent)
  let extent ← extentAt (number + 1) extentLine
  let nameLine ← lineAhead rest 1 (.malformed number .endsBeforeName)
  let name ← functionNameAt (number + 2) nameLine
  return ⟨name, extent⟩

/-- The position of a matrix, from the first line that names it. -/
def positionIn (number : Nat) (window : List String) (matrix : Matrix) :
    Except MapError (Option UInt64) :=
  match window.findSome? fun line => Entry.positionToken? matrix.symbol.toList line.toList with
  | some token => (hexAt number token).map some
  | none => .ok none

/-- The key matrix has one byte for each key, the press and release matrices two each. -/
def layoutShares : UInt64 := 5

/-- How many lines after a layout header may name the matrices. -/
def layoutWindow : Nat := 3

/-- The layout matrices that the lines after a layout header name. -/
def matricesIn (number : Nat) (keyLength : UInt64) (window : List String) :
    Except MapError LayoutMatrices := do
  let keys ← positionIn number window .keys
  let press ← positionIn number window .press
  let release ← positionIn number window .release
  match keys, press, release with
  | some keys, some press, some release => return .ofKeyLength keyLength keys press release
  | _, _, _ =>
    let missing := (Matrix.all.zip [keys, press, release]).filter fun found => found.2.isNone
    .error (.incompleteLayout number (missing.map Prod.fst))

/-- The layout matrices whose header has number `number`. -/
def layoutAfter (number : Nat) (header : String) (rest : List Line) :
    Except MapError LayoutMatrices := do
  let length ← sectionLengthAt number header
  let window ← ((rest.take layoutWindow).mapM id).mapError .unreadable
  matricesIn number (length / layoutShares) window

/-- What a block records, and how many lines it takes in after its first. -/
structure Block where
  record : Option Record
  further : Nat
  deriving DecidableEq, Repr

/-- The block that opens with line `number`. -/
def blockAt (number : Nat) (first : String) (rest : List Line) : Except MapError Block :=
  if Entry.functionHeader.occursIn first.toList then do
    return ⟨some (.function (← functionAfter number rest)), functionLines⟩
  else if Entry.layoutHeader.occursIn first.toList then do
    return ⟨some (.layout (← layoutAfter number first rest)), layoutWindow⟩
  else .ok ⟨none, 0⟩

/-! ### Maps -/

/-- The records of a map up to its end or up to what is wrong with it. -/
structure Extraction where
  records : List Record
  failure : Option MapError
  deriving DecidableEq, Repr

namespace Extraction

/-- Extracts from lines of which `passed` have gone by, and `taken` of those to come
belong to a block already read. -/
def ofLines (passed taken : Nat) : List Line → Extraction
  | [] => ⟨[], none⟩
  | line :: rest =>
    match taken with
    | taken + 1 => ofLines (passed + 1) taken rest
    | 0 =>
      match line with
      | .error cause => ⟨[], some (.unreadable cause)⟩
      | .ok first =>
        match blockAt (passed + 1) first rest with
        | .error e => ⟨[], some e⟩
        | .ok block =>
          let others := ofLines (passed + 1) block.further rest
          {others with records := block.record.toList ++ others.records}

/-- Extracts from the lines that a cursor has still to take. -/
def ofCursor (c : Cursor) : Extraction := ofLines c.number 0 c.lines

/-- Lines that belong to a block already read are passed over. -/
theorem ofLines_taken (passed taken : Nat) (lines : List Line) :
    ofLines passed taken lines = ofLines (passed + taken) 0 (lines.drop taken) := by
  induction lines generalizing passed taken with
  | nil => rw [List.drop_nil, ofLines, ofLines]
  | cons line rest ih =>
    cases taken with
    | zero => rfl
    | succ taken =>
      rw [ofLines, ih, List.drop_succ_cons]
      congr 1
      omega

/-- A block that can be completed is followed by the extraction from the lines after it. -/
theorem ofLines_of_blockAt {passed : Nat} {first : String} {rest : List Line} {block : Block}
    (h : blockAt (passed + 1) first rest = .ok block) :
    ofLines passed 0 (.ok first :: rest) =
      let others := ofLines (passed + 1 + block.further) 0 (rest.drop block.further)
      {others with records := block.record.toList ++ others.records} := by
  rw [ofLines, h]
  dsimp only
  rw [ofLines_taken]

/-- A block that cannot be completed ends the extraction. -/
theorem ofLines_of_blockAt_error {passed : Nat} {first : String} {rest : List Line} {e : MapError}
    (h : blockAt (passed + 1) first rest = .error e) :
    ofLines passed 0 (.ok first :: rest) = ⟨[], some e⟩ := by
  rw [ofLines, h]

/-- The records merged into one tree, first to last. -/
def tree (x : Extraction) : Node := x.records.foldl (fun tree r => tree.merge r.node) .empty

/-- The tree of a map, if nothing is wrong with it. -/
def result (x : Extraction) : Except MapError Node :=
  match x.failure with
  | some e => .error e
  | none => .ok x.tree

theorem result_eq_error_iff {x : Extraction} {e : MapError} :
    x.result = .error e ↔ x.failure = some e := by
  unfold result
  cases x.failure <;> simp

def events (x : Extraction) : List Event := x.records.map Record.event

end Extraction

end KeyboardInfo.LinkerMap
