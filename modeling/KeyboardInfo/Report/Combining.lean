import KeyboardInfo.Log
import KeyboardInfo.Report.Error
import KeyboardInfo.Report.Metadata
import KeyboardInfo.Node.Merge

/-! Combining what is known about a firmware into one report.

The trees of the metadata, the linker map and the sources are merged in this order.
A keyboard function that ends up without a position is one that the sources document
and the linker map lacks; each is warned of. Last comes what is computed from the
merged tree: the number of layers. -/
namespace KeyboardInfo.Report
open LinkerMap Log

/-! ### Layers -/

def rows : UInt64 := 6

def columns : UInt64 := 14

/-- The key matrix has one byte for each key of a layer. -/
def bytesPerLayer : UInt64 := rows * columns

/-- The number of whole layers in a key matrix. -/
def numberOfLayers (keyLength : UInt64) : UInt64 := keyLength / bytesPerLayer

/-- The length of the key matrix that a report records. -/
def keyLength? (report : Node) : Option UInt64 :=
  (report.getPath? [Key.layoutMatrices, Matrix.keys.symbol, Key.length]).bind Node.number?

/-- What is computed from a merged report. -/
def derived (report : Node) : Except ReportError Node :=
  match keyLength? report with
  | some length =>
    .ok (.single Key.miscellaneous (.single "number-of-layers" (.number (numberOfLayers length))))
  | none => .error .missingKeyLength

/-! ### Functions without a position -/

/-- The keyboard functions of a report whose record has no position, in order. -/
def unplacedFunctions (report : Node) : List String :=
  match (report.get? Key.keyboardFunctions).bind Node.entries? with
  | some records =>
    (records.filter fun record => (record.2.get? Key.position).isNone).map Prod.fst
  | none => []

def unplacedWarning (name : String) : Event :=
  ⟨.warn, .assembler, s!"{name} is documented in the sources but missing from the map file"⟩

/-! ### Reports -/

/-- Combines the metadata with the trees of a linker map and of sources. -/
def combine (metadata : Metadata) (mapTree sourceTree : Node) : Logged (Except ReportError Node) :=
  let report := (metadata.node.merge mapTree).merge sourceTree
  ⟨(unplacedFunctions report).map unplacedWarning, (derived report).map report.merge⟩

end KeyboardInfo.Report
