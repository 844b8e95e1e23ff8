import KeyboardInfo.Files.Error
import KeyboardInfo.LinkerMap.Record

/-! Why a linker map cannot be read. -/
namespace KeyboardInfo.LinkerMap
open Files (FileError)

/-- What is wrong with an entry of a map. -/
inductive Fault where
  /-- The map ends before the extent of a keyboard function. -/
  | endsBeforeExtent
  /-- The map ends before the name of a keyboard function. -/
  | endsBeforeName
  /-- A line lacks the position and length that it should hold. -/
  | noExtent
  | notHex (token : String)
  /-- A line lacks the address and symbol that it should hold. -/
  | noSymbol
  | notKeyFunction (symbol : String)
  /-- The header of a layout section does not give its length. -/
  | noSectionLength
  deriving DecidableEq, Repr

def Fault.message : Fault → String
  | .endsBeforeExtent => "map ended before the keyboard function's extent"
  | .endsBeforeName => "map ended before the keyboard function's name"
  | .noExtent => "expected a hex position and length"
  | .notHex token => s!"'{token}' is not a hex number"
  | .noSymbol => "expected a hex address and symbol name"
  | .notKeyFunction symbol => s!"symbol '{symbol}' is not a keyboard function"
  | .noSectionLength => "expected a hex length on the layout section line"

inductive MapError where
  /-- There is nothing at the path of the map. -/
  | invalidPath (path : String)
  | malformed (line : Nat) (fault : Fault)
  /-- The lines after a layout header do not name every matrix. -/
  | incompleteLayout (line : Nat) (missing : List Matrix)
  | unreadable (cause : FileError)
  deriving DecidableEq, Repr

namespace MapError

def message : MapError → String
  | .invalidPath path => s!"Invalid map file path: {path}"
  | .malformed line fault => s!"Malformed map entry at line {line}: {fault.message}"
  | .incompleteLayout line missing =>
    let names := ", ".intercalate (missing.map Matrix.symbol)
    s!"Not all layout matrices were found after line {line} (missing: {names})"
  | .unreadable cause => s!"IO error: {cause.message}"

/-- The messages of the causes below an error, outermost first. -/
def causes : MapError → List String
  | .unreadable cause => [cause.message]
  | _ => []

end MapError

end KeyboardInfo.LinkerMap
