import KeyboardInfo.Memory
import KeyboardInfo.Node.Basic

/-! Writing a report tree as JSON.

A tree is written on one line (`Layout.compact`) or with every entry and item on a
line of its own, indented by its depth (`Layout.indented`). Empty maps and lists are
written as two brackets in either layout. Keys come in the order of the tree. A text
escapes quotes, backslashes and the characters below the space, and nothing else.
The written document ends in one newline. The spaces of one level are made first, and
an indentation that is too wide to be made breaks the program off (`serialize`). -/
namespace KeyboardInfo.Json

/-- How the parts of a document are laid out. -/
inductive Layout where
  | compact
  /-- Lines of their own, each level of depth indented by `width` spaces. -/
  | indented (width : Nat)
  deriving DecidableEq, Repr

/-- How far a layout indents each level. -/
def Layout.width : Layout → Nat
  | .compact => 0
  | .indented width => width

/-- What separates a part at some depth from what stands before it. -/
def Layout.lineBreak (layout : Layout) (depth : Nat) : List Char :=
  match layout with
  | .compact => []
  | .indented width => '\n' :: List.replicate (width * depth) ' '

/-- What stands between a key and its value. -/
def Layout.colon : Layout → List Char
  | .compact => [':']
  | .indented _ => [':', ' ']

/-- A character as it stands inside quotes. -/
def escape (c : Char) : List Char :=
  match c with
  | '"' => ['\\', '"']
  | '\\' => ['\\', '\\']
  | '\x08' => ['\\', 'b']
  | '\x0C' => ['\\', 'f']
  | '\n' => ['\\', 'n']
  | '\r' => ['\\', 'r']
  | '\t' => ['\\', 't']
  | c =>
    if c.toNat < 0x20 then ['\\', 'u', '0', '0', (c.toNat / 16).digitChar, (c.toNat % 16).digitChar]
    else [c]

/-- A text in quotes. -/
def quoted (text : String) : List Char := '"' :: (text.toList.flatMap escape ++ ['"'])

mutual

/-- A tree that stands at some depth. -/
def written (layout : Layout) (depth : Nat) : Node.Raw → List Char
  | .null => ['n', 'u', 'l', 'l']
  | .number value => Nat.toDigits 10 value.toNat
  | .text value => quoted value
  | .list [] => ['[', ']']
  | .list (item :: items) =>
    '[' :: (layout.lineBreak (depth + 1) ++ written layout (depth + 1) item ++
      writtenItems layout depth items)
  | .map [] => ['{', '}']
  | .map ((key, value) :: entries) =>
    '{' :: (layout.lineBreak (depth + 1) ++ quoted key ++ layout.colon ++
      written layout (depth + 1) value ++ writtenEntries layout depth entries)

/-- The items of a list after the first, and the bracket that closes it. -/
def writtenItems (layout : Layout) (depth : Nat) : List Node.Raw → List Char
  | [] => layout.lineBreak depth ++ [']']
  | item :: items =>
    ',' :: (layout.lineBreak (depth + 1) ++ written layout (depth + 1) item ++
      writtenItems layout depth items)

/-- The entries of a map after the first, and the bracket that closes it. -/
def writtenEntries (layout : Layout) (depth : Nat) : List (String × Node.Raw) → List Char
  | [] => layout.lineBreak depth ++ ['}']
  | (key, value) :: entries =>
    ',' :: (layout.lineBreak (depth + 1) ++ quoted key ++ layout.colon ++
      written layout (depth + 1) value ++ writtenEntries layout depth entries)

end

/-- The document that holds a tree. -/
def document (layout : Layout) (node : Node) : String :=
  String.ofList (written layout 0 node.raw ++ ['\n'])

/-- Writes the document that holds a tree, once there is room for the spaces of a level. -/
def serialize (layout : Layout) (node : Node) : Except Crash String := do
  Memory.reserve layout.width 1
  return document layout node

theorem serialize_of_lt {layout : Layout} {node : Node} (h : layout.width < UInt64.size / 2) :
    serialize layout node = .ok (document layout node) := by
  rw [serialize, Memory.reserve_of_lt (by rwa [Nat.mul_one])]
  rfl

end KeyboardInfo.Json
