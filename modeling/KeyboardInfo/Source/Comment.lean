import KeyboardInfo.Text.Pattern
import KeyboardInfo.Node.Basic

/-! Comments that document a function in named fields.

A line `[field]` is a marker. It opens a section that runs to the next marker or to
the end of the comment; lines before the first marker belong to no section. The
value of a section is its lines joined to one text.

The fields `name` and `description` keep the value of their first section. Every
other field lists the values of all its sections in order; `note` is another way to
write `notes`. -/
namespace KeyboardInfo.Source
open Text

/-! ### Sections -/

/-- A field, and the lines of one section of it. -/
structure FieldSection where
  field : List Char
  lines : List (List Char)
  deriving DecidableEq, Repr

/-- A whole line in square brackets. -/
def marker : Pattern := ⟨true, [.literal ['['], .run .any 0, .literal [']'], .finish]⟩

/-- The field that a line opens a section of, if it is a marker. -/
def markedField? (line : List Char) : Option (List Char) :=
  match marker.find? line with
  | some [_, field, _, _] => some field
  | _ => none

/-- The lines before the first marker, and the sections that the markers open. -/
def sections : List (List Char) → List (List Char) × List FieldSection
  | [] => ([], [])
  | line :: rest =>
    let (lines, later) := sections rest
    match markedField? line with
    | some field => ([], ⟨field, lines⟩ :: later)
    | none => (line :: lines, later)

/-- Joins a line to the text so far with one space, or with two after a period. -/
def joinLine (text line : List Char) : List Char :=
  text ++ (if text.getLast? = some '.' then [' ', ' '] else [' ']) ++ line

/-- The lines of a section joined to one text. -/
def FieldSection.value (s : FieldSection) : String :=
  String.ofList (trim (s.lines.foldl joinLine []))

/-! ### Blocks -/

/-- The documentation in one comment. -/
structure CommentBlock where
  name : Option String
  description : Option String
  fields : Dict (List String)
  deriving DecidableEq

namespace CommentBlock

/-- The block that documents nothing. -/
def empty : CommentBlock := ⟨none, none, .empty⟩

/-- The values of a field, in order. -/
def field (b : CommentBlock) (name : String) : List String := (b.fields.get? name).getD []

def notes (b : CommentBlock) : List String := b.field "notes"

def isEmpty (b : CommentBlock) : Bool :=
  b.name.isNone && b.description.isNone && b.fields.isEmpty

/-- Adds a value at the end of a field. -/
def append (b : CommentBlock) (field value : String) : CommentBlock :=
  {b with fields := b.fields.insert field (b.field field ++ [value])}

/-- Adds the value of a section. -/
def add (b : CommentBlock) (field value : String) : CommentBlock :=
  match field with
  | "name" => {b with name := b.name.or (some value)}
  | "description" => {b with description := b.description.or (some value)}
  | "note" => b.append "notes" value
  | field => b.append field value

/-- The documentation in the text of a comment. -/
def ofText (text : String) : CommentBlock :=
  let lines := (text.toList.splitOn '\n').map trim
  (sections lines).2.foldl (fun b s => b.add (String.ofList s.field) s.value) empty

/-- A map with an entry for each field that the block has. -/
def node (b : CommentBlock) : Node :=
  let named := match b.name with
    | some name => Node.single "name" (.text name)
    | none => .empty
  let described := match b.description with
    | some description => named.insert "description" (.text description)
    | none => named
  b.fields.entries.foldl (fun n entry => n.insert entry.1 (.list (entry.2.map .text))) described

end CommentBlock

end KeyboardInfo.Source
