import KeyboardInfo.Files.Entry
import KeyboardInfo.Files.Cursor

/-! A file system, and what can be read and written in it by path.

A path leads from the top of the tree, one part after the other. Empty parts and
single dots stay where they are, two dots go back, and all three demand a folder to
do so. A path without any text leads nowhere, and neither does one that is too long.
There are no links in a tree, and what cannot be read in it cannot be written either. -/
namespace KeyboardInfo.Files

/-- What a program sees of the files around it. -/
structure View where
  /-- What is at a path, wherever links lead, or why nothing can be told of it. -/
  entry : String → Except FileError Entry
  /-- Whether there is a link at a path itself. -/
  isLink : String → Bool

namespace View

/-- Whether there is anything at a path that something can be told of. -/
def has (v : View) (path : String) : Bool := (v.entry path).isOk

/-- Whether there is a file at a path, even if it cannot be opened. -/
def hasFile (v : View) (path : String) : Bool := (v.entry path).toOption.any Entry.isFile

/-- Opens what is at a path for reading. -/
def stream (v : View) (path : String) : Except FileError Stream := v.entry path >>= Entry.opened

/-- What a walk from a path begins with. A link is followed to a folder, and otherwise it
is no file. -/
def walked (v : View) (path : String) : Except FileError Entry :=
  (v.entry path).map fun e => if v.isLink path then e.linked else e

end View

/-- A file system: all that is at and below one entry. -/
structure Tree where
  root : Entry
  ordered : root.Ordered

namespace Tree

def empty : Tree := ⟨.folder [], .empty⟩

/-- A place in a tree: the folders passed on the way there and where they led, the
last one first. -/
abbrev Trail := List (String × Entry)

/-- What is at a place. -/
def here (t : Tree) : Trail → Entry
  | [] => t.root
  | (_, e) :: _ => e

/-- Follows one part of a path from a place. -/
def step (t : Tree) (trail : Trail) (part : String) : Except FileError Trail :=
  match t.here trail with
  | .folder entries =>
    if part = "" ∨ part = "." then .ok trail
    else if part = ".." then .ok trail.tail
    else if Path.isLongName part then .error .nameTooLong
    else
      match entries.lookup part with
      | some e => .ok ((part, e) :: trail)
      | none => .error .notFound
  | .closedFolder cause => if part = "" then .ok trail else .error cause
  | _ => .error .notADirectory

/-- Follows the parts of a path from a place. -/
def follow (t : Tree) (trail : Trail) (parts : List String) : Except FileError Trail :=
  parts.foldlM t.step trail

/-- What is at a path. -/
def entry (t : Tree) (path : String) : Except FileError Entry :=
  if path.isEmpty then .error .notFound else (t.follow [] (Path.parts path)).map t.here

/-- What a program sees of the tree. -/
def view (t : Tree) : View where
  entry path :=
    if Path.isTooLong path then .error .nameTooLong else (t.entry path).map (Entry.within path)
  isLink _ := false

/-- The same tree with an entry at the end of a row of names. -/
def put (t : Tree) (names : List String) (new : Entry) (h : new.Ordered) : Tree :=
  ⟨t.root.put names new, t.ordered.put names h⟩

/-- The same tree with a file at the end of a row of names. -/
def addFile (t : Tree) (names : List String) (content : ByteArray) : Tree :=
  t.put names (.file content) (.file content)

/-- The same tree with a folder at the end of a row of names, empty if it is new. -/
def addFolder (t : Tree) (names : List String) : Tree :=
  match t.follow [] names with
  | .ok _ => t
  | .error _ => t.put names (.folder []) .empty

/-- Splits off the last part of a path, and tells whether slashes follow it. -/
def folderAndName (path : String) : List String × String × Bool :=
  match (Path.parts path).reverse with
  | "" :: reversed =>
    match reversed.dropWhile (· == "") with
    | [] => ([], "", true)
    | name :: folder => (folder.reverse, name, true)
  | name :: folder => (folder.reverse, name, false)
  | [] => ([], "", false)

/-- What keeps a file from being written under a name in a folder with some entries. -/
def refusal? (entries : List (String × Entry)) (name : String) : Option FileError :=
  if Path.isLongName name then some .nameTooLong
  else
    match entries.lookup name with
    | none | some (.file _) => none
    | some (.folder _) | some (.closedFolder _) => some .isADirectory
    | some (.brokenFile _ cause) => some cause
    | some (.special _) => some .notAFile

/-- Writes a file, in place of any content it had. The folder that is to hold it must be there. -/
def write (t : Tree) (path : String) (content : ByteArray) : Except FileError Tree :=
  if path.isEmpty then .error .notFound
  else if Path.isTooLong path then .error .nameTooLong
  else
    let (folder, name, slashed) := folderAndName path
    match t.follow [] folder with
    | .error cause => .error cause
    | .ok trail =>
      match t.here trail with
      | .folder entries =>
        if slashed || name == "." || name == ".." then .error .isADirectory
        else
          match refusal? entries name with
          | some cause => .error cause
          | none => .ok (t.addFile ((trail.map Prod.fst).reverse ++ [name]) content)
      | .closedFolder cause => .error cause
      | _ => .error .notADirectory

end Tree

end KeyboardInfo.Files
