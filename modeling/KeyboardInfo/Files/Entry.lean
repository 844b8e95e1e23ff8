import KeyboardInfo.Dict
import KeyboardInfo.Files.Cursor
import KeyboardInfo.Files.Path

/-! What there is in a file system: files, folders, and what is neither.

A folder keeps what it contains in the order of the names, and is walked in that
order, each folder inside it at the place of its own name. Files that cannot be read
and folders that cannot be listed are there all the same. -/
namespace KeyboardInfo.Files

/-- What there is at a place of a file system. -/
inductive Entry where
  | file (content : ByteArray)
  | folder (entries : List (String × Entry))
  /-- A file that cannot be opened, or that cannot be read on after some lines. -/
  | brokenFile (begun : Option (List Line)) (cause : FileError)
  /-- A folder that cannot be listed. -/
  | closedFolder (cause : FileError)
  /-- Neither a file nor a folder, such as a device or a link among the entries of a
  folder, with what opening it for reading comes to. -/
  | special (opened : Except FileError Stream)

namespace Entry

def isFile : Entry → Bool
  | .file _ | .brokenFile .. => true
  | _ => false

/-- Whether an entry is a folder that cannot be listed. -/
def isClosed : Entry → Bool
  | .closedFolder _ => true
  | _ => false

/-- What opening an entry for reading comes to. A folder can be opened, but not read from. -/
def opened : Entry → Except FileError Stream
  | .file content => .ok (.ofContent content)
  | .folder _ => .ok (.unreadable .isADirectory)
  | .brokenFile (some lines) cause => .ok ⟨lines, some cause⟩
  | .brokenFile none cause | .closedFolder cause => .error cause
  | .special opened => opened

/-- An entry as a walk meets it that begins at a link to it. -/
def linked : Entry → Entry
  | .folder entries => .folder entries
  | .closedFolder cause => .closedFolder cause
  | e => .special e.opened

/-- Every folder has its names in strictly increasing order. -/
inductive Ordered : Entry → Prop where
  | folder {entries : List (String × Entry)} (names : Entries.Ordered entries)
      (each : ∀ e ∈ entries, Ordered e.2) : Ordered (.folder entries)
  | leaf {e : Entry} (leaf : ∀ entries, e ≠ .folder entries) : Ordered e

theorem Ordered.inside {entries : List (String × Entry)} (h : Ordered (.folder entries)) :
    ∀ e ∈ entries, Ordered e.2 := by
  cases h with
  | folder _ each => exact each
  | leaf leaf => exact absurd rfl (leaf entries)

theorem Ordered.empty : Ordered (.folder []) := .folder .nil nofun

theorem Ordered.file (content : ByteArray) : Ordered (.file content) := .leaf nofun

/-- Puts an entry at the end of a row of names, with the folders on the way that are
not there yet. What is there is replaced, and what is no folder stays on the way. -/
def put (e : Entry) (names : List String) (new : Entry) : Entry :=
  match names, e with
  | [], _ => new
  | name :: names, .folder entries =>
    let inner := (entries.lookup name).getD (.folder [])
    .folder (Entries.insert name (inner.put names new) entries)
  | _ :: _, e => e

theorem put_folder (entries : List (String × Entry)) (name : String) (names : List String)
    (new : Entry) :
    (folder entries).put (name :: names) new =
      .folder (Entries.insert name (((entries.lookup name).getD (.folder [])).put names new)
        entries) := by
  rw [put]

theorem put_leaf {e : Entry} (h : ∀ entries, e ≠ .folder entries) (name : String)
    (names : List String) (new : Entry) : e.put (name :: names) new = e := by
  cases e with
  | folder entries => exact absurd rfl (h entries)
  | _ => rw [put]; exact nofun

theorem Ordered.put {e new : Entry} (h : Ordered e) (names : List String) (hn : Ordered new) :
    Ordered (e.put names new) := by
  induction names generalizing e with
  | nil => rwa [Entry.put]
  | cons name names ih =>
    cases h with
    | leaf leaf =>
      rw [put_leaf leaf]
      exact .leaf leaf
    | @folder entries hnames each =>
      rw [put_folder]
      refine .folder hnames.insert fun x hx => ?_
      rcases Entries.mem_insert hx with rfl | hx
      · refine ih ?_
        cases found : entries.lookup name with
        | none => exact .empty
        | some inner => exact each _ (Entries.mem_of_lookup found)
      · exact each x hx

/-! ### Walks -/

/-- What a walk meets: an entry and its path. -/
abbrev Visit := String × Entry

mutual

/-- Everything at and below an entry, a folder before what it contains. -/
def walk (path : String) : Entry → List Visit
  | .folder entries => (path, .folder entries) :: walkInside path entries
  | e => [(path, e)]

/-- Everything at and below the entries of a folder. -/
def walkInside (folder : String) : List (String × Entry) → List Visit
  | [] => []
  | (name, e) :: entries => walk (Path.join folder name) e ++ walkInside folder entries

end

/-! ### Reach -/

/-- An entry that is there and cannot be used. -/
def refused (cause : FileError) : Entry → Entry
  | .file _ | .brokenFile .. => .brokenFile none cause
  | .folder _ | .closedFolder _ => .closedFolder cause
  | .special _ => .special (.error cause)

mutual

/-- What can be used of an entry by way of a path: nothing lies deeper than paths lead. -/
def within (path : String) : Entry → Entry
  | .folder entries =>
    if Path.isTooLong path then .closedFolder .nameTooLong
    else .folder (withinEach path entries)
  | e => if Path.isTooLong path then e.refused .nameTooLong else e

/-- What can be used of the entries of a folder. -/
def withinEach (folder : String) : List (String × Entry) → List (String × Entry)
  | [] => []
  | (name, e) :: entries =>
    (name, within (Path.join folder name) e) :: withinEach folder entries

end

end Entry

end KeyboardInfo.Files
