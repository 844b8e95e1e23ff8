import KeyboardInfo.Files.Tree
import KeyboardInfo.Source.Scan
import KeyboardInfo.Node.Merge

/-! Scanning all source files of a folder.

The source files are the files whose extension is the one asked for. They are scanned
in the order of the walk, each by itself. The first one that cannot be scanned ends it,
and so does the first folder that cannot be listed. What the functions say is merged into
one tree, first to last. -/
namespace KeyboardInfo.Source
open Files Log

/-! ### Source files -/

/-- Whether a path ends in a name with the given extension. -/
def isSourceFile (extension path : String) : Bool :=
  (Path.fileName? path).bind Path.extension? == some extension

/-- Whether a walk comes to a source file, or to a folder that ends it. -/
def concerns (extension : String) (visit : Entry.Visit) : Bool :=
  visit.2.isClosed || visit.2.isFile && isSourceFile extension visit.1

/-- The source files at and below an entry and the folders that cannot be listed, in the
order of the walk. -/
def sources (extension root : String) (e : Entry) : List Entry.Visit :=
  (e.walk root).filter (concerns extension)

/-! ### Scanning -/

/-- Merges functions into a tree, first to last. -/
def mergeFunctions (tree : Node) (functions : List DocumentedFunction) : Node :=
  functions.foldl (fun tree f => tree.merge f.node) tree

/-- Scans the file at a path, given what opening it comes to. -/
def scanFile (path : String) (opened : Except FileError Stream) :
    Logged (Except SourceError (List DocumentedFunction)) :=
  match opened with
  | .error cause => ⟨[], .error (.unreadable path cause)⟩
  | .ok stream =>
    let scan := Scan.ofCursor path (.ofStream stream)
    ⟨scan.events path, scan.result⟩

/-- Scans what a walk comes to. -/
def scanVisit : Entry.Visit → Logged (Except SourceError (List DocumentedFunction))
  | (path, .closedFolder cause) => ⟨[], .error (.unlisted path cause)⟩
  | (path, e) => scanFile path e.opened

/-- Scans one thing after the other, and merges what they hold into a tree. -/
def scanVisits (tree : Node) : List Entry.Visit → Logged (Except SourceError Node)
  | [] => ⟨[], .ok tree⟩
  | visit :: visits =>
    let scan := scanVisit visit
    match scan.result with
    | .error e => ⟨scan.events, .error e⟩
    | .ok functions =>
      let others := scanVisits (mergeFunctions tree functions) visits
      {others with events := scan.events ++ others.events}

/-- Scans files with some content. -/
def scanFiles (tree : Node) (files : List (String × ByteArray)) :
    Logged (Except SourceError Node) :=
  scanVisits tree (files.map fun file => (file.1, .file file.2))

theorem mergeFunctions_append (tree : Node) (first later : List DocumentedFunction) :
    mergeFunctions tree (first ++ later) = mergeFunctions (mergeFunctions tree first) later :=
  List.foldl_append

/-- What a scan comes to is what each thing comes to by itself, and the functions are merged first
to last. -/
theorem result_scanVisits (tree : Node) (visits : List Entry.Visit) :
    (scanVisits tree visits).result =
      (visits.mapM fun visit => (scanVisit visit).result).map fun found =>
        mergeFunctions tree found.flatten := by
  induction visits generalizing tree with
  | nil => rfl
  | cons visit visits ih =>
    rw [List.mapM_cons, scanVisits]
    dsimp only
    cases (scanVisit visit).result with
    | error e => rfl
    | ok functions =>
      rw [ih]
      cases visits.mapM fun visit => (scanVisit visit).result with
      | error e => rfl
      | ok found => exact congrArg Except.ok (mergeFunctions_append ..).symm

/-- The number of keyboard functions in a tree. -/
def functionCount (tree : Node) : Nat :=
  match tree.get? Key.keyboardFunctions with
  | some functions => functions.size
  | none => 0

/-- Scans every source file at and below a path. -/
def scanTree (v : View) (extension root : String) : Logged (Except SourceError Node) :=
  match v.walked root with
  | .error _ => ⟨[], .error (.invalidPath root)⟩
  | .ok e =>
    let opening : Event := ⟨.info, .sourceScanner, s!"Scanning {root} for *.{extension} files"⟩
    let visits := sources extension root e
    let scanned := scanVisits .empty visits
    match scanned.result with
    | .error e => ⟨opening :: scanned.events, .error e⟩
    | .ok tree =>
      let closing : Event := ⟨.info, .sourceScanner,
        s!"Scanned {visits.length} source files, {functionCount tree} documented keyboard functions"⟩
      ⟨opening :: (scanned.events ++ [closing]), .ok tree⟩

/-- What is scanned at and below an entry is decided by its sources. -/
theorem result_scanTree {v : View} {root : String} {e : Entry} (h : v.walked root = .ok e)
    (extension : String) : (scanTree v extension root).result =
      (scanVisits .empty (sources extension root e)).result := by
  rw [scanTree, h]
  dsimp only
  split <;> simp_all

/-- Nothing is scanned where there is nothing. -/
theorem result_scanTree_of_error {v : View} {root : String} {cause : FileError}
    (h : v.walked root = .error cause) (extension : String) :
    (scanTree v extension root).result = .error (.invalidPath root) := by
  rw [scanTree, h]

end KeyboardInfo.Source
