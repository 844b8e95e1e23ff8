import KeyboardInfo.LinkerMap.Reading
import KeyboardInfo.Source.Reading
import KeyboardInfo.Proofs.Lines
import KeyboardInfo.Proofs.Steps

/-! What reading lines can come to.

A linker map that is read without fault is read to its end, so all of its lines are text
(`exists_readable_of_result`). What goes wrong in lines is wrong with a line or with where it
stands: no error of theirs says that a path leads nowhere (`failure_ne_invalidPath`,
`Scan.failure_ne_invalidPath`). -/
namespace KeyboardInfo.LinkerMap
open Files

/-! ### Steps that may fail -/

/-- A step that does not say of a path that there is nothing. -/
structure Pathless {α : Type} (x : Except MapError α) : Prop where
  ne : ∀ path, x ≠ .error (.invalidPath path)

section
variable {α β : Type}

theorem Pathless.ok (a : α) : Pathless (.ok a) := ⟨nofun⟩

theorem Pathless.bind {x : Except MapError α} {f : α → Except MapError β} (hx : Pathless x)
    (hf : ∀ a, Pathless (f a)) : Pathless (x >>= f) := by
  cases x with
  | error e =>
    constructor
    intro path h
    cases h
    exact hx.ne path rfl
  | ok a => exact hf a

theorem Pathless.map {x : Except MapError α} (hx : Pathless x) (f : α → β) :
    Pathless (x.map f) := by
  cases x with
  | error e =>
    constructor
    intro path h
    cases h
    exact hx.ne path rfl
  | ok a => exact .ok (f a)

end

/-! ### The lines of a block -/

theorem getElem?_of_lineAhead {lines : List Line} {distance : Nat} {missing : MapError}
    {text : String} (h : lineAhead lines distance missing = .ok text) :
    lines[distance]? = some (.ok text) := by
  unfold lineAhead at h
  split at h
  · next line hline =>
    cases h
    exact hline
  · cases h
  · cases h

theorem readable_of_mapM_id {lines : List Line} {texts : List String}
    (h : lines.mapM id = .ok texts) : lines = readable texts := by
  rw [mapM_eq_ok_iff, List.map_id] at h
  exact h

theorem readable_of_functionAfter {number : Nat} {rest : List Line} {f : KeyFunction}
    (h : functionAfter number rest = .ok f) :
    ∃ texts, rest.take functionLines = readable texts := by
  unfold functionAfter at h
  obtain ⟨extentLine, hextent, h⟩ := exists_of_bind_eq_ok h
  obtain ⟨extent, -, h⟩ := exists_of_bind_eq_ok h
  obtain ⟨nameLine, hname, -⟩ := exists_of_bind_eq_ok h
  have hextent := getElem?_of_lineAhead hextent
  have hname := getElem?_of_lineAhead hname
  match rest, hextent, hname with
  | first :: second :: rest, hextent, hname =>
    cases hextent
    cases hname
    exact ⟨[extentLine, nameLine], rfl⟩

theorem readable_of_layoutAfter {number : Nat} {header : String} {rest : List Line}
    {m : LayoutMatrices} (h : layoutAfter number header rest = .ok m) :
    ∃ texts, rest.take layoutWindow = readable texts := by
  unfold layoutAfter at h
  obtain ⟨length, -, h⟩ := exists_of_bind_eq_ok h
  obtain ⟨window, hwindow, -⟩ := exists_of_bind_eq_ok h
  cases hlines : (rest.take layoutWindow).mapM id with
  | error cause =>
    rw [hlines] at hwindow
    cases hwindow
  | ok texts => exact ⟨texts, readable_of_mapM_id hlines⟩

/-- The lines that a block takes in are text. -/
theorem readable_of_blockAt {number : Nat} {first : String} {rest : List Line} {block : Block}
    (h : blockAt number first rest = .ok block) :
    ∃ texts, rest.take block.further = readable texts := by
  unfold blockAt at h
  split at h
  · obtain ⟨f, hf, h⟩ := exists_of_bind_eq_ok h
    cases h
    exact readable_of_functionAfter hf
  · split at h
    · obtain ⟨m, hm, h⟩ := exists_of_bind_eq_ok h
      cases h
      exact readable_of_layoutAfter hm
    · cases h
      exact ⟨[], rfl⟩

theorem Extraction.readable_of_ofLines {passed taken : Nat} {lines : List Line}
    (h : (ofLines passed taken lines).failure = none) :
    ∃ texts, lines.drop taken = readable texts := by
  induction lines generalizing passed taken with
  | nil => exact ⟨[], List.drop_nil⟩
  | cons line rest ih =>
    cases taken with
    | succ taken => exact ih h
    | zero =>
      cases line with
      | error cause => cases h
      | ok first =>
        simp only [ofLines] at h
        split at h
        · cases h
        · next block hblock =>
          -- The lines of the block, and what comes after them.
          obtain ⟨taken, htaken⟩ := readable_of_blockAt hblock
          obtain ⟨later, hlater⟩ := ih h
          refine ⟨first :: (taken ++ later), ?_⟩
          rw [← List.take_append_drop block.further rest, htaken, hlater, ← readable_append]
          rfl

/-- **What is read without fault is text to its end.** -/
theorem exists_readable_of_result {stream : Stream} {tree : Node}
    (h : (Extraction.ofCursor (.ofStream stream)).result = .ok tree) :
    ∃ lines, stream.lines = readable lines := by
  unfold Extraction.result at h
  split at h
  · cases h
  · next hnone => exact Extraction.readable_of_ofLines hnone

/-- What is read without fault does not break off. -/
theorem failure_of_result {stream : Stream} {tree : Node}
    (h : (Extraction.ofCursor (.ofStream stream)).result = .ok tree) : stream.failure = none := by
  obtain ⟨lines, hlines⟩ := exists_readable_of_result h
  cases hfailure : stream.failure with
  | none => rfl
  | some cause =>
    have hmem : (.error cause : Line) ∈ stream.lines := by simp [Stream.lines, hfailure]
    rw [hlines] at hmem
    obtain ⟨_, -, hline⟩ := List.mem_map.mp hmem
    cases hline

/-! ### Errors of a map -/

theorem pathless_hexAt (number : Nat) (token : List Char) : Pathless (hexAt number token) := by
  unfold hexAt
  split <;> exact ⟨nofun⟩

theorem pathless_extentAt (number : Nat) (line : String) : Pathless (extentAt number line) := by
  unfold extentAt
  split
  · exact (pathless_hexAt ..).bind fun _ => (pathless_hexAt ..).bind fun _ => .ok _
  · exact ⟨nofun⟩

theorem pathless_functionNameAt (number : Nat) (line : String) :
    Pathless (functionNameAt number line) := by
  unfold functionNameAt
  split
  · split <;> exact ⟨nofun⟩
  · exact ⟨nofun⟩

theorem pathless_sectionLengthAt (number : Nat) (header : String) :
    Pathless (sectionLengthAt number header) := by
  unfold sectionLengthAt
  split
  · exact pathless_hexAt ..
  · exact ⟨nofun⟩

theorem pathless_lineAhead (lines : List Line) (distance number : Nat) (fault : Fault) :
    Pathless (lineAhead lines distance (.malformed number fault)) := by
  unfold lineAhead
  split <;> exact ⟨nofun⟩

theorem pathless_functionAfter (number : Nat) (rest : List Line) :
    Pathless (functionAfter number rest) := by
  unfold functionAfter
  refine (pathless_lineAhead ..).bind fun _ => (pathless_extentAt ..).bind fun _ => ?_
  exact (pathless_lineAhead ..).bind fun _ => (pathless_functionNameAt ..).bind fun _ => .ok _

theorem pathless_positionIn (number : Nat) (window : List String) (matrix : Matrix) :
    Pathless (positionIn number window matrix) := by
  unfold positionIn
  split
  · exact (pathless_hexAt ..).map some
  · exact .ok none

theorem pathless_matricesIn (number : Nat) (keyLength : UInt64) (window : List String) :
    Pathless (matricesIn number keyLength window) := by
  unfold matricesIn
  refine (pathless_positionIn ..).bind fun _ => (pathless_positionIn ..).bind fun _ =>
    (pathless_positionIn ..).bind fun _ => ?_
  split
  · exact .ok _
  · exact ⟨nofun⟩

theorem pathless_layoutAfter (number : Nat) (header : String) (rest : List Line) :
    Pathless (layoutAfter number header rest) := by
  unfold layoutAfter
  refine (pathless_sectionLengthAt ..).bind fun _ => Pathless.bind ?_ fun _ =>
    pathless_matricesIn ..
  cases (rest.take layoutWindow).mapM id <;> exact ⟨nofun⟩

theorem pathless_blockAt (number : Nat) (first : String) (rest : List Line) :
    Pathless (blockAt number first rest) := by
  unfold blockAt
  split
  · exact (pathless_functionAfter ..).bind fun _ => .ok _
  · split
    · exact (pathless_layoutAfter ..).bind fun _ => .ok _
    · exact .ok _

/-- No fault in the lines of a map is that of a path. -/
theorem Extraction.failure_ne_invalidPath (passed taken : Nat) (lines : List Line) (path : String) :
    (ofLines passed taken lines).failure ≠ some (.invalidPath path) := by
  induction lines generalizing passed taken with
  | nil => exact nofun
  | cons line rest ih =>
    cases taken with
    | succ taken => exact ih _ _
    | zero =>
      cases line with
      | error cause => exact nofun
      | ok first =>
        simp only [ofLines]
        split
        · next e he =>
          intro h
          cases h
          exact (pathless_blockAt ..).ne path he
        · exact ih _ _

end KeyboardInfo.LinkerMap

/-! ### Errors of a source -/

namespace KeyboardInfo.Source
open Files

/-- No fault in the lines of a source is that of a path. -/
theorem Scan.failure_ne_invalidPath (path : String) (position : Position) (passed : Nat)
    (lines : List Line) (place : String) :
    (ofLines path position passed lines).failure ≠ some (.invalidPath place) := by
  induction lines generalizing position passed with
  | nil => cases position <;> exact nofun
  | cons line rest ih =>
    cases line with
    | error cause => cases position <;> exact nofun
    | ok text =>
      cases position with
      | comment opened body =>
        simp only [ofLines]
        split <;> exact ih _ _
      | code comment =>
        simp only [ofLines]
        split
        · exact ih _ _
        · split <;> exact ih _ _

theorem scanFile_ne_invalidPath (path : String) (opened : Except FileError Stream)
    (place : String) : (scanFile path opened).result ≠ .error (.invalidPath place) := by
  cases opened with
  | error cause => exact nofun
  | ok stream =>
    intro h
    exact Scan.failure_ne_invalidPath _ _ _ _ place (Scan.result_eq_error_iff.mp h)

theorem scanVisit_ne_invalidPath (visit : Entry.Visit) (place : String) :
    (scanVisit visit).result ≠ .error (.invalidPath place) := by
  obtain ⟨path, e⟩ := visit
  cases e with
  | closedFolder cause => exact nofun
  | _ => exact scanFile_ne_invalidPath path _ place

theorem scanVisits_ne_invalidPath (tree : Node) (visits : List Entry.Visit) (place : String) :
    (scanVisits tree visits).result ≠ .error (.invalidPath place) := by
  rw [result_scanVisits]
  intro h
  obtain ⟨-, visit, -, -, -, hvisit⟩ := mapM_eq_error_iff.mp (map_eq_error_iff.mp h)
  exact scanVisit_ne_invalidPath visit place hvisit

end KeyboardInfo.Source
