import KeyboardInfo.LinkerMap.Extraction
import KeyboardInfo.Proofs.Entries
import Mathlib.Data.List.Nodup
import Mathlib.Data.List.Perm.Subperm

/-! The lines after a layout header, and the positions they give.

A line names one matrix at most, so three matrices need three lines. In a window of
three lines that names them all, each line thus names one, and the position of a
matrix does not depend on where in the window its line stands
(`positionIn_of_positioned`). -/
namespace KeyboardInfo.LinkerMap
open Text

/-! ### Named matrices -/

/-- The position token of a matrix, from the first line that names it. -/
def tokenIn (window : List String) (m : Matrix) : Option (List Char) :=
  window.findSome? fun line => Entry.positionToken? m.symbol.toList line.toList

theorem positionIn_eq (number : Nat) (window : List String) (m : Matrix) :
    positionIn number window m =
      match tokenIn window m with
      | some token => (hexAt number token).map some
      | none => .ok none := rfl

/-- Some line of a window gives a matrix this position. -/
def Positioned (window : List String) (m : Matrix) (position : UInt64) : Prop :=
  ∃ line ∈ window, ∃ token,
    Entry.positionToken? m.symbol.toList line.toList = some token ∧
      Hex.read? token = some position

theorem exists_line_of_tokenIn {window : List String} {m : Matrix} {token : List Char}
    (h : tokenIn window m = some token) :
    ∃ line ∈ window, Entry.positionToken? m.symbol.toList line.toList = some token :=
  List.exists_of_findSome?_eq_some h

theorem tokenIn_isSome {window : List String} {m : Matrix} {line : String} (hl : line ∈ window)
    {token : List Char} (h : Entry.positionToken? m.symbol.toList line.toList = some token) :
    (tokenIn window m).isSome :=
  List.findSome?_isSome_iff.mpr ⟨line, hl, by rw [h]; rfl⟩

theorem positioned_of_tokenIn {window : List String} {m : Matrix} {token : List Char}
    (h : tokenIn window m = some token) {position : UInt64}
    (hr : Hex.read? token = some position) : Positioned window m position := by
  obtain ⟨line, hl, ht⟩ := exists_line_of_tokenIn h
  exact ⟨line, hl, token, ht, hr⟩

/-- The position token that a window has for a matrix, if any, is a number. -/
def ReadsWell (window : List String) (m : Matrix) : Prop :=
  ∀ token, tokenIn window m = some token → (Hex.read? token).isSome

/-- The matrices that no line of a window names. -/
def missingIn (window : List String) : List Matrix :=
  Matrix.all.filter fun m => (tokenIn window m).isNone

/-- The matrices whose positions are read before that of a matrix. -/
def Matrix.before (m : Matrix) : List Matrix := Matrix.all.takeWhile (· ≠ m)

theorem positionIn_of_unread {window : List String} {m : Matrix} {token : List Char}
    (h : tokenIn window m = some token) (unread : Hex.read? token = none) (number : Nat) :
    positionIn number window m = .error (.malformed number (.notHex (String.ofList token))) := by
  rw [positionIn_eq, h]
  simp only [hexAt, unread]
  rfl

theorem positionIn_of_readsWell {window : List String} {m : Matrix} (h : ReadsWell window m)
    (number : Nat) : ∃ position, positionIn number window m = .ok position ∧
      position.isNone = (tokenIn window m).isNone := by
  rw [positionIn_eq]
  cases ht : tokenIn window m with
  | none => exact ⟨none, rfl, rfl⟩
  | some token =>
    obtain ⟨position, hr⟩ := Option.isSome_iff_exists.mp (h token ht)
    refine ⟨some position, ?_, rfl⟩
    simp only [hexAt, hr]
    rfl

/-! ### Windows that name every matrix -/

/-- A choice of one line for each matrix takes three different lines. -/
theorem nodup_of_names {line : Matrix → String}
    (h : ∀ m, ∃ token, Entry.positionToken? m.symbol.toList (line m).toList = some token) :
    (Matrix.all.map line).Nodup := by
  refine List.Nodup.map (fun m m' heq => ?_) (by decide)
  obtain ⟨token, ht⟩ := h m
  obtain ⟨token', ht'⟩ := h m'
  rw [heq] at ht
  exact eq_of_positionToken? ht ht'

theorem subperm_of_names {window : List String} {line : Matrix → String}
    (hmem : ∀ m, line m ∈ window)
    (h : ∀ m, ∃ token, Entry.positionToken? m.symbol.toList (line m).toList = some token) :
    List.Subperm (Matrix.all.map line) window := by
  refine (nodup_of_names h).subperm fun l hl => ?_
  obtain ⟨m, _, rfl⟩ := List.mem_map.mp hl
  exact hmem m

section
variable {window : List String} (named : ∀ m, (tokenIn window m).isSome)
include named

/-- One line for each matrix, which together are among the lines of the window. -/
theorem exists_subperm_of_named : ∃ line : Matrix → String,
    (∀ m, ∃ token, Entry.positionToken? m.symbol.toList (line m).toList = some token) ∧
      List.Subperm (Matrix.all.map line) window := by
  have each (m : Matrix) : ∃ line ∈ window, ∃ token,
      Entry.positionToken? m.symbol.toList line.toList = some token := by
    obtain ⟨token, ht⟩ := Option.isSome_iff_exists.mp (named m)
    obtain ⟨line, hl, h⟩ := exists_line_of_tokenIn ht
    exact ⟨line, hl, token, h⟩
  choose line hmem htoken using each
  exact ⟨line, htoken, subperm_of_names hmem htoken⟩

theorem le_length_of_named : layoutWindow ≤ window.length := by
  obtain ⟨line, _, hsub⟩ := exists_subperm_of_named named
  exact hsub.length_le

/-- In three lines that name every matrix, one line alone names a matrix. -/
theorem line_unique (hlen : window.length = layoutWindow) {m : Matrix} {l l' : String}
    (hl : l ∈ window) (hl' : l' ∈ window) {token token' : List Char}
    (h : Entry.positionToken? m.symbol.toList l.toList = some token)
    (h' : Entry.positionToken? m.symbol.toList l'.toList = some token') : l = l' := by
  obtain ⟨line, htoken, hsub⟩ := exists_subperm_of_named named
  have hperm : (Matrix.all.map line).Perm window := hsub.perm_of_length_le (Nat.le_of_eq hlen)
  -- Every line of the window is the chosen line of the matrix that it names.
  have chosen {l : String} (hl : l ∈ window) {token : List Char}
      (h : Entry.positionToken? m.symbol.toList l.toList = some token) : l = line m := by
    obtain ⟨n, _, rfl⟩ := List.mem_map.mp (hperm.mem_iff.mpr hl)
    obtain ⟨other, ho⟩ := htoken n
    rw [eq_of_positionToken? h ho]
  rw [chosen hl h, chosen hl' h']

end

/-- Up to three lines that lack no position, and of which every position is a number, are three
and give each matrix one. -/
theorem positioned_of_readsWell {window : List String} (short : window.length ≤ layoutWindow)
    (read : ∀ m, ReadsWell window m) (missing : missingIn window = []) :
    window.length = layoutWindow ∧ ∀ m, ∃ position, Positioned window m position := by
  have named (m : Matrix) : (tokenIn window m).isSome := by
    have := List.filter_eq_nil_iff.mp missing m (by cases m <;> decide)
    exact Option.isSome_iff_ne_none.mpr (by simpa using this)
  refine ⟨Nat.le_antisymm short (le_length_of_named named), fun m => ?_⟩
  obtain ⟨token, ht⟩ := Option.isSome_iff_exists.mp (named m)
  obtain ⟨position, hr⟩ := Option.isSome_iff_exists.mp (read m token ht)
  exact ⟨position, positioned_of_tokenIn ht hr⟩

/-- **Whatever line of a full window gives a matrix its position, that is the position
read for it.** -/
theorem positionIn_of_positioned {window : List String} (hlen : window.length = layoutWindow)
    (all : ∀ m, ∃ position, Positioned window m position) {m : Matrix} {position : UInt64}
    (h : Positioned window m position) (number : Nat) :
    positionIn number window m = .ok (some position) := by
  have named (m : Matrix) : (tokenIn window m).isSome := by
    obtain ⟨_, line, hl, token, ht, _⟩ := all m
    exact tokenIn_isSome hl ht
  obtain ⟨line, hl, token, ht, hr⟩ := h
  obtain ⟨found, hf⟩ := Option.isSome_iff_exists.mp (named m)
  obtain ⟨line', hl', ht'⟩ := exists_line_of_tokenIn hf
  obtain rfl := line_unique named hlen hl hl' ht ht'
  obtain rfl := Option.some.inj (ht.symm.trans ht')
  rw [positionIn_eq, hf]
  simp only [hexAt, hr]
  rfl

end KeyboardInfo.LinkerMap
