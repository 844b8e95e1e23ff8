import KeyboardInfo.Text.Blank

/-! Patterns over one line of text.

A pattern is a row of pieces: literal text, runs of one kind of character, and the
end of the line. Runs are greedy: of all ways to match, a pattern takes the
leftmost start, and from there each run, in order, is as long as the pieces after
it allow. A match tells the text that each piece took, so that what a pattern
captures is the text of some of its pieces put together. -/
namespace KeyboardInfo.Text

/-- The kinds of characters that a run may consist of. -/
inductive CharKind where
  | blank
  | solid
  /-- Anything on the line. -/
  | any
  deriving DecidableEq, Repr

def CharKind.admits : CharKind → Char → Bool
  | .blank, c => isBlank c
  | .solid, c => !isBlank c
  | .any, c => c != '\n'

/-- One part of a pattern. -/
inductive Piece where
  | literal (text : List Char)
  /-- At least `least` characters of one kind. -/
  | run (kind : CharKind) (least : Nat)
  /-- Nothing may follow. -/
  | finish
  deriving DecidableEq, Repr

/-! ### Literal text -/

/-- What follows a text that stands at the start of another. -/
def afterLiteral? : List Char → List Char → Option (List Char)
  | [], cs => some cs
  | _ :: _, [] => none
  | t :: text, c :: cs => if t = c then afterLiteral? text cs else none

theorem afterLiteral?_eq_some_iff {text cs rest : List Char} :
    afterLiteral? text cs = some rest ↔ cs = text ++ rest := by
  induction text generalizing cs with
  | nil => simp [afterLiteral?]
  | cons t text ih =>
    cases cs with
    | nil => simp [afterLiteral?]
    | cons c cs =>
      rw [afterLiteral?]
      split
      · next h => rw [ih, h, List.cons_append, List.cons.injEq]; simp
      · next h => simp [Ne.symm h]

/-! ### Runs -/

/-- Takes no character at all, where a run may be that short. `next` is asked about
the text after the run; the answer is the run and what `next` said. -/
def takeNothing {β : Type} (next : List Char → Option β) (least : Nat) (cs : List Char) :
    Option (List Char × β) :=
  if least = 0 then (next cs).map ([], ·) else none

/-- Takes the longest run after which `next` succeeds. -/
def takeRun {β : Type} (kind : CharKind) (next : List Char → Option β) (least : Nat) :
    List Char → Option (List Char × β)
  | [] => takeNothing next least []
  | c :: cs =>
    if kind.admits c then
      match takeRun kind next (least - 1) cs with
      | some (taken, answer) => some (c :: taken, answer)
      | none => takeNothing next least (c :: cs)
    else takeNothing next least (c :: cs)

theorem takeNothing_eq_some {β : Type} {next : List Char → Option β} {least : Nat}
    {cs taken : List Char} {answer : β} (h : takeNothing next least cs = some (taken, answer)) :
    taken = [] ∧ least = 0 ∧ next cs = some answer := by
  rw [takeNothing] at h
  split at h
  · next hl =>
    obtain ⟨a, ha, he⟩ := Option.map_eq_some_iff.mp h
    cases he
    exact ⟨rfl, hl, ha⟩
  · cases h

/-- A run that is taken is long enough, of one kind, and followed by what `next` accepts. -/
theorem takeRun_eq_some {β : Type} {kind : CharKind} {next : List Char → Option β} {least : Nat}
    {cs taken : List Char} {answer : β} (h : takeRun kind next least cs = some (taken, answer)) :
    (∀ c ∈ taken, kind.admits c) ∧ least ≤ taken.length ∧
      ∃ rest, cs = taken ++ rest ∧ next rest = some answer := by
  have ofNothing {text : List Char} {n : Nat} {t : List Char}
      (h : takeNothing next n text = some (t, answer)) :
      (∀ c ∈ t, kind.admits c) ∧ n ≤ t.length ∧
        ∃ rest, text = t ++ rest ∧ next rest = some answer := by
    obtain ⟨rfl, rfl, ha⟩ := takeNothing_eq_some h
    exact ⟨nofun, Nat.le_refl _, text, rfl, ha⟩
  induction cs generalizing least taken with
  | nil => exact ofNothing h
  | cons c cs ih =>
    rw [takeRun] at h
    split at h
    · next hc =>
      split at h
      · next found heq =>
        cases h
        obtain ⟨hall, hlen, rest, rfl, hrest⟩ := ih heq
        exact ⟨List.forall_mem_cons.mpr ⟨hc, hall⟩, by rw [List.length_cons]; omega, rest, rfl, hrest⟩
      · exact ofNothing h
    · exact ofNothing h

/-! ### Rows of pieces -/

/-- The texts that the pieces take when the match starts at the first character. -/
def matchHere : List Piece → List Char → Option (List (List Char))
  | [], _ => some []
  | .literal text :: pieces, cs =>
    match afterLiteral? text cs with
    | some rest => (matchHere pieces rest).map (text :: ·)
    | none => none
  | .run kind least :: pieces, cs =>
    (takeRun kind (matchHere pieces) least cs).map fun (taken, others) => taken :: others
  | .finish :: pieces, cs =>
    if cs.isEmpty then (matchHere pieces cs).map ([] :: ·) else none

/-- The match at the leftmost start that has one. -/
def matchLeftmost (pieces : List Piece) : List Char → Option (List (List Char))
  | [] => matchHere pieces []
  | c :: cs =>
    match matchHere pieces (c :: cs) with
    | some texts => some texts
    | none => matchLeftmost pieces cs

/-- A row of pieces, to be found anywhere or only at the start of the line. -/
structure Pattern where
  anchored : Bool
  pieces : List Piece
  deriving DecidableEq, Repr

/-- The texts of the pieces in the match that a pattern takes, if it has one. -/
def Pattern.find? (p : Pattern) (cs : List Char) : Option (List (List Char)) :=
  if p.anchored then matchHere p.pieces cs else matchLeftmost p.pieces cs

/-- Whether a pattern matches at all. -/
def Pattern.occursIn (p : Pattern) (cs : List Char) : Bool := (p.find? cs).isSome

end KeyboardInfo.Text
