import KeyboardInfo.Json.Writer
import KeyboardInfo.Text.Hex

/-! The tokens of a JSON text, as the JSON standard spells them.

A scanner takes one character at a time. Between tokens it passes over white space, and
everything up to the next delimiter is one word: a name or a number. Numbers have the value
that their digits say, whole or not. A text in quotes may write any character as an escape,
and a character beyond the basic plane as two; a half of such a pair has no meaning alone. -/
namespace KeyboardInfo.Json

/-! ### Tokens -/

inductive Token where
  | openArray
  | closeArray
  | openObject
  | closeObject
  | colon
  | comma
  | null
  | bool (value : Bool)
  | number (value : Rat)
  | string (value : String)
  deriving DecidableEq

/-- The token that a character is by itself. -/
def mark? : Char → Option Token
  | '[' => some .openArray
  | ']' => some .closeArray
  | '{' => some .openObject
  | '}' => some .closeObject
  | ':' => some .colon
  | ',' => some .comma
  | _ => none

/-- The white space that may stand between tokens. -/
def isSpace (c : Char) : Bool := c = ' ' || c = '\t' || c = '\n' || c = '\r'

/-- What ends a word. -/
def isDelimiter (c : Char) : Bool := (mark? c).isSome || isSpace c || c = '"'

/-! ### Words -/

/-- One or more digits. -/
def digits? (cs : List Char) : Option Nat :=
  if cs ≠ [] ∧ cs.all Char.isDigit then some (Nat.ofDigitChars 10 cs 0) else none

/-- The digits after a point, if there is one, and what follows them. -/
def fraction? : List Char → Option (List Char × List Char)
  | '.' :: cs =>
    let digits := cs.takeWhile Char.isDigit
    if digits = [] then none else some (digits, cs.dropWhile Char.isDigit)
  | cs => some ([], cs)

def exponent? : List Char → Option Int
  | [] => some 0
  | e :: cs =>
    if e = 'e' ∨ e = 'E' then
      match cs with
      | '+' :: digits => (digits? digits).map Int.ofNat
      | '-' :: digits => (digits? digits).map fun n => -n
      | digits => (digits? digits).map Int.ofNat
    else none

/-- A number without a sign. Its whole part has no zero in front, unless it is zero. -/
def magnitude? (cs : List Char) : Option Rat := do
  let whole := cs.takeWhile Char.isDigit
  if whole = [] ∨ whole.head? = some '0' ∧ whole ≠ ['0'] then none
  let (fraction, rest) ← fraction? (cs.dropWhile Char.isDigit)
  let exponent ← exponent? rest
  return Nat.ofDigitChars 10 (whole ++ fraction) 0 * 10 ^ (exponent - fraction.length)

def number? : List Char → Option Rat
  | '-' :: cs => (magnitude? cs).map fun q => -q
  | cs => magnitude? cs

/-- The token that a word is. -/
def word? (cs : List Char) : Option Token :=
  if cs = ['n', 'u', 'l', 'l'] then some .null
  else if cs = ['t', 'r', 'u', 'e'] then some (.bool true)
  else if cs = ['f', 'a', 'l', 's', 'e'] then some (.bool false)
  else (number? cs).map .number

/-! ### Texts -/

/-- The characters of the escapes that are one letter long. -/
def unescape? : Char → Option Char
  | '"' => some '"'
  | '\\' => some '\\'
  | '/' => some '/'
  | 'b' => some '\x08'
  | 'f' => some '\x0C'
  | 'n' => some '\n'
  | 'r' => some '\r'
  | 't' => some '\t'
  | _ => none

/-- The characters that codes stand for: each code for one, but a pair of surrogates for
one together. A surrogate without the other half stands for none. -/
def characters? : List Nat → Option (List Char)
  | [] => some []
  | code :: rest =>
    if code < 0xD800 ∨ 0xE000 ≤ code then (characters? rest).map (Char.ofNat code :: ·)
    else
      match rest with
      | [] => none
      | low :: rest =>
        if code < 0xDC00 ∧ 0xDC00 ≤ low ∧ low < 0xE000 then
          let c := Char.ofNat (0x10000 + (code - 0xD800) * 0x400 + (low - 0xDC00))
          (characters? rest).map (c :: ·)
        else none

/-! ### The scanner -/

/-- Where a scanner stands. -/
inductive Scan where
  /-- Between two tokens. -/
  | between
  /-- In a word that began with some characters. -/
  | word (cs : List Char)
  /-- In a text that began with some codes. -/
  | text (codes : List Nat)
  /-- After the backslash of an escape. -/
  | escape (codes : List Nat)
  /-- In an escaped code that lacks one digit and some more. -/
  | code (codes : List Nat) (more : Nat) (value : Nat)

namespace Scan

/-- What a character is or begins when it comes between tokens. -/
def start (c : Char) : List Token × Scan :=
  match mark? c with
  | some token => ([token], between)
  | none => ([], if isSpace c then between else if c = '"' then text [] else word [c])

/-- The tokens that end with a character, and where the scanner stands after it. -/
def step? : Scan → Char → Option (List Token × Scan)
  | between, c => some (start c)
  | word cs, c =>
    if isDelimiter c then (word? cs).map fun token => (token :: (start c).1, (start c).2)
    else some ([], word (cs ++ [c]))
  | text codes, c =>
    if c = '"' then (characters? codes).map fun cs => ([.string (String.ofList cs)], between)
    else if c = '\\' then some ([], escape codes)
    else if c.toNat < 0x20 then none
    else some ([], text (codes ++ [c.toNat]))
  | escape codes, c =>
    if c = 'u' then some ([], code codes 3 0)
    else (unescape? c).map fun d => ([], text (codes ++ [d.toNat]))
  | code codes more value, c =>
    (Text.Hex.digit? c).map fun d =>
      match more with
      | 0 => ([], text (codes ++ [value * 16 + d]))
      | more + 1 => ([], code codes more (value * 16 + d))

/-- The tokens that the end of the text ends. -/
def finish? : Scan → Option (List Token)
  | between => some []
  | word cs => (word? cs).map fun token => [token]
  | _ => none

/-- The tokens of the rest of a text. -/
def run (s : Scan) : List Char → Option (List Token)
  | [] => s.finish?
  | c :: rest =>
    match s.step? c with
    | some (tokens, next) => (next.run rest).map (tokens ++ ·)
    | none => none

end Scan

/-- The tokens of a text. -/
def tokens? (text : String) : Option (List Token) := Scan.between.run text.toList

/-! ### Parts of a text -/

/-- A part of a text that is some tokens, whatever follows. -/
def Spells (cs : List Char) (tokens : List Token) : Prop :=
  ∀ rest, Scan.between.run (cs ++ rest) = (Scan.between.run rest).map (tokens ++ ·)

/-- A part of a text that is some tokens if a delimiter follows, or nothing. -/
def SpellsDelimited (cs : List Char) (tokens : List Token) : Prop :=
  ∀ rest, (∀ c ∈ rest.head?, isDelimiter c) →
    Scan.between.run (cs ++ rest) = (Scan.between.run rest).map (tokens ++ ·)

section
variable {a b cs : List Char} {ta tb tokens : List Token}

theorem Spells.append (ha : Spells a ta) (hb : Spells b tb) : Spells (a ++ b) (ta ++ tb) := by
  intro rest
  rw [List.append_assoc, ha, hb, Option.map_map]
  simp only [Function.comp_def, List.append_assoc]

theorem SpellsDelimited.append (ha : SpellsDelimited a ta) (hb : Spells b tb)
    (hdelimiter : ∃ c, b.head? = some c ∧ isDelimiter c) : Spells (a ++ b) (ta ++ tb) := by
  intro rest
  obtain ⟨c, hhead, hc⟩ := hdelimiter
  have hrest : ∀ d ∈ (b ++ rest).head?, isDelimiter d := by
    intro d hd
    rw [List.head?_append, hhead] at hd
    cases hd
    exact hc
  rw [List.append_assoc, ha _ hrest, hb, Option.map_map]
  simp only [Function.comp_def, List.append_assoc]

theorem Spells.tokens? (h : Spells cs tokens) : tokens? (String.ofList cs) = some tokens := by
  have hrun := h []
  rw [List.append_nil] at hrun
  rw [Json.tokens?, String.toList_ofList, hrun]
  exact congrArg some (List.append_nil tokens)

end

end KeyboardInfo.Json
