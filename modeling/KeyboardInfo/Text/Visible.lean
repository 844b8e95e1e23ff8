/-! The visible part of a text.

A line of the log shows characters and gives no commands to a terminal. What is left
of a text is its characters without the control characters, except those that lay
text out, and without control sequences, which an escape character opens.

A layout control inside a short sequence only suspends it: the text after it is shown
up to the next hidden character, and there the sequence goes on. -/
namespace KeyboardInfo.Text

/-! ### Characters -/

/-- The control characters that lay text out: tab, newline, form feed, carriage return. -/
def isLayoutControl (c : Char) : Bool := c == '\t' || c == '\n' || c == '\x0c' || c == '\r'

/-- Whether a character shows where no sequence is open. Of the control characters, only
those of ASCII hide. -/
def isShown (c : Char) : Bool := (' ' ≤ c && c != '\x7f') || isLayoutControl c

/-- Whether a byte of the character is the one that ends a control string. -/
def endsString (c : Char) : Bool := (String.utf8EncodeChar c).contains 0x9C

/-! ### Control sequences -/

/-- The control sequence that a place in a text is in. -/
inductive Sequence where
  /-- No sequence is open. -/
  | plain
  /-- What follows an escape character. -/
  | escape
  /-- An escape sequence of several characters. -/
  | longEscape
  /-- A control sequence with its parameters. -/
  | control
  /-- The start of a device control string. -/
  | device
  /-- The parameters of a device control string. -/
  | deviceParameters
  /-- The intermediate characters of a device control string. -/
  | deviceIntermediates
  /-- The content of a control string. -/
  | string
  /-- An operating system command, which a bell ends. -/
  | command
  deriving DecidableEq, Repr

namespace Sequence

/-- The sequence that the character after an escape character opens. -/
def opened (c : Char) : Sequence :=
  if c == '[' then .control
  else if c == ']' then .command
  else if c == 'P' then .device
  else if c == 'X' || c == '^' || c == '_' then .string
  else if ' ' ≤ c && c ≤ '/' then .longEscape
  else if '0' ≤ c && c ≤ '~' then .plain
  else .escape

/-- The sequence that a place is in after a hidden character. -/
def afterHidden (s : Sequence) (c : Char) : Sequence :=
  if c == '\x1b' then .escape
  else if c == '\x18' || c == '\x1a' then .plain
  else
    match s with
    | .plain => .plain
    | .escape => opened c
    | .longEscape => if '0' ≤ c && c ≤ '~' then .plain else .longEscape
    | .control => if '@' ≤ c && c ≤ '~' then .plain else .control
    | .device =>
      if ' ' ≤ c && c ≤ '/' then .deviceIntermediates
      else if '0' ≤ c && c ≤ '?' then .deviceParameters
      else if '@' ≤ c && c ≤ '~' then .string
      else .device
    | .deviceParameters =>
      if ' ' ≤ c && c ≤ '/' then .deviceIntermediates
      else if '<' ≤ c && c ≤ '~' then .string
      else .deviceParameters
    | .deviceIntermediates => if '0' ≤ c && c ≤ '~' then .string else .deviceIntermediates
    | .string => if endsString c then .plain else .string
    | .command => if c == '\x07' then .plain else .command

/-- The sequence that a place is in after a character that is shown: one beyond ASCII
ends what was suspended. -/
def afterShown (s : Sequence) (c : Char) : Sequence := if c ≤ '\x7f' then s else .plain

/-- Whether a character is shown though the one before it was not. -/
def shows : Sequence → Char → Bool
  | .plain, c => isShown c
  | .escape, c | .longEscape, c | .control, c => isLayoutControl c
  | _, _ => false

end Sequence

/-! ### Texts -/

/-- The visible characters from a place in a sequence; `flowing` tells that the character
before the place was shown. -/
def visibleFrom (s : Sequence) (flowing : Bool) : List Char → List Char
  | [] => []
  | c :: cs =>
    if (flowing && isShown c) || s.shows c then c :: visibleFrom (s.afterShown c) true cs
    else visibleFrom (s.afterHidden c) false cs

/-- The visible part of a text. -/
def visible (text : List Char) : List Char := visibleFrom .plain true text

end KeyboardInfo.Text
