import KeyboardInfo.Files.Error

/-! Lines of a byte stream.

A line ends at a newline, which is not part of it, and neither is one carriage
return just before the newline. Bytes after the last newline are a line too, with
any carriage return they end in; nothing after the last newline is no line. A line
is text when its bytes are UTF-8, whatever the lines around it hold. -/
namespace KeyboardInfo.Files

/-- What reading one line gives: its text, or why it cannot be had. -/
abbrev Line := Except FileError String

def newline : UInt8 := 10

def carriageReturn : UInt8 := 13

/-- The bytes of a line that a newline has ended, from its bytes in reverse. -/
def endedLine : List UInt8 → List UInt8
  | [] => []
  | b :: rest => if b = carriageReturn then rest.reverse else (b :: rest).reverse

/-- Cuts bytes into lines; `begun` holds the bytes of the first line that have
already gone by, in reverse. -/
def cutLines (begun : List UInt8) : List UInt8 → List (List UInt8)
  | [] => if begun.isEmpty then [] else [begun.reverse]
  | b :: rest =>
    if b = newline then endedLine begun :: cutLines [] rest else cutLines (b :: begun) rest

/-- A newline ends the lines before it, whatever follows. -/
theorem cutLines_append_newline (begun a b : List UInt8) :
    cutLines begun (a ++ newline :: b) = cutLines begun (a ++ [newline]) ++ cutLines [] b := by
  induction a generalizing begun with
  | nil => simp [cutLines]
  | cons x a ih =>
    simp only [List.cons_append, cutLines]
    split
    · rw [ih, List.cons_append]
    · exact ih _

/-- The text of a line, if its bytes are UTF-8. -/
def decodeLine (bytes : List UInt8) : Line :=
  match String.fromUTF8? ⟨bytes.toArray⟩ with
  | some text => .ok text
  | none => .error .invalidText

/-- The lines of a file's content. -/
def linesOf (content : ByteArray) : List Line := (cutLines [] content.data.toList).map decodeLine

end KeyboardInfo.Files
