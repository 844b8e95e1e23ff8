import KeyboardInfo.Files.Lines
import KeyboardInfo.Memory

/-! A cursor over lines, with one line of lookahead.

A cursor moves forward only. `advance` takes a line and counts it, `peek` looks at
the next line without taking it, `take` advances several times. A line that cannot
be read is passed over by the call that meets it, and is not counted. Only `take` asks
for room in memory, for as many lines as it is to take. -/
namespace KeyboardInfo.Files

/-- What is left of a stream: the lines to come, and what every read after them
gives, the end or a failure. -/
structure Stream where
  rest : List Line
  failure : Option FileError

namespace Stream

/-- The stream of a file's content. -/
def ofContent (content : ByteArray) : Stream := ⟨linesOf content, none⟩

/-- A stream that cannot be read from at all. -/
def unreadable (e : FileError) : Stream := ⟨[], some e⟩

/-- The lines up to the end or the first read that keeps failing. -/
def lines (s : Stream) : List Line := s.rest ++ s.failure.toList.map .error

/-- What one read gives, and what is left after it. -/
def next : Stream → Except FileError (Option String) × Stream
  | ⟨.ok line :: rest, failure⟩ => (.ok (some line), ⟨rest, failure⟩)
  | ⟨.error e :: rest, failure⟩ => (.error e, ⟨rest, failure⟩)
  | ⟨[], some e⟩ => (.error e, ⟨[], some e⟩)
  | ⟨[], none⟩ => (.ok none, ⟨[], none⟩)

end Stream

/-- A place in a stream, between the lines taken and those to come. -/
structure Cursor where
  stream : Stream
  /-- A line that was looked at and not yet taken. -/
  peeked : Option String
  /-- How many lines were taken, which is the number of the last of them. -/
  number : Nat

namespace Cursor

/-- The cursor before the first line of a stream. -/
def ofStream (stream : Stream) : Cursor := ⟨stream, none, 0⟩

/-- The cursor before the first line of a file's content. -/
def ofContent (content : ByteArray) : Cursor := ofStream (.ofContent content)

/-- The lines that are still to be taken. -/
def lines (c : Cursor) : List Line := c.peeked.toList.map .ok ++ c.stream.lines

/-- The next line, left in place. -/
def peek (c : Cursor) : Except FileError (Option String) × Cursor :=
  match c.peeked with
  | some line => (.ok (some line), c)
  | none =>
    match c.stream.next with
    | (.ok line, stream) => (.ok line, {c with stream, peeked := line})
    | (.error e, stream) => (.error e, {c with stream})

/-- Takes the next line, if there is one. -/
def advance (c : Cursor) : Except FileError (Option String) × Cursor :=
  match c.peeked with
  | some line => (.ok (some line), {c with peeked := none, number := c.number + 1})
  | none =>
    match c.stream.next with
    | (.ok (some line), stream) => (.ok (some line), {c with stream, number := c.number + 1})
    | (.ok none, stream) => (.ok none, {c with stream})
    | (.error e, stream) => (.error e, {c with stream})

/-- Advances up to `count` times, to the end or to the first line that cannot be read. -/
def takeUpTo : Nat → Cursor → Except FileError (List String) × Cursor
  | 0, c => (.ok [], c)
  | count + 1, c =>
    match c.advance with
    | (.error e, c) => (.error e, c)
    | (.ok none, c) => (.ok [], c)
    | (.ok (some line), c) =>
      match takeUpTo count c with
      | (.error e, c) => (.error e, c)
      | (.ok lines, c) => (.ok (line :: lines), c)

/-- The bytes that a line takes up in a list, wherever its text is. -/
def lineSize : Nat := 24

/-- Takes up to `count` lines, fewer only at the end. When one cannot be read, those
before it are gone. -/
def take (count : Nat) (c : Cursor) :
    Except Crash (Except FileError (List String) × Cursor) := do
  Memory.reserve count lineSize
  return c.takeUpTo count

/-- Whether no line is left to take. -/
def isExhausted (c : Cursor) : Except FileError Bool × Cursor :=
  match c.peek with
  | (.ok line, c) => (.ok line.isNone, c)
  | (.error e, c) => (.error e, c)

end Cursor

end KeyboardInfo.Files
