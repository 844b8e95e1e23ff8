import KeyboardInfo.Log
import KeyboardInfo.Key
import KeyboardInfo.Source.Comment
import KeyboardInfo.Source.Error
import KeyboardInfo.Files.Cursor

/-! Scanning a source file for documented keyboard functions.

A line that is nothing but a comment opener begins a comment, which runs to the next
line that is nothing but a closer. A keyboard function is declared on one line
outside comments. It takes the last comment closed before it, and no other function
has that comment too. -/
namespace KeyboardInfo.Source
open Log (Event)
open Files (Cursor Line)
open Text

/-! ### Lines -/

/-- The declaration of a keyboard function without parameters. -/
def declaration : Pattern :=
  ⟨false, [.literal "void".toList, .run .blank 1, .literal "kbfun_".toList, .run .solid 1,
    .run .blank 0, .literal "(void)".toList]⟩

/-- The keyboard function that a line declares. -/
def declaredName? (line : List Char) : Option (List Char) :=
  match declaration.find? line with
  | some [_, _, first, rest, _, _] => some (first ++ rest)
  | _ => none

def opensComment (line : List Char) : Bool := trim line == ['/', '*']

def closesComment (line : List Char) : Bool := trim line == ['*', '/']

/-- How many characters at the start of a line inside a comment are decoration. -/
def decorationWidth : Nat := 2

/-- A line inside a comment without its decoration and outer blanks. -/
def bodyLine (line : List Char) : List Char := trim (line.drop decorationWidth)

/-! ### Functions -/

/-- A keyboard function and the comment that documents it. -/
structure DocumentedFunction where
  name : String
  comments : CommentBlock
  deriving DecidableEq

def DocumentedFunction.node (f : DocumentedFunction) : Node :=
  .single Key.keyboardFunctions
    (.single f.name (.single Key.comments f.comments.node))

/-- A function with the number of the line that declares it. -/
structure Finding where
  line : Nat
  function : DocumentedFunction
  deriving DecidableEq

def Finding.event (path : String) (f : Finding) : Event :=
  ⟨.debug, .sourceScanner, s!"{path}:{f.line}: found {f.function.name}"⟩

/-! ### Files -/

/-- Where in a source file a scan is: outside comments, with the text of the comment
that the next function takes; or inside a comment, with its text so far. -/
inductive Position where
  | code (comment : String)
  | comment (opened : Nat) (body : String)
  deriving DecidableEq, Repr

/-- The functions of a source file up to its end or up to what is wrong with it. -/
structure Scan where
  findings : List Finding
  failure : Option SourceError
  deriving DecidableEq

namespace Scan

/-- Scans on from a position in the file at `path`, of which `passed` lines have gone by. -/
def ofLines (path : String) (position : Position) (passed : Nat) : List Line → Scan
  | [] =>
    match position with
    | .code _ => ⟨[], none⟩
    | .comment opened _ => ⟨[], some (.unclosedComment path opened)⟩
  | .error cause :: _ => ⟨[], some (.unreadable path cause)⟩
  | .ok line :: rest =>
    let number := passed + 1
    match position with
    | .comment opened body =>
      if closesComment line.toList then ofLines path (.code body) number rest
      else
        let body := body ++ String.ofList (bodyLine line.toList) ++ "\n"
        ofLines path (.comment opened body) number rest
    | .code comment =>
      if opensComment line.toList then ofLines path (.comment number "") number rest
      else
        match declaredName? line.toList with
        | some name =>
          let function := ⟨String.ofList name, .ofText comment⟩
          let others := ofLines path (.code "") number rest
          {others with findings := ⟨number, function⟩ :: others.findings}
        | none => ofLines path (.code comment) number rest

/-- Scans the lines that a cursor over the file at `path` has still to take. -/
def ofCursor (path : String) (c : Cursor) : Scan := ofLines path (.code "") c.number c.lines

def functions (s : Scan) : List DocumentedFunction := s.findings.map Finding.function

/-- The functions of a file, if nothing is wrong with it. -/
def result (s : Scan) : Except SourceError (List DocumentedFunction) :=
  match s.failure with
  | some e => .error e
  | none => .ok s.functions

theorem result_eq_error_iff {s : Scan} {e : SourceError} :
    s.result = .error e ↔ s.failure = some e := by
  unfold result
  cases s.failure <;> simp

def events (path : String) (s : Scan) : List Event := s.findings.map (Finding.event path)

end Scan

end KeyboardInfo.Source
