import KeyboardInfo.Files.Error

/-! Why sources cannot be scanned. -/
namespace KeyboardInfo.Source
open Files (FileError)

inductive SourceError where
  /-- There is nothing at the path of the sources. -/
  | invalidPath (path : String)
  /-- A comment that opens on a line is never closed. -/
  | unclosedComment (path : String) (line : Nat)
  /-- A folder among the sources cannot be listed. -/
  | unlisted (path : String) (cause : FileError)
  | unreadable (path : String) (cause : FileError)
  deriving DecidableEq, Repr

namespace SourceError

/-- What is said of a folder that cannot be listed. -/
def listingFailure (path : String) (cause : FileError) : String :=
  s!"IO error for operation on {path}: {cause.message}"

def message : SourceError → String
  | .invalidPath path => s!"Invalid source directory path: {path}"
  | .unclosedComment path line => s!"{path}:{line}: comment is never closed"
  | .unlisted path cause => s!"Failed to walk source tree: {listingFailure path cause}"
  | .unreadable path cause => s!"Failed to read {path}: {cause.message}"

/-- The messages of the causes below an error, outermost first. -/
def causes : SourceError → List String
  | .unlisted path cause => [listingFailure path cause, cause.message]
  | .unreadable _ cause => [cause.message]
  | _ => []

end SourceError

end KeyboardInfo.Source
