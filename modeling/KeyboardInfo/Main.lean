import KeyboardInfo.CommandLine.Run
import Std.Time.Zoned

/-! The program: it looks at the files and the clock, and leaves every decision to the library. -/
namespace KeyboardInfo.Main
open CommandLine Files Report

/-! ### Files -/

/-- The cause that the system gives for a refusal. -/
def fileError : IO.Error → FileError
  | .noFileOrDirectory .. => .notFound
  | .inappropriateType _ 20 _ => .notADirectory
  | .inappropriateType _ 21 _ => .isADirectory
  | e => .other (toString e)

/-- Does something to files that can be refused. -/
def attempt {α : Type} (action : IO α) : IO (Except FileError α) := do
  match ← action.toBaseIO with
  | .ok value => return .ok value
  | .error e => return .error (fileError e)

/-- Loads a file, a folder or something else at `path`. The content of files that are not
wanted is left out, and what is neither a file nor a folder is not opened. -/
partial def load (wanted : String → Bool) (path : String) (kind : IO.FS.FileType) : IO Entry := do
  let here := (← IO.currentDir) / path
  match kind with
  | .dir =>
    match ← attempt here.readDir with
    | .error cause => return .closedFolder cause
    | .ok items =>
      let mut entries := []
      for item in items do
        let inner ← match ← attempt item.path.symlinkMetadata with
          | .error cause => pure (.closedFolder cause)
          | .ok found => load wanted (Path.join path item.fileName) found.type
        entries := Entries.insert item.fileName inner entries
      return .folder entries
  | .file =>
    if wanted path then
      match ← attempt (IO.FS.readBinFile here) with
      | .error cause => return .brokenFile none cause
      | .ok content => return .file content
    else return .file .empty
  | _ => return .special (.error .notAFile)

/-- Loads what is at `path`, wherever links lead. -/
def loadLinked (wanted : String → Bool) (path : String) : IO (Except FileError Entry) :=
  attempt do load wanted path (← ((← IO.currentDir) / path).metadata).type

/-- Whether there is a link at `path` itself. -/
def isLink (path : String) : IO Bool := do
  let found ← attempt ((← IO.currentDir) / path).symlinkMetadata
  return found.toOption.any fun found => found.type == .symlink

/-- A view of the files that a configuration names. -/
def look (c : Config) : IO View := do
  let wanted := Source.isSourceFile (Path.bareExtension c.extension)
  let mapFile ← loadLinked (· == c.mapFile) c.mapFile
  let sources ← loadLinked wanted c.sources
  let linked ← isLink c.sources
  return {
    entry := fun path =>
      if path == c.mapFile then mapFile
      else if path == c.sources then sources
      else .error .notFound
    isLink := fun path => path == c.sources && linked }

/-! ### Time -/

/-- The present local time. -/
def timestamp : IO Timestamp := do
  let now ← Std.Time.DateTime.now
  return {
    year := now.year.toInt.toNat
    month := now.month.toInt.toNat
    day := now.day.toInt.toNat
    hour := now.hour.toInt.toNat
    minute := now.minute.toInt.toNat
    second := now.second.toInt.toNat
    zone := now.offset.second.toInt / 60 }

/-- The value of some work, and how long it took. -/
def measure {α : Type} (work : Unit → α) : IO (α × Log.Duration) := do
  let start ← IO.monoNanosNow
  let value ← IO.lazyPure work
  return (value, ⟨(← IO.monoNanosNow) - start⟩)

/-! ### The run -/

/-- Does on disk what a draft leaves to be done. -/
def carryOut : Draft → IO Outcome
  | .finished outcome => return outcome
  | .toFile path content conclude =>
    return conclude (← attempt (IO.FS.writeFile path content))

/-- The outcome of the program on some arguments. -/
def outcome (arguments : List String) : IO Outcome := do
  let start ← IO.monoNanosNow
  match optionsOf (Request.ofArguments arguments) with
  | .error outcome => return outcome
  | .ok options =>
    let c := options.config
    let view ← look c
    let (map, mapTime) ← measure fun _ => mapTree view c
    let (sources, sourceTime) ← measure fun _ => sourceTree view c
    let total : Log.Duration := ⟨(← IO.monoNanosNow) - start⟩
    let clock : Clock := ⟨← timestamp, mapTime, sourceTime, total⟩
    carryOut (draft clock options (assembleFrom clock c (c.check view) map sources))

end KeyboardInfo.Main

def main (arguments : List String) : IO UInt32 := do
  let outcome ← KeyboardInfo.Main.outcome arguments
  IO.eprint outcome.stderr
  IO.print outcome.stdout
  (← IO.getStdout).flush
  return outcome.exitCode
