import KeyboardInfo.CommandLine.Options
import KeyboardInfo.Json.Writer
import KeyboardInfo.Report.Assembly
import KeyboardInfo.Text.Visible

/-! A run of the program.

The whole report is made before anything is written: a run that fails writes nothing
to the standard output and nothing to a file. A run that breaks off as it writes its
report out prints nothing either, but the file for it has been made by then. -/
namespace KeyboardInfo.CommandLine
open Files Log Report

/-- What a run leaves behind besides files. -/
structure Outcome where
  exitCode : UInt32
  stdout : String
  stderr : String
  deriving DecidableEq, Repr

/-- What remains to be done once the report is made: nothing, or to write it to a
file, which then decides the outcome. -/
inductive Draft where
  | finished (outcome : Outcome)
  | toFile (path content : String) (conclude : Except FileError Unit → Outcome)

/-! ### The log on the standard error -/

/-- Further lines of a message are indented. -/
def indented (message : String) : String :=
  String.ofList (message.toList.flatMap fun c => if c == '\n' then "\n    ".toList else [c])

/-- An event in words, ended by a newline. -/
def eventText (e : Event) : String :=
  let label := e.severity.label
  let padding := String.ofList (List.replicate (5 - label.length) ' ')
  s!"[{label}{padding} {e.origin.label}] {indented e.message}\n"

/-- An event as the log shows it. The newline that ends it can be hidden too, and then
the next event goes on in its line. -/
def logLine (e : Event) : String := String.ofList (Text.visible (eventText e).toList)

/-- The lines of the events that are wanted. -/
def logText (verbosity : Verbosity) (events : List Event) : String :=
  String.join ((selected verbosity events).map logLine)

/-- The line that tells why a run failed: what was to be done, and the causes from the
outermost to the innermost. -/
def failureLine (chain : List String) : String :=
  let reason := ": ".intercalate chain
  s!"[!] {reason}\n"

/-! ### Runs -/

/-- The name and version of the program. -/
def versionText : String := "gen-ui-info 1.0.0\n"

/-- What the program is for, and its options. -/
def helpText : String :=
  "Generate keyboard UI info (JSON) from a firmware map file and its sources\n\n" ++
  "Usage: gen-ui-info [OPTIONS]\n\nOptions:\n" ++
  String.join (Setting.all.map fun s => s!"  --{s.name} <VALUE>\n") ++
  String.join (Switch.all.map fun s => s!"  --{s.name}\n")

/-- The outcome of arguments that are refused. -/
def refused (e : UsageError) : Outcome := ⟨2, "", s!"error: {e.message}\n"⟩

/-- The outcome of a run that fails after some events. -/
def failed (verbosity : Verbosity) (events : List Event) (chain : List String) : Outcome :=
  ⟨1, "", logText verbosity events ++ failureLine chain⟩

/-- The outcome of a run that breaks off after some events. -/
def brokenOff (verbosity : Verbosity) (events : List Event) (crash : Crash) : Outcome :=
  ⟨101, "", logText verbosity events ++ s!"{crash.message}\n"⟩

/-- The outcome of a run that succeeds with some events before its last. -/
def succeeded (verbosity : Verbosity) (clock : Clock) (events : List Event) (stdout : String) :
    Outcome :=
  let done : Event := ⟨.info, .program, s!"Done in {clock.total.seconds}s"⟩
  ⟨0, stdout, logText verbosity (events ++ [done])⟩

/-- What is said of a document that could not be written. -/
def writeFailure (cause : FileError) : String := s!"IO error: {cause.message}"

/-- The outcome of a run whose report could not be written to a file. -/
def unwritten (verbosity : Verbosity) (events : List Event) (path : String) (cause : FileError) :
    Outcome :=
  failed verbosity events [s!"Failed to write {path}", writeFailure cause, cause.message]

/-- The outcome once the report has been written to a file, or could not be. -/
def concluded (verbosity : Verbosity) (clock : Clock) (events : List Event) (path : String) :
    Except FileError Unit → Outcome
  | .ok () =>
    let written : Event := ⟨.info, .program, s!"UI info written to {path}"⟩
    succeeded verbosity clock (events ++ [written]) ""
  | .error cause => unwritten verbosity events path cause

/-- The outcome of a run that breaks off once the file for its report has been made, or could
not be. -/
def abandoned (verbosity : Verbosity) (events : List Event) (path : String) (crash : Crash) :
    Except FileError Unit → Outcome
  | .ok () => brokenOff verbosity events crash
  | .error cause => unwritten verbosity events path cause

/-- What to do with an assembled report. -/
def draft (clock : Clock) (options : Options) (assembled : Logged (Except ReportError Node)) :
    Draft :=
  let verbosity := Verbosity.ofName options.logLevel
  match assembled.result with
  | .error e =>
    .finished (failed verbosity assembled.events
      ("Failed to generate UI info" :: e.message :: e.causes))
  | .ok report =>
    match Json.serialize (.indented options.config.indent) report, options.config.output with
    | .ok text, none => .finished (succeeded verbosity clock assembled.events text)
    | .ok text, some path => .toFile path text (concluded verbosity clock assembled.events path)
    | .error crash, none => .finished (brokenOff verbosity assembled.events crash)
    | .error crash, some path => .toFile path "" (abandoned verbosity assembled.events path crash)

/-- Does in a file system what a draft leaves to be done. -/
def Draft.carryOut (t : Tree) : Draft → Outcome × Tree
  | .finished outcome => (outcome, t)
  | .toFile path content conclude =>
    match t.write path content.toUTF8 with
    | .ok written => (conclude (.ok ()), written)
    | .error cause => (conclude (.error cause), t)

/-- The options of a request for a report; any other request has its outcome at once. -/
def optionsOf : Except UsageError Request → Except Outcome Options
  | .error e => .error (refused e)
  | .ok .version => .error ⟨0, versionText, ""⟩
  | .ok .help => .error ⟨0, helpText, ""⟩
  | .ok (.make options) => .ok options

/-- Runs the program with some arguments in a file system. -/
def run (t : Tree) (clock : Clock) (arguments : List String) : Outcome × Tree :=
  match optionsOf (Request.ofArguments arguments) with
  | .error outcome => (outcome, t)
  | .ok options => (draft clock options (assemble t.view clock options.config)).carryOut t

end KeyboardInfo.CommandLine
