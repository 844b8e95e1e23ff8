/-! Log events and how much of the log is wanted.

Every part of the program says what it did as a list of events; who runs the
program chooses up to which severity events are written. -/
namespace KeyboardInfo.Log

/-- How grave an event is, gravest first. -/
inductive Severity where
  | error
  | warn
  | info
  | debug
  | trace
  deriving DecidableEq, Repr

namespace Severity

def rank : Severity → Nat
  | .error => 1
  | .warn => 2
  | .info => 3
  | .debug => 4
  | .trace => 5

def label : Severity → String
  | .error => "ERROR"
  | .warn => "WARN"
  | .info => "INFO"
  | .debug => "DEBUG"
  | .trace => "TRACE"

end Severity

/-- Which events are wanted: none, or those up to a severity. -/
inductive Verbosity where
  | off
  | upTo (severity : Severity)
  deriving DecidableEq, Repr

namespace Verbosity

/-- The verbosity that a name asks for, in any case. A name that is none asks for warnings. -/
def ofName (name : String) : Verbosity :=
  match String.ofList (name.toList.map Char.toLower) with
  | "error" => .upTo .error
  | "warn" | "warning" => .upTo .warn
  | "info" => .upTo .info
  | "debug" => .upTo .debug
  | "trace" => .upTo .trace
  | "off" => .off
  | _ => .upTo .warn

/-- Whether events of a severity are wanted. -/
def admits : Verbosity → Severity → Bool
  | .off, _ => false
  | .upTo limit, severity => severity.rank ≤ limit.rank

def label : Verbosity → String
  | .off => "OFF"
  | .upTo severity => severity.label

end Verbosity

/-- The part of the program that an event comes from. -/
inductive Origin where
  | timers
  | mapParser
  | sourceScanner
  | assembler
  | program
  deriving DecidableEq, Repr

def Origin.label : Origin → String
  | .timers => "ui_info_generator::utils::logging"
  | .mapParser => "ui_info_generator::mapfile::parser"
  | .sourceScanner => "ui_info_generator::source::scanner"
  | .assembler => "ui_info_generator::report::assembler"
  | .program => "gen_ui_info"

/-- Something that happened, in the words of the log. -/
structure Event where
  severity : Severity
  origin : Origin
  message : String
  deriving DecidableEq, Repr

/-- The events that a verbosity lets through, in order. -/
def selected (verbosity : Verbosity) (events : List Event) : List Event :=
  events.filter fun event => verbosity.admits event.severity

/-- What some work came to, and what it logged on the way. -/
structure Logged (α : Type) where
  events : List Event
  result : α

/-! ### Timed work -/

/-- A span of time in nanoseconds. -/
structure Duration where
  nanoseconds : Nat
  deriving DecidableEq, Repr

/-- A fraction with two places after the point, a half rounded up. -/
def twoPlaces (numerator denominator : Nat) : String :=
  let hundredths := (200 * numerator + denominator) / (2 * denominator)
  let fraction := hundredths % 100
  s!"{hundredths / 100}.{fraction / 10}{fraction % 10}"

def Duration.milliseconds (d : Duration) : String := twoPlaces d.nanoseconds 1000000

def Duration.seconds (d : Duration) : String := twoPlaces d.nanoseconds 1000000000

/-- The events of some named work, between those of its start and its end. -/
def timed (work : String) (elapsed : Duration) (events : List Event) : List Event :=
  ⟨.debug, .timers, s!"[TIMER] {work} started"⟩ ::
    (events ++ [⟨.debug, .timers, s!"[TIMER] {work} took {elapsed.milliseconds}ms"⟩])

end KeyboardInfo.Log
