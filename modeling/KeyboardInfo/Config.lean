import KeyboardInfo.Files.Tree

/-! What a report is to be made from, and how. -/
namespace KeyboardInfo
open Files

structure Config where
  mapFile : String
  /-- A folder of sources, or a single source file. -/
  sources : String
  commitDate : String
  commitId : String
  /-- Where the report goes; without it, to the standard output. -/
  output : Option String
  extension : String
  /-- Whether the report says when it was made. -/
  dated : Bool
  /-- The indentation of the written report. -/
  indent : Nat
  deriving DecidableEq, Repr

inductive ConfigError where
  | missingMapFile (path : String)
  | missingSources (path : String)
  | emptyExtension
  deriving DecidableEq, Repr

def ConfigError.message : ConfigError → String
  | .missingMapFile path => s!"Map file does not exist: {path}"
  | .missingSources path => s!"Source directory does not exist: {path}"
  | .emptyExtension => "Source file extension must not be empty"

namespace Config

def defaultExtension : String := "c"

def defaultIndent : Nat := 4

/-- The configuration that says no more than it has to. -/
def ofInputs (mapFile sources commitDate commitId : String) : Config :=
  { mapFile, sources, commitDate, commitId
    output := none
    extension := defaultExtension
    dated := true
    indent := defaultIndent }

def withExtension (c : Config) (extension : String) : Config :=
  {c with extension := Path.bareExtension extension}

/-- Whether a report can be made at all. Only the first of several faults is told. -/
def check (v : View) (c : Config) : Except ConfigError Unit :=
  if !v.hasFile c.mapFile then .error (.missingMapFile c.mapFile)
  else if !v.has c.sources then .error (.missingSources c.sources)
  else if c.extension.isEmpty then .error .emptyExtension
  else .ok ()

end Config

end KeyboardInfo
