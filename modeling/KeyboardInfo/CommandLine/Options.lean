import KeyboardInfo.Config

/-! The options of the command line.

Arguments are read from the first to the last, and the first one that cannot stand
where it stands ends the reading. A switch stands for itself; a setting takes a value,
attached to it (`--output=x`, `-ox`, `-o=x`) or as the argument after it, which must not
look like an option then. Asking for the version or for help ends the reading too,
whatever follows. There are no arguments other than options. -/
namespace KeyboardInfo.CommandLine

/-- Options that take a value. -/
inductive Setting where
  | commitDate
  | commitId
  | mapFile
  | sources
  | output
  | extension
  | indent
  | logLevel
  deriving DecidableEq, Repr

/-- The long name of a setting. -/
def Setting.name : Setting → String
  | .commitDate => "git-commit-date"
  | .commitId => "git-commit-id"
  | .mapFile => "map-file-path"
  | .sources => "source-code-path"
  | .output => "output"
  | .extension => "source-extension"
  | .indent => "indent"
  | .logLevel => "log-level"

def Setting.all : List Setting :=
  [.commitDate, .commitId, .mapFile, .sources, .output, .extension, .indent, .logLevel]

/-- Options that stand for themselves. -/
inductive Switch where
  | undated
  | version
  | help
  deriving DecidableEq, Repr

/-- The long name of a switch. -/
def Switch.name : Switch → String
  | .undated => "no-timestamp"
  | .version => "version"
  | .help => "help"

def Switch.all : List Switch := [.undated, .version, .help]

/-- Any option. -/
inductive Flag where
  | setting (s : Setting)
  | switch (s : Switch)
  deriving DecidableEq, Repr

def Flag.name : Flag → String
  | .setting s => s.name
  | .switch s => s.name

def Flag.all : List Flag := Setting.all.map .setting ++ Switch.all.map .switch

def Flag.ofLong? (name : String) : Option Flag := Flag.all.find? fun flag => flag.name == name

def Flag.ofShort? : Char → Option Flag
  | 'o' => some (.setting .output)
  | 'l' => some (.setting .logLevel)
  | 'V' => some (.switch .version)
  | 'h' => some (.switch .help)
  | _ => none

/-! ### What the options come to -/

/-- Why arguments are refused. -/
inductive UsageError where
  | unknownOption (text : String)
  | extraArgument (text : String)
  | repeated (flag : Flag)
  | missingValue (setting : Setting)
  | unexpectedValue (switch : Switch)
  | emptyPath (setting : Setting)
  | notANumber (text : String)
  | missingOption (setting : Setting)
  deriving DecidableEq, Repr

def UsageError.message : UsageError → String
  | .unknownOption text => s!"unexpected argument '{text}' found"
  | .extraArgument text => s!"unexpected argument '{text}' found"
  | .repeated flag => s!"the option '--{flag.name}' is given more than once"
  | .missingValue setting => s!"the option '--{setting.name}' needs a value"
  | .unexpectedValue switch => s!"the option '--{switch.name}' takes no value"
  | .emptyPath setting => s!"the value of '--{setting.name}' is empty"
  | .notANumber text => s!"'{text}' is no number for '--{Setting.indent.name}'"
  | .missingOption setting => s!"the option '--{setting.name}' is missing"

/-- The options read so far. -/
structure Given where
  commitDate : Option String
  commitId : Option String
  mapFile : Option String
  sources : Option String
  output : Option String
  extension : Option String
  indent : Option Nat
  logLevel : Option String
  undated : Bool
  deriving DecidableEq, Repr

/-- No options. -/
def Given.nothing : Given := ⟨none, none, none, none, none, none, none, none, false⟩

/-- A number in decimal digits that fits in 64 bits; a plus sign may stand before it. -/
def number? (text : String) : Option Nat :=
  let digits := match text.toList with
    | '+' :: digits => digits
    | digits => digits
  let value := digits.foldl (fun n c => n * 10 + (c.toNat - '0'.toNat)) 0
  if !digits.isEmpty && digits.all Char.isDigit && value < UInt64.size then some value else none

/-- The value of a setting that must be given once. -/
def once {α : Type} (setting : Setting) (before : Option α) (value : α) :
    Except UsageError (Option α) :=
  match before with
  | some _ => .error (.repeated (.setting setting))
  | none => .ok (some value)

/-- The value of a setting that is a path and must be given once. -/
def oncePath (setting : Setting) (before : Option String) (value : String) :
    Except UsageError (Option String) :=
  if value.isEmpty then .error (.emptyPath setting) else once setting before value

/-- Gives a setting a value. -/
def Given.set (g : Given) (setting : Setting) (value : String) : Except UsageError Given :=
  match setting with
  | .commitDate => do return {g with commitDate := ← once setting g.commitDate value}
  | .commitId => do return {g with commitId := ← once setting g.commitId value}
  | .mapFile => do return {g with mapFile := ← oncePath setting g.mapFile value}
  | .sources => do return {g with sources := ← oncePath setting g.sources value}
  | .output => do return {g with output := ← oncePath setting g.output value}
  | .extension => do return {g with extension := ← once setting g.extension value}
  | .indent =>
    match number? value with
    | some n => do return {g with indent := ← once setting g.indent n}
    | none => .error (.notANumber value)
  | .logLevel => do return {g with logLevel := ← once setting g.logLevel value}

/-- What the options of a run come to. -/
structure Options where
  config : Config
  logLevel : String
  deriving DecidableEq, Repr

def defaultLogLevel : String := "warn"

/-- The value of a setting that must be given. -/
def required (setting : Setting) : Option String → Except UsageError String
  | some value => .ok value
  | none => .error (.missingOption setting)

/-- The options that were given, completed by the defaults. -/
def Given.complete (g : Given) : Except UsageError Options := do
  let commitDate ← required .commitDate g.commitDate
  let commitId ← required .commitId g.commitId
  let mapFile ← required .mapFile g.mapFile
  let sources ← required .sources g.sources
  let config := (Config.ofInputs mapFile sources commitDate commitId).withExtension
    (g.extension.getD Config.defaultExtension)
  let config := {config with
    dated := !g.undated
    indent := g.indent.getD Config.defaultIndent
    output := g.output}
  return ⟨config, g.logLevel.getD defaultLogLevel⟩

/-! ### Reading arguments -/

/-- One step of a command line. -/
inductive Item where
  | switch (s : Switch)
  | setting (s : Setting) (value : String)
  | fault (e : UsageError)
  deriving DecidableEq, Repr

/-- What one argument says by itself. -/
inductive Argument where
  | item (i : Item)
  /-- A setting whose value is to be the next argument. -/
  | needsValue (setting : Setting)
  /-- Two dashes, after which nothing is an option. -/
  | endOfOptions
  /-- No option; a single dash is none either. -/
  | value (text : String)
  deriving DecidableEq, Repr

/-- The argument `text` that names a flag and may have a value attached. -/
def Argument.ofFlag (text : String) (flag : Option Flag) (attached : Option (List Char)) : Argument :=
  match flag, attached with
  | none, _ => .item (.fault (.unknownOption text))
  | some (.switch s), none => .item (.switch s)
  | some (.switch s), some _ => .item (.fault (.unexpectedValue s))
  | some (.setting s), some attached => .item (.setting s (String.ofList attached))
  | some (.setting s), none => .needsValue s

/-- What an argument says by its text. -/
def Argument.ofText (text : String) : Argument :=
  match text.toList with
  | ['-', '-'] => .endOfOptions
  | '-' :: '-' :: rest =>
    let flag := Flag.ofLong? (String.ofList (rest.takeWhile (· != '=')))
    match rest.dropWhile (· != '=') with
    | [] => ofFlag text flag none
    | _ :: attached => ofFlag text flag (some attached)
  | '-' :: name :: rest =>
    match Flag.ofShort? name, rest with
    -- What follows a short switch would be more short names, and no short switch goes on.
    | some (.switch s), _ => .item (.switch s)
    | flag, [] => ofFlag text flag none
    | flag, '=' :: attached => ofFlag text flag (some attached)
    | flag, attached => ofFlag text flag (some attached)
  | _ => .value text

/-- The steps of a command line, up to the first argument that is out of place. -/
def items : List String → List Item
  | [] => []
  | text :: rest =>
    match Argument.ofText text with
    | .item i => i :: items rest
    | .value text => [.fault (.extraArgument text)]
    | .endOfOptions => rest.head?.toList.map fun text => .fault (.extraArgument text)
    | .needsValue setting =>
      match rest with
      | [] => [.fault (.missingValue setting)]
      | next :: rest =>
        match Argument.ofText next with
        | .value value => .setting setting value :: items rest
        | _ => [.fault (.missingValue setting)]

/-- What the user asks for. -/
inductive Request where
  | version
  | help
  | make (options : Options)
  deriving DecidableEq, Repr

/-- Follows steps on from the options given before. -/
def followItems (g : Given) : List Item → Except UsageError Request
  | [] => g.complete.map .make
  | .fault e :: _ => .error e
  | .switch .version :: _ => .ok .version
  | .switch .help :: _ => .ok .help
  | .switch .undated :: rest =>
    if g.undated then .error (.repeated (.switch .undated))
    else followItems {g with undated := true} rest
  | .setting setting value :: rest =>
    match g.set setting value with
    | .ok g => followItems g rest
    | .error e => .error e

/-- What a whole command line asks for. -/
def Request.ofArguments (arguments : List String) : Except UsageError Request :=
  followItems .nothing (items arguments)

end KeyboardInfo.CommandLine
