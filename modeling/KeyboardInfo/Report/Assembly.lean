import KeyboardInfo.LinkerMap.Reading
import KeyboardInfo.Report.Combining
import KeyboardInfo.Report.Timestamp
import KeyboardInfo.Source.Reading

/-! Assembling the report that a configuration asks for.

Nothing is read unless the configuration passes its check. The linker map comes
first, then the sources, and what fails first is told. -/
namespace KeyboardInfo.Report
open Files LinkerMap Log Source

/-- The times of a run: when it is, and how long its parts take. -/
structure Clock where
  now : Timestamp
  mapTime : Duration
  sourceTime : Duration
  total : Duration
  deriving DecidableEq, Repr

def metadataOf (clock : Clock) (c : Config) : Metadata :=
  ⟨if c.dated then some clock.now.render else none, c.commitDate, c.commitId⟩

/-- The tree of the configured linker map. -/
def mapTree (v : View) (c : Config) : Logged (Except MapError Node) := treeOfFile v c.mapFile

/-- The tree of the configured sources. -/
def sourceTree (v : View) (c : Config) : Logged (Except SourceError Node) :=
  scanTree v (Path.bareExtension c.extension) c.sources

/-- The report from the outcomes of its parts, in the order in which they count. -/
def assembleFrom (clock : Clock) (c : Config) (checked : Except ConfigError Unit)
    (map : Logged (Except MapError Node)) (sources : Logged (Except SourceError Node)) :
    Logged (Except ReportError Node) :=
  match checked with
  | .error cause => ⟨[], .error (.config cause)⟩
  | .ok () =>
    let mapEvents := timed "map file" clock.mapTime map.events
    match map.result with
    | .error cause => ⟨mapEvents, .error (.linkerMap c.mapFile cause)⟩
    | .ok mapTree =>
      let events := mapEvents ++ timed "source scan" clock.sourceTime sources.events
      match sources.result with
      | .error cause => ⟨events, .error (.source cause)⟩
      | .ok sourceTree =>
        let combined := combine (metadataOf clock c) mapTree sourceTree
        {combined with events := events ++ combined.events}

/-- The report on the files in view. -/
def assemble (v : View) (clock : Clock) (c : Config) : Logged (Except ReportError Node) :=
  assembleFrom clock c (c.check v) (mapTree v c) (sourceTree v c)

end KeyboardInfo.Report
