import KeyboardInfo.Config
import KeyboardInfo.LinkerMap.Error
import KeyboardInfo.Source.Error

/-! Why a report cannot be made. -/
namespace KeyboardInfo.Report
open LinkerMap Source

inductive ReportError where
  | config (cause : ConfigError)
  /-- The linker map at a path cannot be read. -/
  | linkerMap (path : String) (cause : MapError)
  | source (cause : SourceError)
  /-- No length is known of the matrix that the number of layers is computed from. -/
  | missingKeyLength
  deriving DecidableEq, Repr

namespace ReportError

def message : ReportError → String
  | .config cause => s!"Invalid configuration: {cause.message}"
  | .linkerMap path cause => s!"{path}: {cause.message}"
  | .source cause => cause.message
  | .missingKeyLength =>
    s!"Cannot compute number-of-layers: no length recorded for layout matrix '{Matrix.keys.symbol}'"

/-- The messages of the causes below an error, outermost first. An error of the
sources stands for itself. -/
def causes : ReportError → List String
  | .config cause => [cause.message]
  | .linkerMap _ cause => cause.message :: cause.causes
  | .source cause => cause.causes
  | .missingKeyLength => []

end ReportError

end KeyboardInfo.Report
