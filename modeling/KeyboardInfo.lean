import KeyboardInfo.Json.Writer
import KeyboardInfo.Report.Assembly
import KeyboardInfo.CommandLine.Run
import KeyboardInfo.Main
import KeyboardInfo.Proofs.Steps
import KeyboardInfo.Proofs.Grammar
import KeyboardInfo.Proofs.Spans
import KeyboardInfo.Proofs.Provenance
import KeyboardInfo.Proofs.Concatenation
import KeyboardInfo.Proofs.Rearranging
import KeyboardInfo.Proofs.Documentation
import KeyboardInfo.Proofs.Json.Faithful
import KeyboardInfo.Proofs.Outcomes
import KeyboardInfo.Proofs.Recorded
import KeyboardInfo.Proofs.Stages
import KeyboardInfo.Proofs.Writing
import KeyboardInfo.Proofs.Runs
import KeyboardInfo.Proofs.Trimming
import KeyboardInfo.Proofs.Readback
import KeyboardInfo.Proofs.Lengths
import KeyboardInfo.Proofs.PathOrder
import KeyboardInfo.Proofs.Spacing
import KeyboardInfo.Proofs.ErrorLines
import KeyboardInfo.Proofs.Layouts
import KeyboardInfo.Proofs.Declarations
import KeyboardInfo.Proofs.Combined
import KeyboardInfo.Proofs.Unplaced
import KeyboardInfo.Proofs.Unclosed
import KeyboardInfo.Proofs.Fields
import KeyboardInfo.Proofs.Lookahead
import KeyboardInfo.Proofs.Json.Layouts
import KeyboardInfo.Proofs.Numerals
import KeyboardInfo.Proofs.Endings
import KeyboardInfo.Proofs.Captures
import KeyboardInfo.Proofs.Names
