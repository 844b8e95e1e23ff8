import KeyboardInfo.Key
import KeyboardInfo.Node.Basic

/-! What a report says about itself and the firmware it was made for. -/
namespace KeyboardInfo.Report

structure Metadata where
  dateGenerated : Option String
  commitDate : String
  commitId : String
  deriving DecidableEq, Repr

/-- The version of the form that reports have. -/
def formatVersion : UInt64 := 0

def Metadata.node (m : Metadata) : Node :=
  let about := (Node.single "version" (.number formatVersion)).insert "date-generated"
    (.textOrNull m.dateGenerated)
  let commit := (Node.single "git-commit-date" (.text m.commitDate)).insert "git-commit-id"
    (.text m.commitId)
  (Node.single Key.metaData about).insert Key.miscellaneous commit

end KeyboardInfo.Report
