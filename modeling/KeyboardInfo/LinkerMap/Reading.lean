import KeyboardInfo.Files.Tree
import KeyboardInfo.LinkerMap.Extraction

/-! Reading a linker map from a file. -/
namespace KeyboardInfo.LinkerMap
open Files Log

/-- The tree of the map at a path. -/
def treeOfFile (v : View) (path : String) : Logged (Except MapError Node) :=
  if v.has path then
    let opening : Event := ⟨.info, .mapParser, s!"Parsing map file {path}"⟩
    match v.stream path with
    | .error cause => ⟨[opening], .error (.unreadable cause)⟩
    | .ok stream =>
      let extraction := Extraction.ofCursor (.ofStream stream)
      ⟨opening :: extraction.events, extraction.result⟩
  else ⟨[], .error (.invalidPath path)⟩

end KeyboardInfo.LinkerMap
