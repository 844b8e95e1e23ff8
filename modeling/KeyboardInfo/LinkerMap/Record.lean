import KeyboardInfo.Log
import KeyboardInfo.Key
import KeyboardInfo.Text.Hex
import KeyboardInfo.Node.Basic

/-! What a linker map records about a keyboard firmware.

Keyboard functions are recorded one by one, each with its extent. The three layout
matrices are recorded together or not at all. -/
namespace KeyboardInfo.LinkerMap
open Log (Event)

/-- Where a symbol lies in the image and how many bytes it takes. -/
structure Extent where
  position : UInt64
  length : UInt64
  deriving DecidableEq, Repr

def Extent.node (e : Extent) : Node :=
  (Node.single Key.position (.number e.position)).insert Key.length (.number e.length)

/-- A keyboard function in the image. -/
structure KeyFunction where
  name : String
  extent : Extent
  deriving DecidableEq, Repr

def KeyFunction.node (f : KeyFunction) : Node :=
  .single Key.keyboardFunctions (.single f.name f.extent.node)

/-- The matrices of a layout: what each key is, and what it does on press and on release. -/
inductive Matrix where
  | keys
  | press
  | release
  deriving DecidableEq, Repr

def Matrix.all : List Matrix := [.keys, .press, .release]

/-- The symbol that the image has for a matrix. -/
def Matrix.symbol : Matrix → String
  | .keys => "_kb_layout"
  | .press => "_kb_layout_press"
  | .release => "_kb_layout_release"

/-- Where the matrices of a layout lie. -/
structure LayoutMatrices where
  keys : Extent
  press : Extent
  release : Extent
  deriving DecidableEq, Repr

/-- The matrices at some positions. The entries of the press and release matrices are
two bytes wide, those of the key matrix one. -/
def LayoutMatrices.ofKeyLength (keyLength keys press release : UInt64) : LayoutMatrices :=
  ⟨⟨keys, keyLength⟩, ⟨press, keyLength * 2⟩, ⟨release, keyLength * 2⟩⟩

def LayoutMatrices.node (m : LayoutMatrices) : Node :=
  .single Key.layoutMatrices
    (((Node.single Matrix.keys.symbol m.keys.node).insert Matrix.press.symbol
      m.press.node).insert Matrix.release.symbol m.release.node)

/-- One find in a linker map. -/
inductive Record where
  | function (f : KeyFunction)
  | layout (m : LayoutMatrices)
  deriving DecidableEq, Repr

namespace Record

def node : Record → Node
  | .function f => f.node
  | .layout m => m.node

def message : Record → String
  | .function ⟨name, extent⟩ =>
    s!"Keyboard function {name} at 0x{Text.Hex.write extent.position} ({extent.length} bytes)"
  | .layout ⟨keys, press, release⟩ =>
    let hex := Text.Hex.write
    s!"Layout matrices at 0x{hex keys.position}/0x{hex press.position}/0x{hex release.position} (base length {keys.length})"

def event (r : Record) : Event := ⟨.debug, .mapParser, r.message⟩

end Record

end KeyboardInfo.LinkerMap
