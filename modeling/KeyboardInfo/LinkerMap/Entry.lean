import KeyboardInfo.Text.Pattern

/-! What the lines of a linker map look like.

A section of a keyboard function opens with a line that names it, then come a line
with its position and length and a line with its address and symbol. The section of
the layout matrices opens with a line that gives the length of all three, and then
come lines with the address and symbol of each. -/
namespace KeyboardInfo.LinkerMap.Entry
open Text

/-- What every number of a map begins with. -/
def mark : List Char := ['0', 'x']

/-- The first line of the section of a keyboard function. -/
def functionHeader : Pattern := ⟨true, [.run .blank 0, .literal ".text.kbfun_".toList]⟩

/-- The first line of the section of the layout matrices. -/
def layoutHeader : Pattern :=
  ⟨true, [.run .blank 0, .literal ".progmem.data".toList, .run .any 0, .literal "layout".toList]⟩

/-- Two numbers, the second a token of its own. -/
def extent : Pattern :=
  ⟨false, [.literal mark, .run .solid 1, .run .blank 1, .literal mark, .run .solid 1]⟩

/-- A number and the token after it. -/
def symbol : Pattern := ⟨false, [.literal mark, .run .solid 1, .run .blank 1, .run .solid 1]⟩

/-- A number and a given symbol, which ends the line. -/
def symbolAtEnd (name : List Char) : Pattern :=
  ⟨false, [.literal mark, .run .solid 1, .run .blank 1, .literal name, .run .blank 0, .finish]⟩

/-- The position and the length on a line. -/
def extentTokens? (line : List Char) : Option (List Char × List Char) :=
  match extent.find? line with
  | some [first, position, _, second, length] => some (first ++ position, second ++ length)
  | _ => none

/-- The symbol on a line. -/
def symbolToken? (line : List Char) : Option (List Char) :=
  match symbol.find? line with
  | some [_, _, _, name] => some name
  | _ => none

/-- The position on a line that ends in a given symbol. -/
def positionToken? (name line : List Char) : Option (List Char) :=
  match (symbolAtEnd name).find? line with
  | some (first :: position :: _) => some (first ++ position)
  | _ => none

end KeyboardInfo.LinkerMap.Entry
