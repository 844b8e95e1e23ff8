/-! Paths as text: their parts, joining, how long they may be, and the extension of a file. -/
namespace KeyboardInfo.Files.Path

/-- What stands between the slashes of a path, empty parts included. -/
def parts (path : String) : List String := (path.toList.splitOn '/').map String.ofList

/-- The path of a name in a folder. -/
def join (folder name : String) : String :=
  if folder.isEmpty || folder.toList.getLast? = some '/' then folder ++ name
  else folder ++ "/" ++ name

/-- Whether a path has more bytes than the system takes. -/
def isTooLong (path : String) : Bool := 4095 < path.utf8ByteSize

/-- Whether a name has more bytes than the system takes. -/
def isLongName (name : String) : Bool := 255 < name.utf8ByteSize

/-- The last part of a path that names something: empty parts and single dots at the
end do not count, and two dots name nothing. -/
def fileName? (path : String) : Option String :=
  match (parts path).reverse.dropWhile fun part => part == "" || part == "." with
  | [] => none
  | ".." :: _ => none
  | name :: _ => some name

/-- What follows the last dot of a name, unless that dot is its first character. -/
def extension? (name : String) : Option String :=
  let reversed := name.toList.reverse
  let extension := (reversed.takeWhile (· != '.')).reverse
  match reversed.dropWhile (· != '.') with
  | [] | [_] => none
  | _ :: _ :: _ => some (String.ofList extension)

/-- An extension as it is compared with those of files: without dots in front. -/
def bareExtension (text : String) : String := String.ofList (text.toList.dropWhile (· == '.'))

end KeyboardInfo.Files.Path
