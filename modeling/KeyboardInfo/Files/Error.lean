/-! Why a file cannot be opened, read or written. -/
namespace KeyboardInfo.Files

inductive FileError where
  | notFound
  /-- Something that is no directory is used as one. -/
  | notADirectory
  | isADirectory
  /-- A path, or a name in it, is longer than the system takes. -/
  | nameTooLong
  /-- Something that is neither a file nor a folder is to be written. -/
  | notAFile
  /-- A line that is not UTF-8. -/
  | invalidText
  /-- Any other refusal, in the words of the system. -/
  | other (text : String)
  deriving DecidableEq, Repr

def FileError.message : FileError → String
  | .notFound => "No such file or directory (os error 2)"
  | .notADirectory => "Not a directory (os error 20)"
  | .isADirectory => "Is a directory (os error 21)"
  | .notAFile => "No such device or address (os error 6)"
  | .nameTooLong => "File name too long (os error 36)"
  | .invalidText => "stream did not contain valid UTF-8"
  | .other text => text

end KeyboardInfo.Files
