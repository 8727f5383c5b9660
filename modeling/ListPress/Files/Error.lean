/-! # Failures of file operations -/

namespace ListPress

inductive FileError where
  | notFound
  | isDirectory
  | notDirectory
  | nameTooLong
  | alreadyExists
  | nulInPath
  | notUtf8
  /-- A failure that only the system can describe. -/
  | other (text : String)
deriving DecidableEq

def FileError.message : FileError → String
  | .notFound => "No such file or directory (os error 2)"
  | .isDirectory => "Is a directory (os error 21)"
  | .notDirectory => "Not a directory (os error 20)"
  | .nameTooLong => "File name too long (os error 36)"
  | .alreadyExists => "File exists (os error 17)"
  | .nulInPath => "file name contained an unexpected NUL byte"
  | .notUtf8 => "stream did not contain valid UTF-8"
  | .other text => text

/-- The text of UTF-8 bytes. -/
def decodeText (bytes : ByteArray) : Except FileError String :=
  match String.fromUTF8? bytes with
  | some text => .ok text
  | none => .error .notUtf8

end ListPress
