import MettaSchema.Command.Run

/-!
# The program

The command on the files of the disk.  All that is decided is decided elsewhere: here files are
read and written, and the answer is printed.
-/

namespace MettaSchema

namespace Disk

/-- The number of an error of the system, which can be given with either sign. -/
def errorNumber (code : UInt32) : Nat :=
  if code < 0x80000000 then code.toNat else (0 - code).toNat

/-- The error of the system with a number and a text. -/
def fileErrorOf (code : UInt32) (details : String) : FileError :=
  match errorNumber code with
  | 2 => .notFound
  | 20 => .notDirectory
  | 21 => .isDirectory
  | number => .other (details.capitalize ++ " (os error " ++ toString number ++ ")")

/-- The cause of an error of the system. -/
def fileError : IO.Error → FileError
  | .noFileOrDirectory _ _ _ => .notFound
  | .inappropriateType _ code details => fileErrorOf code details
  | .permissionDenied _ code details => fileErrorOf code details
  | .invalidArgument _ code details => fileErrorOf code details
  | .resourceExhausted _ code details => fileErrorOf code details
  | .resourceBusy code details => fileErrorOf code details
  | .hardwareFault code details => fileErrorOf code details
  | .otherError code details => fileErrorOf code details
  | error => .other (toString error)

/-- The text of a file. -/
def readText (path : String) : IO (Except FileError String) := do
  try
    let content ← IO.FS.readBinFile path
    match String.fromUTF8? content with
    | some text => return .ok text
    | none => return .error .notText
  catch error => return .error (fileError error)

/-- Writes a text to a file. -/
def writeText (path text : String) : IO (Except FileError Unit) := do
  try
    IO.FS.writeFile path text
    return .ok ()
  catch error => return .error (fileError error)

/-- Whether a path leads to a file. -/
def isFile (path : String) : IO Bool := do
  match ← readText path with
  | .ok _ => return true
  | .error error => return error == .notText

/-- The files of the disk.  No disk holds as many bytes as are named here. -/
instance : FileAccess IO where
  isFile := isFile
  readText := readText
  writeText := writeText
  capacity := return Nat.pow 2 128

end Disk

end MettaSchema

open MettaSchema in
/-- Does what the words of the command line ask for. -/
def main (words : List String) : IO UInt32 := do
  let answer : Answer ← Answer.ofWords words
  IO.print answer.stdout
  if let some text := answer.stderr then IO.eprintln text.trimAsciiEnd
  return answer.exitCode.toUInt32
