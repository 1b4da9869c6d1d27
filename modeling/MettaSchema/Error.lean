import MettaSchema.Grammar.SyntaxError

/-!
# What can go wrong

The causes for which a schema is refused, each with its message.

* `FileError` — why the content of a path cannot be had as text.
* `SchemaError` — why a schema cannot be read, resolved or loaded.
* `FileError.message`, `SchemaError.message` — the messages.
-/

namespace MettaSchema

/-- Why the content of a path cannot be had as text, or cannot be written. -/
inductive FileError where
  /-- Nothing is there. -/
  | notFound
  /-- The path leads through a file as if it were a directory. -/
  | notDirectory
  /-- A directory is there. -/
  | isDirectory
  /-- The content is not UTF-8. -/
  | notText
  /-- Anything else; the text says what. -/
  | other (text : String)
  deriving DecidableEq, Repr

/-- The message of a file error. -/
def FileError.message : FileError → String
  | notFound => "No such file or directory (os error 2)"
  | notDirectory => "Not a directory (os error 20)"
  | isDirectory => "Is a directory (os error 21)"
  | notText => "stream did not contain valid UTF-8"
  | other text => text

/-- Why a schema cannot be read, resolved or loaded. -/
inductive SchemaError where
  /-- A file cannot be read. -/
  | unreadable (path : String) (cause : FileError)
  /-- A text does not follow the grammar. -/
  | badSyntax (error : SyntaxError)
  /-- A file names a dialect that is not known. -/
  | unsupportedDialect (text : String)
  /-- A number is out of range for its place. -/
  | invalidNumber (text : String)
  /-- A name that is used as a type is declared nowhere in reach. -/
  | unresolvedType (name scope : String)
  /-- Two fields of a message have one number. -/
  | duplicateFieldNumber (message : String) (number : Nat)
  /-- An imported file is nowhere to be found. -/
  | importNotFound (wanted importer : String)
  /-- No kind of field has this index. -/
  | unknownKind (index : Int)
  /-- A statement lacks one of its parts. -/
  | malformed
  deriving DecidableEq, Repr

/-- The message of a schema error. -/
def SchemaError.message : SchemaError → String
  | unreadable path cause => "IO error reading " ++ path ++ ": " ++ cause.message
  | badSyntax error => "Parse error: " ++ error.message
  | unsupportedDialect text => "unsupported syntax `" ++ text ++ "`, expected proto2 or proto3"
  | invalidNumber text => "invalid number `" ++ text ++ "`"
  | unresolvedType name scope =>
    "type `" ++ name ++ "` is not defined (referenced from `" ++ scope ++ "`)"
  | duplicateFieldNumber message number =>
    "field number " ++ toString number ++ " is used twice in message `" ++ message ++ "`"
  | importNotFound wanted importer =>
    "import `" ++ wanted ++ "` not found (imported by " ++ importer ++ ")"
  | unknownKind index => "unknown field kind " ++ toString index
  | malformed => "malformed statement"

end MettaSchema
