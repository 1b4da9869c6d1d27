import MettaSchema.Command.Arguments
import MettaSchema.Command.Report
import MettaSchema.Import.Search
import MettaSchema.Metta.Document

/-!
# Runs of the command

What a command line does: one file is loaded with its imports, and its document is written to one
file.

* `Arguments.search`, `Arguments.options`, `Arguments.outputPath` — what the arguments
  of a translation stand for.
* `Answer.ofWords` — what is said in a run, wherever files can be read and written.
* `Outcome.ofWords` — the outcome of a command line on a tree of files.
-/

namespace MettaSchema

namespace Arguments

/-- Where the imports are searched. -/
def search (arguments : Arguments) : Search :=
  ⟨arguments.includePaths⟩

/-- What is chosen about the document. -/
def options (arguments : Arguments) : Options :=
  { symbolPrefix := arguments.symbolPrefix, curried := arguments.curried }

/-- The file to write: if none is named, the input with another extension. -/
def outputPath (arguments : Arguments) : String :=
  arguments.output.getD (Path.withExtension arguments.input "metta")

end Arguments

namespace Request

/-- The answer to a question for the version. -/
def versionText : String := "protobuf-metta 0.1.0\n"

/-- The lines of the answer to a question for help. -/
def helpLines : List String :=
  ["Translate a protobuf schema into MeTTa type declarations",
   "",
   "Usage: protobuf-metta [OPTIONS] <INPUT>",
   "",
   "Arguments:",
   "  <INPUT>  Input .proto file",
   "",
   "Options:",
   "  -o, --output <OUTPUT>           "
     ++ "Output file [default: the input path with a .metta extension]",
   "  -p, --prefix <PREFIX>           "
     ++ "Prefix for every MeTTa symbol [default: the protobuf package] [default: ]",
   "  -c, --curried                   "
     ++ "Declare constructors as curried (nested single-argument) functions",
   "  -I, --proto-path <PROTO_PATHS>  Directories searched for imported .proto files",
   "  -v, --verbose...                Log progress to stderr (repeat for more detail)",
   "  -h, --help                      Print help",
   "  -V, --version                   Print version"]

/-- The answer to a question for help. -/
def helpText : String :=
  String.join (helpLines.map (· ++ "\n"))

end Request

/-- The report of a usage error. -/
def UsageError.report (error : UsageError) : String :=
  "error: " ++ error.message

/-- What is said in a run. -/
structure Answer where
  /-- The exit code. -/
  exitCode : Nat
  /-- What is written to the standard output. -/
  stdout : String
  /-- What is written to the standard error output, if anything is. -/
  stderr : Option String
  deriving DecidableEq

namespace Answer

/-- A run that is successful says nothing but what was asked for. -/
def success (text : String) : Answer :=
  { exitCode := 0, stdout := text, stderr := none }

/-- A run that fails. -/
def failure (exitCode : Nat) (text : String) : Answer :=
  { exitCode, stdout := "", stderr := some text }

section

variable {m : Type → Type} [Monad m] [FileAccess m]

/-- Translates a file. -/
def ofArguments (arguments : Arguments) : m Answer := do
  match ← (arguments.search.loadM arguments.input).run with
  | .error error => return failure 1 (Report.loading arguments.input error).text
  | .ok schema =>
    match ← FileAccess.writeText arguments.outputPath (schema.toMetta arguments.options) with
    | .error error => return failure 1 (Report.writing arguments.outputPath error).text
    | .ok () => return success ""

/-- Does what a command line asks for. -/
def ofWords (words : List String) : m Answer :=
  match Request.read words with
  | .error error => return failure 2 error.report
  | .ok .help => return success Request.helpText
  | .ok .version => return success Request.versionText
  | .ok (.translate arguments) => ofArguments arguments

end

end Answer

/-- What is left of a run. -/
structure Outcome extends Answer where
  /-- The files after the run. -/
  files : FileTree
  deriving DecidableEq

namespace Outcome

/-- The outcome of a program on a tree of files. -/
def ofProgram (program : StateM FileTree Answer) (tree : FileTree) : Outcome :=
  let (answer, files) := program.run tree
  { answer with files }

/-- The outcome of a translation. -/
def ofArguments (arguments : Arguments) (tree : FileTree) : Outcome :=
  ofProgram (Answer.ofArguments arguments) tree

/-- The outcome of a command line. -/
def ofWords (words : List String) (tree : FileTree) : Outcome :=
  ofProgram (Answer.ofWords words) tree

/-- A run that fails.  It leaves the files as they were. -/
def failed (tree : FileTree) (exitCode : Nat) (text : String) : Outcome :=
  { Answer.failure exitCode text with files := tree }

/-- A translation on a tree writes to it at most once, when the schema has been loaded. -/
theorem ofArguments_eq (arguments : Arguments) (tree : FileTree) :
    ofArguments arguments tree = match arguments.search.load tree arguments.input with
      | .error error => failed tree 1 (Report.loading arguments.input error).text
      | .ok schema =>
        match tree.writeText arguments.outputPath (schema.toMetta arguments.options) with
        | .error error => failed tree 1 (Report.writing arguments.outputPath error).text
        | .ok files => { Answer.success "" with files } := by
  have hload := arguments.search.gives_loadM tree arguments.input
  rw [← Search.load_eq] at hload
  rw [ofArguments, ofProgram, Answer.ofArguments, FileAccess.run_bind_of_run hload]
  cases arguments.search.load tree arguments.input with
  | error error => rfl
  | ok schema =>
    dsimp only
    rw [FileAccess.run_bind_of_run (FileAccess.run_writeText tree _ _)]
    cases tree.writeText arguments.outputPath (schema.toMetta arguments.options) <;> rfl

end Outcome

end MettaSchema
