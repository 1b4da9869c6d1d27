/-!
# Arguments

How the words of a command line are read.  A word is read into marks without regard to
the words around it, unless a lone `--` stands in front of it; the marks are then taken
one by one.

* `Parameter`, `Flag`, `Switch` — what can be given.
* `Mark.ofWord`, `Mark.ofWords` — the marks of words.
* `UsageError` — why a command line is refused, and its message.
* `Reading` — the state between two marks.  A value is checked only when the next mark
  has come, so a word that cannot be read at all is reported before it.
* `Request.read` — what a command line asks for.
-/

namespace MettaSchema

/-! ## What can be given -/

/-- What a value can be given for. -/
inductive Parameter where
  /-- The file to translate; its value stands alone. -/
  | input
  /-- The file to write. -/
  | output
  /-- What stands in front of every symbol. -/
  | symbolPrefix
  /-- A directory in which imported files are searched. -/
  | includePath
  deriving DecidableEq, Repr, Inhabited

/-- What is given without a value. -/
inductive Flag where
  /-- Constructors get curried types. -/
  | curried
  /-- More is said about what is done. -/
  | verbose
  /-- Only the help is shown. -/
  | help
  /-- Only the version is shown. -/
  | version
  deriving DecidableEq, Repr, Inhabited

/-- What a name behind dashes can stand for. -/
inductive Switch where
  /-- The value of a parameter follows. -/
  | parameter (parameter : Parameter)
  /-- A flag. -/
  | flag (flag : Flag)
  deriving DecidableEq, Repr, Inhabited

/-- How a parameter is shown in messages. -/
def Parameter.shown : Parameter → String
  | input => "<INPUT>"
  | output => "--output <OUTPUT>"
  | symbolPrefix => "--prefix <PREFIX>"
  | includePath => "--proto-path <PROTO_PATHS>"

/-- Whether the value of a parameter is a path.  A path is never empty. -/
def Parameter.isPath : Parameter → Bool
  | symbolPrefix => false
  | _ => true

/-- How a flag is shown in messages. -/
def Flag.shown : Flag → String
  | curried => "--curried"
  | verbose => "--verbose..."
  | help => "--help"
  | version => "--version"

namespace Switch

/-- How a switch is shown in messages. -/
def shown : Switch → String
  | parameter p => p.shown
  | flag f => f.shown

/-- All switches, with their long names and their letters. -/
def table : List (String × Char × Switch) :=
  [("output", 'o', .parameter .output), ("prefix", 'p', .parameter .symbolPrefix),
   ("curried", 'c', .flag .curried), ("proto-path", 'I', .parameter .includePath),
   ("verbose", 'v', .flag .verbose), ("help", 'h', .flag .help),
   ("version", 'V', .flag .version)]

/-- The switch of a long name. -/
def ofName? (name : String) : Option Switch :=
  (table.find? (·.1 == name)).map (·.2.2)

/-- The switch of a letter. -/
def ofLetter? (letter : Char) : Option Switch :=
  (table.find? (·.2.1 == letter)).map (·.2.2)

end Switch

/-! ## Errors -/

/-- Why a command line is refused. -/
inductive UsageError where
  /-- A word, or a switch in it, has no meaning here. -/
  | unexpectedArgument (text : String)
  /-- A flag got a value. -/
  | unexpectedValue (flag : Flag) (value : String)
  /-- A parameter got no value, or an empty path. -/
  | valueRequired (parameter : Parameter)
  /-- What can be given once was given again. -/
  | givenAgain (switch : Switch)
  /-- There is no file to translate. -/
  | inputMissing
  deriving DecidableEq, Repr

/-- The message of a usage error. -/
def UsageError.message : UsageError → String
  | unexpectedArgument text => "unexpected argument '" ++ text ++ "' found"
  | unexpectedValue flag value =>
    "unexpected value '" ++ value ++ "' for '" ++ flag.shown ++ "' found; no more were expected"
  | valueRequired parameter =>
    "a value is required for '" ++ parameter.shown ++ "' but none was supplied"
  | givenAgain switch => "the argument '" ++ switch.shown ++ "' cannot be used multiple times"
  | inputMissing => "the following required arguments were not provided:"

/-! ## Marks -/

/-- What a word says. -/
inductive Mark where
  /-- A flag. -/
  | flag (flag : Flag)
  /-- A parameter, with its value if that is in the same word. -/
  | parameter (parameter : Parameter) (value : Option String)
  /-- A word without a switch: the value of a parameter in front of it, or an operand. -/
  | plain (text : String)
  /-- A word that is an operand in any case. -/
  | operand (text : String)
  /-- The word cannot be read further. -/
  | refused (error : UsageError)
  deriving DecidableEq, Repr

namespace Mark

/-- The mark of a long switch, given what stands behind the two dashes. -/
def ofLong (body : List Char) : Mark :=
  let name := String.ofList (body.takeWhile (· != '='))
  let value := match body.dropWhile (· != '=') with
    | [] => none
    | _ :: value => some (String.ofList value)
  match Switch.ofName? name, value with
  | none, _ => .refused (.unexpectedArgument ("--" ++ name))
  | some (.parameter p), value => .parameter p value
  | some (.flag f), none => .flag f
  | some (.flag f), some value => .refused (.unexpectedValue f value)

/-- A value that stands directly behind the letter of its parameter, or behind an equals
sign there. -/
def attached? : List Char → Option String
  | [] => none
  | '=' :: value => some (String.ofList value)
  | value => some (String.ofList value)

/-- The marks of switches that are letters in one word: any number of flags, and what
follows a parameter is its value. -/
def ofLetters : List Char → List Mark
  | [] => []
  | letter :: rest =>
    match Switch.ofLetter? letter with
    | none => [.refused (.unexpectedArgument (String.ofList ['-', letter]))]
    | some (.flag f) => .flag f :: ofLetters rest
    | some (.parameter p) => [.parameter p (attached? rest)]

/-- The marks of a word.  A lone dash is no switch. -/
def ofWord (word : String) : List Mark :=
  match word.toList with
  | '-' :: '-' :: body => [ofLong body]
  | '-' :: letter :: letters => ofLetters (letter :: letters)
  | _ => [.plain word]

/-- The marks of all words.  Behind two lone dashes there are only operands. -/
def ofWords : List String → List Mark
  | [] => []
  | word :: words =>
    if word = "--" then words.map .operand else ofWord word ++ ofWords words

end Mark

/-! ## Requests -/

/-- What is given for a translation. -/
structure Arguments where
  /-- The file to translate. -/
  input : String
  /-- The file to write, if it is named. -/
  output : Option String
  /-- What stands in front of every symbol. -/
  symbolPrefix : String
  /-- Whether constructors get curried types. -/
  curried : Bool
  /-- The directories in which imported files are searched. -/
  includePaths : List String
  /-- How much is said about what is done. -/
  verbosity : Nat
  deriving DecidableEq, Repr, Inhabited

/-- What a command line asks for. -/
inductive Request where
  /-- The help. -/
  | help
  /-- The version. -/
  | version
  /-- A translation. -/
  | translate (arguments : Arguments)
  deriving DecidableEq, Repr

/-- What has been given so far. -/
structure Reading where
  /-- The file to translate. -/
  input : Option String := none
  /-- The file to write. -/
  output : Option String := none
  /-- What stands in front of every symbol. -/
  symbolPrefix : Option String := none
  /-- Whether constructors get curried types. -/
  curried : Bool := false
  /-- The directories in which imported files are searched. -/
  includePaths : List String := []
  /-- How much is said about what is done. -/
  verbosity : Nat := 0
  /-- The last parameter, if it has not been checked, and its value if there is one. -/
  pending : Option (Parameter × Option String) := none
  deriving DecidableEq, Repr, Inhabited

namespace Reading

/-- Whether a parameter that can be given once has been given. -/
def isGiven (reading : Reading) : Parameter → Bool
  | .input => reading.input.isSome
  | .output => reading.output.isSome
  | .symbolPrefix => reading.symbolPrefix.isSome
  | .includePath => false

/-- Takes the value of a parameter over. -/
def assign (reading : Reading) (parameter : Parameter) (value : String) : Reading :=
  match parameter with
  | .input => { reading with input := some value }
  | .output => { reading with output := some value }
  | .symbolPrefix => { reading with symbolPrefix := some value }
  | .includePath => { reading with includePaths := reading.includePaths ++ [value] }

/-- Checks the last parameter and takes its value over. -/
def settle (reading : Reading) : Except UsageError Reading :=
  match reading.pending with
  | none => .ok reading
  | some (parameter, none) => .error (.valueRequired parameter)
  | some (parameter, some value) =>
    if reading.isGiven parameter then .error (.givenAgain (.parameter parameter))
    else if parameter.isPath && value == "" then .error (.valueRequired parameter)
    else .ok { reading.assign parameter value with pending := none }

/-- Whether an operand has come already, checked or not. -/
def hasOperand (reading : Reading) : Bool :=
  reading.input.isSome || reading.pending.any (·.1 == .input)

/-- Takes an operand.  Only the input is one. -/
def operand (reading : Reading) (text : String) : Except UsageError Reading :=
  if reading.hasOperand then .error (.unexpectedArgument text)
  else do
    let settled ← reading.settle
    return { settled with pending := some (.input, some text) }

/-- Takes a word without a switch. -/
def plain (reading : Reading) (text : String) : Except UsageError Reading :=
  match reading.pending with
  | some (parameter, none) => .ok { reading with pending := some (parameter, some text) }
  | _ => reading.operand text

/-- What is asked for when no word is left. -/
def finish (reading : Reading) : Except UsageError Request := do
  let settled ← reading.settle
  match settled.input with
  | none => .error .inputMissing
  | some input =>
    .ok <| .translate
      { input
        output := settled.output
        symbolPrefix := settled.symbolPrefix.getD ""
        curried := settled.curried
        includePaths := settled.includePaths
        verbosity := settled.verbosity }

/-- Takes marks one by one.  Help and version end the reading. -/
def take (reading : Reading) : List Mark → Except UsageError Request
  | [] => reading.finish
  | .flag .help :: _ => reading.settle.map fun _ => .help
  | .flag .version :: _ => reading.settle.map fun _ => .version
  | .flag .verbose :: marks => do
    let settled ← reading.settle
    take { settled with verbosity := settled.verbosity + 1 } marks
  | .flag .curried :: marks => do
    let settled ← reading.settle
    if settled.curried then .error (.givenAgain (.flag .curried))
    else take { settled with curried := true } marks
  | .parameter parameter value :: marks => do
    let settled ← reading.settle
    take { settled with pending := some (parameter, value) } marks
  | .plain text :: marks => do take (← reading.plain text) marks
  | .operand text :: marks => do take (← reading.operand text) marks
  | .refused error :: _ => .error error

end Reading

/-- What the words of a command line ask for. -/
def Request.read (words : List String) : Except UsageError Request :=
  Reading.take {} (Mark.ofWords words)

end MettaSchema
