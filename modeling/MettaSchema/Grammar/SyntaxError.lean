import MettaSchema.Grammar.Furthest

/-!
# Syntax errors

A syntax error says where a text stopped making sense and which rules could have
gone on there.  Its message shows the line and marks the place.

* `SyntaxError` — the place, the line as it is shown, and the rules.
* `SyntaxError.ofFurthest` — the error at the furthest place that was reached.
* `SyntaxError.message` — the message, on six lines.
-/

namespace MettaSchema

/-- Why a text could not be read. -/
structure SyntaxError where
  /-- The line of the place, from 1. -/
  line : Nat
  /-- The column of the place in characters, from 1. -/
  column : Nat
  /-- The line as the message shows it. -/
  shown : List Char
  /-- The rules that could have gone on, in grammar order. -/
  expected : List Rule
  deriving DecidableEq, Repr

namespace SyntaxError

/-! ## The line of a place -/

/-- The characters after the last line feed. -/
def lastLine (s : List Char) : List Char :=
  (s.reverse.takeWhile (· != '\n')).reverse

/-- The characters through the first line feed. -/
def firstLine (s : List Char) : List Char :=
  s.takeWhile (· != '\n') ++ (s.dropWhile (· != '\n')).take 1

/-- Shows the characters that end a line as symbols. -/
def showLineEnds (s : List Char) : List Char :=
  s.map fun c => if c = '\r' then '␍' else if c = '\n' then '␊' else c

/-- Leaves out the characters that end a line. -/
def dropLineEnds (s : List Char) : List Char :=
  s.filter (!Scan.isLineEnd ·)

/-- The line around a place with the text `done` before it and `rest` after it.
Line ends are shown only if the place itself is at one. -/
def shownLine (done rest : List Char) : List Char :=
  let line := lastLine done ++ firstLine rest
  if Scan.startsWith Scan.isLineEnd rest then showLineEnds line else dropLineEnds line

/-- The error at the furthest place that was reached in a text. -/
def ofFurthest (source : List Char) (f : Furthest) : SyntaxError :=
  let done := source.take f.offset
  { line := done.count '\n' + 1
    column := (lastLine done).length + 1
    shown := shownLine done (source.drop f.offset)
    expected := Rule.inGrammarOrder f.refused }

/-! ## The message -/

/-- Several names as one phrase: `a`, `a or b`, `a, b, or c`. -/
def enumerate : List String → String
  | [] => ""
  | [a] => a
  | [a, b] => a ++ " or " ++ b
  | names => ", ".intercalate names.dropLast ++ ", or " ++ names.getLastD ""

/-- What could have gone on at the place. -/
def expectation (e : SyntaxError) : String :=
  match e.expected with
  | [] => "unknown parsing error"
  | rules => "expected " ++ enumerate (rules.map Rule.name)

/-- The line that marks the place: a tab under a tab, a space under anything
else, and the mark. -/
def underline (e : SyntaxError) : List Char :=
  (e.shown.take (e.column - 1)).map fun c => if c = '\t' then '\t' else ' '

/-- The message of a syntax error. -/
def message (e : SyntaxError) : String :=
  let number := toString e.line
  let margin := String.ofList (List.replicate number.length ' ')
  margin ++ "--> " ++ number ++ ":" ++ toString e.column ++ "\n" ++
  margin ++ " |\n" ++
  number ++ " | " ++ String.ofList e.shown ++ "\n" ++
  margin ++ " | " ++ String.ofList e.underline ++ "^---\n" ++
  margin ++ " |\n" ++
  margin ++ " = " ++ e.expectation

end SyntaxError

namespace Proto

/-- Reads a phrase of the schema grammar off the front of a text, or says why that
cannot be done. -/
def parse (p : Phrase) (source : List Char) : Except SyntaxError (List Tree) :=
  match read p source with
  | some (trees, _) => .ok trees
  | none => .error (.ofFurthest source (furthest p source))

end Proto

end MettaSchema
