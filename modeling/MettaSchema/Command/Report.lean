import MettaSchema.Error

/-!
# Reports

How a failure is told: what failed, and below it the chain of causes.

* `Report` — a failure.
* `Report.text` — how it is written.
* `Report.loading`, `Report.writing` — the failures of a translation.
-/

namespace MettaSchema

/-- A failure and its causes, each one the cause of the one before. -/
structure Report where
  /-- What failed. -/
  summary : String
  /-- Why, the nearest cause first. -/
  causes : List String
  deriving DecidableEq, Repr, Inhabited

namespace Report

/-- A text with a margin in front of all its lines but the first. -/
def hang (margin : String) (text : String) : String :=
  String.ofList <| text.toList.flatMap fun c =>
    if c = '\n' then '\n' :: margin.toList else [c]

/-- A number that ends in the fifth column. -/
def column (number : Nat) : String :=
  let digits := toString number
  String.ofList (List.replicate (5 - digits.length) ' ') ++ digits

/-- Causes that are numbered from a number on.  Their texts stand in the eighth column. -/
def numbered (number : Nat) : List String → String
  | [] => ""
  | cause :: causes =>
    column number ++ ": " ++ hang "       " cause ++ "\n" ++ numbered (number + 1) causes

/-- The lines of the causes.  A lone cause has no number and stands in the fifth column. -/
def causeLines : List String → String
  | [] => ""
  | [cause] => "    " ++ hang "    " cause ++ "\n"
  | causes => numbered 0 causes

/-- How a failure is written. -/
def text (report : Report) : String :=
  "Error: " ++ report.summary ++ "\n"
    ++ (if report.causes.isEmpty then "" else "\nCaused by:\n" ++ causeLines report.causes)

/-- The causes of a schema error.  A file that cannot be read has a cause of its own. -/
def causesOf (error : SchemaError) : List String :=
  match error with
  | .unreadable _ cause => [error.message, cause.message]
  | _ => [error.message]

/-- A file has no schema. -/
def loading (input : String) (error : SchemaError) : Report :=
  ⟨"failed to load " ++ input, causesOf error⟩

/-- A file cannot be written. -/
def writing (output : String) (error : FileError) : Report :=
  ⟨"failed to write " ++ output, [error.message]⟩

end Report

end MettaSchema
