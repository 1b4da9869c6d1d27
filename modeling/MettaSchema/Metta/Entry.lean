import MettaSchema.Metta.FunctionType

/-!
# Entries of a document

A MeTTa document is a sequence of entries: comments and empty lines, type
declarations, and the equations of accessors.  An entry begins and ends on lines of
its own.

* `Entry` — the entries.
* `Entry.text`, `Entry.textAll` — how they are written.
-/

namespace MettaSchema

/-- An entry of a document. -/
inductive Entry where
  /-- A line of semicolons. -/
  | rule (width : Nat)
  /-- A comment on a line of its own. -/
  | comment (text : String)
  /-- An empty line. -/
  | emptyLine
  /-- The type of a symbol, on one line. -/
  | declare (symbol : String) (type : FunctionType)
  /-- The type of a constructor, on several lines. -/
  | construct (symbol : String) (chained : Bool) (type : FunctionType)
  /-- The equation of an accessor: applied to a value that was made by a constructor
  from some variables, it gives one of them. -/
  | project (symbol constructor : String) (binders : List String) (chosen : String)
  deriving DecidableEq, Repr, Inhabited

namespace Entry

/-- Variables on lines of their own. -/
def variableLines : List String → String
  | [] => ""
  | [x] => "     $" ++ x
  | x :: y :: rest => "     $" ++ x ++ "\n" ++ variableLines (y :: rest)

/-- An entry as it is written. -/
def text : Entry → String
  | rule width => String.ofList (List.replicate width ';') ++ "\n"
  | comment text => ";; " ++ text ++ "\n"
  | emptyLine => "\n"
  | declare symbol type => "(: " ++ symbol ++ " " ++ type.line ++ ")\n"
  | construct symbol chained type => "(: " ++ symbol ++ "\n" ++ type.block chained ++ ")\n"
  | project symbol constructor binders chosen =>
    "(= (" ++ symbol ++ "\n" ++
    "    (" ++ constructor ++ "\n" ++
    variableLines binders ++ ")) $" ++ chosen ++ ")\n"

/-- Entries as they are written, one behind the other. -/
def textAll : List Entry → String
  | [] => ""
  | entry :: rest => entry.text ++ textAll rest

/-- A title between two lines of semicolons, and an empty line.  The lines are six
semicolons longer than the title has bytes. -/
def banner (title : String) : List Entry :=
  [rule (title.utf8ByteSize + 6), comment (title ++ " ;;"), rule (title.utf8ByteSize + 6),
   emptyLine]

end Entry

end MettaSchema
