/-!
# Function types

The types that MeTTa gives to functions.  A function of several parameters has one
flat type or, curried, a chain of types with one parameter each.

* `FunctionType` — an atom, or an arrow from parameters to a further type.
* `FunctionType.build` — the type of a function, flat or curried.
* `FunctionType.params`, `FunctionType.result` — what a type takes, along the chain,
  and what is left at its end.
* `FunctionType.curry`, `FunctionType.uncurry` — the curried and the flat type with
  the same parameters and result.
* `FunctionType.line`, `FunctionType.block` — the two ways of writing a type.
-/

namespace MettaSchema

/-- A parameter: its type, and a label that is written as a comment. -/
structure Param where
  /-- The type. -/
  type : String
  /-- The label. -/
  label : String
  deriving DecidableEq, Repr, Inhabited

/-- The type of a function or of a value. -/
inductive FunctionType where
  /-- A type that is a name. -/
  | atom (name : String)
  /-- The type of functions from some parameters to a further type. -/
  | arrow (params : List Param) (result : FunctionType)
  deriving DecidableEq, Repr, Inhabited

namespace FunctionType

/-- A chain of arrows with one parameter each. -/
def chain (params : List Param) (result : String) : FunctionType :=
  params.foldr (fun p rest => arrow [p] rest) (atom result)

/-- The type of a function.  Without parameters it is an arrow all the same. -/
def build (params : List Param) (result : String) (curried : Bool) : FunctionType :=
  if curried && !params.isEmpty then chain params result else arrow params (atom result)

/-- The parameters along the chain, in the order of application. -/
def params : FunctionType → List Param
  | atom _ => []
  | arrow ps rest => ps ++ rest.params

/-- The type at the end of the chain. -/
def result : FunctionType → String
  | atom name => name
  | arrow _ rest => rest.result

/-- How many parameters there are along the chain. -/
def arity (t : FunctionType) : Nat :=
  t.params.length

/-- The curried type with the same parameters and result. -/
def curry (t : FunctionType) : FunctionType :=
  build t.params t.result true

/-- The flat type with the same parameters and result. -/
def uncurry (t : FunctionType) : FunctionType :=
  build t.params t.result false

/-! ## Writing types -/

/-- Parameters on one line, each behind a space. -/
def paramsLine : List Param → String
  | [] => ""
  | p :: rest => " " ++ p.type ++ paramsLine rest

/-- A type on one line, without labels. -/
def line : FunctionType → String
  | atom name => name
  | arrow ps rest => "(->" ++ paramsLine ps ++ " " ++ rest.line ++ ")"

/-- Parameters on lines of their own, each with its label. -/
def paramsBlock : List Param → String
  | [] => ""
  | p :: rest => "    " ++ p.type ++ " ; " ++ p.label ++ "\n" ++ paramsBlock rest

/-- A type on several lines, with the labels as comments.  If `chained` holds, an arrow
with one parameter begins on the line of that parameter. -/
def block (chained : Bool) : FunctionType → String
  | atom name => "    " ++ name
  | arrow [p] rest =>
    if chained then
      "   (-> " ++ p.type ++ " ; " ++ p.label ++ "\n" ++ rest.block chained ++ ")"
    else "   (->\n" ++ paramsBlock [p] ++ rest.block chained ++ ")"
  | arrow ps rest => "   (->\n" ++ paramsBlock ps ++ rest.block chained ++ ")"

/-- Writes a type on several lines behind what is already in a buffer. -/
def appendBlock (buffer : String) (chained : Bool) (t : FunctionType) : String :=
  buffer ++ t.block chained

end FunctionType

end MettaSchema
