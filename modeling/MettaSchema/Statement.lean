import MettaSchema.Grammar.SyntaxError
import MettaSchema.Schema.Basic

/-!
# Statements

What a schema file says, statement by statement, in the order in which it is
written.  Numbers and type names are still text.  Statements that declare nothing
(options, reserved and extension ranges, extensions of other messages, lone
semicolons) are left out.

* `Statement` — a statement of a message body.
* `FileStatement` — a statement of a file.
* `Statement.ofTrees?`, `FileStatement.ofTrees?` — the statements that were read.
  They answer `none` if a part of a statement is missing.
-/

namespace MettaSchema

/-- A statement of a message body. -/
inductive Statement where
  /-- A plain field. -/
  | field (label : Label) (type name number : String)
  /-- A map field. -/
  | map (key value name number : String)
  /-- A group. -/
  | group (label : Label) (name number : String) (body : List Statement)
  /-- A choice among fields. -/
  | oneof (members : List Statement)
  /-- A message. -/
  | message (name : String) (body : List Statement)
  /-- An enum, with its values. -/
  | enum (name : String) (values : List (String × String))
  deriving Repr, Inhabited

namespace Statement

mutual

/-- Whether two statements are equal. -/
def same : Statement → Statement → Bool
  | field label type name number, field label' type' name' number' =>
    label == label' && type == type' && name == name' && number == number'
  | map key value name number, map key' value' name' number' =>
    key == key' && value == value' && name == name' && number == number'
  | group label name number body, group label' name' number' body' =>
    label == label' && name == name' && number == number' && sameAll body body'
  | oneof members, oneof members' => sameAll members members'
  | message name body, message name' body' => name == name' && sameAll body body'
  | enum name values, enum name' values' => name == name' && values == values'
  | _, _ => false

/-- Whether two lists of statements are equal. -/
def sameAll : List Statement → List Statement → Bool
  | [], [] => true
  | x :: rest, x' :: rest' => same x x' && sameAll rest rest'
  | _, _ => false

end

mutual

theorem same_iff (x x' : Statement) : same x x' = true ↔ x = x' := by
  cases x with
  | group label name number body => cases x' <;> simp [same, sameAll_iff body, and_assoc]
  | oneof members => cases x' <;> simp [same, sameAll_iff members]
  | message name body => cases x' <;> simp [same, sameAll_iff body]
  | _ => cases x' <;> simp [same, and_assoc]

theorem sameAll_iff (xs xs' : List Statement) : sameAll xs xs' = true ↔ xs = xs' := by
  cases xs with
  | nil => cases xs' <;> simp [sameAll]
  | cons x rest => cases xs' <;> simp [sameAll, same_iff x, sameAll_iff rest]

end

instance : DecidableEq Statement := fun x x' => decidable_of_iff _ (same_iff x x')

end Statement

/-- A method of a service as it is written. -/
structure MethodDecl where
  /-- The name. -/
  name : String
  /-- The name of what it takes. -/
  input : String
  /-- The name of what it returns. -/
  output : String
  /-- Whether it takes a stream. -/
  clientStreaming : Bool
  /-- Whether it returns a stream. -/
  serverStreaming : Bool
  deriving DecidableEq, Repr, Inhabited

/-- A service as it is written. -/
structure ServiceDecl where
  /-- The name. -/
  name : String
  /-- The methods. -/
  methods : List MethodDecl
  deriving DecidableEq, Repr, Inhabited

/-- A statement of a file. -/
inductive FileStatement where
  /-- The line that names the dialect. -/
  | dialect (name : String)
  /-- The line that names an edition. -/
  | edition (name : String)
  /-- An import. -/
  | imports (path : String)
  /-- The package. -/
  | package (name : String)
  /-- A message. -/
  | message (name : String) (body : List Statement)
  /-- An enum, with its values. -/
  | enum (name : String) (values : List (String × String))
  /-- A service. -/
  | service (service : ServiceDecl)
  deriving DecidableEq, Repr, Inhabited

/-! ## Parts of a tree -/

namespace Tree

/-- The texts of the tokens of one rule among some trees. -/
def tokens (rule : Rule) (trees : List Tree) : List String :=
  trees.filterMap fun
    | token r text => if r = rule then some (String.ofList text) else none
    | _ => none

/-- The text of the first token of a rule among some trees. -/
def token? (rule : Rule) (trees : List Tree) : Option String :=
  (tokens rule trees).head?

/-- The parts of the first composite rule of a name among some trees. -/
def parts? (rule : Rule) (trees : List Tree) : Option (List Tree) :=
  trees.findSome? fun
    | node r parts => if r = rule then some parts else none
    | _ => none

end Tree

/-- The label that a word stands for. -/
def Label.ofWord (word : String) : Label :=
  if word = "required" then .required
  else if word = "repeated" then .repeated
  else .optional

/-- The label among the parts of a field.  Without one the field is optional. -/
def Label.ofParts (parts : List Tree) : Label :=
  ((Tree.token? .label parts).map Label.ofWord).getD .optional

/-! ## Statements of a message body -/

namespace Statement

/-- A plain field from its parts. -/
def field? (parts : List Tree) : Option Statement := do
  let type ← Tree.token? .typeName parts
  let name ← Tree.token? .ident parts
  let number ← Tree.token? .intLit parts
  return field (Label.ofParts parts) type name number

/-- A map field from its parts. -/
def map? (parts : List Tree) : Option Statement :=
  match Tree.tokens .typeName parts with
  | [key, value] => do
    let name ← Tree.token? .ident parts
    let number ← Tree.token? .intLit parts
    return map key value name number
  | _ => none

/-- The name and the number of a value of an enum, if the tree is one. -/
def enumValue? : Tree → Option (List (String × String))
  | .node .enumValue parts => do
    let name ← Tree.token? .ident parts
    let number ← Tree.token? .intLit parts
    return [(name, number)]
  | _ => some []

/-- The name and the values of an enum from its parts. -/
def enumParts? (parts : List Tree) : Option (String × List (String × String)) := do
  let name ← Tree.token? .ident parts
  let values ← parts.mapM enumValue?
  return (name, values.flatten)

mutual

/-- The statements that a tree of a message body stands for. -/
def ofTree? : Tree → Option (List Statement)
  | .node .field parts => do
    let statement ← field? parts
    return [statement]
  | .node .mapField parts => do
    let statement ← map? parts
    return [statement]
  | .node .groupField parts => do
    let name ← Tree.token? .ident parts
    let number ← Tree.token? .intLit parts
    let body ← ofTrees? parts
    return [group (Label.ofParts parts) name number body]
  | .node .oneofDef parts => do
    let members ← ofTrees? parts
    return [oneof members]
  | .node .messageDef parts => do
    let name ← Tree.token? .ident parts
    let body ← ofTrees? parts
    return [message name body]
  | .node .enumDef parts => do
    let (name, values) ← enumParts? parts
    return [enum name values]
  | .node .messageBody parts => ofTrees? parts
  | _ => some []

/-- The statements that the trees of a message body stand for. -/
def ofTrees? : List Tree → Option (List Statement)
  | [] => some []
  | t :: rest => do
    let first ← ofTree? t
    let more ← ofTrees? rest
    return first ++ more

end

end Statement

/-! ## Services -/

namespace MethodDecl

/-- The type that a method takes or returns, and whether it is a stream. -/
def type? (parts : List Tree) : Option (String × Bool) := do
  let name ← Tree.token? .typeName parts
  return (name, (Tree.token? .stream parts).isSome)

/-- A method, if the tree is one. -/
def ofTree? : Tree → Option (List MethodDecl)
  | .node .rpc parts => do
    let name ← Tree.token? .ident parts
    let (input, clientStreaming) ← type? (← Tree.parts? .rpcInput parts)
    let (output, serverStreaming) ← type? (← Tree.parts? .rpcOutput parts)
    return [{ name, input, output, clientStreaming, serverStreaming }]
  | _ => some []

end MethodDecl

/-- A service from its parts. -/
def ServiceDecl.ofParts? (parts : List Tree) : Option ServiceDecl := do
  let name ← Tree.token? .ident parts
  let methods ← parts.mapM MethodDecl.ofTree?
  return { name, methods := methods.flatten }

/-! ## Statements of a file -/

namespace FileStatement

/-- The statements that a tree of a file stands for. -/
def ofTree? : Tree → Option (List FileStatement)
  | .node .syntaxLine parts => do
    let name ← Tree.token? .strLit parts
    return [dialect name]
  | .node .editionLine parts => do
    let name ← Tree.token? .strLit parts
    return [edition name]
  | .node .importLine parts => do
    let path ← Tree.token? .strLit parts
    return [imports path]
  | .node .packageLine parts => do
    let name ← Tree.token? .fullIdent parts
    return [package name]
  | .node .messageDef parts => do
    let name ← Tree.token? .ident parts
    let body ← Statement.ofTrees? parts
    return [message name body]
  | .node .enumDef parts => do
    let (name, values) ← Statement.enumParts? parts
    return [enum name values]
  | .node .serviceDef parts => do
    let service ← ServiceDecl.ofParts? parts
    return [.service service]
  | _ => some []

/-- The statements that the trees of a file stand for. -/
def ofTrees? (trees : List Tree) : Option (List FileStatement) := do
  let parts ← Tree.parts? .proto trees
  let statements ← parts.mapM ofTree?
  return statements.flatten

end FileStatement

end MettaSchema
