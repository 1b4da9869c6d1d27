import MettaSchema.Statement
import MettaSchema.Literal

/-!
# Declarations

What a schema file declares.  Names of types are still as written; everything else
is settled: numbers are checked, every field of a choice is a field of the message
around it, and what map fields and groups declare besides a field is spelt out.

* `MessageDecl`, `EnumDecl`, `FileDecl` — the declarations.
* `Statement.declareAll` — what the statements of a message body declare, one after
  another.  The first number out of range is an error.
* `FileDecl.parse` — the declarations of a text.
-/

namespace MettaSchema

/-- The type of a field as it is declared. -/
inductive TypeExpr where
  /-- A scalar. -/
  | scalar (kind : Kind)
  /-- A message or an enum, named in a way that has yet to be resolved. -/
  | named (name : String)
  /-- A group, whose body is the message of this name in the same message. -/
  | group (name : String)
  deriving DecidableEq, Repr, Inhabited

/-- The type that is written with the given name. -/
def TypeExpr.ofName (name : String) : TypeExpr :=
  match Kind.ofKeyword? name with
  | some kind => scalar kind
  | none => named name

/-- A field as it is declared. -/
structure FieldDecl where
  /-- The name. -/
  name : String
  /-- The number. -/
  number : Nat
  /-- How often the field occurs. -/
  label : Label
  /-- The type. -/
  type : TypeExpr
  deriving DecidableEq, Repr, Inhabited

/-- An enum as it is declared. -/
structure EnumDecl where
  /-- The name. -/
  name : String
  /-- The values with their numbers. -/
  values : List (String × Int)
  deriving DecidableEq, Repr, Inhabited

/-- A message as it is declared. -/
structure MessageDecl where
  /-- The name. -/
  name : String
  /-- The fields, in the order of declaration. -/
  fields : List FieldDecl
  /-- The messages declared inside. -/
  messages : List MessageDecl
  /-- The enums declared inside. -/
  enums : List EnumDecl
  deriving Repr, Inhabited

namespace MessageDecl

mutual

/-- Whether two messages are equal. -/
def same : MessageDecl → MessageDecl → Bool
  | ⟨name, fields, messages, enums⟩, ⟨name', fields', messages', enums'⟩ =>
    name == name' && fields == fields' && sameAll messages messages' && enums == enums'

/-- Whether two lists of messages are equal. -/
def sameAll : List MessageDecl → List MessageDecl → Bool
  | [], [] => true
  | m :: rest, m' :: rest' => same m m' && sameAll rest rest'
  | _, _ => false

end

mutual

theorem same_iff (m m' : MessageDecl) : same m m' = true ↔ m = m' := by
  cases m with
  | mk name fields messages enums =>
    cases m'
    simp [same, sameAll_iff messages, and_assoc]

theorem sameAll_iff (ms ms' : List MessageDecl) : sameAll ms ms' = true ↔ ms = ms' := by
  cases ms with
  | nil => cases ms' <;> simp [sameAll]
  | cons m rest => cases ms' <;> simp [sameAll, same_iff m, sameAll_iff rest]

end

instance : DecidableEq MessageDecl := fun m m' => decidable_of_iff _ (same_iff m m')

end MessageDecl

/-- What a file declares. -/
structure FileDecl where
  /-- The name of the file. -/
  name : String
  /-- The dialect. -/
  dialect : Dialect
  /-- The package, if the file names one. -/
  package : Option String
  /-- The imports. -/
  imports : List String
  /-- The top-level messages. -/
  messages : List MessageDecl
  /-- The top-level enums. -/
  enums : List EnumDecl
  /-- The services. -/
  services : List ServiceDecl
  deriving DecidableEq, Repr, Inhabited

/-! ## Bodies of messages -/

/-- What some statements of a message body declare. -/
structure Body where
  /-- The fields. -/
  fields : List FieldDecl
  /-- The messages. -/
  messages : List MessageDecl
  /-- The enums. -/
  enums : List EnumDecl
  deriving DecidableEq, Repr, Inhabited

namespace Body

/-- Nothing declared. -/
def empty : Body := ⟨[], [], []⟩

/-- What is declared first by one body and then by another. -/
def append (a b : Body) : Body :=
  ⟨a.fields ++ b.fields, a.messages ++ b.messages, a.enums ++ b.enums⟩

instance : Append Body := ⟨append⟩

/-- The message with the given name and body. -/
def toMessage (name : String) (body : Body) : MessageDecl :=
  ⟨name, body.fields, body.messages, body.enums⟩

end Body

/-- A name in camel case.  Underscores go, and the letter behind one is upper case,
as is the first letter if `upper` holds. -/
def camelCase (upper : Bool) : List Char → List Char
  | [] => []
  | c :: s =>
    if c = '_' then camelCase true s
    else (if upper then c.toUpper else c) :: camelCase false s

/-- The name of the message that holds an entry of a map field. -/
def mapEntryName (field : String) : String :=
  String.ofList (camelCase true field.toList) ++ "Entry"

/-- A name in lower case. -/
def lowerCase (name : String) : String :=
  String.ofList (name.toList.map Char.toLower)

/-- The message that holds an entry of a map: a key and a value. -/
def MessageDecl.mapEntry (name : String) (key value : TypeExpr) : MessageDecl :=
  { name
    fields := [⟨"key", 1, .optional, key⟩, ⟨"value", 2, .optional, value⟩]
    messages := []
    enums := [] }

namespace EnumDecl

/-- The values of an enum with their numbers. -/
def values? : List (String × String) → Except SchemaError (List (String × Int))
  | [] => .ok []
  | (name, literal) :: rest => do
    let number ← Literal.enumNumber literal
    let more ← values? rest
    return (name, number) :: more

/-- The enum that a statement declares. -/
def ofStatement (name : String) (values : List (String × String)) : Except SchemaError EnumDecl := do
  return ⟨name, ← values? values⟩

end EnumDecl

namespace Statement

mutual

/-- What a statement declares.  A map field declares a repeated field and the message
of its entries; a group declares a field with its name in lower case and the message
of its body. -/
def declare : Statement → Except SchemaError Body
  | field label type name literal => do
    let number ← Literal.fieldNumber literal
    return ⟨[⟨name, number, label, .ofName type⟩], [], []⟩
  | map key value name literal => do
    let number ← Literal.fieldNumber literal
    let entry := mapEntryName name
    return ⟨[⟨name, number, .repeated, .named entry⟩],
      [.mapEntry entry (.ofName key) (.ofName value)], []⟩
  | group label name literal body => do
    let number ← Literal.fieldNumber literal
    let inner ← declareAll body
    return ⟨[⟨lowerCase name, number, label, .group name⟩], [inner.toMessage name], []⟩
  | oneof members => declareAll members
  | message name body => do
    let inner ← declareAll body
    return ⟨[], [inner.toMessage name], []⟩
  | enum name values => do
    let decl ← EnumDecl.ofStatement name values
    return ⟨[], [], [decl]⟩

/-- What some statements declare, one after another. -/
def declareAll : List Statement → Except SchemaError Body
  | [] => .ok .empty
  | statement :: rest => do
    let first ← declare statement
    let more ← declareAll rest
    return first ++ more

end

end Statement

/-! ## Files -/

namespace FileDecl

/-- A file in which nothing is declared. -/
def empty (name : String) : FileDecl :=
  { name, dialect := .proto2, package := none, imports := [], messages := [], enums := [],
    services := [] }

/-- Adds what a statement declares. -/
def add (file : FileDecl) : FileStatement → Except SchemaError FileDecl
  | .dialect literal =>
    let name := Literal.unquote literal
    match Dialect.ofName? name with
    | some dialect => .ok { file with dialect }
    | none => .error (.unsupportedDialect name)
  | .edition literal => .error (.unsupportedDialect ("edition " ++ Literal.unquote literal))
  | .imports literal => .ok { file with imports := file.imports ++ [Literal.unquote literal] }
  | .package name => .ok { file with package := some name }
  | .message name body => do
    let inner ← Statement.declareAll body
    return { file with messages := file.messages ++ [inner.toMessage name] }
  | .enum name values => do
    let decl ← EnumDecl.ofStatement name values
    return { file with enums := file.enums ++ [decl] }
  | .service service => .ok { file with services := file.services ++ [service] }

/-- The declarations of a file, from its statements. -/
def ofStatements (name : String) (statements : List FileStatement) : Except SchemaError FileDecl :=
  statements.foldlM add (empty name)

/-- The declarations of a text. -/
def parse (name source : String) : Except SchemaError FileDecl :=
  match Proto.parse Proto.file source.toList with
  | .error e => .error (.badSyntax e)
  | .ok trees =>
    match FileStatement.ofTrees? trees with
    | none => .error .malformed
    | some statements => ofStatements name statements

end FileDecl

end MettaSchema
