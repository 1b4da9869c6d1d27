import MettaSchema.Schema.Scope

/-!
# Building schemas

From what a file declares, and the types that are declared in reach, to the
description of the file.

* `FieldDecl.resolve`, `MessageDecl.build`, `ServiceDecl.build` — the parts.
* `FileDecl.build` — the schema of a file.

Building stops at the first violation: messages come in order, what is inside a
message comes before its fields, the type of a field is resolved before its number is
compared with those of earlier fields; services come last, and of a method the input
comes before the output.
-/

namespace MettaSchema

/-- The full names of messages and enums that a name may stand for. -/
def anySymbol : SymbolKind → Bool := fun _ => true

/-- Only messages can be taken and returned by methods. -/
def messagesOnly : SymbolKind → Bool
  | .message => true
  | .enum => false

/-- The type of a field in the message with the given full name. -/
def TypeExpr.resolve (table : SymbolTable) (scope : String) : TypeExpr → Except SchemaError FieldType
  | scalar kind => .ok (.scalar kind)
  | group name => .ok (.group (.ofFullName (qualify scope name)))
  | named name =>
    match table.resolve anySymbol scope name with
    | some (fullName, .message) => .ok (.message (.ofFullName fullName))
    | some (fullName, .enum) => .ok (.enum (.ofFullName fullName))
    | none => .error (.unresolvedType name scope)

/-- A field of the message with the given full name. -/
def FieldDecl.resolve (table : SymbolTable) (scope : String) (field : FieldDecl) :
    Except SchemaError Field := do
  let type ← field.type.resolve table scope
  return ⟨field.name, field.number, field.label, type⟩

/-- Adds fields to those that a message already has. -/
def FieldDecl.buildAll (table : SymbolTable) (scope : String) (fields : Fields) :
    List FieldDecl → Except SchemaError Fields
  | [] => .ok fields
  | decl :: rest => do
    let field ← decl.resolve table scope
    if fields.1.any (·.number == field.number) then
      throw (.duplicateFieldNumber scope field.number)
    FieldDecl.buildAll table scope (fields.insert field) rest

/-- An enum that is declared in a scope. -/
def EnumDecl.build (scope : String) (decl : EnumDecl) : EnumType :=
  ⟨decl.name, qualify scope decl.name, Keyed.ofList decl.values⟩

/-- Enums that are declared in a scope, under their names. -/
def EnumDecl.buildAll (scope : String) (decls : List EnumDecl) : List (String × EnumType) :=
  Keyed.ofList (decls.map fun decl => (decl.name, decl.build scope))

mutual

/-- A message that is declared in a scope. -/
def MessageDecl.build (table : SymbolTable) (scope : String) : MessageDecl → Except SchemaError Message
  | ⟨name, fields, messages, enums⟩ => do
    let fullName := qualify scope name
    let inner ← MessageDecl.buildAll table fullName messages
    let resolved ← FieldDecl.buildAll table fullName .empty fields
    return {
      name
      fullName
      fields := resolved.1
      messages := Keyed.ofList inner
      enums := EnumDecl.buildAll fullName enums
      ascending := resolved.2 }

/-- Messages that are declared in a scope, each with its name. -/
def MessageDecl.buildAll (table : SymbolTable) (scope : String) :
    List MessageDecl → Except SchemaError (List (String × Message))
  | [] => .ok []
  | decl :: rest => do
    let message ← MessageDecl.build table scope decl
    let more ← MessageDecl.buildAll table scope rest
    return (message.name, message) :: more

end

/-- The message that a name stands for in the service with the given full name. -/
def resolveMessage (table : SymbolTable) (scope name : String) : Except SchemaError TypeRef :=
  match table.resolve messagesOnly scope name with
  | some (fullName, _) => .ok (.ofFullName fullName)
  | none => .error (.unresolvedType name scope)

/-- A method of the service with the given full name. -/
def MethodDecl.build (table : SymbolTable) (scope : String) (decl : MethodDecl) :
    Except SchemaError Method := do
  let input ← resolveMessage table scope decl.input
  let output ← resolveMessage table scope decl.output
  return ⟨decl.name, input, output, decl.clientStreaming, decl.serverStreaming⟩

/-- A service that is declared in a scope. -/
def ServiceDecl.build (table : SymbolTable) (scope : String) (decl : ServiceDecl) :
    Except SchemaError Service := do
  let fullName := qualify scope decl.name
  let methods ← decl.methods.mapM (MethodDecl.build table fullName)
  return ⟨decl.name, fullName, Keyed.ofList (methods.map fun m => (m.name, m))⟩

/-- The schema of a file, where the table holds the types in reach. -/
def FileDecl.build (table : SymbolTable) (file : FileDecl) : Except SchemaError Schema := do
  let messages ← MessageDecl.buildAll table file.scope file.messages
  let services ← file.services.mapM (ServiceDecl.build table file.scope)
  return {
    name := file.name
    dialect := file.dialect
    package := file.package
    imports := file.imports
    messages := Keyed.ofList messages
    enums := EnumDecl.buildAll file.scope file.enums
    services := Keyed.ofList (services.map fun s => (s.name, s)) }

end MettaSchema
