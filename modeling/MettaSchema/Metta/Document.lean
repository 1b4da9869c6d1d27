import MettaSchema.Schema.Basic
import MettaSchema.Metta.Entry

/-!
# The document of a schema

How a schema is written in MeTTa: for every message its type, what is declared inside
it, its constructor and an accessor for each field; for every enum inside a message its
type and its values; for every method its type.  Enums outside of messages are not
written.

* `Options` — what can be chosen.
* `Translation` — the choices as they apply to one schema.
* `Translation.messageEntries`, `Translation.enumEntries`,
  `Translation.serviceEntries`, `Translation.documentEntries` — the entries.
* `Schema.toMetta` — the whole document.

All symbols stand directly behind the common prefix, those of nested types too.
-/

namespace MettaSchema

/-- What can be chosen about a document. -/
structure Options where
  /-- What stands in front of every symbol.  If it is empty the package does. -/
  symbolPrefix : String := ""
  /-- Whether constructors have curried types. -/
  curried : Bool := false
  deriving DecidableEq, Repr, Inhabited

/-- The choices that apply to one schema. -/
structure Translation where
  /-- What stands in front of every symbol. -/
  symbolPrefix : String
  /-- Whether constructors have curried types. -/
  curried : Bool
  deriving DecidableEq, Repr, Inhabited

namespace Translation

/-- The choices for a schema: a prefix that is left empty becomes the package. -/
def ofOptions (schema : Schema) (options : Options) : Translation :=
  { symbolPrefix :=
      if options.symbolPrefix = "" then schema.packageName else options.symbolPrefix
    curried := options.curried }

/-- The symbol of a name.  The dot stands even behind an empty prefix. -/
def symbol (t : Translation) (name : String) : String :=
  t.symbolPrefix ++ "." ++ name

/-- The MeTTa type of a field. -/
def fieldType (t : Translation) (field : Field) : String :=
  match field.type with
  | .message ref => t.symbol ref.name
  | .enum ref => t.symbol ref.name
  | .scalar kind => kind.mettaName
  | .group _ => Kind.group.mettaName

/-- The symbol of the constructor of a message. -/
def constructorName (t : Translation) (message : String) : String :=
  t.symbol ("Mk" ++ message)

/-- The type of the constructor of a message, over its fields. -/
def constructorType (t : Translation) (message : String) (fields : List Field) : FunctionType :=
  .build (fields.map fun f => ⟨t.fieldType f, f.name⟩) (t.symbol message) t.curried

/-! ## Entries -/

/-- The type and the values of an enum. -/
def enumEntries (t : Translation) (enum : EnumType) : List Entry :=
  let type := t.symbol enum.name
  [.comment ("Define " ++ type ++ " enum type"), .declare type (.atom "Type"), .emptyLine,
   .comment ("Define " ++ type ++ " enum values")]
    ++ enum.values.map (fun value => .declare (type ++ "." ++ value.1) (.atom type))
    ++ [.emptyLine]

/-- The accessor of a field of a message with the given fields. -/
def accessorEntries (t : Translation) (message : String) (fields : List Field) (field : Field) :
    List Entry :=
  let type := t.symbol message
  let symbol := type ++ "." ++ field.name
  [.comment ("Define " ++ symbol),
   .declare symbol (.arrow [⟨type, ""⟩] (.atom (t.fieldType field))),
   .project symbol (t.constructorName message) (fields.map (·.name)) field.name,
   .emptyLine]

/-- The constructor and the accessors of a message. -/
def fieldEntries (t : Translation) (message : String) (fields : List Field) : List Entry :=
  let type := t.symbol message
  [.comment ("Define " ++ type ++ " constructor"),
   .construct (t.constructorName message) t.curried (t.constructorType message fields),
   .emptyLine,
   .comment ("Define " ++ type ++ " access functions"),
   .emptyLine]
    ++ fields.flatMap (t.accessorEntries message fields)

mutual

/-- A message: its type, the messages and then the enums inside it, its constructor and
its accessors. -/
def messageEntries (t : Translation) : Message → List Entry
  | ⟨name, _, fields, messages, enums, _⟩ =>
    [.comment ("Define " ++ t.symbol name ++ " type"),
     .declare (t.symbol name) (.atom "Type"), .emptyLine]
      ++ nestedEntries t messages
      ++ enums.flatMap (fun entry => t.enumEntries entry.2)
      ++ t.fieldEntries name fields

/-- Messages one behind the other. -/
def nestedEntries (t : Translation) : List (String × Message) → List Entry
  | [] => []
  | (_, message) :: rest => messageEntries t message ++ nestedEntries t rest

end

/-- The type of a method of the given name. -/
def methodEntries (t : Translation) (name : String) (method : Method) : List Entry :=
  [.comment ("Define " ++ t.symbol name ++ " service method"),
   .declare (t.symbol name)
     (.arrow [⟨t.symbol method.input.name, ""⟩] (.atom (t.symbol method.output.name))),
   .emptyLine]

/-- The methods of a service. -/
def serviceEntries (t : Translation) (service : Service) : List Entry :=
  service.methods.flatMap fun entry => t.methodEntries entry.1 entry.2

/-- The comment at the head of a document. -/
def headerEntries (t : Translation) (schema : Schema) : List Entry :=
  [.rule 61,
   .comment "MeTTa representation, generated by protobuf-metta",
   .rule 2,
   .comment ("Protobuf file: " ++ schema.name),
   .comment ("Protobuf syntax: " ++ schema.dialect.name)]
    ++ (if schema.packageName = "" then []
        else [.comment ("Protobuf package: " ++ schema.packageName)])
    ++ (if t.symbolPrefix = "" then [] else [.comment ("Prefix: " ++ t.symbolPrefix)])
    ++ [.rule 61, .emptyLine]

/-- The document of a schema: the header, the messages and the services, each under a
banner. -/
def documentEntries (t : Translation) (schema : Schema) : List Entry :=
  t.headerEntries schema
    ++ Entry.banner "Message Types"
    ++ schema.messages.flatMap (fun entry => Entry.banner entry.1 ++ t.messageEntries entry.2)
    ++ Entry.banner "Services"
    ++ schema.services.flatMap (fun entry => Entry.banner entry.1 ++ t.serviceEntries entry.2)

/-! ## Text -/

/-- An enum as it is written. -/
def enumText (t : Translation) (enum : EnumType) : String :=
  Entry.textAll (t.enumEntries enum)

/-- A message as it is written. -/
def messageText (t : Translation) (message : Message) : String :=
  Entry.textAll (t.messageEntries message)

/-- A service as it is written. -/
def serviceText (t : Translation) (service : Service) : String :=
  Entry.textAll (t.serviceEntries service)

/-- The document of a schema as it is written. -/
def document (t : Translation) (schema : Schema) : String :=
  Entry.textAll (t.documentEntries schema)

end Translation

/-- The MeTTa document of a schema. -/
def Schema.toMetta (schema : Schema) (options : Options) : String :=
  (Translation.ofOptions schema options).document schema

end MettaSchema
