import MettaSchema.Proofs.Grammar.Spelling
import MettaSchema.Proofs.Grammar.Words
import MettaSchema.Proofs.Schema.References

/-!
# Printing schemas

The text of a schema, with one space between the tokens, and the schemas that have one.

* `Schema.words`, `Schema.print` — the tokens and the text.
* `Schema.tree` — the tree of the text, without blanks and punctuation.
* `Schema.Printable` — what a schema needs so that its text can stand for it.
* `Schema.Unshadowed` — no bundled file that is imported says something else of a type in use.
-/

namespace MettaSchema

/-! ## Words -/

/-- The word for a label. -/
def Label.word : Label → String
  | .optional => "optional"
  | .required => "required"
  | .repeated => "repeated"

/-- The word for a kind that has one. -/
def Kind.word (kind : Kind) : String :=
  ((keywords.map Prod.swap).lookup kind).getD ""

/-- A reference is written as a full name behind a dot. -/
def TypeRef.word (ref : TypeRef) : String := "." ++ ref.fullName

/-- How the type of a field is written. -/
def FieldType.word : FieldType → String
  | scalar kind => kind.word
  | message ref => ref.word
  | enum ref => ref.word
  | group ref => ref.word

/-- `LABEL TYPE NAME = NUMBER ;` -/
def Field.words (field : Field) : List String :=
  [field.label.word, field.type.word, field.name, "=", field.number.repr, ";"]

namespace EnumType

/-- `NAME = NUMBER ;` -/
def valueWords (value : String × Int) : List String :=
  [value.1, "=", value.2.repr, ";"]

/-- `enum NAME { VALUES }` -/
def words (enum : EnumType) : List String :=
  "enum" :: enum.name :: "\x7b" :: (enum.values.flatMap valueWords ++ ["\x7d"])

end EnumType

namespace Message

mutual

/-- `message NAME { FIELDS MESSAGES ENUMS }` -/
def words : Message → List String
  | ⟨name, _, fields, messages, enums, _⟩ =>
    "message" :: name :: "\x7b"
      :: (fields.flatMap Field.words ++ wordsAll messages ++ enums.flatMap (·.2.words) ++ ["\x7d"])

/-- The words of some messages. -/
def wordsAll : List (String × Message) → List String
  | [] => []
  | (_, message) :: rest => words message ++ wordsAll rest

end

end Message

namespace Method

/-- `stream TYPE` or `TYPE` -/
def typeWords (stream : Bool) (ref : TypeRef) : List String :=
  (if stream then ["stream"] else []) ++ [ref.word]

/-- `rpc NAME ( INPUT ) returns ( OUTPUT ) ;` -/
def words (method : Method) : List String :=
  ["rpc", method.name, "("] ++ typeWords method.clientStreaming method.input
    ++ [")", "returns", "("] ++ typeWords method.serverStreaming method.output ++ [")", ";"]

end Method

/-- `service NAME { METHODS }` -/
def Service.words (service : Service) : List String :=
  "service" :: service.name :: "\x7b" :: (service.methods.flatMap (·.2.words) ++ ["\x7d"])

namespace Schema

/-- `package NAME ;` -/
def packageWords (package : String) : List String := ["package", package, ";"]

/-- `import STRING ;` -/
def importWords (path : String) : List String := ["import", Literal.quote path, ";"]

/-- The dialect, the package if there is one, the imports, then messages, enums and services. -/
def words (schema : Schema) : List String :=
  ["syntax", "=", Literal.quote schema.dialect.name, ";"]
    ++ (schema.package.toList.flatMap packageWords ++ schema.imports.flatMap importWords
      ++ Message.wordsAll schema.messages ++ schema.enums.flatMap (·.2.words)
      ++ schema.services.flatMap (·.2.words))

/-- The text of a schema: its words, with one space between them. -/
def print (schema : Schema) : String :=
  String.ofList (Words.spaced schema.words)

end Schema

/-! ## Trees -/

open MettaSchema.Tree

/-- The tree of a field. -/
def Field.tree (field : Field) : Tree :=
  node .field
    [token .label field.label.word.toList, token .typeName field.type.word.toList,
     token .ident field.name.toList, token .intLit field.number.repr.toList]

namespace EnumType

/-- The tree of a value of an enum. -/
def valueTree (value : String × Int) : Tree :=
  node .enumValue [token .ident value.1.toList, token .intLit value.2.repr.toList]

/-- The tree of an enum. -/
def tree (enum : EnumType) : Tree :=
  node .enumDef
    (token .kwEnum "enum".toList :: token .ident enum.name.toList :: enum.values.map valueTree)

end EnumType

namespace Message

mutual

/-- The tree of a message. -/
def tree : Message → Tree
  | ⟨name, _, fields, messages, enums, _⟩ =>
    node .messageDef
      [token .kwMessage "message".toList, token .ident name.toList,
       node .messageBody (fields.map Field.tree ++ treesAll messages ++ enums.map (·.2.tree))]

/-- The trees of some messages. -/
def treesAll : List (String × Message) → List Tree
  | [] => []
  | (_, message) :: rest => tree message :: treesAll rest

end

end Message

namespace Method

/-- The parts of the type that a method takes or returns. -/
def typeTrees (stream : Bool) (ref : TypeRef) : List Tree :=
  (if stream then [token .stream "stream".toList] else []) ++ [token .typeName ref.word.toList]

/-- The tree of a method. -/
def tree (method : Method) : Tree :=
  node .rpc
    [token .kwRpc "rpc".toList, token .ident method.name.toList,
     node .rpcInput (typeTrees method.clientStreaming method.input),
     token .kwReturns "returns".toList,
     node .rpcOutput (typeTrees method.serverStreaming method.output)]

end Method

/-- The tree of a service. -/
def Service.tree (service : Service) : Tree :=
  node .serviceDef
    (token .kwService "service".toList :: token .ident service.name.toList
      :: service.methods.map (·.2.tree))

namespace Schema

/-- The tree of the line that names the dialect. -/
def dialectTree (dialect : Dialect) : Tree :=
  node .syntaxLine
    [token .kwSyntax "syntax".toList, token .strLit (Literal.quote dialect.name).toList]

/-- The tree of the package. -/
def packageTree (package : String) : Tree :=
  node .packageLine [token .kwPackage "package".toList, token .fullIdent package.toList]

/-- The tree of an import. -/
def importTree (path : String) : Tree :=
  node .importLine [token .kwImport "import".toList, token .strLit (Literal.quote path).toList]

/-- The trees of the statements behind the first line. -/
def statementTrees (schema : Schema) : List Tree :=
  schema.package.toList.map packageTree ++ schema.imports.map importTree
    ++ Message.treesAll schema.messages ++ schema.enums.map (·.2.tree)
    ++ schema.services.map (·.2.tree)

/-- The tree of a schema. -/
def tree (schema : Schema) : Tree :=
  node .proto
    (dialectTree schema.dialect :: (schema.statementTrees ++ [token .endOfInput []]))

end Schema

/-! ## Printable schemas -/

/-- A type that can be written: a scalar that has a word, or a message or an enum.  A reference
goes by the last part of its full name. -/
def FieldType.Printable : FieldType → Prop
  | scalar kind => kind ∈ Kind.keywords.map (·.2)
  | message ref => ref = .ofFullName ref.fullName
  | enum ref => ref = .ofFullName ref.fullName
  | group _ => False

instance : (type : FieldType) → Decidable type.Printable
  | .scalar kind => inferInstanceAs (Decidable (kind ∈ Kind.keywords.map (·.2)))
  | .message ref => inferInstanceAs (Decidable (ref = .ofFullName ref.fullName))
  | .enum ref => inferInstanceAs (Decidable (ref = .ofFullName ref.fullName))
  | .group _ => .isFalse id

/-- A field that can be written. -/
structure Field.Printable (field : Field) : Prop where
  name : Scan.isName field.name.toList = true
  number : 1 ≤ field.number ∧ (field.number : Int) ≤ Literal.maxFieldNumber
  type : field.type.Printable

instance (field : Field) : Decidable field.Printable :=
  decidable_of_iff (Scan.isName field.name.toList = true
      ∧ (1 ≤ field.number ∧ (field.number : Int) ≤ Literal.maxFieldNumber) ∧ field.type.Printable)
    ⟨fun ⟨a, b, c⟩ => ⟨a, b, c⟩, fun ⟨a, b, c⟩ => ⟨a, b, c⟩⟩

/-- An enum that can be written, in a scope. -/
structure EnumType.Printable (scope : String) (enum : EnumType) : Prop where
  name : Scan.isName enum.name.toList = true
  fullName : enum.fullName = qualify scope enum.name
  values : ∀ value ∈ enum.values, Scan.isName value.1.toList = true
    ∧ Literal.minEnumNumber ≤ value.2 ∧ value.2 ≤ Literal.maxEnumNumber
  distinct : (Keyed.keys enum.values).Nodup

instance (scope : String) (enum : EnumType) : Decidable (enum.Printable scope) :=
  decidable_of_iff (Scan.isName enum.name.toList = true ∧ enum.fullName = qualify scope enum.name
      ∧ (∀ value ∈ enum.values, Scan.isName value.1.toList = true
        ∧ Literal.minEnumNumber ≤ value.2 ∧ value.2 ≤ Literal.maxEnumNumber)
      ∧ (Keyed.keys enum.values).Nodup)
    ⟨fun ⟨a, b, c, d⟩ => ⟨a, b, c, d⟩, fun ⟨a, b, c, d⟩ => ⟨a, b, c, d⟩⟩

/-- Messages and enums that stand beside each other in a scope, each under its own name. -/
structure Siblings (scope : String) (messages : List (String × Message))
    (enums : List (String × EnumType)) : Prop where
  keyed : ∀ p ∈ messages, p.1 = p.2.name ∧ p.2.fullName = qualify scope p.2.name
  printable : ∀ p ∈ enums, p.1 = p.2.name ∧ p.2.Printable scope
  distinct : (Keyed.keys messages ++ Keyed.keys enums).Nodup

instance (scope : String) (messages : List (String × Message)) (enums : List (String × EnumType)) :
    Decidable (Siblings scope messages enums) :=
  decidable_of_iff
    ((∀ p ∈ messages, p.1 = p.2.name ∧ p.2.fullName = qualify scope p.2.name)
      ∧ (∀ p ∈ enums, p.1 = p.2.name ∧ p.2.Printable scope)
      ∧ (Keyed.keys messages ++ Keyed.keys enums).Nodup)
    ⟨fun ⟨a, b, c⟩ => ⟨a, b, c⟩, fun ⟨a, b, c⟩ => ⟨a, b, c⟩⟩

/-- A message that can be written.  Nothing is said of what the messages inside it hold. -/
structure Message.Printable (message : Message) : Prop where
  name : Scan.isName message.name.toList = true
  fields : ∀ field ∈ message.fields, field.Printable
  inner : Siblings message.fullName message.messages message.enums

instance (message : Message) : Decidable message.Printable :=
  decidable_of_iff (Scan.isName message.name.toList = true
      ∧ (∀ field ∈ message.fields, field.Printable)
      ∧ Siblings message.fullName message.messages message.enums)
    ⟨fun ⟨a, b, c⟩ => ⟨a, b, c⟩, fun ⟨a, b, c⟩ => ⟨a, b, c⟩⟩

/-- A method that can be written. -/
structure Method.Printable (method : Method) : Prop where
  name : Scan.isName method.name.toList = true
  input : method.input = .ofFullName method.input.fullName
  output : method.output = .ofFullName method.output.fullName

instance (method : Method) : Decidable method.Printable :=
  decidable_of_iff (Scan.isName method.name.toList = true
      ∧ method.input = .ofFullName method.input.fullName
      ∧ method.output = .ofFullName method.output.fullName)
    ⟨fun ⟨a, b, c⟩ => ⟨a, b, c⟩, fun ⟨a, b, c⟩ => ⟨a, b, c⟩⟩

/-- A service that can be written, in a scope. -/
structure Service.Printable (scope : String) (service : Service) : Prop where
  name : Scan.isName service.name.toList = true
  fullName : service.fullName = qualify scope service.name
  methods : ∀ p ∈ service.methods, p.1 = p.2.name ∧ p.2.Printable
  distinct : (Keyed.keys service.methods).Nodup

instance (scope : String) (service : Service) : Decidable (service.Printable scope) :=
  decidable_of_iff (Scan.isName service.name.toList = true
      ∧ service.fullName = qualify scope service.name
      ∧ (∀ p ∈ service.methods, p.1 = p.2.name ∧ p.2.Printable)
      ∧ (Keyed.keys service.methods).Nodup)
    ⟨fun ⟨a, b, c, d⟩ => ⟨a, b, c, d⟩, fun ⟨a, b, c, d⟩ => ⟨a, b, c, d⟩⟩

namespace Schema

/-- The bundled files that a schema imports. -/
def bundled (schema : Schema) : List FileDecl :=
  schema.imports.filterMap Bundled.file?

theorem mem_files_of_bundled {schema : Schema} {file : FileDecl} (h : file ∈ schema.bundled) :
    file ∈ Bundled.files := by
  obtain ⟨path, -, hpath⟩ := List.mem_filterMap.1 h
  exact List.mem_of_find?_eq_some hpath

/-- A schema that can be written: names are names, what is kept under a key is kept under its own,
full names are the way from the package, and every reference is to a type that the schema or a
bundled file that it imports declares. -/
structure Printable (schema : Schema) : Prop where
  package : ∀ package ∈ schema.package, Scan.Dotted package.toList
  siblings : Siblings schema.packageName schema.messages schema.enums
  messages : ∀ message ∈ schema.allMessages, message.Printable
  services : ∀ p ∈ schema.services, p.1 = p.2.name ∧ p.2.Printable schema.packageName
  distinct : (Keyed.keys schema.services).Nodup
  declared : ∀ ref ∈ schema.references,
    ref ∈ schema.symbols ∨ ∃ file ∈ schema.bundled, ref ∈ file.symbols

instance (schema : Schema) : Decidable schema.Printable :=
  decidable_of_iff ((∀ package ∈ schema.package, Scan.Dotted package.toList)
      ∧ Siblings schema.packageName schema.messages schema.enums
      ∧ (∀ message ∈ schema.allMessages, message.Printable)
      ∧ (∀ p ∈ schema.services, p.1 = p.2.name ∧ p.2.Printable schema.packageName)
      ∧ (Keyed.keys schema.services).Nodup
      ∧ ∀ ref ∈ schema.references,
        ref ∈ schema.symbols ∨ ∃ file ∈ schema.bundled, ref ∈ file.symbols)
    ⟨fun ⟨a, b, c, d, e, f⟩ => ⟨a, b, c, d, e, f⟩, fun ⟨a, b, c, d, e, f⟩ => ⟨a, b, c, d, e, f⟩⟩

theorem Printable.everywhere {schema : Schema} (h : schema.Printable) :
    ∀ p ∈ schema.messages, p.2.Everywhere Message.Printable :=
  fun p hp n hn => h.messages n (Message.mem_withNestedAll.2 ⟨p, hp, hn⟩)

/-- No bundled file that the schema imports declares a type to which the schema refers as another
kind of type. -/
def Unshadowed (schema : Schema) : Prop :=
  ∀ file ∈ schema.bundled, ∀ symbol ∈ file.symbols, ∀ ref ∈ schema.references,
    symbol.1 = ref.1 → symbol.2 = ref.2

instance (schema : Schema) : Decidable schema.Unshadowed :=
  inferInstanceAs (Decidable (∀ file ∈ schema.bundled, ∀ symbol ∈ file.symbols,
    ∀ ref ∈ schema.references, symbol.1 = ref.1 → symbol.2 = ref.2))

end Schema

end MettaSchema
