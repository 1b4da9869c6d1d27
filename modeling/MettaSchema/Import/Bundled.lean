import MettaSchema.Declaration

/-!
# Bundled types

Some files can be imported although they are nowhere on the disk: those of the
well-known types.  Each is kept as its text and as the declarations that the text reads as.

* `Bundled.source?` — the text of a bundled file, by its import path.
* `Bundled.file?` — the declarations of a bundled file, by its import path.
-/

namespace MettaSchema

namespace Bundled

/-! ## Texts -/

/-- The lines that all bundled files begin with. -/
def header : List String := ["", "syntax = \"proto3\";", "package google.protobuf;"]

/-- The text of some lines behind the header. -/
def text (lines : List String) : String :=
  String.join ((header ++ lines).map (· ++ "\n"))

/-- The lines of all bundled files behind the header, with their import paths. -/
def sources : List (String × List String) :=
  [("google/protobuf/any.proto",
      ["message Any \x7b",
       "  string type_url = 1;",
       "  bytes value = 2;",
       "\x7d"]),
   ("google/protobuf/duration.proto",
      ["message Duration \x7b",
       "  int64 seconds = 1;",
       "  int32 nanos = 2;",
       "\x7d"]),
   ("google/protobuf/empty.proto",
      ["message Empty \x7b\x7d"]),
   ("google/protobuf/field_mask.proto",
      ["message FieldMask \x7b",
       "  repeated string paths = 1;",
       "\x7d"]),
   ("google/protobuf/struct.proto",
      ["message Struct \x7b",
       "  map<string, Value> fields = 1;",
       "\x7d",
       "message Value \x7b",
       "  oneof kind \x7b",
       "    NullValue null_value = 1;",
       "    double number_value = 2;",
       "    string string_value = 3;",
       "    bool bool_value = 4;",
       "    Struct struct_value = 5;",
       "    ListValue list_value = 6;",
       "  \x7d",
       "\x7d",
       "enum NullValue \x7b",
       "  NULL_VALUE = 0;",
       "\x7d",
       "message ListValue \x7b",
       "  repeated Value values = 1;",
       "\x7d"]),
   ("google/protobuf/timestamp.proto",
      ["message Timestamp \x7b",
       "  int64 seconds = 1;",
       "  int32 nanos = 2;",
       "\x7d"]),
   ("google/protobuf/wrappers.proto",
      ["message DoubleValue \x7b double value = 1; \x7d",
       "message FloatValue \x7b float value = 1; \x7d",
       "message Int64Value \x7b int64 value = 1; \x7d",
       "message UInt64Value \x7b uint64 value = 1; \x7d",
       "message Int32Value \x7b int32 value = 1; \x7d",
       "message UInt32Value \x7b uint32 value = 1; \x7d",
       "message BoolValue \x7b bool value = 1; \x7d",
       "message StringValue \x7b string value = 1; \x7d",
       "message BytesValue \x7b bytes value = 1; \x7d"])]

/-- The text of a bundled file, by its import path. -/
def source? (path : String) : Option String :=
  (sources.find? (·.1 == path)).map fun source => text source.2

/-! ## Declarations -/

/-- The package of all bundled files. -/
def package : String := "google.protobuf"

/-- A bundled file without services. -/
def file (name : String) (messages : List MessageDecl) (enums : List EnumDecl) : FileDecl :=
  { name, dialect := .proto3, package := some package, imports := [], messages, enums,
    services := [] }

/-- A message with only fields. -/
def message (name : String) (fields : List FieldDecl) : MessageDecl :=
  ⟨name, fields, [], []⟩

/-- A field of a scalar kind. -/
def scalar (name : String) (number : Nat) (kind : Kind) : FieldDecl :=
  ⟨name, number, .optional, .scalar kind⟩

/-- A field of a named type. -/
def named (name : String) (number : Nat) (type : String) : FieldDecl :=
  ⟨name, number, .optional, .named type⟩

/-- A message of any type, with the address of its type. -/
def any : FileDecl :=
  file "google/protobuf/any.proto"
    [message "Any" [scalar "type_url" 1 .string, scalar "value" 2 .bytes]] []

/-- A span of time. -/
def duration : FileDecl :=
  file "google/protobuf/duration.proto"
    [message "Duration" [scalar "seconds" 1 .int64, scalar "nanos" 2 .int32]] []

/-- A message without fields. -/
def empty : FileDecl :=
  file "google/protobuf/empty.proto" [message "Empty" []] []

/-- A set of paths to fields. -/
def fieldMask : FileDecl :=
  file "google/protobuf/field_mask.proto"
    [message "FieldMask" [⟨"paths", 1, .repeated, .scalar .string⟩]] []

/-- Data without a schema. -/
def struct : FileDecl :=
  file "google/protobuf/struct.proto"
    [{ name := "Struct"
       fields := [⟨"fields", 1, .repeated, .named (mapEntryName "fields")⟩]
       messages := [.mapEntry (mapEntryName "fields") (.scalar .string) (.named "Value")]
       enums := [] },
     message "Value"
       [named "null_value" 1 "NullValue", scalar "number_value" 2 .double,
        scalar "string_value" 3 .string, scalar "bool_value" 4 .bool,
        named "struct_value" 5 "Struct", named "list_value" 6 "ListValue"],
     message "ListValue" [⟨"values", 1, .repeated, .named "Value"⟩]]
    [⟨"NullValue", [("NULL_VALUE", 0)]⟩]

/-- A point in time. -/
def timestamp : FileDecl :=
  file "google/protobuf/timestamp.proto"
    [message "Timestamp" [scalar "seconds" 1 .int64, scalar "nanos" 2 .int32]] []

/-- Messages that hold one scalar. -/
def wrappers : FileDecl :=
  file "google/protobuf/wrappers.proto"
    [message "DoubleValue" [scalar "value" 1 .double],
     message "FloatValue" [scalar "value" 1 .float],
     message "Int64Value" [scalar "value" 1 .int64],
     message "UInt64Value" [scalar "value" 1 .uint64],
     message "Int32Value" [scalar "value" 1 .int32],
     message "UInt32Value" [scalar "value" 1 .uint32],
     message "BoolValue" [scalar "value" 1 .bool],
     message "StringValue" [scalar "value" 1 .string],
     message "BytesValue" [scalar "value" 1 .bytes]] []

/-- All bundled files. -/
def files : List FileDecl :=
  [any, duration, empty, fieldMask, struct, timestamp, wrappers]

/-- The bundled file of an import path. -/
def file? (path : String) : Option FileDecl :=
  files.find? (·.name == path)

end Bundled

end MettaSchema
