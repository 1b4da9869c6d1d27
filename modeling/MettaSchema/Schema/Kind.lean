import MettaSchema.Error

/-!
# Kinds of fields

The eighteen kinds a field can have, with their numbers in descriptors, the words
that name the scalar ones in a schema, and their MeTTa names.

* `Kind.index`, `Kind.ofIndex` — numbers, from 1 to 18, and the way back.
* `Kind.ofKeyword?` — the kind that a type name stands for.  Fifteen kinds have a
  word; `group`, `message` and `enum` are no types.
* `Kind.mettaName` — the MeTTa name of a kind.
-/

namespace MettaSchema

/-- What kind of value a field holds. -/
inductive Kind where
  /-- A 64-bit floating-point number. -/
  | double
  /-- A 32-bit floating-point number. -/
  | float
  /-- A 64-bit integer. -/
  | int64
  /-- An unsigned 64-bit integer. -/
  | uint64
  /-- A 32-bit integer. -/
  | int32
  /-- An unsigned 64-bit integer of fixed width. -/
  | fixed64
  /-- An unsigned 32-bit integer of fixed width. -/
  | fixed32
  /-- A truth value. -/
  | bool
  /-- A text. -/
  | string
  /-- A group. -/
  | group
  /-- A message. -/
  | message
  /-- A sequence of bytes. -/
  | bytes
  /-- An unsigned 32-bit integer. -/
  | uint32
  /-- A value of an enum. -/
  | enum
  /-- A 32-bit integer of fixed width. -/
  | sfixed32
  /-- A 64-bit integer of fixed width. -/
  | sfixed64
  /-- A 32-bit integer that is short when near zero. -/
  | sint32
  /-- A 64-bit integer that is short when near zero. -/
  | sint64
  deriving DecidableEq, Repr, Inhabited

namespace Kind

/-- All kinds, by index. -/
def all : List Kind :=
  [double, float, int64, uint64, int32, fixed64, fixed32, bool, string, group, message, bytes,
   uint32, enum, sfixed32, sfixed64, sint32, sint64]

/-- The number of a kind in descriptors. -/
def index : Kind → Int
  | double => 1
  | float => 2
  | int64 => 3
  | uint64 => 4
  | int32 => 5
  | fixed64 => 6
  | fixed32 => 7
  | bool => 8
  | string => 9
  | group => 10
  | message => 11
  | bytes => 12
  | uint32 => 13
  | enum => 14
  | sfixed32 => 15
  | sfixed64 => 16
  | sint32 => 17
  | sint64 => 18

/-- The kind with the given number. -/
def ofIndex (index : Int) : Except SchemaError Kind :=
  match all.find? (·.index == index) with
  | some kind => .ok kind
  | none => .error (.unknownKind index)

/-- The kinds that a type name can stand for, with their words. -/
def keywords : List (String × Kind) :=
  [("double", double), ("float", float), ("int32", int32), ("int64", int64), ("uint32", uint32),
   ("uint64", uint64), ("sint32", sint32), ("sint64", sint64), ("fixed32", fixed32),
   ("fixed64", fixed64), ("sfixed32", sfixed32), ("sfixed64", sfixed64), ("bool", bool),
   ("string", string), ("bytes", bytes)]

/-- The kind that a type name stands for, if it is one of the fifteen words. -/
def ofKeyword? (word : String) : Option Kind :=
  keywords.lookup word

/-- The MeTTa name of a kind. -/
def mettaName : Kind → String
  | double => "Double"
  | float => "Float"
  | int64 => "Int64"
  | uint64 => "UInt64"
  | int32 => "Int32"
  | fixed64 => "Fixed64"
  | fixed32 => "Fixed32"
  | bool => "Bool"
  | string => "String"
  | group => "Group"
  | message => "Message"
  | bytes => "Bytes"
  | uint32 => "UInt32"
  | enum => "Enum"
  | sfixed32 => "SFixed32"
  | sfixed64 => "SFixed64"
  | sint32 => "SInt32"
  | sint64 => "SInt64"

end Kind

end MettaSchema
