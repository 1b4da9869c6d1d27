import MettaSchema.Schema.Kind

/-!
# Schemas

A schema describes one file: its messages, enums and services, with every type
reference resolved to a full name.

* `Schema`, `Message`, `Field`, `EnumType`, `Service`, `Method` — the parts.
* `TypeRef` — a reference, with the full name and the last part of it.
* `Keyed.insert` — puts an entry into a keyed list: a key that is there keeps its
  place and takes the new value.
* `Message.flat` — a message that declares nothing inside.
* `Message.insertField`, `Message.ascending_insertField` — fields are kept in ascending order of
  their numbers, as `Fields` and in every `Message`.
-/

namespace MettaSchema

/-! ## Keyed lists -/

namespace Keyed

variable {α : Type}

/-- Puts a value under a key.  A key that is there keeps its place and takes the new
value; a new key goes last. -/
def insert (key : String) (value : α) : List (String × α) → List (String × α)
  | [] => [(key, value)]
  | (k, v) :: rest =>
    if k = key then (k, value) :: rest else (k, v) :: insert key value rest

/-- Puts entries into an empty list, one after another. -/
def ofList (entries : List (String × α)) : List (String × α) :=
  entries.foldl (fun map entry => insert entry.1 entry.2 map) []

end Keyed

/-! ## Types of fields -/

/-- A reference to a message or an enum. -/
structure TypeRef where
  /-- The name of the type in the scope that declares it. -/
  name : String
  /-- The full name, without a leading dot. -/
  fullName : String
  deriving DecidableEq, Repr, Inhabited

/-- The text behind the last dot, or the whole text if there is no dot. -/
def afterLastDot (name : String) : String :=
  String.ofList (name.toList.reverse.takeWhile (· != '.')).reverse

/-- The reference to a full name. -/
def TypeRef.ofFullName (fullName : String) : TypeRef :=
  ⟨afterLastDot fullName, fullName⟩

/-- The type of a field. -/
inductive FieldType where
  /-- A scalar. -/
  | scalar (kind : Kind)
  /-- A message. -/
  | message (ref : TypeRef)
  /-- An enum. -/
  | enum (ref : TypeRef)
  /-- A group, whose body is a message of its own. -/
  | group (ref : TypeRef)
  deriving DecidableEq, Repr, Inhabited

/-- The kind of a type. -/
def FieldType.kind : FieldType → Kind
  | scalar kind => kind
  | message _ => .message
  | enum _ => .enum
  | group _ => .group

/-- How often a field occurs. -/
inductive Label where
  /-- At most once. -/
  | optional
  /-- Exactly once. -/
  | required
  /-- Any number of times. -/
  | repeated
  deriving DecidableEq, Repr, Inhabited

/-- A field of a message. -/
structure Field where
  /-- The name. -/
  name : String
  /-- The number, which identifies the field in its message. -/
  number : Nat
  /-- How often the field occurs. -/
  label : Label
  /-- The type. -/
  type : FieldType
  deriving DecidableEq, Repr, Inhabited

/-! ## Definitions -/

/-- An enum. -/
structure EnumType where
  /-- The name. -/
  name : String
  /-- The full name. -/
  fullName : String
  /-- The values with their numbers, in the order of declaration. -/
  values : List (String × Int)
  deriving DecidableEq, Repr, Inhabited

/-! ## Fields in order -/

namespace Message

/-- Puts a field into a list in ascending order of numbers.  A field with the same
number is replaced. -/
def insertField (field : Field) : List Field → List Field
  | [] => [field]
  | g :: rest =>
    if field.number < g.number then field :: g :: rest
    else if field.number = g.number then field :: rest
    else g :: insertField field rest

theorem mem_insertField {f field : Field} {fields : List Field}
    (h : f ∈ insertField field fields) : f = field ∨ f ∈ fields := by
  induction fields with
  | nil => simpa [insertField] using h
  | cons g rest ih =>
    unfold insertField at h
    split at h
    · simpa using h
    · split at h
      · rcases List.mem_cons.1 h with rfl | h
        · exact .inl rfl
        · exact .inr (List.mem_cons_of_mem g h)
      · rcases List.mem_cons.1 h with rfl | h
        · exact .inr (by simp)
        · exact (ih h).imp id (List.mem_cons_of_mem g)

/-- Putting in a field keeps the order. -/
theorem ascending_insertField {field : Field} {fields : List Field}
    (h : fields.Pairwise (·.number < ·.number)) :
    (insertField field fields).Pairwise (·.number < ·.number) := by
  induction fields with
  | nil => simp [insertField]
  | cons g rest ih =>
    rw [List.pairwise_cons] at h
    obtain ⟨hg, hrest⟩ := h
    unfold insertField
    split
    · rename_i hlt
      rw [List.pairwise_cons, List.pairwise_cons]
      refine ⟨fun f hf => ?_, hg, hrest⟩
      rcases List.mem_cons.1 hf with rfl | hf
      · exact hlt
      · exact Nat.lt_trans hlt (hg f hf)
    · split
      · rename_i heq
        rw [List.pairwise_cons]
        exact ⟨fun f hf => heq ▸ hg f hf, hrest⟩
      · rename_i hle hne
        rw [List.pairwise_cons]
        refine ⟨fun f hf => ?_, ih hrest⟩
        rcases mem_insertField hf with rfl | hf
        · omega
        · exact hg f hf

/-- Putting in fields one after another keeps the order. -/
@[simp]
theorem ascending_foldl_insertField {α : Type} (field : α → Field) (xs : List α)
    {fields : List Field} (h : fields.Pairwise (·.number < ·.number)) :
    (xs.foldl (fun fields x => insertField (field x) fields) fields).Pairwise
      (·.number < ·.number) := by
  induction xs generalizing fields with
  | nil => exact h
  | cons x xs ih => exact ih (ascending_insertField h)

end Message

/-- Fields in ascending order of their numbers. -/
abbrev Fields : Type := { fields : List Field // fields.Pairwise (·.number < ·.number) }

namespace Fields

/-- No fields. -/
def empty : Fields := ⟨[], .nil⟩

/-- Puts a field in its place.  A field with the same number is replaced. -/
def insert (fields : Fields) (field : Field) : Fields :=
  ⟨Message.insertField field fields.1, Message.ascending_insertField fields.2⟩

@[simp]
theorem val_empty : empty.1 = [] := rfl

@[simp]
theorem val_insert (field : Field) (fields : Fields) :
    (fields.insert field).1 = Message.insertField field fields.1 := rfl

end Fields

/-! ## Messages, services and schemas -/

/-- A message. -/
structure Message where
  /-- The name. -/
  name : String
  /-- The full name. -/
  fullName : String
  /-- The fields. -/
  fields : List Field
  /-- The messages declared inside. -/
  messages : List (String × Message)
  /-- The enums declared inside. -/
  enums : List (String × EnumType)
  /-- The fields are in ascending order of their numbers. -/
  ascending : fields.Pairwise (·.number < ·.number) := by simp
  deriving Repr

namespace Message

/-- A message that declares nothing inside, with the given fields, in any order. -/
def flat (name fullName : String) (fields : List Field) : Message where
  name := name
  fullName := fullName
  fields := fields.foldl (fun fields field => insertField field fields) []
  messages := []
  enums := []

instance : Inhabited Message := ⟨flat "" "" []⟩

mutual

/-- Whether two messages are equal. -/
def same : Message → Message → Bool
  | ⟨name, fullName, fields, messages, enums, _⟩,
    ⟨name', fullName', fields', messages', enums', _⟩ =>
    name == name' && fullName == fullName' && fields == fields' && sameAll messages messages'
      && enums == enums'

/-- Whether two lists of messages with their keys are equal. -/
def sameAll : List (String × Message) → List (String × Message) → Bool
  | [], [] => true
  | (key, m) :: rest, (key', m') :: rest' => key == key' && same m m' && sameAll rest rest'
  | _, _ => false

end

mutual

theorem same_iff (m m' : Message) : same m m' = true ↔ m = m' := by
  cases m with
  | mk name fullName fields messages enums =>
    cases m'
    simp [same, sameAll_iff messages, and_assoc]

theorem sameAll_iff (ms ms' : List (String × Message)) : sameAll ms ms' = true ↔ ms = ms' := by
  cases ms with
  | nil => cases ms' <;> simp [sameAll]
  | cons entry rest =>
    obtain ⟨key, m⟩ := entry
    cases ms' <;> simp [sameAll, same_iff m, sameAll_iff rest, Prod.ext_iff, and_assoc]

end

instance : DecidableEq Message := fun m m' => decidable_of_iff _ (same_iff m m')

end Message

/-- A method of a service. -/
structure Method where
  /-- The name. -/
  name : String
  /-- What the method takes. -/
  input : TypeRef
  /-- What the method returns. -/
  output : TypeRef
  /-- Whether it takes a stream. -/
  clientStreaming : Bool
  /-- Whether it returns a stream. -/
  serverStreaming : Bool
  deriving DecidableEq, Repr, Inhabited

/-- A service. -/
structure Service where
  /-- The name. -/
  name : String
  /-- The full name. -/
  fullName : String
  /-- The methods, in the order of declaration. -/
  methods : List (String × Method)
  deriving DecidableEq, Repr, Inhabited

/-- The dialects of the schema language. -/
inductive Dialect where
  /-- The older one, which holds unless a file says otherwise. -/
  | proto2
  /-- The newer one. -/
  | proto3
  deriving DecidableEq, Repr, Inhabited

/-- The name of a dialect. -/
def Dialect.name : Dialect → String
  | proto2 => "proto2"
  | proto3 => "proto3"

/-- The dialect of a given name. -/
def Dialect.ofName? (name : String) : Option Dialect :=
  if name = "proto2" then some proto2 else if name = "proto3" then some proto3 else none

/-- The description of one file. -/
structure Schema where
  /-- The name of the file. -/
  name : String
  /-- The dialect. -/
  dialect : Dialect
  /-- The package, if the file names one. -/
  package : Option String
  /-- The imports, as written. -/
  imports : List String
  /-- The top-level messages. -/
  messages : List (String × Message)
  /-- The top-level enums. -/
  enums : List (String × EnumType)
  /-- The services. -/
  services : List (String × Service)
  deriving DecidableEq, Repr, Inhabited

/-- The package, or nothing if the file names none. -/
def Schema.packageName (schema : Schema) : String :=
  schema.package.getD ""

end MettaSchema
