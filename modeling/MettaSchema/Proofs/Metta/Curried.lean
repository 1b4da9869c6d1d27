import MettaSchema.Metta.Document
import MettaSchema.Proofs.Metta.Canonical
import MettaSchema.Proofs.Schema.Messages

/-!
# Flat and curried constructors

The types of constructors are all that the choice between flat and curried types changes in a
document.  The two documents of a schema are the same segments of text with the types of the
constructors between them, one for each message.

* `Entry.segments`, `Entry.blocks` — what stands around the types of constructors, and these
  types as they are written.
* `Entry.textAll_eq_interleave` — entries are written as their segments and blocks in turn.
* `Translation.segments_documentEntries` — the segments do not depend on the choice.
* `Translation.blocks_documentEntries` — there is one block for each message.
* `Schema.toMetta_interleaved` — the two documents of a schema.
-/

namespace MettaSchema

/-! ## Segments -/

/-- Segments of a text with blocks between them, in turn. -/
def interleave : List String → List String → String
  | [], _ => ""
  | segment :: segments, [] => segment ++ interleave segments []
  | segment :: segments, block :: blocks => segment ++ block ++ interleave segments blocks

/-- Puts a text in front of the first of some segments. -/
def prepend (text : String) : List String → List String
  | [] => [text]
  | segment :: segments => (text ++ segment) :: segments

theorem length_prepend (text : String) {segments : List String} (h : segments ≠ []) :
    (prepend text segments).length = segments.length := by
  cases segments with
  | nil => exact absurd rfl h
  | cons segment segments => rfl

theorem interleave_prepend (text : String) {segments : List String} (h : segments ≠ [])
    (blocks : List String) :
    interleave (prepend text segments) blocks = text ++ interleave segments blocks := by
  cases segments with
  | nil => exact absurd rfl h
  | cons segment segments => cases blocks <;> simp [prepend, interleave, String.append_assoc]

namespace Entry

/-- What stands around the types of the constructors among some entries. -/
def segments : List Entry → List String
  | [] => [""]
  | construct symbol _ _ :: rest => ("(: " ++ symbol ++ "\n") :: prepend ")\n" (segments rest)
  | entry :: rest => prepend entry.text (segments rest)

/-- The type of a constructor as it is written. -/
def block? : Entry → Option String
  | construct _ chained type => some (type.block chained)
  | _ => none

/-- The types of the constructors among some entries as they are written. -/
def blocks (entries : List Entry) : List String :=
  entries.filterMap block?

/-- An entry without the type of a constructor. -/
def bare : Entry → Entry
  | construct symbol _ _ => construct symbol false (.atom "")
  | entry => entry

/-- There is one segment more than there are blocks. -/
theorem length_segments (entries : List Entry) :
    (segments entries).length = (blocks entries).length + 1 := by
  induction entries with
  | nil => rfl
  | cons entry rest ih =>
    have hne : segments rest ≠ [] := List.ne_nil_of_length_eq_add_one ih
    cases entry <;> simp [segments, blocks, block?, length_prepend _ hne, ih] <;> rfl

theorem segments_ne_nil (entries : List Entry) : segments entries ≠ [] :=
  List.ne_nil_of_length_eq_add_one (length_segments entries)

/-- Entries are written as their segments with the types of constructors between them. -/
theorem textAll_eq_interleave (entries : List Entry) :
    textAll entries = interleave (segments entries) (blocks entries) := by
  induction entries with
  | nil => rfl
  | cons entry rest ih =>
    have hrest (text : String) : interleave (prepend text (segments rest)) (blocks rest)
        = text ++ textAll rest := by
      rw [interleave_prepend text (segments_ne_nil rest), ih]
    cases entry with
    | construct symbol chained type =>
      have htext : textAll (construct symbol chained type :: rest)
          = "(: " ++ symbol ++ "\n" ++ type.block chained ++ ")\n" ++ textAll rest := rfl
      have hturns : interleave (segments (construct symbol chained type :: rest))
            (blocks (construct symbol chained type :: rest))
          = "(: " ++ symbol ++ "\n" ++ type.block chained
            ++ interleave (prepend ")\n" (segments rest)) (blocks rest) := rfl
      rw [htext, hturns, hrest, String.append_assoc, String.append_assoc]
    | _ => exact (hrest _).symm

/-- The segments do not depend on the types of constructors. -/
theorem segments_map_bare (entries : List Entry) :
    segments (entries.map bare) = segments entries := by
  induction entries with
  | nil => rfl
  | cons entry rest ih => cases entry <;> simp only [List.map_cons, bare, segments, ih]

theorem segments_congr {first second : List Entry} (h : first.map bare = second.map bare) :
    segments first = segments second := by
  rw [← segments_map_bare first, h, segments_map_bare]

end Entry

/-! ## Constructors of a schema -/

namespace Message

mutual

/-- A message behind the messages inside it. -/
def nestedFirst : Message → List Message
  | ⟨name, fullName, fields, messages, enums, ascending⟩ =>
    nestedFirstAll messages ++ [⟨name, fullName, fields, messages, enums, ascending⟩]

/-- Messages, each behind the messages inside it. -/
def nestedFirstAll : List (String × Message) → List Message
  | [] => []
  | (_, message) :: rest => nestedFirst message ++ nestedFirstAll rest

end

mutual

theorem nestedFirst_perm : ∀ m : Message, m.nestedFirst.Perm m.withNested
  | ⟨name, fullName, fields, messages, enums, ascending⟩ => by
    have hinner := nestedFirstAll_perm messages
    rw [nestedFirst, withNested]
    exact List.perm_append_comm.trans (hinner.cons _)

theorem nestedFirstAll_perm :
    ∀ ms : List (String × Message), (nestedFirstAll ms).Perm (withNestedAll ms)
  | [] => .refl []
  | (_, m) :: rest => (nestedFirst_perm m).append (nestedFirstAll_perm rest)

end

end Message

/-- All messages of a schema, each behind those inside it. -/
def Schema.nestedFirst (schema : Schema) : List Message :=
  Message.nestedFirstAll schema.messages

namespace Translation

/-- The type of the constructor of a message as it is written. -/
def constructorBlock (t : Translation) (m : Message) : String :=
  (t.constructorType m.name m.fields).block t.curried

/-! ### Segments of a document -/

section Segments

variable (p : String) (c d : Bool)

-- Only the entry of the constructor differs, and nothing that differs is left of it.
theorem map_bare_fieldEntries (message : String) (fields : List Field) :
    (fieldEntries ⟨p, c⟩ message fields).map Entry.bare
      = (fieldEntries ⟨p, d⟩ message fields).map Entry.bare := rfl

mutual

theorem map_bare_messageEntries : ∀ m : Message,
    (messageEntries ⟨p, c⟩ m).map Entry.bare = (messageEntries ⟨p, d⟩ m).map Entry.bare
  | ⟨name, fullName, fields, messages, enums, ascending⟩ => by
    have hinner := map_bare_nestedEntries messages
    have hfields := map_bare_fieldEntries p c d name fields
    simp only [messageEntries, List.map_append, hinner, hfields]
    rfl

theorem map_bare_nestedEntries : ∀ ms : List (String × Message),
    (nestedEntries ⟨p, c⟩ ms).map Entry.bare = (nestedEntries ⟨p, d⟩ ms).map Entry.bare
  | [] => rfl
  | (_, m) :: rest => by
    simp only [nestedEntries, List.map_append, map_bare_messageEntries m,
      map_bare_nestedEntries rest]

end

/-- The segments of a document depend on the prefix alone. -/
theorem segments_documentEntries (schema : Schema) :
    Entry.segments (documentEntries ⟨p, c⟩ schema)
      = Entry.segments (documentEntries ⟨p, d⟩ schema) := by
  apply Entry.segments_congr
  simp only [documentEntries, List.map_append, List.map_flatMap, map_bare_messageEntries p c d]
  rfl

end Segments

/-! ### Blocks of a document -/

section Blocks

variable (t : Translation)

theorem blocks_append (first second : List Entry) :
    Entry.blocks (first ++ second) = Entry.blocks first ++ Entry.blocks second :=
  List.filterMap_append

theorem blocks_flatMap_eq_nil {α : Type} {xs : List α} {f : α → List Entry}
    (h : ∀ x, Entry.blocks (f x) = []) : Entry.blocks (xs.flatMap f) = [] := by
  rw [Entry.blocks, List.filterMap_flatMap]
  exact List.flatMap_eq_nil_iff.2 fun x _ => h x

theorem blocks_enumEntries (enum : EnumType) : Entry.blocks (t.enumEntries enum) = [] := by
  have hvalues (type : String) :
      Entry.blocks (enum.values.map fun value => .declare (type ++ "." ++ value.1) (.atom type))
        = [] := by
    induction enum.values with
    | nil => rfl
    | cons value values ih => exact ih
  rw [enumEntries, blocks_append, blocks_append, hvalues]
  rfl

theorem blocks_banner (title : String) : Entry.blocks (Entry.banner title) = [] := rfl

theorem blocks_headerEntries (schema : Schema) : Entry.blocks (t.headerEntries schema) = [] := by
  unfold headerEntries
  split <;> split <;> rfl

theorem blocks_serviceEntries (service : Service) :
    Entry.blocks (t.serviceEntries service) = [] :=
  blocks_flatMap_eq_nil fun _ => rfl

/-- A message has one constructor, in front of its accessors. -/
theorem blocks_fieldEntries (message : String) (fields : List Field) :
    Entry.blocks (t.fieldEntries message fields)
      = [(t.constructorType message fields).block t.curried] := by
  have haccessors : Entry.blocks (fields.flatMap (t.accessorEntries message fields)) = [] :=
    blocks_flatMap_eq_nil fun _ => rfl
  rw [fieldEntries, blocks_append, haccessors]
  rfl

mutual

theorem blocks_messageEntries : ∀ m : Message,
    Entry.blocks (t.messageEntries m) = m.nestedFirst.map t.constructorBlock
  | ⟨name, fullName, fields, messages, enums, ascending⟩ => by
    have hhead : Entry.blocks [.comment ("Define " ++ t.symbol name ++ " type"),
        .declare (t.symbol name) (.atom "Type"), .emptyLine] = [] := rfl
    have henums : Entry.blocks (enums.flatMap fun entry => t.enumEntries entry.2) = [] :=
      blocks_flatMap_eq_nil fun entry => t.blocks_enumEntries entry.2
    rw [messageEntries, blocks_append, blocks_append, blocks_append, hhead, henums,
      blocks_nestedEntries messages, blocks_fieldEntries, List.nil_append, List.append_nil,
      Message.nestedFirst, List.map_append]
    rfl

theorem blocks_nestedEntries : ∀ ms : List (String × Message),
    Entry.blocks (t.nestedEntries ms) = (Message.nestedFirstAll ms).map t.constructorBlock
  | [] => rfl
  | (_, m) :: rest => by
    rw [nestedEntries, blocks_append, blocks_messageEntries m, blocks_nestedEntries rest,
      Message.nestedFirstAll, List.map_append]

end

theorem blocks_messages (ms : List (String × Message)) :
    Entry.blocks (ms.flatMap fun entry => Entry.banner entry.1 ++ t.messageEntries entry.2)
      = (Message.nestedFirstAll ms).map t.constructorBlock := by
  induction ms with
  | nil => rfl
  | cons entry rest ih =>
    rw [List.flatMap_cons, blocks_append, ih, blocks_append, blocks_banner,
      blocks_messageEntries, Message.nestedFirstAll, List.map_append, List.nil_append]

/-- A document has the type of one constructor for each message, in the order in which the
messages end. -/
theorem blocks_documentEntries (schema : Schema) :
    Entry.blocks (t.documentEntries schema) = schema.nestedFirst.map t.constructorBlock := by
  have hservices : Entry.blocks (schema.services.flatMap fun entry =>
      Entry.banner entry.1 ++ t.serviceEntries entry.2) = [] :=
    blocks_flatMap_eq_nil fun entry => by
      rw [blocks_append, blocks_banner, blocks_serviceEntries, List.nil_append]
  simp only [documentEntries, blocks_append, blocks_headerEntries, blocks_banner, blocks_messages,
    hservices, List.nil_append, List.append_nil, Schema.nestedFirst]

end Blocks

theorem constructorType_curry (p message : String) (c : Bool) (fields : List Field) :
    (constructorType ⟨p, c⟩ message fields).curry = constructorType ⟨p, true⟩ message fields :=
  FunctionType.curry_build _ _ c

theorem constructorType_uncurry (p message : String) (c : Bool) (fields : List Field) :
    (constructorType ⟨p, c⟩ message fields).uncurry = constructorType ⟨p, false⟩ message fields :=
  FunctionType.uncurry_build _ _ c

end Translation

/-! ## The two documents of a schema -/

/-- The flat and the curried document of a schema are the same segments with the types of the
constructors between them, one for each message and in the same order, and for each message the
two types are the flat and the curried type of one function. -/
theorem Schema.toMetta_interleaved (schema : Schema) (symbolPrefix : String) :
    let flat := Translation.ofOptions schema ⟨symbolPrefix, false⟩
    let curried := Translation.ofOptions schema ⟨symbolPrefix, true⟩
    ∃ (messages : List Message) (segments : List String),
      messages.Perm schema.allMessages ∧ segments.length = messages.length + 1
        ∧ schema.toMetta ⟨symbolPrefix, false⟩ = interleave segments
            (messages.map fun m => (flat.constructorType m.name m.fields).block false)
        ∧ schema.toMetta ⟨symbolPrefix, true⟩ = interleave segments
            (messages.map fun m => (curried.constructorType m.name m.fields).block true)
        ∧ ∀ m ∈ messages,
            curried.constructorType m.name m.fields
                = (flat.constructorType m.name m.fields).curry
              ∧ flat.constructorType m.name m.fields
                = (curried.constructorType m.name m.fields).uncurry := by
  intro flat curried
  have hsegments := Translation.segments_documentEntries flat.symbolPrefix true false schema
  have hflat := Translation.blocks_documentEntries flat schema
  have hcurried := Translation.blocks_documentEntries curried schema
  refine ⟨schema.nestedFirst, Entry.segments (flat.documentEntries schema),
    Message.nestedFirstAll_perm schema.messages, ?_, ?_, ?_, ?_⟩
  · rw [Entry.length_segments, hflat, List.length_map]
  · exact (Entry.textAll_eq_interleave _).trans (by rw [hflat]; rfl)
  · refine (Entry.textAll_eq_interleave (curried.documentEntries schema)).trans ?_
    rw [hcurried]
    exact congrArg (interleave · _) hsegments
  · intro m _
    exact ⟨(Translation.constructorType_curry _ m.name false m.fields).symm,
      (Translation.constructorType_uncurry _ m.name true m.fields).symm⟩

end MettaSchema
