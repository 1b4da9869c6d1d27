import MettaSchema.Schema.Basic

/-!
# Nested definitions

All messages and enums of a schema, however deep they are declared.

* `Message.withNested` — a message, then the messages inside it.
* `Message.allEnums` — the enums inside a message.
* `Schema.allMessages`, `Schema.allEnums` — those of a whole schema.
-/

namespace MettaSchema

namespace Message

mutual

/-- A message, then what is declared inside it, message by message. -/
def withNested : Message → List Message
  | ⟨name, fullName, fields, messages, enums, ascending⟩ =>
    ⟨name, fullName, fields, messages, enums, ascending⟩ :: withNestedAll messages

/-- Messages, each followed by the messages inside it. -/
def withNestedAll : List (String × Message) → List Message
  | [] => []
  | (_, message) :: rest => withNested message ++ withNestedAll rest

end

mutual

/-- The enums that are declared inside a message: those of the messages inside it
first, its own last. -/
def allEnums : Message → List EnumType
  | ⟨_, _, _, messages, enums, _⟩ => nestedEnums messages ++ enums.map (·.2)

/-- The enums that are declared inside some messages. -/
def nestedEnums : List (String × Message) → List EnumType
  | [] => []
  | (_, message) :: rest => allEnums message ++ nestedEnums rest

end

end Message

namespace Schema

/-- All messages of a schema, each before those inside it. -/
def allMessages (schema : Schema) : List Message :=
  Message.withNestedAll schema.messages

/-- All enums of a schema, those inside messages first. -/
def allEnums (schema : Schema) : List EnumType :=
  Message.nestedEnums schema.messages ++ schema.enums.map (·.2)

end Schema

end MettaSchema
