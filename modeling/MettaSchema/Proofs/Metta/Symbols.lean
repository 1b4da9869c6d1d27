import MettaSchema.Proofs.Metta.Header

/-!
# Symbols that are declared

All symbols of a document stand directly behind one prefix: types, constructors, accessors, values
and methods.  A type goes by its local name, a constructor by that of its message behind `Mk`, a
method by its own name, whatever its service; only accessors and values have a dot in their names.
So even if the local names are distinct, a symbol can be declared twice.

* `Form.declared?` — the symbol to which a form gives a type.
* `Schema.declaredNames` — the names that the document of a schema declares.
* `Translation.declared_documentEntries` — those are what it declares.
* `Schema.Apart` — constructors and methods have names that nothing else has.
* `Schema.declaredNames_nodup_iff` — then, and only then, no name is declared twice.
* `Schema.read_declaring` — a file name with two lines can add a declaration.
* `Schema.declared_nodup_iff` — when no symbol is declared twice in the document of a text.
-/

namespace MettaSchema

open Form

/-! ## Declared symbols -/

/-- The symbol to which a form gives a type, if it does. -/
def Form.declared? : Form → Option String
  | .list [.atom ":", .atom symbol, _] => some symbol
  | _ => none

/-- The symbol to which an entry gives a type, if it does. -/
def Entry.declared? : Entry → Option String
  | declare symbol _ => some symbol
  | construct symbol _ _ => some symbol
  | _ => none

/-- What entries say declares what the entries do. -/
theorem Entry.declared_forms (entries : List Entry) :
    (entries.flatMap forms).filterMap Form.declared? = entries.filterMap declared? := by
  induction entries with
  | nil => rfl
  | cons entry entries ih =>
    rw [List.flatMap_cons, List.filterMap_append, ih]
    cases entry <;> rfl

/-! ## Declared names -/

/-- The names that an enum declares: its own and those of its values. -/
def EnumType.declaredNames (enum : EnumType) : List String :=
  enum.name :: enum.values.map fun value => enum.name ++ "." ++ value.1

namespace Message

mutual

/-- The names that a message declares: its own, those of what is inside it, and those of its
constructor and its accessors. -/
def declaredNames : Message → List String
  | ⟨name, _, fields, messages, enums, _⟩ =>
    name :: (declaredNamesAll messages ++ enums.flatMap (·.2.declaredNames)
      ++ ("Mk" ++ name) :: fields.map fun field => name ++ "." ++ field.name)

/-- The names that some messages declare. -/
def declaredNamesAll : List (String × Message) → List String
  | [] => []
  | (_, m) :: rest => m.declaredNames ++ declaredNamesAll rest

end

end Message

namespace Schema

/-- The names of the methods of all services. -/
def methodNames (schema : Schema) : List String :=
  schema.services.flatMap fun service => service.2.methods.map (·.1)

/-- The names that the document of a schema declares. -/
def declaredNames (schema : Schema) : List String :=
  Message.declaredNamesAll schema.messages ++ schema.methodNames

end Schema

namespace Translation

variable (t : Translation)

theorem symbol_injective : Function.Injective t.symbol := by
  intro a b h
  simpa [symbol, ← String.toList_inj] using h

theorem symbol_append (name suffix : String) : t.symbol name ++ suffix = t.symbol (name ++ suffix) := by
  simp [symbol, String.append_assoc]

theorem declared_enumEntries (enum : EnumType) :
    (t.enumEntries enum).filterMap Entry.declared? = enum.declaredNames.map t.symbol := by
  have hvalues : (enum.values.map fun value =>
      Entry.declare (t.symbol enum.name ++ "." ++ value.1) (.atom (t.symbol enum.name))).filterMap
        Entry.declared? = (enum.values.map fun value => enum.name ++ "." ++ value.1).map t.symbol := by
    simp [List.filterMap_map, Function.comp_def, Entry.declared?, symbol_append, String.append_assoc]
  rw [enumEntries, List.filterMap_append, List.filterMap_append, hvalues]
  exact List.append_nil _

/-- A message declares its constructor, and an accessor for each field. -/
theorem declared_fieldEntries (message : String) (fields : List Field) :
    (t.fieldEntries message fields).filterMap Entry.declared?
      = (("Mk" ++ message) :: fields.map fun field => message ++ "." ++ field.name).map
          t.symbol := by
  have haccessors (field : Field) : (t.accessorEntries message fields field).filterMap
      Entry.declared? = [t.symbol (message ++ "." ++ field.name)] := by
    rw [← symbol_append, ← symbol_append]
    rfl
  rw [fieldEntries, List.filterMap_append, List.filterMap_flatMap]
  simp only [haccessors, ← List.map_eq_flatMap, List.map_cons, List.map_map, Function.comp_def]
  rfl

mutual

theorem declared_messageEntries : ∀ m : Message,
    (t.messageEntries m).filterMap Entry.declared? = m.declaredNames.map t.symbol
  | ⟨name, fullName, fields, messages, enums, ascending⟩ => by
    have hinner := declared_nestedEntries messages
    have henums : (enums.flatMap fun entry => t.enumEntries entry.2).filterMap Entry.declared?
        = (enums.flatMap (·.2.declaredNames)).map t.symbol := by
      simp only [List.filterMap_flatMap, declared_enumEntries, List.map_flatMap]
    simp only [messageEntries, List.filterMap_append, hinner, henums, declared_fieldEntries,
      Message.declaredNames, List.map_cons, List.map_append]
    rfl

theorem declared_nestedEntries : ∀ ms : List (String × Message),
    (t.nestedEntries ms).filterMap Entry.declared? = (Message.declaredNamesAll ms).map t.symbol
  | [] => rfl
  | (_, m) :: rest => by
    rw [nestedEntries, List.filterMap_append, declared_messageEntries m,
      declared_nestedEntries rest, Message.declaredNamesAll, List.map_append]

end

theorem declared_headerEntries (schema : Schema) :
    (t.headerEntries schema).filterMap Entry.declared? = [] := by
  unfold headerEntries
  split <;> split <;> rfl

theorem declared_banner (title : String) : (Entry.banner title).filterMap Entry.declared? = [] :=
  rfl

theorem declared_serviceEntries (service : Service) :
    (t.serviceEntries service).filterMap Entry.declared?
      = (service.methods.map (·.1)).map t.symbol := by
  have hmethod (entry : String × Method) :
      (t.methodEntries entry.1 entry.2).filterMap Entry.declared? = [t.symbol entry.1] := rfl
  simp only [serviceEntries, List.filterMap_flatMap, hmethod, ← List.map_eq_flatMap, List.map_map,
    Function.comp_def]

theorem declared_messages (ms : List (String × Message)) :
    (ms.flatMap fun entry => Entry.banner entry.1 ++ t.messageEntries entry.2).filterMap
      Entry.declared? = (Message.declaredNamesAll ms).map t.symbol := by
  induction ms with
  | nil => rfl
  | cons entry rest ih =>
    rw [List.flatMap_cons, List.filterMap_append, ih, List.filterMap_append, declared_banner,
      declared_messageEntries, Message.declaredNamesAll, List.map_append, List.nil_append]

/-- A document declares the symbols of the names that its schema declares. -/
theorem declared_documentEntries (schema : Schema) :
    (t.documentEntries schema).filterMap Entry.declared? = schema.declaredNames.map t.symbol := by
  have hservices : (schema.services.flatMap fun entry =>
      Entry.banner entry.1 ++ t.serviceEntries entry.2).filterMap Entry.declared?
        = schema.methodNames.map t.symbol := by
    simp only [List.filterMap_flatMap, List.filterMap_append, declared_banner, List.nil_append,
      declared_serviceEntries, Schema.methodNames, List.map_flatMap]
  simp only [documentEntries, List.filterMap_append, declared_headerEntries, declared_banner,
    declared_messages, hservices, List.nil_append, List.append_nil, Schema.declaredNames,
    List.map_append]

end Translation

/-! ## Names of types and of their members -/

/-- The name of a message and those of its fields. -/
def Message.members (m : Message) : String × List String :=
  (m.name, m.fields.map (·.name))

/-- The name of an enum and those of its values. -/
def EnumType.members (enum : EnumType) : String × List String :=
  (enum.name, enum.values.map (·.1))

/-- The names of members behind the name of their type. -/
def memberNames (type : String × List String) : List String :=
  type.2.map fun member => type.1 ++ "." ++ member

theorem memberNames_map {α : Type} (type : String) (name : α → String) (xs : List α) :
    memberNames (type, xs.map name) = xs.map fun x => type ++ "." ++ name x := by
  simp [memberNames]

namespace Message

/-- The types that some messages declare, at any depth, with the names of their members. -/
def typesAll (ms : List (String × Message)) : List (String × List String) :=
  (withNestedAll ms).map members ++ (nestedEnums ms).map EnumType.members

/-- The names of constructors. -/
def constructorNames (ms : List Message) : List String :=
  ms.map fun m => "Mk" ++ m.name

theorem count_enums (a : String) (enums : List (String × EnumType)) :
    (enums.flatMap (·.2.declaredNames)).count a
      = (((enums.map (·.2)).map EnumType.members).map (·.1)).count a
        + (((enums.map (·.2)).map EnumType.members).flatMap memberNames).count a := by
  have hown (enum : EnumType) : enum.declaredNames.count a
      = [enum.members.1].count a + (memberNames enum.members).count a := by
    rw [← List.count_append, EnumType.members, memberNames_map]
    rfl
  induction enums with
  | nil => rfl
  | cons enum rest ih =>
    simp only [List.flatMap_cons, List.map_cons, List.count_append, ih, hown, List.count_cons,
      List.count_nil]
    omega

mutual

theorem count_declaredNames (a : String) : ∀ m : Message,
    m.declaredNames.count a
      = ((m.withNested.map members ++ m.allEnums.map EnumType.members).map (·.1)).count a
        + (constructorNames m.withNested).count a
        + ((m.withNested.map members ++ m.allEnums.map EnumType.members).flatMap
            memberNames).count a
  | ⟨name, fullName, fields, messages, enums, ascending⟩ => by
    have hinner := count_declaredNamesAll a messages
    have henums := count_enums a enums
    simp only [typesAll, List.map_append, List.count_append, List.flatMap_append,
      constructorNames] at hinner
    simp only [declaredNames, withNested, allEnums, List.map_cons, List.map_append,
      List.flatMap_append, List.flatMap_cons, List.count_append, List.count_cons, hinner, henums,
      memberNames_map, constructorNames, members]
    omega

/-- Messages declare the names of types, of constructors and of members. -/
theorem count_declaredNamesAll (a : String) : ∀ ms : List (String × Message),
    (declaredNamesAll ms).count a
      = ((typesAll ms).map (·.1)).count a + (constructorNames (withNestedAll ms)).count a
        + ((typesAll ms).flatMap memberNames).count a
  | [] => rfl
  | (_, m) :: rest => by
    have hm := count_declaredNames a m
    have hrest := count_declaredNamesAll a rest
    simp only [typesAll, List.map_append, List.count_append, List.flatMap_append,
      constructorNames] at hm hrest
    simp only [declaredNamesAll, typesAll, withNestedAll, nestedEnums, List.map_append,
      List.flatMap_append, List.count_append, hm, hrest, constructorNames]
    omega

end

end Message

namespace Schema

/-- The types that the document of a schema declares, with the names of their members: messages,
and the enums inside them. -/
def types (schema : Schema) : List (String × List String) :=
  Message.typesAll schema.messages

/-- The names of the types that the document of a schema declares. -/
def writtenNames (schema : Schema) : List String :=
  schema.allMessages.map (·.name) ++ (Message.nestedEnums schema.messages).map (·.name)

/-- The names of the constructors of a schema. -/
def constructorNames (schema : Schema) : List String :=
  Message.constructorNames schema.allMessages

theorem map_fst_types (schema : Schema) : schema.types.map (·.1) = schema.writtenNames := by
  simp only [types, Message.typesAll, writtenNames, List.map_append, List.map_map]
  rfl

/-- The names that a schema declares are those of types, constructors, methods and members. -/
theorem declaredNames_perm (schema : Schema) :
    schema.declaredNames.Perm (schema.writtenNames ++ schema.constructorNames ++ schema.methodNames
      ++ schema.types.flatMap memberNames) := by
  refine List.perm_iff_count.2 fun a => ?_
  simp only [declaredNames, List.count_append, Message.count_declaredNamesAll, ← map_fst_types,
    constructorNames, types, allMessages]
  omega

/-- Constructors and methods have names that nothing else has: no message and no enum inside a
message is called as a constructor, no two methods have the same name, whatever their services,
and no method is called as a message, an enum inside a message or a constructor. -/
structure Apart (schema : Schema) : Prop where
  /-- Constructors have other names than types. -/
  constructors : ∀ m ∈ schema.allMessages, "Mk" ++ m.name ∉ schema.writtenNames
  /-- Methods have distinct names. -/
  methods : schema.methodNames.Nodup
  /-- Methods have other names than types. -/
  types : ∀ n ∈ schema.methodNames, n ∉ schema.writtenNames
  /-- Methods have other names than constructors. -/
  makers : ∀ n ∈ schema.methodNames, ∀ m ∈ schema.allMessages, n ≠ "Mk" ++ m.name

end Schema

/-! ## Names that are declared twice -/

/-- A name of two identifiers says what they are. -/
theorem Identifier.dot_inj {a b x y : String} (ha : Identifier a) (hx : Identifier x)
    (h : a ++ "." ++ x = b ++ "." ++ y) : a = b ∧ x = y := by
  have hlist := congrArg String.toList h
  simp only [String.toList_append, List.append_assoc, show ".".toList = ['.'] from rfl,
    List.singleton_append] at hlist
  obtain ⟨hname, -, hmember⟩ :=
    (List.append_cons_inj_of_notMem ha.dot_not_mem hx.dot_not_mem).1 hlist
  exact ⟨String.toList_injective hname, String.toList_injective hmember⟩

/-- The names of a type and of its members are identifiers. -/
def IdentifiedType (type : String × List String) : Prop :=
  Identifier type.1 ∧ ∀ member ∈ type.2, Identifier member

/-- Members of types with distinct names have distinct names if those of each type have. -/
theorem nodup_memberNames {types : List (String × List String)} (hnames : (types.map (·.1)).Nodup)
    (hmembers : ∀ type ∈ types, type.2.Nodup) (hidentified : ∀ type ∈ types, IdentifiedType type) :
    (types.flatMap memberNames).Nodup := by
  rw [List.nodup_flatMap]
  refine ⟨fun type htype => ?_, ?_⟩
  · refine (hmembers type htype).map_on fun x hx y _ hxy => ?_
    exact (Identifier.dot_inj (hidentified type htype).1 ((hidentified type htype).2 x hx) hxy).2
  · refine (List.pairwise_map.1 hnames).imp_of_mem fun {type type'} htype _ hne => ?_
    intro name hname hname'
    obtain ⟨member, hmember, rfl⟩ := List.mem_map.1 hname
    obtain ⟨member', -, heq⟩ := List.mem_map.1 hname'
    exact hne (Identifier.dot_inj (hidentified type htype).1
      ((hidentified type htype).2 member hmember) heq.symm).1

theorem dot_mem_memberNames {types : List (String × List String)} {name : String}
    (h : name ∈ types.flatMap memberNames) : '.' ∈ name.toList := by
  obtain ⟨type, -, h⟩ := List.mem_flatMap.1 h
  obtain ⟨member, -, rfl⟩ := List.mem_map.1 h
  simp

namespace Schema

/-- No name is declared twice exactly if constructors and methods have names that nothing else
has, provided types have distinct names and so have the members of each type. -/
theorem declaredNames_nodup_iff {schema : Schema} (hnames : schema.writtenNames.Nodup)
    (hmembers : ∀ type ∈ schema.types, type.2.Nodup)
    (hidentified : ∀ type ∈ schema.types, IdentifiedType type)
    (hmethods : ∀ n ∈ schema.methodNames, Identifier n) :
    schema.declaredNames.Nodup ↔ schema.Apart := by
  have hconstructors : schema.constructorNames.Nodup := by
    have hmade : schema.constructorNames = (schema.allMessages.map (·.name)).map ("Mk" ++ ·) := by
      simp [constructorNames, Message.constructorNames]
    rw [hmade]
    refine hnames.of_append_left.map fun a b h => ?_
    simpa [← String.toList_inj] using h
  -- Only the names of members have a dot.
  have hdots : ∀ n ∈ schema.writtenNames ++ schema.constructorNames ++ schema.methodNames,
      '.' ∉ n.toList := by
    simp only [List.mem_append]
    rintro n ((hn | hn) | hn)
    · rw [← map_fst_types] at hn
      obtain ⟨type, htype, rfl⟩ := List.mem_map.1 hn
      exact (hidentified type htype).1.dot_not_mem
    · obtain ⟨m, hm, rfl⟩ := List.mem_map.1 hn
      have hname := (hidentified m.members (List.mem_append_left _ (List.mem_map_of_mem hm))).1
      simpa [Message.members] using hname.dot_not_mem
    · exact (hmethods n hn).dot_not_mem
  have hdisjoint : (schema.writtenNames ++ schema.constructorNames ++ schema.methodNames).Disjoint
      (schema.types.flatMap memberNames) :=
    fun n hn hmember => hdots n hn (dot_mem_memberNames hmember)
  have hmemberNames := nodup_memberNames (schema.map_fst_types ▸ hnames) hmembers hidentified
  rw [schema.declaredNames_perm.nodup_iff, List.nodup_append', List.nodup_append',
    List.nodup_append']
  constructor
  · rintro ⟨⟨⟨-, -, hmakers⟩, hdistinct, hapart⟩, -, -⟩
    refine ⟨fun m hm hname => hmakers hname (List.mem_map_of_mem hm), hdistinct,
      fun n hn hname => hapart (List.mem_append_left _ hname) hn, ?_⟩
    rintro n hn m hm rfl
    exact hapart (List.mem_append_right _ (List.mem_map_of_mem hm)) hn
  · rintro ⟨hmakers, hdistinct, htypes, hothers⟩
    refine ⟨⟨⟨hnames, hconstructors, ?_⟩, hdistinct, ?_⟩, hmemberNames, hdisjoint⟩
    · intro n hn hmade
      obtain ⟨m, hm, rfl⟩ := List.mem_map.1 hmade
      exact hmakers m hm hn
    · intro n hn hmethod
      rcases List.mem_append.1 hn with hn | hn
      · exact htypes n hmethod hn
      · obtain ⟨m, hm, rfl⟩ := List.mem_map.1 hn
        exact hothers _ hmethod m hm rfl

end Schema

/-! ## Texts -/

/-- What is inside a message at any depth is declared in one of the messages there. -/
theorem Message.exists_of_mem_allEnums {e : EnumType} (m : Message) :
    e ∈ m.allEnums → ∃ n ∈ m.withNested, ∃ q ∈ n.enums, q.2 = e := by
  induction m using Message.nestedInduction with
  | inner m ih =>
    intro he
    obtain ⟨name, fullName, fields, messages, enums, ascending⟩ := m
    rw [allEnums, List.mem_append] at he
    rcases he with he | he
    · obtain ⟨p, hp, he⟩ := mem_nestedEnums.1 he
      obtain ⟨n, hn, hq⟩ := ih p hp he
      exact ⟨n, mem_withNested.2 (.inr ⟨p, hp, hn⟩), hq⟩
    · obtain ⟨q, hq, rfl⟩ := List.mem_map.1 he
      exact ⟨_, mem_withNested.2 (.inl rfl), q, hq, rfl⟩

namespace Schema

variable {name source : String} {schema : Schema}

/-- A file name with a declaration on its second line adds that declaration to what the document
says, for the name is written into a comment as it is. -/
theorem read_declaring (h : schema.Legible) (options : Options)
    (hmarked : Plain (Translation.ofOptions schema options).symbolPrefix) (symbol type : String)
    (hsymbol : Word symbol) (htype : Word type) :
    Form.read ({ schema with name := schema.name ++ "\n(: " ++ symbol ++ " " ++ type ++ ")" }.toMetta
        options)
      = some ((Entry.declare symbol (.atom type) ::
          (Translation.ofOptions schema options).documentEntries schema).flatMap Entry.forms) := by
  have hdeclares : (Entry.declare symbol (.atom type)).Legible := ⟨hsymbol, htype⟩
  have htext : Form.read ("(: " ++ symbol ++ " " ++ type ++ ")")
      = some (Entry.declare symbol (.atom type)).forms := by
    have hscan := Entry.scan_text hdeclares []
    rw [List.append_nil, show scan .between [] = [] from rfl, List.append_nil] at hscan
    apply Form.read_of_scan
    rw [← scan_lineEnd, ← hscan]
    simp [Entry.text, FunctionType.line]
  have hread : Form.read ((schema.named "").toMetta options)
      = some (((Translation.ofOptions schema options).documentEntries schema).flatMap
          Entry.forms) := by
    have hscan := schema.scan_named options schema.name
    rw [tokensBehind_of_line h.name, List.nil_append] at hscan
    apply Form.read_of_scan
    rw [← hscan]
    exact Entry.scan_textAll (Translation.legible_documentEntries hmarked h)
  have hname : schema.name ++ "\n(: " ++ symbol ++ " " ++ type ++ ")"
      = schema.name ++ "\n" ++ ("(: " ++ symbol ++ " " ++ type ++ ")") := by
    simp [← String.toList_inj]
  have hdocument := read_named hread (schema.name ++ "\n(: " ++ symbol ++ " " ++ type ++ ")")
  rw [hname, readBehind_lineBreak h.name, htext] at hdocument
  rw [hname]
  exact hdocument

/-- The names of all messages and enums of a schema, at any depth. -/
def typeNames (schema : Schema) : List String :=
  schema.allMessages.map (·.name) ++ schema.allEnums.map (·.name)

/-- In the schema of a text the names of types and of their members are identifiers. -/
theorem parse_identified_types (h : Schema.parse name source = .ok schema) :
    ∀ type ∈ schema.types, IdentifiedType type := by
  have hmessages := (parse_identified h).2
  refine List.forall_mem_append.2 ⟨?_, ?_⟩
  · intro type htype
    obtain ⟨m, hm, rfl⟩ := List.mem_map.1 htype
    refine ⟨hmessages m hm m.name List.mem_cons_self, fun n hn => ?_⟩
    obtain ⟨f, hf, rfl⟩ := List.mem_map.1 hn
    exact m.identifier_of_mem_fields (hmessages m hm) hf
  · intro type htype
    obtain ⟨e, he, rfl⟩ := List.mem_map.1 htype
    obtain ⟨p, hp, he⟩ := Message.mem_nestedEnums.1 he
    obtain ⟨m, hm, q, hq, rfl⟩ := p.2.exists_of_mem_allEnums he
    have hnames : ∀ n ∈ q.2.names, Identifier n := fun n hn =>
      hmessages m (Message.mem_withNestedAll.2 ⟨p, hp, hm⟩) n
        (List.mem_cons_of_mem _ (List.mem_append_right _ (List.mem_flatMap.2 ⟨q, hq, hn⟩)))
    exact List.forall_mem_cons.1 hnames

/-- If all messages and enums have distinct names, and so have the fields of each message and the
values of each enum, then no symbol is declared twice in the document of a text exactly if
constructors and methods have names that nothing else has. -/
theorem declared_nodup_iff (h : Schema.parse name source = .ok schema) (hname : Line name)
    (options : Options) (hmarked : Plain options.symbolPrefix) (htypes : schema.typeNames.Nodup)
    (hfields : ∀ m ∈ schema.allMessages, (m.fields.map (·.name)).Nodup)
    (hvalues : ∀ e ∈ schema.allEnums, (e.values.map (·.1)).Nodup) :
    ∃ forms, Form.read (schema.toMetta options) = some forms
      ∧ ((forms.filterMap Form.declared?).Nodup ↔ schema.Apart) := by
  refine ⟨_, read_of_parse h hname hmarked, ?_⟩
  rw [Entry.declared_forms, Translation.declared_documentEntries,
    List.nodup_map_iff (Translation.symbol_injective _)]
  have hwritten : schema.writtenNames.Nodup := by
    rw [typeNames, allEnums, List.map_append, ← List.append_assoc] at htypes
    exact htypes.of_append_left
  refine declaredNames_nodup_iff hwritten ?_ (parse_identified_types h) ?_
  · refine List.forall_mem_append.2 ⟨List.forall_mem_map.2 hfields, List.forall_mem_map.2 ?_⟩
    exact fun e he => hvalues e (List.mem_append_left _ he)
  · intro n hn
    obtain ⟨s, hs, hn⟩ := List.mem_flatMap.1 hn
    obtain ⟨m, hm, rfl⟩ := List.mem_map.1 hn
    exact ((parse_identified_services h s hs).2 m hm).1

/-- A text with a message, its field, and a service. -/
def apartSource : String :=
  "message A \x7b optional int32 x = 1; \x7d service S \x7b rpc Get (A) returns (A); \x7d"

/-- The schema of that text. -/
def apartSchema : Schema where
  name := "a.proto"
  dialect := .proto2
  package := none
  imports := []
  messages := [("A", .flat "A" "A" [⟨"x", 1, .optional, .scalar .int32⟩])]
  enums := []
  services := [("S", ⟨"S", "S", [("Get", ⟨"Get", ⟨"A", "A"⟩, ⟨"A", "A"⟩, false, false⟩)]⟩)]

/-- The document of that text declares no symbol twice. -/
theorem declared_nodup_iff_apart :
    Schema.parse "a.proto" apartSource = .ok apartSchema
      ∧ ∃ forms, Form.read (apartSchema.toMetta {}) = some forms
        ∧ (forms.filterMap Form.declared?).Nodup := by
  have hparse : Schema.parse "a.proto" apartSource = .ok apartSchema := by decide +kernel
  obtain ⟨forms, hread, hiff⟩ := declared_nodup_iff hparse (by decide) {} (by decide) (by decide)
    (by decide) (by decide)
  have hapart : apartSchema.Apart := by constructor <;> decide
  exact ⟨hparse, forms, hread, hiff.2 hapart⟩

/-- A text with a message that is called as the constructor of another one, a method that is called
as a message, and two methods of one name. -/
def clashSource : String :=
  "message A \x7b\x7d message MkA \x7b\x7d " ++
  "service S \x7b rpc A (A) returns (A); rpc Get (A) returns (A); \x7d " ++
  "service T \x7b rpc Get (A) returns (A); \x7d"

/-- The schema of that text. -/
def clashSchema : Schema where
  name := "a.proto"
  dialect := .proto2
  package := none
  imports := []
  messages := [("A", .flat "A" "A" []), ("MkA", .flat "MkA" "MkA" [])]
  enums := []
  services :=
    [("S", ⟨"S", "S", [("A", ⟨"A", ⟨"A", "A"⟩, ⟨"A", "A"⟩, false, false⟩),
        ("Get", ⟨"Get", ⟨"A", "A"⟩, ⟨"A", "A"⟩, false, false⟩)]⟩),
      ("T", ⟨"T", "T", [("Get", ⟨"Get", ⟨"A", "A"⟩, ⟨"A", "A"⟩, false, false⟩)]⟩)]

/-- Types can have distinct names, and members too, and the document still declares three symbols
twice.  The name of the file can declare a symbol again. -/
theorem declared_twice :
    (Schema.parse "a.proto" clashSource = .ok clashSchema ∧ clashSchema.typeNames.Nodup
      ∧ (∀ m ∈ clashSchema.allMessages, (m.fields.map (·.name)).Nodup)
      ∧ (∀ e ∈ clashSchema.allEnums, (e.values.map (·.1)).Nodup)
      ∧ ∃ forms, Form.read (clashSchema.toMetta {}) = some forms
        ∧ forms.filterMap Form.declared? = [".A", ".MkA", ".MkA", ".MkMkA", ".A", ".Get", ".Get"]
        ∧ ¬(forms.filterMap Form.declared?).Nodup)
    ∧ Schema.parse "a\n(: .A Type)" plainSource
        = .ok { plainSchema with name := "a\n(: .A Type)" }
      ∧ ∃ forms, Form.read ({ plainSchema with name := "a\n(: .A Type)" }.toMetta {}) = some forms
        ∧ forms.filterMap Form.declared? = [".A", ".A", ".MkA"]
        ∧ ¬(forms.filterMap Form.declared?).Nodup := by
  have hplain : Plain ({} : Options).symbolPrefix := by decide
  constructor
  · have hparse : Schema.parse "a.proto" clashSource = .ok clashSchema := by decide +kernel
    have hread := read_of_parse hparse (by decide) hplain
    have hsymbols : ((Translation.ofOptions clashSchema {}).documentEntries clashSchema).filterMap
        Entry.declared? = [".A", ".MkA", ".MkA", ".MkMkA", ".A", ".Get", ".Get"] := by
      rw [Translation.declared_documentEntries]
      decide
    rw [← Entry.declared_forms] at hsymbols
    exact ⟨hparse, by decide, by decide, by decide, _, hread, hsymbols, by rw [hsymbols]; decide⟩
  · have hparse : Schema.parse "a\n(: .A Type)" plainSource
        = .ok { plainSchema with name := "a\n(: .A Type)" } := by decide +kernel
    have hnamed : Schema.parse "a" plainSource = .ok plainSchema := by decide +kernel
    have hread := read_declaring (parse_legible hnamed (by decide)) {} (by decide) ".A" "Type"
      ⟨by decide, by decide⟩ ⟨by decide, by decide⟩
    have hname : plainSchema.name ++ "\n(: " ++ ".A" ++ " " ++ "Type" ++ ")" = "a\n(: .A Type)" := by
      decide
    rw [hname] at hread
    have hsymbols : ((Entry.declare ".A" (.atom "Type")
        :: (Translation.ofOptions plainSchema {}).documentEntries plainSchema).filterMap
          Entry.declared?) = [".A", ".A", ".MkA"] := by decide
    rw [← Entry.declared_forms] at hsymbols
    exact ⟨hparse, _, hread, hsymbols, by rw [hsymbols]; decide⟩

end Schema

end MettaSchema
