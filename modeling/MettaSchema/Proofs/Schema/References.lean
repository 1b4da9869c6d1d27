import MettaSchema.Import.Search
import MettaSchema.Schema.Parse
import MettaSchema.Proofs.Schema.Messages
import MettaSchema.Proofs.Schema.Scoping

/-!
# References

Every reference of a schema is to a type that the file or one of its imports declares.  But of
two messages with one name in the same place only the later one is in the schema, and what is
declared inside the earlier one is lost: that is the one way in which a reference can dangle.

* `Schema.symbols`, `Schema.references` — what a schema declares and what it refers to.
* `FileDecl.kept`, `FileDecl.replaced` — what a file declares, apart by whether the schema
  has it.
* `Schema.mem_symbols_iff` — a schema declares what is kept.
* `Schema.settled_build`, `Schema.references_build` — references are to what is declared.
* `Schema.dangling_iff_replaced` — both together, for texts and for files on the disk.
-/

namespace MettaSchema

/-! ## Schemas -/

/-- The full names that a message declares: its own and those of what is inside it. -/
def Message.symbols (message : Message) : List (String × SymbolKind) :=
  message.withNested.map (fun m => (m.fullName, .message))
    ++ message.allEnums.map fun e => (e.fullName, .enum)

/-- The full names that a schema declares. -/
def Schema.symbols (schema : Schema) : List (String × SymbolKind) :=
  schema.allMessages.map (fun m => (m.fullName, .message))
    ++ schema.allEnums.map fun e => (e.fullName, .enum)

/-- What the type of a field refers to. -/
def FieldType.reference? : FieldType → Option (String × SymbolKind)
  | scalar _ => none
  | message ref => some (ref.fullName, .message)
  | enum ref => some (ref.fullName, .enum)
  | group ref => some (ref.fullName, .message)

/-- What the fields of a message refer to. -/
def Message.fieldReferences (message : Message) : List (String × SymbolKind) :=
  message.fields.filterMap (·.type.reference?)

/-- What a method refers to. -/
def Method.references (method : Method) : List (String × SymbolKind) :=
  [(method.input.fullName, .message), (method.output.fullName, .message)]

/-- What a schema refers to: the types of the fields of all its messages, and what its methods
take and return. -/
def Schema.references (schema : Schema) : List (String × SymbolKind) :=
  schema.allMessages.flatMap Message.fieldReferences
    ++ schema.services.flatMap fun service => service.2.methods.flatMap (·.2.references)

/-- Neither the schema nor one of the imported files declares the type. -/
def Schema.Dangles (schema : Schema) (imported : List FileDecl)
    (ref : String × SymbolKind) : Prop :=
  ref ∉ schema.symbols ∧ ∀ file ∈ imported, ref ∉ file.symbols

/-! ## Declarations that are kept and those that are replaced -/

/-- Whether one of some messages has the given name. -/
def MessageDecl.named (name : String) (messages : List MessageDecl) : Bool :=
  messages.any (·.name == name)

mutual

/-- The full names that a message declares in a scope, without what is lost inside it. -/
def MessageDecl.kept (scope : String) : MessageDecl → List (String × SymbolKind)
  | ⟨name, _, messages, enums⟩ =>
    MessageDecl.keptAll (qualify scope name) messages
      ++ enums.map (fun e => (qualify (qualify scope name) e.name, .enum))
      ++ [(qualify scope name, .message)]

/-- The full names that some messages declare in a scope, without the messages that a later one
replaces. -/
def MessageDecl.keptAll (scope : String) : List MessageDecl → List (String × SymbolKind)
  | [] => []
  | m :: rest =>
    (if MessageDecl.named m.name rest then [] else m.kept scope) ++ MessageDecl.keptAll scope rest

end

mutual

/-- The full names that are declared inside a message and lost. -/
def MessageDecl.replaced (scope : String) : MessageDecl → List (String × SymbolKind)
  | ⟨name, _, messages, _⟩ => MessageDecl.replacedAll (qualify scope name) messages

/-- The full names that are declared by messages that a later one replaces. -/
def MessageDecl.replacedAll (scope : String) : List MessageDecl → List (String × SymbolKind)
  | [] => []
  | m :: rest =>
    (if MessageDecl.named m.name rest then m.symbols scope else m.replaced scope)
      ++ MessageDecl.replacedAll scope rest

end

/-- The full names that a file declares and its schema has. -/
def FileDecl.kept (file : FileDecl) : List (String × SymbolKind) :=
  MessageDecl.keptAll file.scope file.messages
    ++ file.enums.map fun e => (qualify file.scope e.name, .enum)

/-- The full names that a file declares in messages that a later one of the same name in the
same place replaces. -/
def FileDecl.replaced (file : FileDecl) : List (String × SymbolKind) :=
  MessageDecl.replacedAll file.scope file.messages

mutual

theorem MessageDecl.mem_symbols_iff (ref : String × SymbolKind) :
    ∀ (m : MessageDecl) (scope : String),
      ref ∈ m.symbols scope ↔ ref ∈ m.kept scope ∨ ref ∈ m.replaced scope
  | ⟨name, _, messages, enums⟩, scope => by
    have ih := MessageDecl.mem_symbolsAll_iff ref messages (qualify scope name)
    simp only [symbols, kept, replaced, List.mem_append, ih]
    grind

theorem MessageDecl.mem_symbolsAll_iff (ref : String × SymbolKind) :
    ∀ (ms : List MessageDecl) (scope : String),
      ref ∈ symbolsAll scope ms ↔ ref ∈ keptAll scope ms ∨ ref ∈ replacedAll scope ms
  | [], scope => by simp [symbolsAll, keptAll, replacedAll]
  | m :: rest, scope => by
    have hm := MessageDecl.mem_symbols_iff ref m scope
    have hrest := MessageDecl.mem_symbolsAll_iff ref rest scope
    by_cases hn : named m.name rest = true <;>
      simp only [symbolsAll, keptAll, replacedAll, List.mem_append, hn, hm, hrest, if_true,
        if_false, Bool.false_eq_true, List.not_mem_nil] <;> grind

end

/-- What a file declares is kept or replaced. -/
theorem FileDecl.mem_symbols_iff {file : FileDecl} {ref : String × SymbolKind} :
    ref ∈ file.symbols ↔ ref ∈ file.kept ∨ ref ∈ file.replaced := by
  simp only [symbols, kept, replaced, List.mem_append, MessageDecl.mem_symbolsAll_iff]
  grind

/-! ## Groups -/

mutual

/-- Every group field of a message, at any depth, has its message beside it. -/
def MessageDecl.Grouped : MessageDecl → Prop
  | ⟨_, fields, messages, _⟩ =>
    (∀ field ∈ fields, ∀ name, field.type = .group name → MessageDecl.named name messages = true)
      ∧ MessageDecl.GroupedAll messages

/-- Every group field of some messages, at any depth, has its message beside it. -/
def MessageDecl.GroupedAll : List MessageDecl → Prop
  | [] => True
  | m :: rest => m.Grouped ∧ MessageDecl.GroupedAll rest

end

theorem MessageDecl.groupedAll_iff {ms : List MessageDecl} :
    GroupedAll ms ↔ ∀ m ∈ ms, m.Grouped := by
  induction ms with
  | nil => simp [GroupedAll]
  | cons m ms ih => simp [GroupedAll, ih]

/-- Every group field of a body has its message beside it. -/
def Body.Grouped (body : Body) : Prop :=
  ∀ name, (body.toMessage name).Grouped

theorem Body.grouped_iff {body : Body} :
    body.Grouped ↔
      (∀ field ∈ body.fields, ∀ name, field.type = .group name →
        MessageDecl.named name body.messages = true)
      ∧ ∀ m ∈ body.messages, m.Grouped := by
  simp only [Grouped, toMessage, MessageDecl.Grouped, MessageDecl.groupedAll_iff]
  exact ⟨fun h => h "", fun h _ => h⟩

theorem Body.Grouped.append {a b : Body} (ha : a.Grouped) (hb : b.Grouped) : (a ++ b).Grouped := by
  rw [grouped_iff] at ha hb ⊢
  rw [append_eq]
  simp only [MessageDecl.named, List.any_append, List.mem_append, Bool.or_eq_true] at ha hb ⊢
  grind

theorem TypeExpr.ofName_ne_group (type name : String) : TypeExpr.ofName type ≠ .group name := by
  unfold ofName
  split <;> simp

theorem MessageDecl.grouped_mapEntry (name key value : String) :
    (mapEntry name (.ofName key) (.ofName value)).Grouped := by
  simp [mapEntry, Grouped, GroupedAll, TypeExpr.ofName_ne_group]

/-- What statements declare has a message beside every group field. -/
theorem Statement.declare_grouped :
    DeclareCases (fun _ body => body.Grouped) fun _ body => body.Grouped where
  field _ := by simp [Body.grouped_iff, TypeExpr.ofName_ne_group]
  map _ := by simp [Body.grouped_iff, MessageDecl.grouped_mapEntry]
  group {_ _ name _ _ _} _ _ hinner := by
    simpa [Body.grouped_iff, MessageDecl.named, Body.toMessage] using hinner name
  oneof hmembers := hmembers
  message {name _ _} _ hinner := by simp [Body.grouped_iff, hinner name]
  enum _ := by simp [Body.grouped_iff]
  nil := by simp [Body.grouped_iff, Body.empty]
  cons hfirst hrest := hfirst.append hrest

theorem FileDecl.add_grouped {file file' : FileDecl} {s : FileStatement}
    (hfile : ∀ m ∈ file.messages, m.Grouped) (h : file.add s = .ok file') :
    ∀ m ∈ file'.messages, m.Grouped := by
  cases added_of_add h with
  | @message name statements _ hbody =>
    have hgrouped := Statement.declare_grouped.declareAll statements hbody name
    exact List.forall_mem_append.2 ⟨hfile, List.forall_mem_singleton.2 hgrouped⟩
  | _ => exact hfile

/-- What a text declares has a message beside every group field. -/
theorem FileDecl.parse_grouped {name source : String} {file : FileDecl}
    (h : FileDecl.parse name source = .ok file) : ∀ m ∈ file.messages, m.Grouped := by
  unfold parse at h
  split at h
  · cases h
  · split at h
    · cases h
    · exact foldlM_invariant (fun _ _ _ _ hb hadd => add_grouped hb hadd) (by simp [empty]) h

/-! ## What a schema declares -/

namespace Message

theorem mem_symbols {ref : String × SymbolKind} {message : Message} :
    ref ∈ message.symbols ↔ (∃ m ∈ message.withNested, ref = (m.fullName, .message))
      ∨ ∃ e ∈ message.allEnums, ref = (e.fullName, .enum) := by
  simp only [symbols, List.mem_append, List.mem_map, eq_comm]

/-- A message declares its own name, what is inside it, and its enums. -/
theorem mem_symbols_mk {ref : String × SymbolKind} {name fullName : String} {fields : List Field}
    {messages : List (String × Message)} {enums : List (String × EnumType)}
    {ascending : fields.Pairwise (·.number < ·.number)} :
    ref ∈ symbols ⟨name, fullName, fields, messages, enums, ascending⟩ ↔
      (∃ p ∈ messages, ref ∈ p.2.symbols) ∨ (∃ e ∈ enums, ref = (e.2.fullName, .enum))
        ∨ ref = (fullName, .message) := by
  simp only [mem_symbols, withNested, allEnums, List.mem_cons, List.mem_append, mem_withNestedAll,
    mem_nestedEnums, List.mem_map]
  constructor
  · rintro (⟨m, rfl | ⟨p, hp, hm⟩, rfl⟩ | ⟨e, ⟨p, hp, he⟩ | ⟨q, hq, rfl⟩, rfl⟩)
    · exact .inr (.inr rfl)
    · exact .inl ⟨p, hp, .inl ⟨m, hm, rfl⟩⟩
    · exact .inl ⟨p, hp, .inr ⟨e, he, rfl⟩⟩
    · exact .inr (.inl ⟨q, hq, rfl⟩)
  · rintro (⟨p, hp, ⟨m, hm, rfl⟩ | ⟨e, he, rfl⟩⟩ | ⟨q, hq, rfl⟩ | rfl)
    · exact .inl ⟨m, .inr ⟨p, hp, hm⟩, rfl⟩
    · exact .inr ⟨e, .inl ⟨p, hp, he⟩, rfl⟩
    · exact .inr ⟨q.2, .inr ⟨q, hq, rfl⟩, rfl⟩
    · exact .inl ⟨_, .inl rfl, rfl⟩

end Message

theorem Schema.mem_symbols {ref : String × SymbolKind} {schema : Schema} :
    ref ∈ schema.symbols ↔ (∃ p ∈ schema.messages, ref ∈ p.2.symbols)
      ∨ ∃ e ∈ schema.enums, ref = (e.2.fullName, .enum) := by
  simp only [symbols, allMessages, allEnums, List.mem_append, List.mem_map,
    Message.mem_withNestedAll, Message.mem_nestedEnums, Message.mem_symbols]
  constructor
  · rintro (⟨m, ⟨p, hp, hm⟩, rfl⟩ | ⟨e, ⟨p, hp, he⟩ | ⟨q, hq, rfl⟩, rfl⟩)
    · exact .inl ⟨p, hp, .inl ⟨m, hm, rfl⟩⟩
    · exact .inl ⟨p, hp, .inr ⟨e, he, rfl⟩⟩
    · exact .inr ⟨q, hq, rfl⟩
  · rintro (⟨p, hp, ⟨m, hm, rfl⟩ | ⟨e, he, rfl⟩⟩ | ⟨q, hq, rfl⟩)
    · exact .inl ⟨m, ⟨p, hp, hm⟩, rfl⟩
    · exact .inr ⟨e, .inl ⟨p, hp, he⟩, rfl⟩
    · exact .inr ⟨q.2, .inr ⟨q, hq, rfl⟩, rfl⟩

/-- Enums of one name in one place have one full name, so none is lost. -/
theorem EnumDecl.mem_buildAll {ref : String × SymbolKind} {scope : String} {decls : List EnumDecl} :
    (∃ e ∈ EnumDecl.buildAll scope decls, ref = (e.2.fullName, .enum))
      ↔ ref ∈ decls.map fun e => (qualify scope e.name, SymbolKind.enum) := by
  constructor
  · rintro ⟨e, he, rfl⟩
    obtain ⟨decl, hdecl, rfl⟩ := List.mem_map.1 (Keyed.mem_of_mem_ofList he)
    exact List.mem_map.2 ⟨decl, hdecl, rfl⟩
  · intro h
    obtain ⟨decl, hdecl, rfl⟩ := List.mem_map.1 h
    have hkey : decl.name ∈ Keyed.keys (decls.map fun d => (d.name, d.build scope)) := by
      simp only [Keyed.keys, List.map_map, List.mem_map]
      exact ⟨decl, hdecl, rfl⟩
    obtain ⟨e, he⟩ := Keyed.key_mem_ofList hkey
    obtain ⟨decl', -, heq⟩ := List.mem_map.1 (Keyed.mem_of_mem_ofList he)
    rw [Prod.mk.injEq] at heq
    obtain ⟨hname, rfl⟩ := heq
    exact ⟨_, he, by rw [EnumDecl.build, hname]⟩

mutual

/-- A message declares what is kept of its declaration. -/
theorem MessageDecl.mem_symbols_build {table : SymbolTable} (ref : String × SymbolKind) :
    ∀ (decl : MessageDecl) {scope : String} {m : Message}, decl.build table scope = .ok m →
      m.name = decl.name ∧ (ref ∈ m.symbols ↔ ref ∈ decl.kept scope)
  | ⟨name, fields, messages, enums⟩, scope, m, h => by
    obtain ⟨inner, resolved, hinner, -, rfl⟩ := build_eq_ok.1 h
    obtain ⟨-, hkept⟩ := MessageDecl.mem_symbols_buildAll ref messages hinner
    refine ⟨rfl, ?_⟩
    rw [Message.mem_symbols_mk, EnumDecl.mem_buildAll, hkept]
    simp only [kept, List.mem_append, List.mem_singleton, or_assoc]

/-- Messages declare what is kept of their declarations. -/
theorem MessageDecl.mem_symbols_buildAll {table : SymbolTable} (ref : String × SymbolKind) :
    ∀ (decls : List MessageDecl) {scope : String} {ms : List (String × Message)},
      MessageDecl.buildAll table scope decls = .ok ms →
      Keyed.keys ms = decls.map (·.name)
        ∧ ((∃ p ∈ Keyed.ofList ms, ref ∈ p.2.symbols) ↔ ref ∈ keptAll scope decls)
  | [], scope, ms, h => by
    cases h
    simp [Keyed.keys, Keyed.ofList, keptAll]
  | decl :: rest, scope, ms, h => by
    obtain ⟨m, more, hm, hmore, rfl⟩ := buildAll_cons_eq_ok.1 h
    obtain ⟨hname, hkept⟩ := MessageDecl.mem_symbols_build ref decl hm
    obtain ⟨hkeys, hkeptAll⟩ := MessageDecl.mem_symbols_buildAll ref rest hmore
    have hlater : named decl.name rest = true ↔ m.name ∈ Keyed.keys more := by
      simp [named, hkeys, hname]
    refine ⟨by rw [Keyed.keys_cons, hkeys, hname, List.map_cons], ?_⟩
    rw [keptAll, List.mem_append, ← hkeptAll]
    simp only [Keyed.mem_ofList_cons]
    by_cases hn : m.name ∈ Keyed.keys more
    · simp [hn, hlater.2 hn]
    · have hfalse : named decl.name rest = false := by simpa using mt hlater.1 hn
      rw [hfalse, if_neg Bool.false_ne_true, ← hkept]
      constructor
      · rintro ⟨p, ⟨rfl, -⟩ | hp, href⟩
        · exact .inl href
        · exact .inr ⟨p, hp, href⟩
      · rintro (href | ⟨p, hp, href⟩)
        · exact ⟨_, .inl ⟨rfl, hn⟩, href⟩
        · exact ⟨p, .inr hp, href⟩

end

/-- A schema declares what is kept of its file. -/
theorem Schema.mem_symbols_iff {table : SymbolTable} {file : FileDecl} {schema : Schema}
    (h : file.build table = .ok schema) {ref : String × SymbolKind} :
    ref ∈ schema.symbols ↔ ref ∈ file.kept := by
  obtain ⟨messages, services, hmessages, -, rfl⟩ := FileDecl.build_eq_ok.1 h
  obtain ⟨-, hkept⟩ := MessageDecl.mem_symbols_buildAll ref file.messages hmessages
  rw [mem_symbols, hkept, EnumDecl.mem_buildAll, FileDecl.kept, List.mem_append]

/-! ## What a schema refers to -/

theorem SymbolTable.find?_mem {table : SymbolTable} {fullName : String} {kind : SymbolKind}
    (h : table.find? fullName = some kind) : (fullName, kind) ∈ table.entries := by
  obtain ⟨l, r, hentries, -⟩ := List.lookup_eq_some_iff.1 h
  simp [hentries]

theorem SymbolTable.accepted?_find? {table : SymbolTable} {accept : SymbolKind → Bool}
    {fullName : String} {ref : String × SymbolKind}
    (h : table.accepted? accept fullName = some ref) :
    table.find? ref.1 = some ref.2 ∧ accept ref.2 = true := by
  obtain ⟨hname, hoffers⟩ := accepted?_eq_some.1 h
  rw [hname]
  exact hoffers

/-- What a name stands for is found under its full name, and it is acceptable. -/
theorem SymbolTable.resolve_find? {table : SymbolTable} {accept : SymbolKind → Bool}
    {scope name : String} {ref : String × SymbolKind}
    (h : table.resolve accept scope name = some ref) :
    table.find? ref.1 = some ref.2 ∧ accept ref.2 = true := by
  unfold resolve at h
  split at h
  · exact accepted?_find? h
  · obtain ⟨outer, -, houter⟩ := List.exists_of_findSome?_eq_some h
    exact accepted?_find? houter

theorem resolveMessage_find? {table : SymbolTable} {scope name : String} {ref : TypeRef}
    (h : resolveMessage table scope name = .ok ref) :
    table.find? ref.fullName = some .message := by
  obtain ⟨fullName, kind, hresolve, rfl⟩ := resolveMessage_eq_ok.1 h
  obtain ⟨hfind, haccept⟩ := SymbolTable.resolve_find? hresolve
  cases kind with
  | message => exact hfind
  | enum => cases haccept

/-- What a field refers to is found in the table, or the field is a group and its message is among
the given symbols. -/
def Field.Settled (table : SymbolTable) (symbols : List (String × SymbolKind)) (field : Field) :
    Prop :=
  ∀ ref ∈ field.type.reference?, table.find? ref.1 = some ref.2
    ∨ ((∃ group, field.type = .group group) ∧ ref ∈ symbols)

theorem Field.Settled.mono {table : SymbolTable} {symbols more : List (String × SymbolKind)}
    {field : Field} (h : field.Settled table symbols) (hmore : ∀ ref ∈ symbols, ref ∈ more) :
    field.Settled table more :=
  fun ref href => (h ref href).imp id (And.imp_right (hmore ref))

/-- What the type of a field refers to is found in the table, or it is a group. -/
theorem TypeExpr.resolve_find? {table : SymbolTable} {scope : String} {type : TypeExpr}
    {resolved : FieldType} (h : type.resolve table scope = .ok resolved)
    {ref : String × SymbolKind} (href : ref ∈ resolved.reference?) :
    table.find? ref.1 = some ref.2 ∨ ∃ name, type = .group name
      ∧ resolved = .group (.ofFullName (qualify scope name))
      ∧ ref = (qualify scope name, .message) := by
  cases type with
  | scalar kind => cases h; cases href
  | group name => cases h; cases href; exact .inr ⟨name, rfl, rfl, rfl⟩
  | named name =>
    simp only [resolve] at h
    split at h
    · rename_i hresolve
      cases h; cases href
      exact .inl (SymbolTable.resolve_find? hresolve).1
    · rename_i hresolve
      cases h; cases href
      exact .inl (SymbolTable.resolve_find? hresolve).1
    · cases h

/-- Every field of a message comes from one of its declarations. -/
theorem FieldDecl.mem_buildAll {table : SymbolTable} {scope : String} (decls : List FieldDecl) :
    ∀ {fields built : Fields}, FieldDecl.buildAll table scope fields decls = .ok built →
      ∀ f ∈ built.1, f ∈ fields.1 ∨ ∃ decl ∈ decls, decl.resolve table scope = .ok f := by
  induction decls with
  | nil =>
    intro fields built h f hf
    cases h
    exact .inl hf
  | cons decl rest ih =>
    intro fields built h f hf
    obtain ⟨field, hfield, -, h⟩ := buildAll_cons_eq_ok.1 h
    rcases ih h f hf with hmem | ⟨decl', hdecl', hresolve⟩
    · rcases Message.mem_insertField hmem with rfl | hmem
      · exact .inr ⟨decl, by simp, hfield⟩
      · exact .inl hmem
    · exact .inr ⟨decl', List.mem_cons_of_mem decl hdecl', hresolve⟩

/-- A message that has a name is declared under it. -/
theorem MessageDecl.named_mem_symbolsAll {name scope : String} {ms : List MessageDecl}
    (h : named name ms = true) : (qualify scope name, .message) ∈ symbolsAll scope ms := by
  induction ms with
  | nil => cases h
  | cons m rest ih =>
    obtain ⟨name', fields, messages, enums⟩ := m
    simp only [named, List.any_cons, Bool.or_eq_true, beq_iff_eq] at h
    rcases h with rfl | h
    · simp [symbolsAll, symbols]
    · simp [symbolsAll, ih h]

/-- The fields of a message are settled by the table and by what is declared beside them. -/
theorem FieldDecl.settled_buildAll {table : SymbolTable} {scope : String} {decls : List FieldDecl}
    {messages : List MessageDecl} {fields : Fields}
    (hgroups : ∀ decl ∈ decls, ∀ name, decl.type = .group name →
      MessageDecl.named name messages = true)
    (h : FieldDecl.buildAll table scope .empty decls = .ok fields) :
    ∀ field ∈ fields.1, field.Settled table (MessageDecl.symbolsAll scope messages) := by
  intro f hf ref href
  rcases FieldDecl.mem_buildAll decls h f hf with hnil | ⟨decl, hdecl, hresolve⟩
  · cases hnil
  · obtain ⟨type, htype, rfl⟩ := resolve_eq_ok.1 hresolve
    rcases TypeExpr.resolve_find? htype href with hfind | ⟨name, hgroup, hresolved, rfl⟩
    · exact .inl hfind
    · exact .inr ⟨⟨_, hresolved⟩,
        MessageDecl.named_mem_symbolsAll (hgroups decl hdecl name hgroup)⟩

mutual

/-- The fields of a message, at any depth, are settled by the table and by what the message
declares. -/
theorem MessageDecl.settled_build {table : SymbolTable} :
    ∀ (decl : MessageDecl) {scope : String} {m : Message}, decl.Grouped →
      decl.build table scope = .ok m →
      ∀ n ∈ m.withNested, ∀ field ∈ n.fields, field.Settled table (decl.symbols scope)
  | ⟨name, fields, messages, enums⟩, scope, m, hgrouped, h => by
    obtain ⟨inner, resolved, hinner, hresolved, rfl⟩ := build_eq_ok.1 h
    have hmore : ∀ ref ∈ symbolsAll (qualify scope name) messages,
        ref ∈ symbols scope ⟨name, fields, messages, enums⟩ := by
      intro ref href
      simp [symbols, href]
    simp only [Message.withNested, List.mem_cons]
    rintro n (rfl | hn) field hfield
    · exact (FieldDecl.settled_buildAll hgrouped.1 hresolved field hfield).mono hmore
    · obtain ⟨p, hp, hn⟩ := Message.mem_withNestedAll.1 hn
      exact (MessageDecl.settled_buildMessages messages hgrouped.2 hinner p
        (Keyed.mem_of_mem_ofList hp) n hn field hfield).mono hmore

theorem MessageDecl.settled_buildMessages {table : SymbolTable} :
    ∀ (decls : List MessageDecl) {scope : String} {ms : List (String × Message)},
      GroupedAll decls → MessageDecl.buildAll table scope decls = .ok ms →
      ∀ p ∈ ms, ∀ n ∈ p.2.withNested, ∀ field ∈ n.fields,
        field.Settled table (symbolsAll scope decls)
  | [], scope, ms, _, h => by
    cases h
    nofun
  | decl :: rest, scope, ms, hgrouped, h => by
    obtain ⟨m, more, hm, hmore, rfl⟩ := buildAll_cons_eq_ok.1 h
    intro p hp n hn field hfield
    rcases List.mem_cons.1 hp with rfl | hp
    · refine (MessageDecl.settled_build decl hgrouped.1 hm n hn field hfield).mono
        fun ref href => ?_
      simp [symbolsAll, href]
    · refine (MessageDecl.settled_buildMessages rest hgrouped.2 hmore p hp n hn field hfield).mono
        fun ref href => ?_
      simp [symbolsAll, href]

end

/-- What a service refers to is found in the table. -/
theorem ServiceDecl.references_build {table : SymbolTable} {scope : String} {decl : ServiceDecl}
    {service : Service} (h : decl.build table scope = .ok service) {ref : String × SymbolKind}
    (href : ref ∈ service.methods.flatMap (·.2.references)) : table.find? ref.1 = some ref.2 := by
  obtain ⟨methods, hmethods, rfl⟩ := build_eq_ok.1 h
  obtain ⟨p, hp, href⟩ := List.mem_flatMap.1 href
  obtain ⟨method, hmethod, rfl⟩ := List.mem_map.1 (Keyed.mem_of_mem_ofList hp)
  obtain ⟨methodDecl, -, hbuild⟩ := mem_of_mapM_eq_ok hmethods hmethod
  obtain ⟨input, output, hinput, houtput, rfl⟩ := MethodDecl.build_eq_ok.1 hbuild
  simp only [Method.references, List.mem_cons, List.not_mem_nil, or_false] at href
  rcases href with rfl | rfl
  · exact resolveMessage_find? hinput
  · exact resolveMessage_find? houtput

/-- The fields of a schema are settled by the table and by what its file declares. -/
theorem Schema.settled_build {table : SymbolTable} {file : FileDecl} {schema : Schema}
    (hgrouped : ∀ m ∈ file.messages, m.Grouped) (h : file.build table = .ok schema) :
    ∀ m ∈ schema.allMessages, ∀ field ∈ m.fields, field.Settled table file.symbols := by
  obtain ⟨messages, services, hmessages, -, rfl⟩ := FileDecl.build_eq_ok.1 h
  intro m hm field hfield
  obtain ⟨p, hp, hm⟩ := Message.mem_withNestedAll.1 hm
  exact (MessageDecl.settled_buildMessages file.messages (MessageDecl.groupedAll_iff.2 hgrouped)
    hmessages p (Keyed.mem_of_mem_ofList hp) m hm field hfield).mono
    fun ref href => List.mem_append_left _ href

/-- What the methods of a schema refer to is found in the table. -/
theorem Schema.methods_build {table : SymbolTable} {file : FileDecl} {schema : Schema}
    (h : file.build table = .ok schema) {p : String × Service} (hp : p ∈ schema.services)
    {ref : String × SymbolKind} (href : ref ∈ p.2.methods.flatMap (·.2.references)) :
    table.find? ref.1 = some ref.2 := by
  obtain ⟨messages, services, -, hservices, rfl⟩ := FileDecl.build_eq_ok.1 h
  obtain ⟨service, hservice, rfl⟩ := List.mem_map.1 (Keyed.mem_of_mem_ofList hp)
  obtain ⟨decl, -, hbuild⟩ := mem_of_mapM_eq_ok hservices hservice
  exact ServiceDecl.references_build hbuild href

/-- What a schema refers to is found in the table or declared by its file. -/
theorem Schema.references_build {table : SymbolTable} {file : FileDecl} {schema : Schema}
    (hgrouped : ∀ m ∈ file.messages, m.Grouped) (h : file.build table = .ok schema)
    {ref : String × SymbolKind} (href : ref ∈ schema.references) :
    table.find? ref.1 = some ref.2 ∨ ref ∈ file.symbols := by
  rcases List.mem_append.1 href with hfield | hmethod
  · obtain ⟨m, hm, href⟩ := List.mem_flatMap.1 hfield
    obtain ⟨field, hfield, href⟩ := List.mem_filterMap.1 href
    exact (settled_build hgrouped h m hm field hfield ref href).imp id And.right
  · obtain ⟨p, hp, href⟩ := List.mem_flatMap.1 hmethod
    exact .inl (methods_build h hp href)

/-! ## Dangling references -/

/-- The references of a schema are to types that its file or an imported one declares, and a
reference dangles exactly if it is to a type that the file declares only in replaced messages and
no imported file declares. -/
def Schema.DanglesIfReplaced (schema : Schema) (root : FileDecl) (imported : List FileDecl) :
    Prop :=
  ∀ ref ∈ schema.references, (ref ∈ root.symbols ∨ ∃ file ∈ imported, ref ∈ file.symbols) ∧
    (schema.Dangles imported ref ↔
      ref ∈ root.replaced ∧ ref ∉ root.kept ∧ ∀ file ∈ imported, ref ∉ file.symbols)

theorem SymbolTable.mem_ofFiles {files : List FileDecl} {ref : String × SymbolKind} :
    ref ∈ (SymbolTable.ofFiles files).entries ↔ ∃ file ∈ files, ref ∈ file.symbols := by
  simp [ofFiles]

theorem Schema.danglesIfReplaced_of_build {root : FileDecl} {imported : List FileDecl}
    {schema : Schema} (hgrouped : ∀ m ∈ root.messages, m.Grouped)
    (h : root.build (.ofFiles (root :: imported)) = .ok schema) :
    schema.DanglesIfReplaced root imported := by
  intro ref href
  have hdeclared : ref ∈ root.symbols ∨ ∃ file ∈ imported, ref ∈ file.symbols := by
    rcases references_build hgrouped h href with hfind | hmem
    · obtain ⟨file, hfile, hmem⟩ := SymbolTable.mem_ofFiles.1 (SymbolTable.find?_mem hfind)
      rcases List.mem_cons.1 hfile with rfl | hfile
      · exact .inl hmem
      · exact .inr ⟨file, hfile, hmem⟩
    · exact .inl hmem
  refine ⟨hdeclared, ?_⟩
  rw [Dangles, mem_symbols_iff h]
  constructor
  · rintro ⟨hkept, himported⟩
    refine ⟨?_, hkept, himported⟩
    rcases hdeclared with hroot | ⟨file, hfile, hmem⟩
    · exact (FileDecl.mem_symbols_iff.1 hroot).resolve_left hkept
    · exact absurd hmem (himported file hfile)
  · rintro ⟨-, hkept, himported⟩
    exact ⟨hkept, himported⟩

mutual

/-- No two messages inside a message, at any depth, have one name in one place. -/
def MessageDecl.Distinct : MessageDecl → Prop
  | ⟨_, _, messages, _⟩ => MessageDecl.DistinctAll messages

/-- No two of some messages, and no two at any depth inside them, have one name in one place. -/
def MessageDecl.DistinctAll : List MessageDecl → Prop
  | [] => True
  | m :: rest => MessageDecl.named m.name rest = false ∧ m.Distinct ∧ MessageDecl.DistinctAll rest

end

mutual

theorem MessageDecl.replaced_eq_nil :
    ∀ (m : MessageDecl) (scope : String), m.Distinct → m.replaced scope = []
  | ⟨name, _, messages, _⟩, scope, h => by
    rw [replaced, MessageDecl.replacedAll_eq_nil messages _ h]

theorem MessageDecl.replacedAll_eq_nil :
    ∀ (ms : List MessageDecl) (scope : String), DistinctAll ms → replacedAll scope ms = []
  | [], _, _ => rfl
  | m :: rest, scope, h => by
    rw [replacedAll, h.1, if_neg Bool.false_ne_true, MessageDecl.replaced_eq_nil m scope h.2.1,
      MessageDecl.replacedAll_eq_nil rest scope h.2.2, List.append_nil]

end

/-- Nothing dangles if the file gives no name to two messages in one place. -/
theorem Schema.DanglesIfReplaced.not_dangles {schema : Schema} {root : FileDecl}
    {imported : List FileDecl} (h : schema.DanglesIfReplaced root imported)
    (hroot : MessageDecl.DistinctAll root.messages) {ref : String × SymbolKind}
    (href : ref ∈ schema.references) : ¬ schema.Dangles imported ref := by
  intro hdangles
  have hreplaced := ((h ref href).2.1 hdangles).1
  rw [FileDecl.replaced, MessageDecl.replacedAll_eq_nil _ _ hroot] at hreplaced
  cases hreplaced

/-- Files that have been loaded stay loaded. -/
theorem Search.collect_files {search : Search} {tree : FileTree} {directory : String}
    (bound : Nat) :
    ∀ {work work' : Worklist}, search.collect tree directory bound work = .ok work' →
      ∃ more, work'.files = work.files ++ more := by
  induction bound with
  | zero =>
    intro work work' h
    cases h
    exact ⟨[], by simp⟩
  | succ bound ih =>
    intro work work' h
    rw [collect_succ] at h
    split at h
    · cases h
      exact ⟨[], by simp⟩
    · rename_i wanted rest hnext
      rw [bind_eq_ok] at h
      obtain ⟨⟨file, parent⟩, -, h⟩ := h
      obtain ⟨more, hmore⟩ := ih h
      have hrest : rest.files = work.files := by
        unfold Worklist.next? at hnext
        split at hnext <;> cases hnext
        rfl
      exact ⟨file :: more, by simp [hmore, Worklist.add, hrest]⟩

theorem FileDecl.ofText_grouped {path : String} {text : Except FileError String} {file : FileDecl}
    (h : FileDecl.ofText path text = .ok file) : ∀ m ∈ file.messages, m.Grouped := by
  unfold ofText at h
  split at h
  · cases h
  · exact parse_grouped h

/-- In the schema of a text, and in the schema of a file on the disk, every reference is to a
type that the file or one of its imports declares, and it dangles exactly if the type is only
declared in messages that a later one of the same name in the same place replaces. -/
theorem Schema.dangling_iff_replaced (name source : String) (search : Search) (tree : FileTree)
    (path : String) (schema : Schema) :
    (Schema.parse name source = .ok schema →
      ∃ root, FileDecl.parse name source = .ok root ∧
        schema.DanglesIfReplaced root (root.imports.filterMap Bundled.file?)) ∧
    (search.load tree path = .ok schema →
      ∃ root work imported, FileDecl.ofText path (tree.readText path) = .ok root ∧
        search.collect tree (Search.directoryOf path) tree.size
          (.start root (Search.directoryOf path)) = .ok work ∧
        work.files = root :: imported ∧ schema.DanglesIfReplaced root imported) := by
  constructor
  · intro h
    rw [Schema.parse, bind_eq_ok] at h
    obtain ⟨root, hroot, h⟩ := h
    exact ⟨root, hroot, danglesIfReplaced_of_build (FileDecl.parse_grouped hroot) h⟩
  · intro h
    simp only [Search.load_eq, bind_eq_ok] at h
    obtain ⟨root, hroot, work, hwork, h⟩ := h
    obtain ⟨imported, hfiles⟩ := Search.collect_files _ hwork
    have hfiles : work.files = root :: imported := hfiles
    rw [hfiles] at h
    exact ⟨root, work, imported, hroot, hwork, hfiles,
      danglesIfReplaced_of_build (FileDecl.ofText_grouped hroot) h⟩

/-- A message that holds a message, and a later one of its name that refers to that message. -/
def Schema.replacingSource : String :=
  "message A \x7b message X \x7b\x7d \x7d message A \x7b optional A.X f = 1; \x7d"

/-- The schema of that text: the later message, with its field. -/
def Schema.replacingSchema : Schema where
  name := "a.proto"
  dialect := .proto2
  package := none
  imports := []
  messages := [("A", .flat "A" "A" [⟨"f", 1, .optional, .message ⟨"X", "A.X"⟩⟩])]
  enums := []
  services := []

/-- A later message takes the place of one that holds the type of its field. -/
theorem Schema.dangling_nested_message :
    Schema.parse "a.proto" replacingSource = .ok replacingSchema ∧
      ("A.X", .message) ∈ replacingSchema.references ∧
      replacingSchema.Dangles [] ("A.X", .message) := by
  have hparse : Schema.parse "a.proto" replacingSource = .ok replacingSchema := by decide +kernel
  have href : ("A.X", SymbolKind.message) ∈ replacingSchema.references := by decide
  have hfile : FileDecl.parse "a.proto" replacingSource = .ok
      { FileDecl.empty "a.proto" with
        messages := [⟨"A", [], [⟨"X", [], [], []⟩], []⟩,
          ⟨"A", [⟨"f", 1, .optional, .named "A.X"⟩], [], []⟩] } := by decide +kernel
  obtain ⟨root, hroot, hdangles⟩ :=
    (dangling_iff_replaced _ _ default .empty "" _).1 hparse
  rw [hfile] at hroot
  cases hroot
  exact ⟨hparse, href, (hdangles _ href).2.2 (by decide)⟩

end MettaSchema
