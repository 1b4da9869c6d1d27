import MettaSchema.Schema.Parse
import MettaSchema.Proofs.Schema.Lookup
import MettaSchema.Proofs.Schema.Names

/-!
# Reading back what was printed

The text of a schema stands for the schema.

* `SymbolTable.Knows` — a table that says of each reference what it is to.
* `Message.build_decl`, `Schema.build_decl` — with such a table the declarations of a schema build
  the schema.
* `Schema.knows_references_iff` — when the table for the text of a schema is one.
* `Schema.parse_print` — the round trip.
-/

namespace MettaSchema

/-! ## Building -/

/-- The table says of each of the references what it is to. -/
def SymbolTable.Knows (table : SymbolTable) (refs : List (String × SymbolKind)) : Prop :=
  ∀ ref ∈ refs, table.find? ref.1 = some ref.2

theorem SymbolTable.resolve_word {table : SymbolTable} {ref : TypeRef} {kind : SymbolKind}
    {accept : SymbolKind → Bool} (h : table.find? ref.fullName = some kind)
    (haccept : accept kind = true) (scope : String) :
    table.resolve accept scope ref.word = some (ref.fullName, kind) := by
  rw [resolve, ref.toList_word]
  simp [accepted?, h, haccept]

theorem FieldType.resolve_decl {table : SymbolTable} {type : FieldType} (h : type.Printable)
    (hk : table.Knows type.reference?.toList) (scope : String) :
    type.decl.resolve table scope = .ok type := by
  cases type with
  | scalar kind => rfl
  | message ref =>
    have hfind : table.find? ref.fullName = some .message :=
      hk (ref.fullName, .message) (by simp [reference?])
    have href : ref = .ofFullName ref.fullName := h
    rw [decl, TypeExpr.resolve, SymbolTable.resolve_word hfind rfl]
    exact congrArg (fun r => Except.ok (message r)) href.symm
  | enum ref =>
    have hfind : table.find? ref.fullName = some .enum :=
      hk (ref.fullName, .enum) (by simp [reference?])
    have href : ref = .ofFullName ref.fullName := h
    rw [decl, TypeExpr.resolve, SymbolTable.resolve_word hfind rfl]
    exact congrArg (fun r => Except.ok (enum r)) href.symm
  | group ref => exact h.elim

/-- Fields in ascending order are built one behind another. -/
theorem Field.buildAll_decl {table : SymbolTable} (scope : String) {fields : List Field}
    (done : Fields) (h : ∀ field ∈ fields, field.Printable)
    (hk : ∀ field ∈ fields, table.Knows field.type.reference?.toList)
    (hascending : (done.1 ++ fields).Pairwise (·.number < ·.number)) :
    FieldDecl.buildAll table scope done (fields.map Field.decl)
      = .ok ⟨done.1 ++ fields, hascending⟩ := by
  induction fields generalizing done with
  | nil => simp [FieldDecl.buildAll]
  | cons field fields ih =>
    have htype := FieldType.resolve_decl (h field (by simp)).type (hk field (by simp)) scope
    have hresolve : field.decl.resolve table scope = .ok field := by
      simp only [FieldDecl.resolve, decl, htype]
      rfl
    have hbefore : ∀ f ∈ done.1, f.number < field.number := fun f hf =>
      (List.pairwise_append.1 hascending).2.2 f hf field (by simp)
    have hnew : done.1.any (·.number == field.number) = false := by
      rw [List.any_eq_false]
      intro f hf
      have hlt := hbefore f hf
      simp only [beq_iff_eq]
      omega
    have hinsert : (done.insert field).1 ++ fields = done.1 ++ field :: fields := by
      rw [Fields.val_insert, Message.insertField_eq_append hbefore, List.append_assoc,
        List.singleton_append]
    have hrest := ih (done.insert field) (fun f hf => h f (by simp [hf]))
      (fun f hf => hk f (by simp [hf])) (hinsert ▸ hascending)
    simp only [List.map_cons, FieldDecl.buildAll, hresolve, bind, Except.bind, hnew, hrest, hinsert]
    simp

theorem EnumType.build_decl {scope : String} {enum : EnumType} (h : enum.Printable scope) :
    enum.decl.build scope = enum := by
  rw [EnumDecl.build, decl, Keyed.ofList_eq_self h.distinct, ← h.fullName]

/-- Entries under their own names are what is kept of their values. -/
theorem Keyed.map_values {α β : Type} {entries : List (String × α)} (decl : α → β)
    {entry : β → String × α} (h : ∀ p ∈ entries, entry (decl p.2) = p) :
    (entries.map (decl ·.2)).map entry = entries := by
  rw [List.map_map]
  exact (List.map_congr_left h).trans (List.map_id' entries)

theorem EnumType.buildAll_decl {scope : String} {enums : List (String × EnumType)}
    (h : ∀ p ∈ enums, p.1 = p.2.name ∧ p.2.Printable scope) (hd : (Keyed.keys enums).Nodup) :
    EnumDecl.buildAll scope (enums.map (·.2.decl)) = enums := by
  have hentries : (enums.map (·.2.decl)).map (fun decl => (decl.name, decl.build scope))
      = enums := by
    refine Keyed.map_values EnumType.decl fun p hp => ?_
    rw [build_decl (h p hp).2]
    exact Prod.ext (h p hp).1.symm rfl
  rw [EnumDecl.buildAll, hentries, Keyed.ofList_eq_self hd]

namespace Message

theorem buildAll_decl {table : SymbolTable} {scope : String} {messages : List (String × Message)}
    (h : ∀ p ∈ messages, p.1 = p.2.name ∧ p.2.decl.build table scope = .ok p.2) :
    MessageDecl.buildAll table scope (declAll messages) = .ok messages := by
  induction messages with
  | nil => rfl
  | cons p messages ih =>
    have hmessages := ih fun q hq => h q (by simp [hq])
    obtain ⟨hkey, hbuild⟩ := h p (by simp)
    exact MessageDecl.buildAll_cons_eq_ok.2 ⟨p.2, messages, hbuild, hmessages, by rw [← hkey]⟩

/-- A message is built from its declaration, however deep messages are nested in it. -/
theorem build_decl {table : SymbolTable} (m : Message) : m.Everywhere Printable →
    m.Everywhere (table.Knows ·.fieldReferences) → ∀ scope, m.fullName = qualify scope m.name →
      m.decl.build table scope = .ok m := by
  induction m using nestedInduction with
  | inner m ih =>
    intro h hk scope hname
    obtain ⟨-, hfields, hinner⟩ := h.self
    have hknows : ∀ field ∈ m.fields, table.Knows field.type.reference?.toList :=
      fun field hfield ref href => hk.self ref
        (List.mem_filterMap.2 ⟨field, hfield, Option.mem_toList.1 href⟩)
    have hmessages : MessageDecl.buildAll table m.fullName (declAll m.messages) = .ok m.messages :=
      buildAll_decl fun p hp => ⟨(hinner.keyed p hp).1,
        ih p hp (h.inner hp) (hk.inner hp) m.fullName (hinner.keyed p hp).2⟩
    have hbuilt := Field.buildAll_decl m.fullName .empty hfields hknows m.ascending
    obtain ⟨hdistinct, hdistinct', -⟩ := List.nodup_append.1 hinner.distinct
    have henums := EnumType.buildAll_decl hinner.printable hdistinct'
    obtain ⟨name, fullName, fields, messages, enums, ascending⟩ := m
    rw [decl, MessageDecl.build_eq_ok, ← hname]
    exact ⟨messages, ⟨fields, ascending⟩, hmessages, hbuilt, by rw [henums, Keyed.ofList_eq_self hdistinct]⟩

end Message

theorem Method.build_decl {table : SymbolTable} {method : Method} (h : method.Printable)
    (hk : table.Knows method.references) (scope : String) :
    method.decl.build table scope = .ok method := by
  have hinput : table.find? method.input.fullName = some .message :=
    hk (method.input.fullName, .message) (by simp [references])
  have houtput : table.find? method.output.fullName = some .message :=
    hk (method.output.fullName, .message) (by simp [references])
  have hmessages : messagesOnly .message = true := rfl
  simp only [decl, MethodDecl.build, resolveMessage, SymbolTable.resolve_word hinput hmessages,
    SymbolTable.resolve_word houtput hmessages, ← h.input, ← h.output]
  rfl

theorem Service.build_decl {table : SymbolTable} {scope : String} {service : Service}
    (h : service.Printable scope) (hk : ∀ p ∈ service.methods, table.Knows p.2.references) :
    service.decl.build table scope = .ok service := by
  have hmethods : (service.methods.map (·.2.decl)).mapM (MethodDecl.build table service.fullName)
      = .ok (service.methods.map (·.2)) :=
    mapM_map_eq_pure fun p hp => Method.build_decl (h.methods p hp).2 (hk p hp) _
  have hentries : (service.methods.map (·.2)).map (fun m => (m.name, m)) = service.methods :=
    Keyed.map_values id fun p hp => Prod.ext (h.methods p hp).1.symm rfl
  rw [ServiceDecl.build_eq_ok, decl, ← h.fullName]
  exact ⟨_, hmethods, by rw [hentries, Keyed.ofList_eq_self h.distinct]⟩

/-- The declarations of a schema build the schema. -/
theorem Schema.build_decl {table : SymbolTable} {schema : Schema} (h : schema.Printable)
    (hk : table.Knows schema.references) : schema.decl.build table = .ok schema := by
  have hmessages : MessageDecl.buildAll table schema.packageName (Message.declAll schema.messages)
      = .ok schema.messages := by
    refine Message.buildAll_decl fun p hp => ⟨(h.siblings.keyed p hp).1, ?_⟩
    refine p.2.build_decl (h.everywhere p hp) (fun n hn ref href => hk ref ?_) _
      (h.siblings.keyed p hp).2
    exact List.mem_append_left _ (List.mem_flatMap.2
      ⟨n, Message.mem_withNestedAll.2 ⟨p, hp, hn⟩, href⟩)
  have hservices : (schema.services.map (·.2.decl)).mapM
      (ServiceDecl.build table schema.packageName) = .ok (schema.services.map (·.2)) := by
    refine mapM_map_eq_pure fun p hp => Service.build_decl (h.services p hp).2 ?_
    exact fun q hq ref href => hk ref (List.mem_append_right _
      (List.mem_flatMap.2 ⟨p, hp, List.mem_flatMap.2 ⟨q, hq, href⟩⟩))
  have hentries : (schema.services.map (·.2)).map (fun s => (s.name, s)) = schema.services :=
    Keyed.map_values id fun p hp => Prod.ext (h.services p hp).1.symm rfl
  obtain ⟨hdistinct, hdistinct', -⟩ := List.nodup_append.1 h.siblings.distinct
  have henums := EnumType.buildAll_decl h.siblings.printable hdistinct'
  have hscope : schema.decl.scope = schema.packageName := rfl
  rw [FileDecl.build_eq_ok, hscope]
  refine ⟨_, _, hmessages, hservices, ?_⟩
  rw [hentries, Keyed.ofList_eq_self hdistinct, Keyed.ofList_eq_self h.distinct]
  simp only [decl, henums]

/-! ## Symbols -/

/-- The types in reach of the text of a schema. -/
def Schema.table (schema : Schema) : SymbolTable :=
  .ofFiles (schema.decl :: schema.bundled)

theorem Schema.find?_table {schema : Schema} {n : String} : schema.table.find? n
    = ((schema.bundled.flatMap FileDecl.symbols).reverse.lookup n).or
      (schema.decl.symbols.reverse.lookup n) := by
  simp [table, SymbolTable.find?, SymbolTable.ofFiles, List.lookup_append]

/-- Bundled files come last and so count first. -/
theorem Schema.find?_table_of_bundled {schema : Schema} {file : FileDecl}
    (hfile : file ∈ schema.bundled) {symbol : String × SymbolKind} (h : symbol ∈ file.symbols) :
    schema.table.find? symbol.1 = some symbol.2 := by
  have hmem : symbol ∈ (schema.bundled.flatMap FileDecl.symbols).reverse :=
    List.mem_reverse.2 (List.mem_flatMap.2 ⟨file, hfile, h⟩)
  rw [find?_table, lookup_eq_some_of_unique hmem fun kind hkind => ?_, Option.some_or]
  obtain ⟨file', hfile', hsymbol⟩ := List.mem_flatMap.1 (List.mem_reverse.1 hkind)
  exact Bundled.kind_unique file (mem_files_of_bundled hfile) file' (mem_files_of_bundled hfile')
    symbol h _ hsymbol rfl

/-- What no bundled file declares is what the schema declares. -/
theorem Schema.find?_table_of_symbols {schema : Schema} (h : schema.Printable)
    {ref : String × SymbolKind} (href : ref ∈ schema.symbols)
    (hb : ∀ file ∈ schema.bundled, ∀ symbol ∈ file.symbols, symbol.1 ≠ ref.1) :
    schema.table.find? ref.1 = some ref.2 := by
  have hnone : (schema.bundled.flatMap FileDecl.symbols).reverse.lookup ref.1 = none := by
    rw [List.lookup_eq_none_iff]
    intro symbol hsymbol
    obtain ⟨file, hfile, hsymbol⟩ := List.mem_flatMap.1 (List.mem_reverse.1 hsymbol)
    simpa using (hb file hfile symbol hsymbol).symm
  have hmem : ref ∈ schema.decl.symbols.reverse :=
    List.mem_reverse.2 ((mem_symbols_decl h ref).2 href)
  rw [find?_table, hnone, Option.none_or]
  refine lookup_eq_some_of_unique hmem fun kind hkind => ?_
  exact kind_unique h ref.1 kind ref.2
    ((mem_symbols_decl h _).1 (List.mem_reverse.1 hkind)) href

/-- The table says of each reference what it is to, exactly if no bundled file says something
else. -/
theorem Schema.knows_references_iff {schema : Schema} (h : schema.Printable) :
    schema.table.Knows schema.references ↔ schema.Unshadowed := by
  constructor
  · intro hk file hfile symbol hsymbol ref href hname
    have hfind := hk ref href
    rw [← hname, find?_table_of_bundled hfile hsymbol] at hfind
    exact Option.some.inj hfind
  · intro hb ref href
    by_cases hbundled : ∃ file ∈ schema.bundled, ∃ symbol ∈ file.symbols, symbol.1 = ref.1
    · obtain ⟨file, hfile, symbol, hsymbol, hname⟩ := hbundled
      rw [← hname, ← hb file hfile symbol hsymbol ref href hname]
      exact find?_table_of_bundled hfile hsymbol
    · have hother : ∀ file ∈ schema.bundled, ∀ symbol ∈ file.symbols, symbol.1 ≠ ref.1 :=
        fun file hfile symbol hsymbol hname => hbundled ⟨file, hfile, symbol, hsymbol, hname⟩
      refine find?_table_of_symbols h ((h.declared ref href).resolve_right ?_) hother
      rintro ⟨file, hfile, hsymbol⟩
      exact hother file hfile ref hsymbol rfl

/-! ## The round trip -/

/-- What is built from the declarations of a schema without groups has its references from the
table. -/
theorem Schema.knows_of_build {schema : Schema} (h : schema.Printable) {file : FileDecl}
    (hgrouped : ∀ m ∈ file.messages, m.Grouped) {table : SymbolTable}
    (hbuild : file.build table = .ok schema) : table.Knows schema.references := by
  intro ref href
  rcases List.mem_append.1 href with hfield | hmethod
  · obtain ⟨m, hm, href⟩ := List.mem_flatMap.1 hfield
    obtain ⟨field, hfield, href⟩ := List.mem_filterMap.1 href
    refine (settled_build hgrouped hbuild m hm field hfield ref href).resolve_right ?_
    rintro ⟨⟨group, hgroup⟩, -⟩
    have htype := ((h.messages m hm).fields field hfield).type
    rw [hgroup] at htype
    exact htype.elim
  · obtain ⟨p, hp, href⟩ := List.mem_flatMap.1 hmethod
    exact methods_build hbuild hp href

/-- The text of a schema stands for the schema, exactly if no bundled file that the schema imports
declares a type to which it refers as another kind of type. -/
theorem Schema.parse_print {schema : Schema} (h : schema.Printable) :
    Schema.parse schema.name schema.print = .ok schema ↔ schema.Unshadowed := by
  have hdecl := parse_print_decl h (dotted_references h)
  rw [Schema.parse, hdecl, ← knows_references_iff h]
  constructor
  · intro hbuild
    exact knows_of_build h (FileDecl.parse_grouped hdecl) hbuild
  · intro hk
    exact build_decl h hk

/-- A shop: its messages and enums have names that are keywords, and one of them is nested two
deep. -/
def Schema.shop : Schema where
  name := "shop.proto"
  dialect := .proto3
  package := some "my.shop"
  imports := ["google/protobuf/any.proto", "a \"b\\c\".proto"]
  messages :=
    [("message", ⟨"message", "my.shop.message",
      [⟨"optional", 1, .repeated, .enum ⟨"option", "my.shop.message.group.option"⟩⟩,
        ⟨"group", 7, .optional, .message ⟨"group", "my.shop.message.group"⟩⟩,
        ⟨"any", 536870911, .required, .message ⟨"Any", "google.protobuf.Any"⟩⟩],
      [("group", ⟨"group", "my.shop.message.group", [⟨"rpc", 2, .optional, .scalar .sfixed64⟩], [],
        [("option", ⟨"option", "my.shop.message.group.option",
          [("reserved", -2147483648), ("option", 0)]⟩)], by simp⟩)], [], by simp⟩)]
  enums := [("stream", ⟨"stream", "my.shop.stream", []⟩)]
  services :=
    [("service", ⟨"service", "my.shop.service",
      [("stream", ⟨"stream", ⟨"message", "my.shop.message"⟩,
        ⟨"group", "my.shop.message.group"⟩, true, false⟩)]⟩)]

theorem Schema.parse_print_shop :
    Schema.shop.Printable ∧ Schema.shop.Unshadowed
      ∧ Schema.parse Schema.shop.name Schema.shop.print = .ok Schema.shop := by
  have hprintable : Schema.shop.Printable := by decide +kernel
  have hunshadowed : Schema.shop.Unshadowed := by decide +kernel
  exact ⟨hprintable, hunshadowed, (Schema.parse_print hprintable).2 hunshadowed⟩

/-- A schema in the package of the bundled files, with an enum that has the name of a bundled
message and a field of that type. -/
def Schema.shadowed : Schema where
  name := "any.proto"
  dialect := .proto3
  package := some "google.protobuf"
  imports := ["google/protobuf/any.proto"]
  messages := [("M", ⟨"M", "google.protobuf.M",
    [⟨"any", 1, .optional, .enum ⟨"Any", "google.protobuf.Any"⟩⟩], [], [], by simp⟩)]
  enums := [("Any", ⟨"Any", "google.protobuf.Any", [("NONE", 0)]⟩)]
  services := []

/-- The bundled message takes the place of the enum. -/
theorem Schema.parse_print_shadowed :
    ¬ ∀ schema : Schema, schema.Printable → Schema.parse schema.name schema.print = .ok schema := by
  intro h
  have hfields : (Schema.parse shadowed.name shadowed.print).map (·.messages.map (·.2.fields))
      = .ok [[⟨"any", 1, .optional, .message ⟨"Any", "google.protobuf.Any"⟩⟩]] := by decide +kernel
  have hprintable : shadowed.Printable := by decide +kernel
  rw [h shadowed hprintable] at hfields
  exact absurd (Except.ok.inj hfields) (by decide)

end MettaSchema
