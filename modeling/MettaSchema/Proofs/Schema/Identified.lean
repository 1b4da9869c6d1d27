import MettaSchema.Proofs.Schema.Identifiers
import MettaSchema.Proofs.Schema.References

/-!
# The names in a schema

All names in the messages of a schema that was read from a text are identifiers, those that were
made up for map fields and groups too.

* `Statement.identified_declare`, `FileDecl.parse_identified` — what a text declares is named by
  identifiers.
* `FileDecl.Identified.path_symbols` — so full names are paths of identifiers.
* `Schema.identified_build` — and all names in the messages of its schema are identifiers.
* `Schema.parse_identified`, `Schema.parse_identified_services` — the names in the schema of a text.
-/

namespace MettaSchema

/-! ## Names in declarations -/

/-- The name of a field, and of its message if it is a group. -/
def FieldDecl.names (field : FieldDecl) : List String :=
  match field.type with
  | .group group => [field.name, group]
  | _ => [field.name]

/-- The name of an enum and those of its values. -/
def EnumDecl.names (enum : EnumDecl) : List String :=
  enum.name :: enum.values.map (·.1)

mutual

/-- The names in a message, at any depth. -/
def MessageDecl.names : MessageDecl → List String
  | ⟨name, fields, messages, enums⟩ =>
    name :: (fields.flatMap FieldDecl.names ++ MessageDecl.namesAll messages
      ++ enums.flatMap EnumDecl.names)

/-- The names in some messages, at any depth. -/
def MessageDecl.namesAll : List MessageDecl → List String
  | [] => []
  | m :: rest => m.names ++ MessageDecl.namesAll rest

end

theorem MessageDecl.namesAll_append (ms more : List MessageDecl) :
    namesAll (ms ++ more) = namesAll ms ++ namesAll more := by
  induction ms with
  | nil => rfl
  | cons m ms ih => simp [namesAll, ih]

/-- The names in a body. -/
def Body.names (body : Body) : List String :=
  body.fields.flatMap FieldDecl.names ++ MessageDecl.namesAll body.messages
    ++ body.enums.flatMap EnumDecl.names

theorem Body.names_toMessage (name : String) (body : Body) :
    (body.toMessage name).names = name :: body.names := rfl

theorem Body.identified_append {a b : Body} (ha : ∀ n ∈ a.names, Identifier n)
    (hb : ∀ n ∈ b.names, Identifier n) : ∀ n ∈ (a ++ b).names, Identifier n := by
  rw [append_eq]
  simp only [names, List.flatMap_append, MessageDecl.namesAll_append, List.forall_mem_append] at *
  exact ⟨⟨⟨ha.1.1, hb.1.1⟩, ha.1.2, hb.1.2⟩, ha.2, hb.2⟩

theorem EnumDecl.names_ofStatement {name : String} {values : List (String × String)}
    {decl : EnumDecl} (h : ofStatement name values = .ok decl) :
    decl.names = name :: values.map (·.1) := by
  obtain ⟨hname, hvalues⟩ := keys_ofStatement h
  rw [names, hname, hvalues]

theorem FieldDecl.names_ofName (name : String) (number : Nat) (label : Label) (type : String) :
    (FieldDecl.mk name number label (.ofName type)).names = [name] := by
  unfold TypeExpr.ofName names
  split <;> rename_i heq <;> split at heq <;> first | rfl | cases heq

theorem MessageDecl.identified_mapEntry {name : String} (h : Identifier name)
    (key value : String) :
    ∀ n ∈ (mapEntry name (.ofName key) (.ofName value)).names, Identifier n := by
  have hkey : Identifier "key" := by decide
  have hvalue : Identifier "value" := by decide
  simp only [mapEntry, names, namesAll, List.flatMap_cons, List.flatMap_nil,
    FieldDecl.names_ofName, List.forall_mem_cons, List.append_nil, List.cons_append,
    List.nil_append]
  exact ⟨h, hkey, hvalue, nofun⟩

/-- What statements declare is named by identifiers if their names are. -/
theorem Statement.identified_declare :
    DeclareCases (fun s body => (∀ n ∈ s.names, Identifier n) → ∀ n ∈ body.names, Identifier n)
      fun ss body => (∀ n ∈ namesAll ss, Identifier n) → ∀ n ∈ body.names, Identifier n where
  field _ hs := by
    simpa [Body.names, FieldDecl.names_ofName, MessageDecl.namesAll, names] using hs
  map {_ key value name _} _ hs := by
    have hname : Identifier name := hs name (by simp [names])
    have hentry := MessageDecl.identified_mapEntry hname.mapEntryName key value
    simp only [Body.names, FieldDecl.names, MessageDecl.namesAll, List.flatMap_cons,
      List.flatMap_nil, List.append_nil, List.forall_mem_append, List.forall_mem_singleton]
    exact ⟨hname, hentry⟩
  group _ _ ih hs := by
    obtain ⟨hname, hbody⟩ := List.forall_mem_cons.1 hs
    have hinner := ih hbody
    simp only [Body.names, FieldDecl.names, MessageDecl.namesAll, List.flatMap_cons,
      List.flatMap_nil, List.append_nil, List.forall_mem_append, List.forall_mem_cons,
      Body.names_toMessage] at hinner ⊢
    exact ⟨⟨hname.lowerCase, hname, List.forall_mem_nil _⟩, hname, hinner⟩
  oneof ih := ih
  message _ ih hs := by
    obtain ⟨hname, hbody⟩ := List.forall_mem_cons.1 hs
    have hinner := ih hbody
    simp only [Body.names, MessageDecl.namesAll, List.flatMap_nil, List.append_nil,
      List.nil_append, List.forall_mem_append, Body.names_toMessage, List.forall_mem_cons]
      at hinner ⊢
    exact ⟨hname, hinner⟩
  enum hdecl hs := by
    simpa [Body.names, MessageDecl.namesAll, EnumDecl.names_ofStatement hdecl, names] using hs
  nil _ := List.forall_mem_nil _
  cons hfirst hrest hs := by
    obtain ⟨hnames, hnamesAll⟩ := List.forall_mem_append.1 hs
    exact Body.identified_append (hfirst hnames) (hrest hnamesAll)

/-! ## Files -/

/-- All names in a file are identifiers, and its package is a path of them. -/
structure FileDecl.Identified (file : FileDecl) : Prop where
  /-- The package. -/
  package : ∀ package ∈ file.package, Identifier.Path package
  /-- The names in messages, at any depth. -/
  messages : ∀ n ∈ MessageDecl.namesAll file.messages, Identifier n
  /-- The names of the top-level enums and of their values. -/
  enums : ∀ n ∈ file.enums.flatMap EnumDecl.names, Identifier n
  /-- The names of services and of their methods. -/
  services : ∀ n ∈ file.services.flatMap ServiceDecl.names, Identifier n

theorem FileDecl.add_identified {file file' : FileDecl} {s : FileStatement}
    (hfile : file.Identified) (hs : s.Identified) (h : file.add s = .ok file') :
    file'.Identified := by
  obtain ⟨hpackage, hmessages, henums, hservices⟩ := hfile
  cases added_of_add h with
  | dialect | imports => exact ⟨hpackage, hmessages, henums, hservices⟩
  | package name =>
    refine ⟨?_, hmessages, henums, hservices⟩
    rintro _ ⟨⟩
    exact hs
  | message hinner =>
    obtain ⟨hname, hbody⟩ := List.forall_mem_cons.1 hs
    have hdeclared := Statement.identified_declare.declareAll _ hinner hbody
    refine ⟨hpackage, ?_, henums, hservices⟩
    rw [MessageDecl.namesAll_append, List.forall_mem_append]
    refine ⟨hmessages, ?_⟩
    rw [MessageDecl.namesAll, MessageDecl.namesAll, List.append_nil, Body.names_toMessage]
    exact List.forall_mem_cons.2 ⟨hname, hdeclared⟩
  | enum hdecl =>
    refine ⟨hpackage, hmessages, ?_, hservices⟩
    rw [List.flatMap_append, List.forall_mem_append, List.flatMap_singleton,
      EnumDecl.names_ofStatement hdecl]
    exact ⟨henums, hs⟩
  | service decl =>
    refine ⟨hpackage, hmessages, henums, ?_⟩
    rw [List.flatMap_append, List.forall_mem_append, List.flatMap_singleton]
    exact ⟨hservices, hs⟩

/-- All names in a file that is read from a text are identifiers. -/
theorem FileDecl.parse_identified {name source : String} {file : FileDecl}
    (h : FileDecl.parse name source = .ok file) : file.Identified := by
  obtain ⟨statements, hstatements, hfile⟩ := parse_eq_ok.1 h
  have hnames := FileStatement.identified_ofText? hstatements
  have hempty : (FileDecl.empty name).Identified := ⟨nofun, nofun, nofun, nofun⟩
  exact foldlM_invariant (fun _ s _ hs hb hadd => add_identified hb (hnames s hs) hadd) hempty hfile

/-- So are all names in the bundled files. -/
theorem Bundled.identified : ∀ file ∈ Bundled.files, file.Identified := by
  have hpackage : Identifier.Path Bundled.package := by
    have hgoogle : Identifier.Path "google" := .one (by decide)
    exact .dot hgoogle (by decide : Identifier "protobuf")
  have hnames : ∀ file ∈ Bundled.files, file.package = some Bundled.package
      ∧ (∀ n ∈ MessageDecl.namesAll file.messages, Identifier n)
      ∧ (∀ n ∈ file.enums.flatMap EnumDecl.names, Identifier n)
      ∧ file.services = [] := by
    decide +kernel
  intro file hfile
  obtain ⟨hsome, hmessages, henums, hservices⟩ := hnames file hfile
  refine ⟨?_, hmessages, henums, ?_⟩
  · rw [hsome]
    rintro _ ⟨⟩
    exact hpackage
  · rw [hservices]
    nofun

/-! ## Full names -/

mutual

/-- The full names that a message declares are paths of identifiers. -/
theorem MessageDecl.path_symbols :
    ∀ (m : MessageDecl) {scope : String}, (scope = "" ∨ Identifier.Path scope) →
      (∀ n ∈ m.names, Identifier n) → ∀ symbol ∈ m.symbols scope, Identifier.Path symbol.1
  | ⟨name, fields, messages, enums⟩, scope, hscope, h => by
    simp only [names, List.forall_mem_cons, List.forall_mem_append] at h
    obtain ⟨hname, ⟨-, hmessages⟩, henums⟩ := h
    have hpath := Identifier.Path.qualify hscope hname
    simp only [symbols, List.forall_mem_append, List.forall_mem_map, List.forall_mem_singleton]
    refine ⟨⟨MessageDecl.path_symbolsAll messages (.inr hpath) hmessages, ?_⟩, hpath⟩
    intro e he
    exact .qualify (.inr hpath) (henums e.name (List.mem_flatMap.2 ⟨e, he, List.mem_cons_self⟩))

theorem MessageDecl.path_symbolsAll :
    ∀ (ms : List MessageDecl) {scope : String}, (scope = "" ∨ Identifier.Path scope) →
      (∀ n ∈ namesAll ms, Identifier n) → ∀ symbol ∈ symbolsAll scope ms, Identifier.Path symbol.1
  | [], _, _, _ => nofun
  | m :: rest, scope, hscope, h => by
    obtain ⟨hm, hrest⟩ := List.forall_mem_append.1 h
    exact List.forall_mem_append.2 ⟨MessageDecl.path_symbols m hscope hm,
      MessageDecl.path_symbolsAll rest hscope hrest⟩

end

theorem FileDecl.Identified.scope {file : FileDecl} (h : file.Identified) :
    file.scope = "" ∨ Identifier.Path file.scope := by
  unfold FileDecl.scope
  cases hpackage : file.package with
  | none => exact .inl rfl
  | some package => exact .inr (h.package package hpackage)

theorem FileDecl.Identified.path_symbols {file : FileDecl} (h : file.Identified) :
    ∀ symbol ∈ file.symbols, Identifier.Path symbol.1 := by
  refine List.forall_mem_append.2 ⟨MessageDecl.path_symbolsAll _ h.scope h.messages, ?_⟩
  intro symbol hsymbol
  obtain ⟨e, he, rfl⟩ := List.mem_map.1 hsymbol
  exact .qualify h.scope (h.enums e.name (List.mem_flatMap.2 ⟨e, he, List.mem_cons_self⟩))

/-- All full names in a table are paths of identifiers. -/
def SymbolTable.Identified (table : SymbolTable) : Prop :=
  ∀ symbol ∈ table.entries, Identifier.Path symbol.1

theorem SymbolTable.identified_ofFiles {files : List FileDecl} (h : ∀ file ∈ files, file.Identified) :
    (SymbolTable.ofFiles files).Identified := by
  intro symbol hsymbol
  obtain ⟨file, hfile, hsymbol⟩ := SymbolTable.mem_ofFiles.1 hsymbol
  exact (h file hfile).path_symbols symbol hsymbol

/-! ## Schemas -/

/-- The reference in the type of a field. -/
def FieldType.ref? : FieldType → Option TypeRef
  | scalar _ => none
  | message ref => some ref
  | enum ref => some ref
  | group ref => some ref

/-- The name of a field, and that of its type. -/
def Field.names (field : Field) : List String :=
  field.name :: field.type.ref?.toList.map (·.name)

/-- The name of an enum and those of its values. -/
def EnumType.names (enum : EnumType) : List String :=
  enum.name :: enum.values.map (·.1)

/-- The names in a message, without those in the messages inside it. -/
def Message.names (message : Message) : List String :=
  message.name :: (message.fields.flatMap Field.names ++ message.enums.flatMap (·.2.names))

/-- A reference to a path of identifiers goes by an identifier. -/
theorem Identifier.Path.identifier_ref {fullName : String} (h : Identifier.Path fullName) :
    Identifier (TypeRef.ofFullName fullName).name :=
  h.identifier_afterLastDot

/-- What the type of a field refers to is a path of identifiers, and the reference goes by the last
of them. -/
theorem TypeExpr.path_resolve {table : SymbolTable} {scope : String} {type : TypeExpr}
    {resolved : FieldType} (htable : table.Identified)
    (hscope : scope = "" ∨ Identifier.Path scope)
    (hgroup : ∀ name, type = .group name → Identifier name)
    (h : type.resolve table scope = .ok resolved) :
    ∀ ref ∈ resolved.ref?, ∃ fullName, Identifier.Path fullName ∧ ref = .ofFullName fullName := by
  have hfound : ∀ {name : String} {symbol : String × SymbolKind},
      table.resolve anySymbol scope name = some symbol → Identifier.Path symbol.1 :=
    fun href => htable _ (SymbolTable.find?_mem (SymbolTable.resolve_find? href).1)
  cases type with
  | scalar kind =>
    cases h
    nofun
  | group name =>
    cases h
    rintro _ ⟨⟩
    exact ⟨_, .qualify hscope (hgroup name rfl), rfl⟩
  | named name =>
    simp only [resolve] at h
    split at h <;> cases h
    all_goals
      rename_i href
      rintro _ ⟨⟩
      exact ⟨_, hfound href, rfl⟩

/-- What a method takes or returns is a path of identifiers, and the reference goes by the last of
them. -/
theorem path_resolveMessage {table : SymbolTable} {scope name : String} {ref : TypeRef}
    (htable : table.Identified) (h : resolveMessage table scope name = .ok ref) :
    ∃ fullName, Identifier.Path fullName ∧ ref = .ofFullName fullName := by
  obtain ⟨fullName, kind, hfound, rfl⟩ := resolveMessage_eq_ok.1 h
  exact ⟨fullName, htable _ (SymbolTable.find?_mem (SymbolTable.resolve_find? hfound).1), rfl⟩

theorem FieldDecl.name_mem_names (decl : FieldDecl) : decl.name ∈ decl.names := by
  unfold names
  split <;> exact List.mem_cons_self

theorem FieldDecl.identified_resolve {table : SymbolTable} {scope : String} {decl : FieldDecl}
    {field : Field} (htable : table.Identified) (hscope : scope = "" ∨ Identifier.Path scope)
    (hdecl : ∀ n ∈ decl.names, Identifier n) (h : decl.resolve table scope = .ok field) :
    ∀ n ∈ field.names, Identifier n := by
  obtain ⟨type, htype, rfl⟩ := resolve_eq_ok.1 h
  have hgroup : ∀ name, decl.type = .group name → Identifier name :=
    fun name hname => hdecl name (by simp [names, hname])
  refine List.forall_mem_cons.2 ⟨hdecl _ decl.name_mem_names, List.forall_mem_map.2 ?_⟩
  intro ref href
  obtain ⟨fullName, hpath, rfl⟩ :=
    TypeExpr.path_resolve htable hscope hgroup htype ref (Option.mem_toList.1 href)
  exact hpath.identifier_ref

theorem EnumDecl.identified_buildAll {scope : String} {decls : List EnumDecl}
    (h : ∀ n ∈ decls.flatMap EnumDecl.names, Identifier n) :
    ∀ e ∈ EnumDecl.buildAll scope decls, ∀ n ∈ e.2.names, Identifier n := by
  intro e he
  obtain ⟨decl, hdecl, rfl⟩ := List.mem_map.1 (Keyed.mem_of_mem_ofList he)
  have hnames : ∀ n ∈ decl.names, Identifier n :=
    fun n hn => h n (List.mem_flatMap.2 ⟨decl, hdecl, hn⟩)
  rw [names, List.forall_mem_cons] at hnames
  obtain ⟨hname, hvalues⟩ := hnames
  rw [EnumType.names, List.forall_mem_cons]
  refine ⟨hname, ?_⟩
  intro n hn
  obtain ⟨value, hvalue, rfl⟩ := List.mem_map.1 hn
  exact hvalues value.1 (List.mem_map_of_mem (Keyed.mem_of_mem_ofList hvalue))

mutual

/-- The names in a message, and in those inside it, are identifiers. -/
theorem MessageDecl.identified_build {table : SymbolTable} (htable : table.Identified) :
    ∀ (decl : MessageDecl) {scope : String} {m : Message}, (scope = "" ∨ Identifier.Path scope) →
      (∀ n ∈ decl.names, Identifier n) → decl.build table scope = .ok m →
      ∀ k ∈ m.withNested, ∀ n ∈ k.names, Identifier n
  | ⟨name, fields, messages, enums⟩, scope, m, hscope, hdecl, h => by
    obtain ⟨inner, resolved, hinner, hresolved, rfl⟩ := build_eq_ok.1 h
    simp only [names, List.forall_mem_cons, List.forall_mem_append] at hdecl
    obtain ⟨hname, ⟨hfields, hmessages⟩, henums⟩ := hdecl
    have hpath : qualify scope name = "" ∨ Identifier.Path (qualify scope name) :=
      .inr (.qualify hscope hname)
    simp only [Message.withNested, List.forall_mem_cons]
    refine ⟨?_, ?_⟩
    · simp only [Message.names, List.forall_mem_cons, List.forall_mem_append,
        List.forall_mem_flatMap]
      refine ⟨hname, ?_, EnumDecl.identified_buildAll henums⟩
      intro field hfield
      rcases FieldDecl.mem_buildAll fields hresolved field hfield with hnone | ⟨decl, hdecl, hfrom⟩
      · cases hnone
      · exact FieldDecl.identified_resolve htable hpath
          (fun n hn => hfields n (List.mem_flatMap.2 ⟨decl, hdecl, hn⟩)) hfrom
    · intro k hk
      obtain ⟨p, hp, hk⟩ := Message.mem_withNestedAll.1 hk
      exact MessageDecl.identified_buildMessages htable messages hpath hmessages hinner p
        (Keyed.mem_of_mem_ofList hp) k hk

theorem MessageDecl.identified_buildMessages {table : SymbolTable} (htable : table.Identified) :
    ∀ (decls : List MessageDecl) {scope : String} {ms : List (String × Message)},
      (scope = "" ∨ Identifier.Path scope) → (∀ n ∈ namesAll decls, Identifier n) →
      MessageDecl.buildAll table scope decls = .ok ms →
      ∀ p ∈ ms, ∀ k ∈ p.2.withNested, ∀ n ∈ k.names, Identifier n
  | [], _, ms, _, _, h => by
    cases h
    nofun
  | decl :: rest, scope, ms, hscope, hdecls, h => by
    obtain ⟨m, more, hm, hmore, rfl⟩ := buildAll_cons_eq_ok.1 h
    obtain ⟨hdecl, hrest⟩ := List.forall_mem_append.1 hdecls
    exact List.forall_mem_cons.2 ⟨MessageDecl.identified_build htable decl hscope hdecl hm,
      MessageDecl.identified_buildMessages htable rest hscope hrest hmore⟩

end

/-- The names in all messages of a schema that was built are identifiers. -/
theorem Schema.identified_build {table : SymbolTable} {file : FileDecl} {schema : Schema}
    (htable : table.Identified) (hfile : file.Identified) (h : file.build table = .ok schema) :
    ∀ m ∈ schema.allMessages, ∀ n ∈ m.names, Identifier n := by
  obtain ⟨messages, services, hmessages, -, rfl⟩ := FileDecl.build_eq_ok.1 h
  intro m hm
  obtain ⟨p, hp, hm⟩ := Message.mem_withNestedAll.1 hm
  exact MessageDecl.identified_buildMessages htable file.messages hfile.scope hfile.messages
    hmessages p (Keyed.mem_of_mem_ofList hp) m hm

/-- All full names that a text can use are paths of identifiers. -/
theorem FileDecl.Identified.table {file : FileDecl} (h : file.Identified) :
    (SymbolTable.ofFiles (file :: file.imports.filterMap Bundled.file?)).Identified := by
  refine SymbolTable.identified_ofFiles (List.forall_mem_cons.2 ⟨h, ?_⟩)
  intro bundled hbundled
  obtain ⟨path, -, hfound⟩ := List.mem_filterMap.1 hbundled
  exact Bundled.identified bundled (List.mem_of_find?_eq_some hfound)

/-- In the schema of a text, the names in all messages are identifiers, and so are those in the
package. -/
theorem Schema.parse_identified {name source : String} {schema : Schema}
    (h : Schema.parse name source = .ok schema) :
    (schema.packageName = "" ∨ Identifier.Path schema.packageName)
      ∧ ∀ m ∈ schema.allMessages, ∀ n ∈ m.names, Identifier n := by
  rw [Schema.parse, bind_eq_ok] at h
  obtain ⟨file, hfile, h⟩ := h
  have hidentified := FileDecl.parse_identified hfile
  refine ⟨?_, Schema.identified_build hidentified.table hidentified h⟩
  have hpackage : schema.packageName = file.scope := by
    obtain ⟨messages, services, -, -, rfl⟩ := FileDecl.build_eq_ok.1 h
    rfl
  rw [hpackage]
  exact hidentified.scope

/-- What a method takes and returns goes by identifiers. -/
theorem MethodDecl.identified_build {table : SymbolTable} (htable : table.Identified)
    {scope : String} {decl : MethodDecl} {method : Method}
    (h : decl.build table scope = .ok method) :
    method.name = decl.name ∧ Identifier method.input.name ∧ Identifier method.output.name := by
  obtain ⟨input, output, hinput, houtput, rfl⟩ := build_eq_ok.1 h
  have hmessage {name : String} {ref : TypeRef} (href : resolveMessage table scope name = .ok ref) :
      Identifier ref.name := by
    obtain ⟨fullName, hpath, rfl⟩ := path_resolveMessage htable href
    exact hpath.identifier_ref
  exact ⟨rfl, hmessage hinput, hmessage houtput⟩

/-- The names in a service are identifiers. -/
theorem ServiceDecl.identified_build {table : SymbolTable} (htable : table.Identified)
    {scope : String} {decl : ServiceDecl} {service : Service}
    (hdecl : ∀ n ∈ decl.names, Identifier n) (h : decl.build table scope = .ok service) :
    Identifier service.name ∧ ∀ m ∈ service.methods,
      Identifier m.1 ∧ Identifier m.2.input.name ∧ Identifier m.2.output.name := by
  obtain ⟨methods, hmethods, rfl⟩ := build_eq_ok.1 h
  obtain ⟨hname, hnames⟩ := List.forall_mem_cons.1 hdecl
  refine ⟨hname, fun m hm => ?_⟩
  obtain ⟨method, hmethod, rfl⟩ := List.mem_map.1 (Keyed.mem_of_mem_ofList hm)
  obtain ⟨decl', hdecl', hbuild⟩ := mem_of_mapM_eq_ok hmethods hmethod
  obtain ⟨hkey, htypes⟩ := MethodDecl.identified_build htable hbuild
  exact ⟨hkey ▸ hnames _ (List.mem_map_of_mem hdecl'), htypes⟩

/-- In the schema of a text, the names in all services are identifiers. -/
theorem Schema.parse_identified_services {name source : String} {schema : Schema}
    (h : Schema.parse name source = .ok schema) :
    ∀ s ∈ schema.services, Identifier s.1 ∧ ∀ m ∈ s.2.methods,
      Identifier m.1 ∧ Identifier m.2.input.name ∧ Identifier m.2.output.name := by
  rw [Schema.parse, bind_eq_ok] at h
  obtain ⟨file, hfile, h⟩ := h
  have hidentified := FileDecl.parse_identified hfile
  obtain ⟨messages, services, -, hservices, rfl⟩ := FileDecl.build_eq_ok.1 h
  intro s hs
  obtain ⟨service, hservice, rfl⟩ := List.mem_map.1 (Keyed.mem_of_mem_ofList hs)
  obtain ⟨decl, hdecl, hbuild⟩ := mem_of_mapM_eq_ok hservices hservice
  exact ServiceDecl.identified_build hidentified.table
    (fun n hn => hidentified.services n (List.mem_flatMap.2 ⟨decl, hdecl, hn⟩)) hbuild

end MettaSchema
