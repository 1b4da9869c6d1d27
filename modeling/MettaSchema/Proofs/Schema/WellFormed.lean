import MettaSchema.Proofs.Import.Turns
import MettaSchema.Proofs.Schema.Identified

/-!
# Well-formed schemas

Every schema is well formed, be it that of a text or that of a file on the disk: what is kept under
a key is kept under its own, full names are the way from the package, and references go by the last
part of what they refer to.

* `Scope` — a full name, with the names that lead to it.
* `TypeRef.WellFormed`, `Message.WellFormed`, `Schema.WellFormed` — the property.
* `Statement.numbered_declare` — no field is declared with a number out of range.
* `MessageDecl.wellFormed_build` — messages are well formed in the scope where they are built.
* `Schema.wellFormed` — every schema of a text or of a file on the disk is.
-/

namespace MettaSchema

/-! ## Dotted names -/

/-- Names joined by dots. -/
def dotted (names : List String) : String :=
  ".".intercalate names

theorem dotted_singleton (name : String) : dotted [name] = name :=
  String.intercalate_singleton

theorem dotted_concat {names : List String} (h : names ≠ []) (name : String) :
    dotted (names ++ [name]) = dotted names ++ "." ++ name := by
  rw [dotted, String.intercalate_append_of_ne_nil h (List.cons_ne_nil _ _),
    String.intercalate_singleton, dotted]

theorem Identifier.Path.ne_empty {fullName : String} (h : Identifier.Path fullName) :
    fullName ≠ "" := by
  rintro rfl
  exact h.identifier_afterLastDot.1 (by decide)

/-- A path of identifiers is these identifiers, joined by dots. -/
theorem Identifier.Path.eq_dotted {fullName : String} (h : Identifier.Path fullName) :
    ∃ scope, (∀ n ∈ scope, Identifier n) ∧ fullName = dotted (scope ++ [afterLastDot fullName]) := by
  induction h with
  | @one name h =>
    refine ⟨[], by simp, ?_⟩
    rw [afterLastDot_one h, List.nil_append, dotted_singleton]
  | @dot scope name hscope h ih =>
    obtain ⟨names, hnames, heq⟩ := ih
    refine ⟨names ++ [afterLastDot scope], ?_, ?_⟩
    · exact List.forall_mem_append.2
        ⟨hnames, List.forall_mem_singleton.2 hscope.identifier_afterLastDot⟩
    · rw [afterLastDot_dot scope h, dotted_concat (by simp), ← heq]

/-- The names that lead from the root to a scope: the package, if there is one, and then the
messages around it. -/
inductive Scope : List String → String → Prop
  /-- There is no package. -/
  | root : Scope [] ""
  /-- The scope of a package. -/
  | package {name : String} (h : Identifier.Path name) : Scope [name] name
  /-- The scope inside a message. -/
  | inside {path : List String} {scope name : String} (hscope : Scope path scope)
      (h : Identifier name) : Scope (path ++ [name]) (qualify scope name)

namespace Scope

variable {path : List String} {scope : String}

theorem empty_or_path (h : Scope path scope) : scope = "" ∨ Identifier.Path scope := by
  induction h with
  | root => exact .inl rfl
  | package h => exact .inr h
  | inside _ h ih => exact .inr (.qualify ih h)

/-- A full name is the way from the root. -/
theorem qualify_eq (h : Scope path scope) (name : String) :
    qualify scope name = dotted (path ++ [name]) := by
  induction h generalizing name with
  | root => exact (dotted_singleton name).symm
  | package h =>
    rw [qualify, if_neg h.ne_empty, dotted_concat (List.cons_ne_nil _ _), dotted_singleton]
  | @inside path scope inner hscope h ih =>
    have hpath := Identifier.Path.qualify hscope.empty_or_path h
    rw [qualify, if_neg hpath.ne_empty, ih inner]
    exact (dotted_concat (by simp) name).symm

end Scope

theorem FileDecl.Identified.scope_package {file : FileDecl} (h : file.Identified) :
    Scope file.package.toList file.scope := by
  unfold FileDecl.scope
  cases hpackage : file.package with
  | none => exact .root
  | some package => exact .package (h.package package hpackage)

/-! ## The property -/

/-- Entries are kept under their own names, and no two under one name. -/
structure Keyed.ByName {α : Type} (name : α → String) (entries : List (String × α)) : Prop where
  /-- The key of an entry is its name. -/
  own : ∀ p ∈ entries, p.1 = name p.2
  /-- No key occurs twice. -/
  distinct : (keys entries).Nodup

/-- A reference to a dotted name of identifiers, which goes by the last of them. -/
structure TypeRef.WellFormed (ref : TypeRef) : Prop where
  /-- The name is an identifier. -/
  name : Identifier ref.name
  /-- The full name is made of identifiers, and the last one is the name. -/
  fullName : ∃ scope, (∀ n ∈ scope, Identifier n) ∧ ref.fullName = dotted (scope ++ [ref.name])

/-- A field with a name, a number in range and a reference that is well formed. -/
structure Field.WellFormed (field : Field) : Prop where
  /-- The name is an identifier. -/
  name : Identifier field.name
  /-- The number is in the range of numbers of fields. -/
  number : 1 ≤ field.number ∧ field.number ≤ 536870911
  /-- What the type refers to, if it refers to anything. -/
  type : ∀ ref ∈ field.type.ref?, ref.WellFormed

/-- An enum behind a path, with values that go by identifiers. -/
structure EnumType.WellFormed (path : List String) (enum : EnumType) : Prop where
  /-- The name is an identifier. -/
  name : Identifier enum.name
  /-- The full name is the path and the name. -/
  fullName : enum.fullName = dotted (path ++ [enum.name])
  /-- The names of the values are identifiers. -/
  values : ∀ value ∈ enum.values, Identifier value.1
  /-- No two values have one name. -/
  distinct : (Keyed.keys enum.values).Nodup

/-- A message behind a path, with everything inside it. -/
inductive Message.WellFormed : List String → Message → Prop
  /-- The message itself, and then the messages inside it, with its name behind the path. -/
  | intro {path : List String} {message : Message}
      (name : Identifier message.name)
      (fullName : message.fullName = dotted (path ++ [message.name]))
      (fields : ∀ field ∈ message.fields, field.WellFormed)
      (ascending : message.fields.Pairwise (·.number < ·.number))
      (keyed : Keyed.ByName Message.name message.messages)
      (messages : ∀ p ∈ message.messages, Message.WellFormed (path ++ [message.name]) p.2)
      (keyedEnums : Keyed.ByName EnumType.name message.enums)
      (enums : ∀ p ∈ message.enums, p.2.WellFormed (path ++ [message.name])) :
      Message.WellFormed path message

/-- A method whose references are well formed. -/
structure Method.WellFormed (method : Method) : Prop where
  /-- The name is an identifier. -/
  name : Identifier method.name
  /-- What the method takes. -/
  input : method.input.WellFormed
  /-- What the method returns. -/
  output : method.output.WellFormed

/-- A service behind a path. -/
structure Service.WellFormed (path : List String) (service : Service) : Prop where
  /-- The name is an identifier. -/
  name : Identifier service.name
  /-- The full name is the path and the name. -/
  fullName : service.fullName = dotted (path ++ [service.name])
  /-- The methods are kept under their names. -/
  keyed : Keyed.ByName Method.name service.methods
  /-- The methods are well formed. -/
  methods : ∀ p ∈ service.methods, p.2.WellFormed

/-- A schema whose parts are kept under their names and are well formed behind the package. -/
structure Schema.WellFormed (schema : Schema) : Prop where
  /-- The package is a path of identifiers. -/
  package : ∀ package ∈ schema.package, Identifier.Path package
  /-- The messages are kept under their names. -/
  keyed : Keyed.ByName Message.name schema.messages
  /-- The messages are well formed. -/
  messages : ∀ p ∈ schema.messages, p.2.WellFormed schema.package.toList
  /-- The enums are kept under their names. -/
  keyedEnums : Keyed.ByName EnumType.name schema.enums
  /-- The enums are well formed. -/
  enums : ∀ p ∈ schema.enums, p.2.WellFormed schema.package.toList
  /-- The services are kept under their names. -/
  keyedServices : Keyed.ByName Service.name schema.services
  /-- The services are well formed. -/
  services : ∀ p ∈ schema.services, p.2.WellFormed schema.package.toList

theorem Keyed.byName_ofList {α : Type} {name : α → String} {entries : List (String × α)}
    (h : ∀ p ∈ entries, p.1 = name p.2) : ByName name (ofList entries) :=
  ⟨fun p hp => h p (mem_of_mem_ofList hp), nodup_keys_ofList entries⟩

theorem TypeRef.wellFormed_ofFullName {fullName : String} (h : Identifier.Path fullName) :
    (TypeRef.ofFullName fullName).WellFormed :=
  ⟨h.identifier_afterLastDot, h.eq_dotted⟩

/-! ## Numbers in declarations -/

/-- The number of a field is in the range of numbers of fields. -/
def FieldDecl.InRange (field : FieldDecl) : Prop :=
  1 ≤ field.number ∧ field.number ≤ 536870911

mutual

/-- The numbers of the fields in a message, at any depth, are in range. -/
def MessageDecl.Numbered : MessageDecl → Prop
  | ⟨_, fields, messages, _⟩ => (∀ field ∈ fields, field.InRange) ∧ MessageDecl.NumberedAll messages

/-- The numbers of the fields in some messages, at any depth, are in range. -/
def MessageDecl.NumberedAll : List MessageDecl → Prop
  | [] => True
  | m :: rest => m.Numbered ∧ MessageDecl.NumberedAll rest

end

theorem MessageDecl.numberedAll_iff {ms : List MessageDecl} :
    NumberedAll ms ↔ ∀ m ∈ ms, m.Numbered := by
  induction ms with
  | nil => simp [NumberedAll]
  | cons m ms ih => simp [NumberedAll, ih]

/-- The numbers of the fields in a body, at any depth, are in range. -/
structure Body.Numbered (body : Body) : Prop where
  /-- The fields themselves. -/
  fields : ∀ field ∈ body.fields, field.InRange
  /-- Those in messages. -/
  messages : ∀ m ∈ body.messages, m.Numbered

theorem Body.Numbered.toMessage {body : Body} (h : body.Numbered) (name : String) :
    (body.toMessage name).Numbered :=
  ⟨h.fields, MessageDecl.numberedAll_iff.2 h.messages⟩

theorem Body.Numbered.append {a b : Body} (ha : a.Numbered) (hb : b.Numbered) :
    (a ++ b).Numbered :=
  ⟨List.forall_mem_append.2 ⟨ha.fields, hb.fields⟩,
    List.forall_mem_append.2 ⟨ha.messages, hb.messages⟩⟩

theorem Literal.fieldNumber_inRange {literal : String} {number : Nat}
    (h : fieldNumber literal = .ok number) : 1 ≤ number ∧ number ≤ 536870911 := by
  have hmax : maxFieldNumber = 536870911 := rfl
  unfold fieldNumber at h
  split at h
  · cases h
  · split at h <;> cases h
    omega

/-- The fields that statements declare have numbers in range. -/
theorem Statement.numbered_declare :
    DeclareCases (fun _ body => body.Numbered) fun _ body => body.Numbered where
  field hnumber :=
    ⟨List.forall_mem_singleton.2 (Literal.fieldNumber_inRange hnumber), nofun⟩
  map hnumber := by
    refine ⟨List.forall_mem_singleton.2 (Literal.fieldNumber_inRange hnumber),
      List.forall_mem_singleton.2 ⟨?_, trivial⟩⟩
    simp [FieldDecl.InRange]
  group hnumber _ hinner :=
    ⟨List.forall_mem_singleton.2 (Literal.fieldNumber_inRange hnumber),
      List.forall_mem_singleton.2 (hinner.toMessage _)⟩
  oneof hmembers := hmembers
  message _ hinner := ⟨nofun, List.forall_mem_singleton.2 (hinner.toMessage _)⟩
  enum _ := ⟨nofun, nofun⟩
  nil := ⟨nofun, nofun⟩
  cons hfirst hrest := hfirst.append hrest

/-- The fields that a text declares have numbers in range. -/
theorem FileDecl.parse_numbered {name source : String} {file : FileDecl}
    (h : FileDecl.parse name source = .ok file) : ∀ m ∈ file.messages, m.Numbered := by
  obtain ⟨statements, -, hfile⟩ := parse_eq_ok.1 h
  refine foldlM_invariant (P := fun file => ∀ m ∈ file.messages, m.Numbered) ?_ nofun hfile
  intro file s file' _ hfile hadd
  cases added_of_add hadd with
  | @message name statements body hbody =>
    have hmessage := (Statement.numbered_declare.declareAll statements hbody).toMessage name
    exact List.forall_mem_append.2 ⟨hfile, List.forall_mem_singleton.2 hmessage⟩
  | _ => exact hfile

/-! ## What is built -/

variable {table : SymbolTable} {path : List String} {scope : String}

theorem FieldDecl.wellFormed_resolve {decl : FieldDecl} {field : Field} (htable : table.Identified)
    (hscope : Scope path scope) (hnames : ∀ n ∈ decl.names, Identifier n) (hnumber : decl.InRange)
    (h : decl.resolve table scope = .ok field) : field.WellFormed := by
  obtain ⟨type, htype, rfl⟩ := resolve_eq_ok.1 h
  have hgroup : ∀ name, decl.type = .group name → Identifier name :=
    fun name hname => hnames name (by simp [names, hname])
  refine ⟨hnames _ decl.name_mem_names, hnumber, fun ref href => ?_⟩
  obtain ⟨fullName, hpath, rfl⟩ :=
    TypeExpr.path_resolve htable hscope.empty_or_path hgroup htype ref href
  exact TypeRef.wellFormed_ofFullName hpath

theorem EnumDecl.wellFormed_build {decl : EnumDecl} (hscope : Scope path scope)
    (hnames : ∀ n ∈ decl.names, Identifier n) : (decl.build scope).WellFormed path := by
  obtain ⟨hname, hvalues⟩ := List.forall_mem_cons.1 hnames
  refine ⟨hname, hscope.qualify_eq decl.name, fun value hvalue => ?_, Keyed.nodup_keys_ofList _⟩
  exact hvalues value.1 (List.mem_map_of_mem (Keyed.mem_of_mem_ofList hvalue))

theorem EnumDecl.wellFormed_buildAll {decls : List EnumDecl} (hscope : Scope path scope)
    (hnames : ∀ n ∈ decls.flatMap EnumDecl.names, Identifier n) :
    Keyed.ByName EnumType.name (EnumDecl.buildAll scope decls)
      ∧ ∀ p ∈ EnumDecl.buildAll scope decls, p.2.WellFormed path := by
  refine ⟨Keyed.byName_ofList (List.forall_mem_map.2 fun decl _ => rfl), fun p hp => ?_⟩
  obtain ⟨decl, hdecl, rfl⟩ := List.mem_map.1 (Keyed.mem_of_mem_ofList hp)
  exact EnumDecl.wellFormed_build hscope fun n hn => hnames n (List.mem_flatMap.2 ⟨decl, hdecl, hn⟩)

mutual

/-- A message is well formed in the scope where it is built. -/
theorem MessageDecl.wellFormed_build (htable : table.Identified) :
    ∀ (decl : MessageDecl) {path : List String} {scope : String} {m : Message},
      Scope path scope → (∀ n ∈ decl.names, Identifier n) → decl.Numbered →
      decl.build table scope = .ok m → m.WellFormed path
  | ⟨name, fields, messages, enums⟩, path, scope, m, hscope, hnames, hnumbers, h => by
    obtain ⟨inner, resolved, hinner, hresolved, rfl⟩ := build_eq_ok.1 h
    simp only [names, List.forall_mem_cons, List.forall_mem_append] at hnames
    obtain ⟨hname, ⟨hfields, hmessages⟩, henums⟩ := hnames
    obtain ⟨hinRange, hnested⟩ := hnumbers
    have hinside := hscope.inside hname
    have hbuilt := MessageDecl.wellFormed_buildAll htable messages hinside hmessages hnested hinner
    obtain ⟨hkeyedEnums, hwellEnums⟩ := EnumDecl.wellFormed_buildAll hinside henums
    refine .intro hname (hscope.qualify_eq name) ?_ resolved.2
      (Keyed.byName_ofList fun p hp => (hbuilt p hp).1)
      (fun p hp => (hbuilt p (Keyed.mem_of_mem_ofList hp)).2) hkeyedEnums hwellEnums
    intro field hfield
    obtain hnone | ⟨decl, hdecl, hfrom⟩ := FieldDecl.mem_buildAll fields hresolved field hfield
    · cases hnone
    · exact FieldDecl.wellFormed_resolve htable hinside
        (fun n hn => hfields n (List.mem_flatMap.2 ⟨decl, hdecl, hn⟩)) (hinRange decl hdecl) hfrom

/-- Messages are built under their names, and well formed. -/
theorem MessageDecl.wellFormed_buildAll (htable : table.Identified) :
    ∀ (decls : List MessageDecl) {path : List String} {scope : String}
      {ms : List (String × Message)},
      Scope path scope → (∀ n ∈ namesAll decls, Identifier n) → NumberedAll decls →
      MessageDecl.buildAll table scope decls = .ok ms →
      ∀ p ∈ ms, p.1 = p.2.name ∧ p.2.WellFormed path
  | [], _, _, ms, _, _, _, h => by
    cases h
    nofun
  | decl :: rest, path, scope, ms, hscope, hnames, hnumbers, h => by
    obtain ⟨m, more, hm, hmore, rfl⟩ := buildAll_cons_eq_ok.1 h
    obtain ⟨hdecl, hrest⟩ := List.forall_mem_append.1 hnames
    exact List.forall_mem_cons.2
      ⟨⟨rfl, MessageDecl.wellFormed_build htable decl hscope hdecl hnumbers.1 hm⟩,
        MessageDecl.wellFormed_buildAll htable rest hscope hrest hnumbers.2 hmore⟩

end

theorem MethodDecl.wellFormed_build {decl : MethodDecl} {method : Method}
    (htable : table.Identified) (hname : Identifier decl.name)
    (h : decl.build table scope = .ok method) : method.WellFormed := by
  obtain ⟨input, output, hinput, houtput, rfl⟩ := build_eq_ok.1 h
  obtain ⟨_, hinputPath, rfl⟩ := path_resolveMessage htable hinput
  obtain ⟨_, houtputPath, rfl⟩ := path_resolveMessage htable houtput
  exact ⟨hname, TypeRef.wellFormed_ofFullName hinputPath, TypeRef.wellFormed_ofFullName houtputPath⟩

theorem ServiceDecl.wellFormed_build {decl : ServiceDecl} {service : Service}
    (htable : table.Identified) (hscope : Scope path scope)
    (hnames : ∀ n ∈ decl.names, Identifier n) (h : decl.build table scope = .ok service) :
    service.WellFormed path := by
  obtain ⟨methods, hmethods, rfl⟩ := build_eq_ok.1 h
  obtain ⟨hname, hmethodNames⟩ := List.forall_mem_cons.1 hnames
  refine ⟨hname, hscope.qualify_eq decl.name,
    Keyed.byName_ofList (List.forall_mem_map.2 fun m _ => rfl), fun p hp => ?_⟩
  obtain ⟨method, hmethod, rfl⟩ := List.mem_map.1 (Keyed.mem_of_mem_ofList hp)
  obtain ⟨decl', hdecl', hbuild⟩ := mem_of_mapM_eq_ok hmethods hmethod
  exact MethodDecl.wellFormed_build htable (hmethodNames _ (List.mem_map_of_mem hdecl')) hbuild

/-- A schema is well formed if all names in its file and in the table are identifiers and the
numbers of fields are in range. -/
theorem FileDecl.wellFormed_build {file : FileDecl} {schema : Schema} (htable : table.Identified)
    (hfile : file.Identified) (hnumbers : ∀ m ∈ file.messages, m.Numbered)
    (h : file.build table = .ok schema) : schema.WellFormed := by
  have hscope := hfile.scope_package
  obtain ⟨messages, services, hmessages, hservices, rfl⟩ := build_eq_ok.1 h
  have hbuilt := MessageDecl.wellFormed_buildAll htable file.messages hscope hfile.messages
    (MessageDecl.numberedAll_iff.2 hnumbers) hmessages
  obtain ⟨hkeyedEnums, hwellEnums⟩ := EnumDecl.wellFormed_buildAll hscope hfile.enums
  refine ⟨hfile.package, Keyed.byName_ofList fun p hp => (hbuilt p hp).1,
    fun p hp => (hbuilt p (Keyed.mem_of_mem_ofList hp)).2, hkeyedEnums, hwellEnums,
    Keyed.byName_ofList (List.forall_mem_map.2 fun s _ => rfl), fun p hp => ?_⟩
  obtain ⟨service, hservice, rfl⟩ := List.mem_map.1 (Keyed.mem_of_mem_ofList hp)
  obtain ⟨decl, hdecl, hbuild⟩ := mem_of_mapM_eq_ok hservices hservice
  exact ServiceDecl.wellFormed_build htable hscope
    (fun n hn => hfile.services n (List.mem_flatMap.2 ⟨decl, hdecl, hn⟩)) hbuild

/-! ## Texts and files on the disk -/

theorem FileDecl.parse_of_ofText {path : String} {text : Except FileError String} {file : FileDecl}
    (h : FileDecl.ofText path text = .ok file) :
    ∃ name source, FileDecl.parse name source = .ok file := by
  cases text with
  | error e => cases h
  | ok source => exact ⟨_, source, h⟩

/-- All names in a file that is reached are identifiers, be it read or bundled. -/
theorem Search.Reaches.identified {search : Search} {tree : FileTree} {path : String}
    {found : Located} (h : search.Reaches tree path found) : found.file.Identified := by
  have hread : ∀ {path : String} {text : Except FileError String} {file : FileDecl},
      FileDecl.ofText path text = .ok file → file.Identified := by
    intro path text file htext
    obtain ⟨name, source, hparse⟩ := FileDecl.parse_of_ofText htext
    exact FileDecl.parse_identified hparse
  cases h with
  | root htext => exact hread htext
  | imported _ _ hfinds =>
    cases hfinds with
    | onDisk _ _ _ htext => exact hread htext
    | bundled _ hbundled => exact Bundled.identified _ (List.mem_of_find?_eq_some hbundled)

/-- Every schema of a text is well formed, and so is every schema of a file on the disk, whatever
is imported. -/
theorem Schema.wellFormed (schema : Schema) :
    (∀ name source, Schema.parse name source = .ok schema → schema.WellFormed)
      ∧ ∀ (search : Search) (tree : FileTree) (path : String),
        search.load tree path = .ok schema → schema.WellFormed := by
  constructor
  · intro name source h
    rw [Schema.parse, bind_eq_ok] at h
    obtain ⟨file, hfile, h⟩ := h
    have hidentified := FileDecl.parse_identified hfile
    exact FileDecl.wellFormed_build hidentified.table hidentified (FileDecl.parse_numbered hfile) h
  · intro search tree path h
    simp only [Search.load_eq, bind_eq_ok] at h
    obtain ⟨root, hroot, work, hwork, h⟩ := h
    obtain ⟨imported, htracks, -⟩ := Search.collect_done hroot hwork
    have htable : (SymbolTable.ofFiles work.files).Identified := by
      rw [htracks.files]
      exact SymbolTable.identified_ofFiles
        (List.forall_mem_map.2 fun l hl => (htracks.reached l hl).identified)
    obtain ⟨name, source, hparse⟩ := FileDecl.parse_of_ofText hroot
    exact FileDecl.wellFormed_build htable (FileDecl.parse_identified hparse)
      (FileDecl.parse_numbered hparse) h

/-- A text in a package, with a group, a map field and a service. -/
def scopedSource : String :=
  "package a.b;message M\x7boptional group G=536870911\x7boptional .a.b.M m=1;\x7d" ++
  "map<int32,M>by_id=2;\x7dservice S\x7brpc get(M)returns(M.G);\x7d"

/-- The schema of that text. -/
def scopedSchema : Schema where
  name := "m.proto"
  dialect := .proto2
  package := some "a.b"
  imports := []
  messages := [("M", {
    name := "M"
    fullName := "a.b.M"
    fields := [
      ⟨"by_id", 2, .repeated, .message ⟨"ByIdEntry", "a.b.M.ByIdEntry"⟩⟩,
      ⟨"g", 536870911, .optional, .group ⟨"G", "a.b.M.G"⟩⟩]
    messages := [
      ("G", .flat "G" "a.b.M.G" [⟨"m", 1, .optional, .message ⟨"M", "a.b.M"⟩⟩]),
      ("ByIdEntry", {
        name := "ByIdEntry"
        fullName := "a.b.M.ByIdEntry"
        fields := [⟨"key", 1, .optional, .scalar .int32⟩,
          ⟨"value", 2, .optional, .message ⟨"M", "a.b.M"⟩⟩]
        messages := []
        enums := [] })]
    enums := [] })]
  enums := []
  services := [("S", ⟨"S", "a.b.S",
    [("get", ⟨"get", ⟨"M", "a.b.M"⟩, ⟨"G", "a.b.M.G"⟩, false, false⟩)]⟩)]

/-- A file that uses a type of another one. -/
def usingTree : FileTree :=
  ⟨["work".toList],
    [(["work".toList, "u.proto".toList],
        .file "import\"t.proto\";message U\x7boptional t.T t=1;\x7d".toUTF8),
      (["work".toList, "t.proto".toList], .file "package t;message T\x7b\x7d".toUTF8)]⟩

/-- What the file declares. -/
def usingFile : FileDecl :=
  { FileDecl.empty "u.proto" with
    imports := ["t.proto"]
    messages := [⟨"U", [⟨"t", 1, .optional, .named "t.T"⟩], [], []⟩] }

/-- What the other file declares. -/
def usedFile : FileDecl :=
  { FileDecl.empty "t.proto" with package := some "t", messages := [⟨"T", [], [], []⟩] }

/-- The schema of the file. -/
def usingSchema : Schema where
  name := "u.proto"
  dialect := .proto2
  package := none
  imports := ["t.proto"]
  messages := [("U", .flat "U" "U" [⟨"t", 1, .optional, .message ⟨"T", "t.T"⟩⟩])]
  enums := []
  services := []

theorem load_usingTree : (⟨[]⟩ : Search).load usingTree "u.proto" = .ok usingSchema := by
  have hroot : FileDecl.ofText "u.proto" (usingTree.readText "u.proto") = .ok usingFile := by
    rw [FileTree.readText_eq_ok.2 ⟨["work".toList, "u.proto".toList], rfl, rfl⟩]
    decide +kernel
  have hused : FileDecl.ofText "t.proto" (usingTree.readText "t.proto") = .ok usedFile := by
    rw [FileTree.readText_eq_ok.2 ⟨["work".toList, "t.proto".toList], rfl, rfl⟩]
    decide +kernel
  have hfirst : (⟨[]⟩ : Search).firstDirectory? usingTree "" ⟨"t.proto", "u.proto", some ""⟩
      = some "" := rfl
  have hruns : (⟨[]⟩ : Search).Runs usingTree "" (.start usingFile "") _
      (.ok [usingFile, usedFile]) :=
    .load rfl (by decide)
      (Search.fetch_eq_ok_iff.2 ((Search.finds_onDisk_iff hfirst).2 ⟨_, hused, rfl⟩)) (.done rfl)
  rw [hruns.load_eq hroot]
  decide +kernel

/-- The schemas of that text and of that file are well formed. -/
theorem Schema.wellFormed_scoped :
    (Schema.parse "m.proto" scopedSource = .ok scopedSchema ∧ scopedSchema.WellFormed)
      ∧ (⟨[]⟩ : Search).load usingTree "u.proto" = .ok usingSchema ∧ usingSchema.WellFormed := by
  have hparse : Schema.parse "m.proto" scopedSource = .ok scopedSchema := by decide +kernel
  exact ⟨⟨hparse, (wellFormed scopedSchema).1 _ _ hparse⟩, load_usingTree,
    (wellFormed usingSchema).2 _ _ _ load_usingTree⟩

end MettaSchema
