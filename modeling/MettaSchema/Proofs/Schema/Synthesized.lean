import MettaSchema.Proofs.Schema.Definitions
import MettaSchema.Proofs.Schema.Identified
import MettaSchema.Proofs.Schema.Names

/-!
# Synthesized messages

A map field declares a message for its entries, and a group one for its body.  The message goes by
a name in the same scope as the messages and enums that are declared there, and the field refers
to that name.  So the field has a message of its own exactly if nothing else takes the name.

* `Definition.Stays` — the bodies whose messages are in a schema.
* `Message.HasMap`, `Message.HasGroup` — a field with a message of its own.
* `Definition.Agrees` — what is defined under a name gives the fields that are asked for.
* `Definition.Stays.built`, `Definition.Stays.declared` — a body that stays is built into a message
  of the schema, and all that it defines is declared.
* `Message.BuiltFrom.hasOwn_iff`, `Message.BuiltFrom.hasMap_iff`,
  `Message.BuiltFrom.hasGroup_iff` — when such a message has them.
* `Schema.parse_synthesized` — the map fields and groups of a text.
-/

namespace MettaSchema

/-! ## Bodies that stay -/

/-- The bodies of the messages that stay, under their full names: of the definitions with one name
in one scope the last, and what stays inside its body. -/
inductive Definition.Stays : String → List (String × Definition) → String → List Statement → Prop
  /-- The last definition of a name. -/
  | here {scope name : String} {ds : List (String × Definition)} {body : List Statement}
      (h : (name, .body body) ∈ Keyed.ofList ds) : Stays scope ds (qualify scope name) body
  /-- What stays inside it. -/
  | inside {scope name fullName : String} {ds : List (String × Definition)}
      {outer body : List Statement} (h : (name, .body outer) ∈ Keyed.ofList ds)
      (hinner : Stays (qualify scope name) (Statement.definitionsAll outer) fullName body) :
      Stays scope ds fullName body

/-- The message that a statement of a file defines, if it does. -/
def FileStatement.definitions : FileStatement → List (String × Definition)
  | message name body => [(name, .body body)]
  | _ => []

/-- The message has the field of a map and, for its entries, a message with a key and a value of
the given types and with nothing else. -/
def Message.HasMap (table : SymbolTable) (m : Message) (key value name literal : String) : Prop :=
  ∃ number entry, Literal.fieldNumber literal = .ok number ∧ (entry.name, entry) ∈ m.messages
    ∧ ⟨name, number, .repeated, .message ⟨entry.name, entry.fullName⟩⟩ ∈ m.fields
    ∧ (Definition.entry key value).Gives table entry.fullName entry.fields

/-- The message has the field of a group and, for its body, a message with the fields of the body
and with nothing else. -/
def Message.HasGroup (table : SymbolTable) (m : Message) (label : Label) (name literal : String)
    (body : List Statement) : Prop :=
  ∃ number inner, Literal.fieldNumber literal = .ok number ∧ (inner.name, inner) ∈ m.messages
    ∧ ⟨lowerCase name, number, label, .group ⟨inner.name, inner.fullName⟩⟩ ∈ m.fields
    ∧ (Definition.body body).Gives table inner.fullName inner.fields

/-- The last definition of a name in a scope gives its message the fields that the given one asks
for. -/
def Definition.Agrees (table : SymbolTable) (scope : String) (ds : List (String × Definition))
    (name : String) (d : Definition) : Prop :=
  ∃ last fields, (name, last) ∈ Keyed.ofList ds ∧ last.Gives table (qualify scope name) fields
    ∧ d.Gives table (qualify scope name) fields

/-! ## Messages that are built from a body -/

/-- A message is built from a body. -/
structure Message.BuiltFrom (table : SymbolTable) (fullName : String) (body : List Statement)
    (m : Message) : Prop where
  /-- It goes by the full name. -/
  called : m.fullName = fullName
  /-- It has the fields that the body gives. -/
  fields : (Definition.body body).Gives table fullName m.fields
  /-- The messages inside it are built from what the body defines. -/
  messages : List.Forall₂ (Definition.Built table fullName)
    (Keyed.ofList (Statement.definitionsAll body)) m.messages

theorem Definition.forall₂_ofList_built {table : SymbolTable} {scope : String}
    {ds : List (String × Definition)} {ms : List (String × Message)}
    (h : List.Forall₂ (Built table scope) ds ms) :
    List.Forall₂ (Built table scope) (Keyed.ofList ds) (Keyed.ofList ms) :=
  Keyed.forall₂_ofList (fun _ _ hbuilt => hbuilt.1) h

/-- A body is built into a message. -/
theorem Definition.Built.builtFrom {table : SymbolTable} {scope name : String}
    {body : List Statement} {m : String × Message}
    (h : Built table scope (name, .body body) m) :
    m.2.BuiltFrom table (qualify scope name) body := by
  obtain ⟨-, hfullName, hgives⟩ := h.gives
  obtain ⟨-, decl, ⟨inner, hinner, rfl⟩, hbuild⟩ := h
  refine ⟨hfullName, hgives, ?_⟩
  obtain ⟨ms, resolved, hms, -, hm⟩ := MessageDecl.build_eq_ok.1 hbuild
  rw [hm]
  exact forall₂_ofList_built (forall₂_built (Statement.forall₂_declare.declareAll body hinner).2 hms)

/-- A body that stays is built into a message. -/
theorem Definition.Stays.built {table : SymbolTable} {scope fullName : String}
    {ds : List (String × Definition)} {body : List Statement} (h : Stays scope ds fullName body) :
    ∀ {ms : List (String × Message)},
      List.Forall₂ (Built table scope) (Keyed.ofList ds) ms →
      ∃ m ∈ Message.withNestedAll ms, m.BuiltFrom table fullName body := by
  induction h with
  | here h =>
    intro ms hbuilt
    obtain ⟨m, hm, hbuilt⟩ := exists_mem_of_forall₂ hbuilt h
    exact ⟨m.2, Message.mem_withNestedAll.2 ⟨m, hm, Message.mem_withNested.2 (.inl rfl)⟩,
      hbuilt.builtFrom⟩
  | inside h _ ih =>
    intro ms hbuilt
    obtain ⟨outer, houter, hbuilt⟩ := exists_mem_of_forall₂ hbuilt h
    obtain ⟨m, hm, hfrom⟩ := ih hbuilt.builtFrom.messages
    obtain ⟨p, hp, hm⟩ := Message.mem_withNestedAll.1 hm
    exact ⟨m, Message.mem_withNestedAll.2
      ⟨outer, houter, Message.mem_withNested.2 (.inr ⟨p, hp, hm⟩)⟩, hfrom⟩

/-- The messages that a body that stays defines are among those that are declared. -/
theorem Definition.Stays.declared {scope fullName : String} {ds : List (String × Definition)}
    {body : List Statement} (h : Stays scope ds fullName body) :
    ∀ {decls : List MessageDecl},
      List.Forall₂ (fun d decl => d.2.Declares d.1 decl) ds decls →
      ∀ d ∈ Statement.definitionsAll body,
        (qualify fullName d.1, .message) ∈ MessageDecl.symbolsAll scope decls := by
  induction h with
  | here h =>
    intro decls hdeclares d hd
    obtain ⟨decl, hdecl, inner, hinner, rfl⟩ :=
      exists_mem_of_forall₂ hdeclares (Keyed.mem_of_mem_ofList h)
    obtain ⟨decl', hdecl', hname⟩ :=
      exists_mem_of_forall₂ (Statement.forall₂_declare.declareAll _ hinner).2 hd
    have hnamed : MessageDecl.named d.1 inner.messages = true :=
      List.any_eq_true.2 ⟨decl', hdecl', by simp [hname.name_eq]⟩
    refine MessageDecl.mem_symbolsAll.2 ⟨_, hdecl, ?_⟩
    simp [Body.toMessage, MessageDecl.symbols, MessageDecl.named_mem_symbolsAll hnamed]
  | inside h _ ih =>
    intro decls hdeclares d hd
    obtain ⟨decl, hdecl, inner, hinner, rfl⟩ :=
      exists_mem_of_forall₂ hdeclares (Keyed.mem_of_mem_ofList h)
    have hmem := ih (Statement.forall₂_declare.declareAll _ hinner).2 d hd
    refine MessageDecl.mem_symbolsAll.2 ⟨_, hdecl, ?_⟩
    simp [Body.toMessage, MessageDecl.symbols, hmem]

/-! ## Fields with a message of their own -/

theorem SymbolTable.find?_ne_none {table : SymbolTable} {fullName : String} {kind : SymbolKind}
    (h : (fullName, kind) ∈ table.entries) : ∃ found, table.find? fullName = some found := by
  apply Option.ne_none_iff_exists'.1
  intro hnone
  exact absurd (List.lookup_eq_none_iff.1 hnone _ h) (by simp)

theorem afterLastDot_qualify (scope : String) {name : String} (h : Identifier name) :
    afterLastDot (qualify scope name) = name := by
  unfold qualify
  split
  · exact Identifier.Path.afterLastDot_one h
  · exact Identifier.Path.afterLastDot_dot scope h

/-- A name that is declared in the scope where it stands refers to what is declared there. -/
theorem TypeExpr.resolve_innermost {table : SymbolTable} {scope name : String} {kind : SymbolKind}
    (hname : Identifier name) (h : table.find? (qualify scope name) = some kind) :
    (TypeExpr.named name).resolve table scope = .ok (match kind with
      | .message => .message ⟨name, qualify scope name⟩
      | .enum => .enum ⟨name, qualify scope name⟩) := by
  have hinner : table.accepted? anySymbol (qualify scope name) = some (qualify scope name, kind) := by
    rw [SymbolTable.accepted?, h]
    rfl
  have hresolve : table.resolve anySymbol scope name = some (qualify scope name, kind) := by
    unfold SymbolTable.resolve
    split
    · rename_i hdot
      exact absurd (hdot ▸ List.mem_cons_self) hname.dot_not_mem
    · rw [enclosing, List.findSome?_cons, hinner]
  rw [TypeExpr.resolve, hresolve]
  cases kind with
  | message => simp only [TypeRef.ofFullName, afterLastDot_qualify scope hname]
  | enum => simp only [TypeRef.ofFullName, afterLastDot_qualify scope hname]

theorem Field.eq_of_number {fields : List Field} (h : fields.Pairwise (·.number < ·.number))
    {f g : Field} (hf : f ∈ fields) (hg : g ∈ fields) (hnumber : f.number = g.number) : f = g := by
  have hnodup : (fields.map (·.number)).Nodup := List.pairwise_map.2 (h.imp Nat.ne_of_lt)
  exact List.inj_on_of_nodup_map hnodup hf hg hnumber

namespace Message.BuiltFrom

variable {table : SymbolTable} {fullName : String} {body : List Statement} {m : Message}

/-- A message that is built from a body has for each name that the body defines one message, which
has the fields that the last definition gives. -/
theorem agrees_iff (hfrom : m.BuiltFrom table fullName body) {name : String} {d : Definition} :
    Definition.Agrees table fullName (Statement.definitionsAll body) name d ↔
      ∃ inner, (inner.name, inner) ∈ m.messages ∧ inner.name = name
        ∧ inner.fullName = qualify fullName name ∧ d.Gives table inner.fullName inner.fields := by
  constructor
  · rintro ⟨last, fields, hlast, hfields, hd⟩
    obtain ⟨inner, hinner, hbuilt⟩ := exists_mem_of_forall₂ hfrom.messages hlast
    obtain ⟨hname, hfullName, hgives⟩ := hbuilt.gives
    have hkey : inner = (inner.2.name, inner.2) := Prod.ext (hname.trans hbuilt.1).symm rfl
    refine ⟨inner.2, hkey ▸ hinner, hname, hfullName, ?_⟩
    rw [hfullName, hgives.unique hfields]
    exact hd
  · rintro ⟨inner, hinner, rfl, hfullName, hd⟩
    obtain ⟨⟨name, last⟩, hlast, hbuilt⟩ := exists_mem_of_forall₂ hfrom.messages.flip hinner
    obtain ⟨hname, hfullName', hgives⟩ := Definition.Built.gives hbuilt
    obtain rfl : name = inner.name := hname.symm
    rw [hfullName] at hd
    exact ⟨last, inner.fields, hlast, hgives, hd⟩

/-- The last definition of a name agrees with itself, for a message is built from it. -/
theorem agrees_of_last (hfrom : m.BuiltFrom table fullName body) {name : String} {d : Definition}
    (h : (name, d) ∈ Keyed.ofList (Statement.definitionsAll body)) :
    Definition.Agrees table fullName (Statement.definitionsAll body) name d := by
  obtain ⟨inner, -, hbuilt⟩ := exists_mem_of_forall₂ hfrom.messages h
  obtain ⟨-, -, hgives⟩ := hbuilt.gives
  exact ⟨d, inner.2.fields, h, hgives, hgives⟩

/-- What a statement asks for is a field of the message. -/
theorem exists_field (hfrom : m.BuiltFrom table fullName body) {s : Statement}
    (hs : s ∈ Statement.fieldsAll body) : ∃ field ∈ m.fields, s.Gives table fullName field := by
  obtain ⟨-, given, hgiven, hperm⟩ := hfrom.fields
  obtain ⟨field, hfield, hgives⟩ := exists_mem_of_forall₂ hgiven hs
  exact ⟨field, hperm.mem_iff.2 hfield, hgives⟩

/-- A field that refers to the message of some name has that message for its own exactly if the
last definition of the name gives the fields that are asked for. -/
theorem hasOwn_iff (hfrom : m.BuiltFrom table fullName body) {make : TypeRef → FieldType}
    (hmake : Function.Injective make) {field literal name : String} {label : Label} {number : Nat}
    {d : Definition} (hnumber : Literal.fieldNumber literal = .ok number)
    (hfield : ⟨field, number, label, make ⟨name, qualify fullName name⟩⟩ ∈ m.fields) :
    (∃ number inner, Literal.fieldNumber literal = .ok number ∧ (inner.name, inner) ∈ m.messages
        ∧ ⟨field, number, label, make ⟨inner.name, inner.fullName⟩⟩ ∈ m.fields
        ∧ d.Gives table inner.fullName inner.fields) ↔
      Definition.Agrees table fullName (Statement.definitionsAll body) name d := by
  rw [hfrom.agrees_iff]
  constructor
  · rintro ⟨number', inner, hnumber', hinner, hmem, hgives⟩
    rw [hnumber] at hnumber'
    cases hnumber'
    -- No other field has the number, so both refer to the same message.
    have heq := Field.eq_of_number hfrom.fields.1 hmem hfield rfl
    simp only [Field.mk.injEq, hmake.eq_iff, TypeRef.mk.injEq, true_and] at heq
    exact ⟨inner, hinner, heq.1, heq.2, hgives⟩
  · rintro ⟨inner, hinner, rfl, hinnerFull, hgives⟩
    exact ⟨number, inner, hnumber, hinner, hinnerFull ▸ hfield, hgives⟩

/-- A map field has a message of its own exactly if no enum takes the name of the message, nor a
definition with other fields. -/
theorem hasMap_iff (hfrom : m.BuiltFrom table fullName body) {key value name literal : String}
    (hs : .map key value name literal ∈ Statement.fieldsAll body)
    (hname : Identifier (mapEntryName name))
    (hdeclared : (qualify fullName (mapEntryName name), .message) ∈ table.entries) :
    m.HasMap table key value name literal ↔
      table.find? (qualify fullName (mapEntryName name)) = some .message
        ∧ Definition.Agrees table fullName (Statement.definitionsAll body) (mapEntryName name)
            (.entry key value) := by
  obtain ⟨kind, hkind⟩ := SymbolTable.find?_ne_none hdeclared
  obtain ⟨field, hfield, _, ⟨number, hnumber, rfl⟩, hresolve⟩ := hfrom.exists_field hs
  obtain ⟨type, htype, rfl⟩ := FieldDecl.resolve_eq_ok.1 hresolve
  rw [TypeExpr.resolve_innermost hname hkind] at htype
  cases htype
  rw [hkind]
  cases kind with
  | message =>
    have hmessage : Function.Injective FieldType.message := fun _ _ => FieldType.message.inj
    exact (hfrom.hasOwn_iff hmessage hnumber hfield).trans (and_iff_right rfl).symm
  | enum =>
    refine iff_of_false ?_ (by simp)
    rintro ⟨number', entry, hnumber', -, hmem, -⟩
    rw [hnumber] at hnumber'
    cases hnumber'
    have heq := Field.eq_of_number hfrom.fields.1 hmem hfield rfl
    simp at heq

/-- A group has a message of its own exactly if no definition with other fields takes the name of
the message. -/
theorem hasGroup_iff (hfrom : m.BuiltFrom table fullName body) {label : Label}
    {name literal : String} {inner : List Statement}
    (hs : .group label name literal inner ∈ Statement.fieldsAll body) (hname : Identifier name) :
    m.HasGroup table label name literal inner ↔
      Definition.Agrees table fullName (Statement.definitionsAll body) name (.body inner) := by
  obtain ⟨field, hfield, _, ⟨number, hnumber, rfl⟩, hresolve⟩ := hfrom.exists_field hs
  obtain ⟨type, htype, rfl⟩ := FieldDecl.resolve_eq_ok.1 hresolve
  simp only [TypeExpr.resolve, TypeRef.ofFullName, afterLastDot_qualify _ hname] at htype
  cases htype
  exact hfrom.hasOwn_iff (fun _ _ => FieldType.group.inj) hnumber hfield

end Message.BuiltFrom

/-! ## Names in a body -/

/-- The names that a definition introduces inside its message. -/
def Definition.names : Definition → List String
  | body statements => Statement.namesAll statements
  | entry .. => []

namespace Statement

mutual

/-- A statement that gives a field defines and names nothing besides what its choice does. -/
theorem of_mem_fields {s' : Statement} : ∀ s : Statement, s' ∈ s.fields →
    (∀ d ∈ s'.definitions, d ∈ s.definitions) ∧ ∀ n ∈ s'.names, n ∈ s.names
  | .oneof members, h => of_mem_fieldsAll members h
  | .message .., h | .enum .., h => nomatch h
  | .field .., h | .map .., h | .group .., h => by
    obtain rfl := List.mem_singleton.1 h
    exact ⟨fun _ => id, fun _ => id⟩

theorem of_mem_fieldsAll {s' : Statement} : ∀ ss : List Statement, s' ∈ fieldsAll ss →
    (∀ d ∈ s'.definitions, d ∈ definitionsAll ss) ∧ ∀ n ∈ s'.names, n ∈ namesAll ss
  | [], h => nomatch h
  | s :: rest, h => by
    simp only [definitionsAll, namesAll, List.mem_append]
    rcases List.mem_append.1 h with h | h
    · obtain ⟨hdefinitions, hnames⟩ := of_mem_fields s h
      exact ⟨fun d hd => .inl (hdefinitions d hd), fun n hn => .inl (hnames n hn)⟩
    · obtain ⟨hdefinitions, hnames⟩ := of_mem_fieldsAll rest h
      exact ⟨fun d hd => .inr (hdefinitions d hd), fun n hn => .inr (hnames n hn)⟩

end

mutual

/-- What is named inside a message is named where the message is defined. -/
theorem names_definitions : ∀ (s : Statement) {d : String × Definition}, d ∈ s.definitions →
    ∀ n ∈ d.2.names, n ∈ s.names
  | .oneof members, d, h => names_definitionsAll members h
  | .field .., d, h | .enum .., d, h => nomatch h
  | .map .., d, h => by
    obtain rfl := List.mem_singleton.1 h
    nofun
  | .group .., d, h | .message .., d, h => by
    obtain rfl := List.mem_singleton.1 h
    exact fun n hn => List.mem_cons_of_mem _ hn

theorem names_definitionsAll : ∀ (ss : List Statement) {d : String × Definition},
    d ∈ definitionsAll ss → ∀ n ∈ d.2.names, n ∈ namesAll ss
  | [], d, h => nomatch h
  | s :: rest, d, h => by
    intro n hn
    rcases List.mem_append.1 h with h | h
    · exact List.mem_append_left _ (names_definitions s h n hn)
    · exact List.mem_append_right _ (names_definitionsAll rest h n hn)

end

end Statement

/-- What is named in a body that stays is named inside one of the messages at the top. -/
theorem Definition.Stays.names {scope fullName : String} {ds : List (String × Definition)}
    {body : List Statement} (h : Stays scope ds fullName body) :
    ∀ n ∈ Statement.namesAll body, ∃ d ∈ ds, n ∈ d.2.names := by
  induction h with
  | here h => exact fun n hn => ⟨_, Keyed.mem_of_mem_ofList h, hn⟩
  | inside h _ ih =>
    intro n hn
    obtain ⟨d, hd, hn⟩ := ih n hn
    exact ⟨_, Keyed.mem_of_mem_ofList h, Statement.names_definitionsAll _ hd n hn⟩

/-! ## Texts -/

/-- A statement of a file declares the message that it defines. -/
theorem FileDecl.forall₂_add {file file' : FileDecl} {s : FileStatement}
    (h : file.add s = .ok file') :
    ∃ more, file'.messages = file.messages ++ more
      ∧ List.Forall₂ (fun d decl => d.2.Declares d.1 decl) s.definitions more := by
  cases added_of_add h with
  | message hinner => exact ⟨_, rfl, .cons ⟨_, hinner, rfl⟩ .nil⟩
  | _ => exact ⟨[], (List.append_nil _).symm, .nil⟩

/-- The statements of a file declare the messages that they define. -/
theorem FileDecl.forall₂_foldlM (statements : List FileStatement) :
    ∀ {file file' : FileDecl}, statements.foldlM add file = .ok file' →
      ∃ more, file'.messages = file.messages ++ more
        ∧ List.Forall₂ (fun d decl => d.2.Declares d.1 decl)
            (statements.flatMap FileStatement.definitions) more := by
  induction statements with
  | nil =>
    intro file file' h
    cases h
    exact ⟨[], by simp, .nil⟩
  | cons s statements ih =>
    intro file file' h
    rw [List.foldlM_cons, bind_eq_ok] at h
    obtain ⟨added, hadded, h⟩ := h
    obtain ⟨first, hfirst, hdeclares⟩ := forall₂_add hadded
    obtain ⟨more, hmore, hdeclares'⟩ := ih h
    refine ⟨first ++ more, ?_, List.rel_append hdeclares hdeclares'⟩
    rw [hmore, hfirst, List.append_assoc]

/-- The types that a file can use: its own and those of the bundled files that it imports. -/
def FileDecl.table (file : FileDecl) : SymbolTable :=
  .ofFiles (file :: file.imports.filterMap Bundled.file?)

/-- In the schema of a text there is for every body that stays a message with the fields that the
body gives.  A map field in the body has a message of its own there exactly if no enum takes the
name of the message, nor a definition that gives other fields; a group exactly if no such
definition does.  The last definition of a name is never one that gives other fields. -/
theorem Schema.parse_synthesized {name source : String} {schema : Schema}
    (h : Schema.parse name source = .ok schema) :
    ∃ statements root, FileStatement.ofText? source = some statements
      ∧ FileDecl.parse name source = .ok root
      ∧ ∀ fullName body,
        Definition.Stays root.scope (statements.flatMap FileStatement.definitions) fullName body →
        ∃ m ∈ schema.allMessages, m.fullName = fullName
          ∧ (Definition.body body).Gives root.table fullName m.fields
          ∧ (∀ key value field literal,
              .map key value field literal ∈ Statement.fieldsAll body →
              (m.HasMap root.table key value field literal ↔
                root.table.find? (qualify fullName (mapEntryName field)) = some .message
                  ∧ Definition.Agrees root.table fullName (Statement.definitionsAll body)
                      (mapEntryName field) (.entry key value)))
          ∧ (∀ label group literal inner,
              .group label group literal inner ∈ Statement.fieldsAll body →
              (m.HasGroup root.table label group literal inner ↔
                Definition.Agrees root.table fullName (Statement.definitionsAll body) group
                  (.body inner)))
          ∧ ∀ name d, (name, d) ∈ Keyed.ofList (Statement.definitionsAll body) →
              Definition.Agrees root.table fullName (Statement.definitionsAll body) name d := by
  rw [Schema.parse, bind_eq_ok] at h
  obtain ⟨root, hroot, h⟩ := h
  obtain ⟨statements, hstatements, hfile⟩ := FileDecl.parse_eq_ok.1 hroot
  refine ⟨statements, root, hstatements, hroot, fun fullName body hstays => ?_⟩
  obtain ⟨_, hmessages, hdeclares⟩ := FileDecl.forall₂_foldlM statements hfile
  rw [FileDecl.empty, List.nil_append] at hmessages
  rw [← hmessages] at hdeclares
  have hidentified : ∀ n ∈ Statement.namesAll body, Identifier n := by
    intro n hn
    obtain ⟨d, hd, hn⟩ := hstays.names n hn
    obtain ⟨s, hs, hd⟩ := List.mem_flatMap.1 hd
    have hnames := FileStatement.identified_ofText? hstatements s hs
    cases s with
    | message name body =>
      obtain rfl := List.mem_singleton.1 hd
      exact hnames n (List.mem_cons_of_mem _ hn)
    | _ => cases hd
  have hsymbols : ∀ d ∈ Statement.definitionsAll body,
      (qualify fullName d.1, .message) ∈ root.table.entries := fun d hd =>
    SymbolTable.mem_ofFiles.2 ⟨root, by simp,
      List.mem_append_left _ (hstays.declared hdeclares d hd)⟩
  simp only [FileDecl.build, bind_eq_ok, pure_eq_ok] at h
  obtain ⟨ms, hms, services, -, rfl⟩ := h
  obtain ⟨m, hm, hfrom⟩ := hstays.built
    (Definition.forall₂_ofList_built (Definition.forall₂_built hdeclares hms))
  refine ⟨m, hm, hfrom.called, hfrom.fields, ?_, ?_, fun _ _ => hfrom.agrees_of_last⟩
  · intro key value field literal hs
    obtain ⟨hdefinitions, hnames⟩ := Statement.of_mem_fieldsAll body hs
    have hfield := hidentified field (hnames field (by simp [Statement.names]))
    have hentry := hsymbols (mapEntryName field, .entry key value)
      (hdefinitions _ (by simp [Statement.definitions]))
    exact hfrom.hasMap_iff hs hfield.mapEntryName hentry
  · intro label group literal inner hs
    obtain ⟨-, hnames⟩ := Statement.of_mem_fieldsAll body hs
    exact hfrom.hasGroup_iff hs (hidentified group (hnames group (by simp [Statement.names])))

/-- A text with a map field, and an enum with the name of its message. -/
def Schema.takenSource : String :=
  "message M { map<string, int32> a = 1; enum AEntry { Z = 0; } }"

/-- The schema of that text: the field refers to the enum. -/
def Schema.takenSchema : Schema where
  name := "a.proto"
  dialect := .proto2
  package := none
  imports := []
  messages := [("M", ⟨"M", "M", [⟨"a", 1, .repeated, .enum ⟨"AEntry", "M.AEntry"⟩⟩],
    [("AEntry", .flat "AEntry" "M.AEntry" [⟨"key", 1, .optional, .scalar .string⟩,
      ⟨"value", 2, .optional, .scalar .int32⟩])],
    [("AEntry", ⟨"AEntry", "M.AEntry", [("Z", 0)]⟩)], by simp⟩)]
  enums := []
  services := []

/-- An enum takes the name of the message of a map field. -/
theorem Schema.parse_synthesized_taken :
    Schema.parse "a.proto" takenSource = .ok takenSchema ∧
      ∃ root, FileDecl.parse "a.proto" takenSource = .ok root
        ∧ ∃ m ∈ takenSchema.allMessages, m.fullName = "M"
          ∧ ¬m.HasMap root.table "string" "int32" "a" "1" := by
  have hparse : Schema.parse "a.proto" takenSource = .ok takenSchema := by decide +kernel
  have hfile : FileDecl.parse "a.proto" takenSource = .ok
      { FileDecl.empty "a.proto" with
        messages := [⟨"M", [⟨"a", 1, .repeated, .named "AEntry"⟩],
          [.mapEntry "AEntry" (.scalar .string) (.scalar .int32)],
          [⟨"AEntry", [("Z", 0)]⟩]⟩] } := by decide +kernel
  have hstatements : FileStatement.ofText? takenSource = some
      [.message "M" [.map "string" "int32" "a" "1", .enum "AEntry" [("Z", "0")]]] := by
    decide +kernel
  obtain ⟨statements, root, htext, hroot, hsynthesized⟩ := Schema.parse_synthesized hparse
  rw [hstatements] at htext
  cases htext
  rw [hfile] at hroot
  cases hroot
  obtain ⟨m, hm, hfullName, -, hmap, -, -⟩ := hsynthesized "M"
    [.map "string" "int32" "a" "1", .enum "AEntry" [("Z", "0")]] (.here List.mem_cons_self)
  refine ⟨hparse, _, hfile, m, hm, hfullName, fun hhas => ?_⟩
  have htaken := (hmap "string" "int32" "a" "1" List.mem_cons_self).1 hhas
  exact absurd htaken.1 (by decide)

end MettaSchema
