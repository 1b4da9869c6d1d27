import MettaSchema.Declaration
import MettaSchema.Proofs.Success
import MettaSchema.Schema.Build

/-!
# The stages of reading

A text is read as trees, the trees as statements, the statements as declarations, and from these a
schema is built.  What can come out of each stage is said here once.

* `Statement.ofTree?_eq_some`, `FileStatement.ofTree?_eq_some` — all that a rule can stand for in
  a message body and in a file.
* `Statement.enumValue?_cases`, `MethodDecl.ofTree?_cases` — so too inside enums and services.
* `Statement.DeclareCases` — what holds of the declarations of each kind of statement holds of a
  whole message body.
* `FileDecl.Added`, `FileDecl.added_of_add` — all that a statement of a file can add to it.
* `MessageDecl.build_eq_ok`, `ServiceDecl.build_eq_ok`, `FileDecl.build_eq_ok` — when a message, a
  service and a schema are built.
-/

namespace MettaSchema

/-! ## Statements of a message body -/

namespace Statement

/-- The statements of a rule in a message body, with the parts that they are made from. -/
inductive OfNode (parts : List Tree) : Rule → List Statement → Prop
  | field {type name number : String} (htype : Tree.token? .typeName parts = some type)
      (hname : Tree.token? .ident parts = some name)
      (hnumber : Tree.token? .intLit parts = some number) :
      OfNode parts .field [.field (Label.ofParts parts) type name number]
  | map {key value name number : String} (htypes : Tree.tokens .typeName parts = [key, value])
      (hname : Tree.token? .ident parts = some name)
      (hnumber : Tree.token? .intLit parts = some number) :
      OfNode parts .mapField [.map key value name number]
  | group {name number : String} {body : List Statement}
      (hname : Tree.token? .ident parts = some name)
      (hnumber : Tree.token? .intLit parts = some number) (hbody : ofTrees? parts = some body) :
      OfNode parts .groupField [.group (Label.ofParts parts) name number body]
  | oneof {members : List Statement} (hmembers : ofTrees? parts = some members) :
      OfNode parts .oneofDef [.oneof members]
  | message {name : String} {body : List Statement} (hname : Tree.token? .ident parts = some name)
      (hbody : ofTrees? parts = some body) : OfNode parts .messageDef [.message name body]
  | enum {name : String} {values : List (String × String)}
      (hvalues : enumParts? parts = some (name, values)) :
      OfNode parts .enumDef [.enum name values]
  /-- The braces around a body have no statement of their own. -/
  | body {ss : List Statement} (hbody : ofTrees? parts = some ss) : OfNode parts .messageBody ss
  /-- Other rules declare nothing. -/
  | other {rule : Rule} (h : rule ∉ [Rule.field, .mapField, .groupField, .oneofDef, .messageDef,
      .enumDef, .messageBody]) : OfNode parts rule []

/-- A rule in a message body stands for nothing else. -/
theorem OfNode.of_ofTree? {rule : Rule} {parts : List Tree} {ss : List Statement}
    (h : ofTree? (.node rule parts) = some ss) : OfNode parts rule ss := by
  cases rule with
  | field =>
    simp only [ofTree?, field?, Option.bind_eq_bind, Option.bind_eq_some_iff, Option.pure_def,
      Option.some.injEq] at h
    obtain ⟨_, ⟨type, htype, name, hname, number, hnumber, rfl⟩, rfl⟩ := h
    exact .field htype hname hnumber
  | mapField =>
    simp only [ofTree?, Option.bind_eq_bind, Option.bind_eq_some_iff, Option.pure_def,
      Option.some.injEq] at h
    obtain ⟨statement, hstatement, rfl⟩ := h
    unfold map? at hstatement
    split at hstatement
    · rename_i key value htypes
      simp only [Option.bind_eq_bind, Option.bind_eq_some_iff, Option.pure_def,
        Option.some.injEq] at hstatement
      obtain ⟨name, hname, number, hnumber, rfl⟩ := hstatement
      exact .map htypes hname hnumber
    · cases hstatement
  | groupField =>
    simp only [ofTree?, Option.bind_eq_bind, Option.bind_eq_some_iff, Option.pure_def,
      Option.some.injEq] at h
    obtain ⟨name, hname, number, hnumber, body, hbody, rfl⟩ := h
    exact .group hname hnumber hbody
  | oneofDef =>
    simp only [ofTree?, Option.bind_eq_bind, Option.bind_eq_some_iff, Option.pure_def,
      Option.some.injEq] at h
    obtain ⟨members, hmembers, rfl⟩ := h
    exact .oneof hmembers
  | messageDef =>
    simp only [ofTree?, Option.bind_eq_bind, Option.bind_eq_some_iff, Option.pure_def,
      Option.some.injEq] at h
    obtain ⟨name, hname, body, hbody, rfl⟩ := h
    exact .message hname hbody
  | enumDef =>
    simp only [ofTree?, Option.bind_eq_bind, Option.bind_eq_some_iff, Option.pure_def,
      Option.some.injEq, Prod.exists] at h
    obtain ⟨name, values, hvalues, rfl⟩ := h
    exact .enum hvalues
  | messageBody =>
    rw [ofTree?] at h
    exact .body h
  | _ =>
    cases h
    exact .other (by decide)

theorem ofTree?_eq_some {rule : Rule} {parts : List Tree} {ss : List Statement} :
    ofTree? (.node rule parts) = some ss ↔ OfNode parts rule ss := by
  refine ⟨.of_ofTree?, fun h => ?_⟩
  cases h with
  | field htype hname hnumber => simp [ofTree?, field?, htype, hname, hnumber]
  | map htypes hname hnumber => simp [ofTree?, map?, htypes, hname, hnumber]
  | group hname hnumber hbody => simp [ofTree?, hname, hnumber, hbody]
  | oneof hmembers => simp [ofTree?, hmembers]
  | message hname hbody => simp [ofTree?, hname, hbody]
  | enum hvalues => simp [ofTree?, hvalues]
  | body hbody => rw [ofTree?, hbody]
  | other h => cases rule <;> first | rfl | exact absurd (by decide) h

/-- A tree stands for values of an enum only if it is one, and then for that one. -/
theorem enumValue?_cases {t : Tree} {values : List (String × String)}
    (h : enumValue? t = some values) :
    (∃ parts name number, t = .node .enumValue parts ∧ Tree.token? .ident parts = some name
        ∧ Tree.token? .intLit parts = some number ∧ values = [(name, number)])
      ∨ (∀ parts, t ≠ .node .enumValue parts) ∧ values = [] := by
  unfold enumValue? at h
  split at h
  · simp only [Option.bind_eq_bind, Option.bind_eq_some_iff, Option.pure_def,
      Option.some.injEq] at h
    obtain ⟨name, hname, number, hnumber, rfl⟩ := h
    exact .inl ⟨_, name, number, rfl, hname, hnumber, rfl⟩
  · rename_i hother
    cases h
    exact .inr ⟨hother, rfl⟩

end Statement

/-! ## Services -/

/-- A tree stands for methods only if it is one, and then for that one. -/
theorem MethodDecl.ofTree?_cases {t : Tree} {methods : List MethodDecl}
    (h : ofTree? t = some methods) :
    (∃ parts method, t = .node .rpc parts ∧ Tree.token? .ident parts = some method.name
        ∧ (Tree.parts? .rpcInput parts).bind type? = some (method.input, method.clientStreaming)
        ∧ (Tree.parts? .rpcOutput parts).bind type? = some (method.output, method.serverStreaming)
        ∧ methods = [method])
      ∨ (∀ parts, t ≠ .node .rpc parts) ∧ methods = [] := by
  unfold ofTree? at h
  split at h
  · simp only [Option.bind_eq_bind, Option.bind_eq_some_iff, Option.pure_def,
      Option.some.injEq] at h
    obtain ⟨name, hname, input, hinput, takes, htakes, output, houtput, gives, hgives, rfl⟩ := h
    refine .inl ⟨_, _, rfl, hname, ?_, ?_, rfl⟩
    · rw [hinput, Option.bind_some, htakes]
    · rw [houtput, Option.bind_some, hgives]
  · rename_i hother
    cases h
    exact .inr ⟨hother, rfl⟩

/-! ## Statements of a file -/

/-- The statements of a rule in a file, with the parts that they are made from. -/
inductive FileStatement.OfNode (parts : List Tree) : Rule → List FileStatement → Prop
  | dialect {literal : String} (hliteral : Tree.token? .strLit parts = some literal) :
      OfNode parts .syntaxLine [.dialect literal]
  | edition {literal : String} (hliteral : Tree.token? .strLit parts = some literal) :
      OfNode parts .editionLine [.edition literal]
  | imports {literal : String} (hliteral : Tree.token? .strLit parts = some literal) :
      OfNode parts .importLine [.imports literal]
  | package {name : String} (hname : Tree.token? .fullIdent parts = some name) :
      OfNode parts .packageLine [.package name]
  | message {name : String} {body : List Statement} (hname : Tree.token? .ident parts = some name)
      (hbody : Statement.ofTrees? parts = some body) :
      OfNode parts .messageDef [.message name body]
  | enum {name : String} {values : List (String × String)}
      (hvalues : Statement.enumParts? parts = some (name, values)) :
      OfNode parts .enumDef [.enum name values]
  | service {decl : ServiceDecl} (hservice : ServiceDecl.ofParts? parts = some decl) :
      OfNode parts .serviceDef [.service decl]
  /-- Other rules declare nothing. -/
  | other {rule : Rule} (h : rule ∉ [Rule.syntaxLine, .editionLine, .importLine, .packageLine,
      .messageDef, .enumDef, .serviceDef]) : OfNode parts rule []

/-- A rule in a file stands for nothing else. -/
theorem FileStatement.OfNode.of_ofTree? {rule : Rule} {parts : List Tree} {ss : List FileStatement}
    (h : ofTree? (.node rule parts) = some ss) : OfNode parts rule ss := by
  cases rule with
  | syntaxLine | editionLine | importLine | packageLine | serviceDef =>
    simp only [ofTree?, Option.bind_eq_bind, Option.bind_eq_some_iff, Option.pure_def,
      Option.some.injEq] at h
    obtain ⟨_, hpart, rfl⟩ := h
    constructor
    exact hpart
  | messageDef =>
    simp only [ofTree?, Option.bind_eq_bind, Option.bind_eq_some_iff, Option.pure_def,
      Option.some.injEq] at h
    obtain ⟨name, hname, body, hbody, rfl⟩ := h
    exact .message hname hbody
  | enumDef =>
    simp only [ofTree?, Option.bind_eq_bind, Option.bind_eq_some_iff, Option.pure_def,
      Option.some.injEq, Prod.exists] at h
    obtain ⟨name, values, hvalues, rfl⟩ := h
    exact .enum hvalues
  | _ =>
    cases h
    exact .other (by decide)

theorem FileStatement.ofTree?_eq_some {rule : Rule} {parts : List Tree}
    {ss : List FileStatement} : ofTree? (.node rule parts) = some ss ↔ OfNode parts rule ss := by
  refine ⟨.of_ofTree?, fun h => ?_⟩
  cases h with
  | dialect h | edition h | imports h | package h | enum h | service h => simp [ofTree?, h]
  | message hname hbody => simp [ofTree?, hname, hbody]
  | other h => cases rule <;> first | rfl | exact absurd (by decide) h

/-! ## Declarations of a message body -/

theorem Body.append_eq (a b : Body) :
    a ++ b = ⟨a.fields ++ b.fields, a.messages ++ b.messages, a.enums ++ b.enums⟩ := rfl

theorem EnumDecl.keys_values? {values : List (String × String)} :
    ∀ {numbered : List (String × Int)}, values? values = .ok numbered →
      numbered.map (·.1) = values.map (·.1) := by
  induction values with
  | nil =>
    intro numbered h
    cases h
    rfl
  | cons value values ih =>
    intro numbered h
    simp only [values?, bind_eq_ok, pure_eq_ok] at h
    obtain ⟨number, -, more, hmore, rfl⟩ := h
    rw [List.map_cons, ih hmore, List.map_cons]

/-- An enum keeps its name and the names of its values. -/
theorem EnumDecl.keys_ofStatement {name : String} {values : List (String × String)}
    {decl : EnumDecl} (h : ofStatement name values = .ok decl) :
    decl.name = name ∧ decl.values.map (·.1) = values.map (·.1) := by
  simp only [ofStatement, bind_eq_ok, pure_eq_ok] at h
  obtain ⟨numbered, hnumbered, rfl⟩ := h
  exact ⟨rfl, keys_values? hnumbered⟩

/-- Properties of what statements declare, one and one after another: what has to be shown for each
kind of statement. -/
structure Statement.DeclareCases (P : Statement → Body → Prop) (Q : List Statement → Body → Prop) :
    Prop where
  field {number : Nat} {label : Label} {type name literal : String}
    (hnumber : Literal.fieldNumber literal = .ok number) :
    P (.field label type name literal) ⟨[⟨name, number, label, .ofName type⟩], [], []⟩
  map {number : Nat} {key value name literal : String}
    (hnumber : Literal.fieldNumber literal = .ok number) :
    P (.map key value name literal)
      ⟨[⟨name, number, .repeated, .named (mapEntryName name)⟩],
        [.mapEntry (mapEntryName name) (.ofName key) (.ofName value)], []⟩
  group {number : Nat} {label : Label} {name literal : String} {inner : List Statement}
    {body : Body} (hnumber : Literal.fieldNumber literal = .ok number)
    (hbody : declareAll inner = .ok body) (ih : Q inner body) :
    P (.group label name literal inner)
      ⟨[⟨lowerCase name, number, label, .group name⟩], [body.toMessage name], []⟩
  oneof {members : List Statement} {body : Body} (ih : Q members body) : P (.oneof members) body
  message {name : String} {inner : List Statement} {body : Body}
    (hbody : declareAll inner = .ok body) (ih : Q inner body) :
    P (.message name inner) ⟨[], [body.toMessage name], []⟩
  enum {name : String} {values : List (String × String)} {decl : EnumDecl}
    (hdecl : EnumDecl.ofStatement name values = .ok decl) : P (.enum name values) ⟨[], [], [decl]⟩
  nil : Q [] .empty
  cons {s : Statement} {rest : List Statement} {first more : Body} (hfirst : P s first)
    (hrest : Q rest more) : Q (s :: rest) (first ++ more)

namespace Statement.DeclareCases

variable {P : Statement → Body → Prop} {Q : List Statement → Body → Prop}

mutual

/-- What holds of each kind of statement holds of all statements. -/
theorem declare (h : DeclareCases P Q) :
    ∀ (s : Statement) {body : Body}, s.declare = .ok body → P s body
  | .field _ _ _ _, body, hs => by
    simp only [Statement.declare, bind_eq_ok, pure_eq_ok] at hs
    obtain ⟨number, hnumber, rfl⟩ := hs
    exact h.field hnumber
  | .map _ _ _ _, body, hs => by
    simp only [Statement.declare, bind_eq_ok, pure_eq_ok] at hs
    obtain ⟨number, hnumber, rfl⟩ := hs
    exact h.map hnumber
  | .group _ _ _ inner, body, hs => by
    simp only [Statement.declare, bind_eq_ok, pure_eq_ok] at hs
    obtain ⟨number, hnumber, b, hb, rfl⟩ := hs
    exact h.group hnumber hb (h.declareAll inner hb)
  | .oneof members, body, hs => by
    rw [Statement.declare] at hs
    exact h.oneof (h.declareAll members hs)
  | .message _ inner, body, hs => by
    simp only [Statement.declare, bind_eq_ok, pure_eq_ok] at hs
    obtain ⟨b, hb, rfl⟩ := hs
    exact h.message hb (h.declareAll inner hb)
  | .enum _ _, body, hs => by
    simp only [Statement.declare, bind_eq_ok, pure_eq_ok] at hs
    obtain ⟨decl, hdecl, rfl⟩ := hs
    exact h.enum hdecl

/-- So it does of statements one after another. -/
theorem declareAll (h : DeclareCases P Q) :
    ∀ (ss : List Statement) {body : Body}, Statement.declareAll ss = .ok body → Q ss body
  | [], body, hss => by
    cases hss
    exact h.nil
  | s :: rest, body, hss => by
    simp only [Statement.declareAll, bind_eq_ok, pure_eq_ok] at hss
    obtain ⟨first, hfirst, more, hmore, rfl⟩ := hss
    exact h.cons (h.declare s hfirst) (h.declareAll rest hmore)

end

end Statement.DeclareCases

/-! ## Declarations of a file -/

/-- The file behind a statement that is added to it. -/
inductive FileDecl.Added (file : FileDecl) : FileStatement → FileDecl → Prop
  | dialect {literal : String} {dialect : Dialect}
      (h : Dialect.ofName? (Literal.unquote literal) = some dialect) :
      Added file (.dialect literal) { file with dialect }
  | imports (literal : String) :
      Added file (.imports literal)
        { file with imports := file.imports ++ [Literal.unquote literal] }
  | package (name : String) : Added file (.package name) { file with package := some name }
  | message {name : String} {statements : List Statement} {body : Body}
      (h : Statement.declareAll statements = .ok body) :
      Added file (.message name statements)
        { file with messages := file.messages ++ [body.toMessage name] }
  | enum {name : String} {values : List (String × String)} {decl : EnumDecl}
      (h : EnumDecl.ofStatement name values = .ok decl) :
      Added file (.enum name values) { file with enums := file.enums ++ [decl] }
  | service (decl : ServiceDecl) :
      Added file (.service decl) { file with services := file.services ++ [decl] }

/-- There is no other way to add a statement. -/
theorem FileDecl.added_of_add {file file' : FileDecl} {s : FileStatement}
    (h : file.add s = .ok file') : file.Added s file' := by
  cases s with
  | dialect literal =>
    simp only [add] at h
    split at h
    · rename_i hdialect
      cases h
      exact .dialect hdialect
    · cases h
  | edition literal => cases h
  | imports literal =>
    cases h
    exact .imports literal
  | package name =>
    cases h
    exact .package name
  | message name statements =>
    simp only [add, bind_eq_ok, pure_eq_ok] at h
    obtain ⟨body, hbody, rfl⟩ := h
    exact .message hbody
  | enum name values =>
    simp only [add, bind_eq_ok, pure_eq_ok] at h
    obtain ⟨decl, hdecl, rfl⟩ := h
    exact .enum hdecl
  | service decl =>
    cases h
    exact .service decl

/-! ## What is built -/

variable {table : SymbolTable} {scope : String}

theorem FieldDecl.resolve_eq_ok {decl : FieldDecl} {field : Field} :
    decl.resolve table scope = .ok field ↔ ∃ type, decl.type.resolve table scope = .ok type
      ∧ field = ⟨decl.name, decl.number, decl.label, type⟩ := by
  simp only [resolve, bind_eq_ok, pure_eq_ok]
  exact exists_congr fun type => and_congr_right fun _ => eq_comm

/-- A field is added to others if none of them has its number. -/
theorem FieldDecl.buildAll_cons_eq_ok {decl : FieldDecl} {rest : List FieldDecl}
    {fields built : Fields} :
    buildAll table scope fields (decl :: rest) = .ok built ↔
      ∃ field, decl.resolve table scope = .ok field ∧ (∀ f ∈ fields.1, f.number ≠ field.number)
        ∧ buildAll table scope (fields.insert field) rest = .ok built := by
  rw [buildAll, bind_eq_ok]
  refine exists_congr fun field => and_congr_right fun _ => ?_
  by_cases hfree : ∀ f ∈ fields.1, f.number ≠ field.number
  · rw [if_neg (by simpa using hfree)]
    exact ⟨fun h => ⟨hfree, h⟩, fun h => h.2⟩
  · rw [if_pos (by simpa using hfree)]
    exact ⟨nofun, fun h => absurd h.1 hfree⟩

theorem MessageDecl.build_eq_ok {name : String} {fields : List FieldDecl}
    {messages : List MessageDecl} {enums : List EnumDecl} {m : Message} :
    build table scope ⟨name, fields, messages, enums⟩ = .ok m ↔
      ∃ inner resolved, buildAll table (qualify scope name) messages = .ok inner
        ∧ FieldDecl.buildAll table (qualify scope name) .empty fields = .ok resolved
        ∧ m = ⟨name, qualify scope name, resolved.1, Keyed.ofList inner,
          EnumDecl.buildAll (qualify scope name) enums, resolved.2⟩ := by
  simp only [build, bind_eq_ok, pure_eq_ok]
  constructor
  · rintro ⟨inner, hinner, resolved, hresolved, rfl⟩
    exact ⟨inner, resolved, hinner, hresolved, rfl⟩
  · rintro ⟨inner, resolved, hinner, hresolved, rfl⟩
    exact ⟨inner, hinner, resolved, hresolved, rfl⟩

theorem MessageDecl.buildAll_cons_eq_ok {decl : MessageDecl} {rest : List MessageDecl}
    {built : List (String × Message)} :
    buildAll table scope (decl :: rest) = .ok built ↔
      ∃ m more, decl.build table scope = .ok m ∧ buildAll table scope rest = .ok more
        ∧ built = (m.name, m) :: more := by
  simp only [buildAll, bind_eq_ok, pure_eq_ok]
  constructor
  · rintro ⟨m, hm, more, hmore, rfl⟩
    exact ⟨m, more, hm, hmore, rfl⟩
  · rintro ⟨m, more, hm, hmore, rfl⟩
    exact ⟨m, hm, more, hmore, rfl⟩

theorem resolveMessage_eq_ok {name : String} {ref : TypeRef} :
    resolveMessage table scope name = .ok ref ↔
      ∃ fullName kind, table.resolve messagesOnly scope name = some (fullName, kind)
        ∧ ref = .ofFullName fullName := by
  unfold resolveMessage
  split
  · rename_i fullName kind hfound
    simp [hfound, eq_comm]
  · rename_i hnone
    simp [hnone]

theorem MethodDecl.build_eq_ok {decl : MethodDecl} {method : Method} :
    decl.build table scope = .ok method ↔
      ∃ input output, resolveMessage table scope decl.input = .ok input
        ∧ resolveMessage table scope decl.output = .ok output
        ∧ method = ⟨decl.name, input, output, decl.clientStreaming, decl.serverStreaming⟩ := by
  simp only [build, bind_eq_ok, pure_eq_ok]
  constructor
  · rintro ⟨input, hinput, output, houtput, rfl⟩
    exact ⟨input, output, hinput, houtput, rfl⟩
  · rintro ⟨input, output, hinput, houtput, rfl⟩
    exact ⟨input, hinput, output, houtput, rfl⟩

theorem ServiceDecl.build_eq_ok {decl : ServiceDecl} {service : Service} :
    decl.build table scope = .ok service ↔
      ∃ methods, decl.methods.mapM (MethodDecl.build table (qualify scope decl.name)) = .ok methods
        ∧ service = ⟨decl.name, qualify scope decl.name,
          Keyed.ofList (methods.map fun m => (m.name, m))⟩ := by
  simp only [build, bind_eq_ok, pure_eq_ok]
  exact exists_congr fun methods => and_congr_right fun _ => eq_comm

theorem FileDecl.build_eq_ok {file : FileDecl} {schema : Schema} :
    file.build table = .ok schema ↔
      ∃ messages services, MessageDecl.buildAll table file.scope file.messages = .ok messages
        ∧ file.services.mapM (ServiceDecl.build table file.scope) = .ok services
        ∧ schema = {
            name := file.name
            dialect := file.dialect
            package := file.package
            imports := file.imports
            messages := Keyed.ofList messages
            enums := EnumDecl.buildAll file.scope file.enums
            services := Keyed.ofList (services.map fun s => (s.name, s)) } := by
  simp only [build, bind_eq_ok, pure_eq_ok]
  constructor
  · rintro ⟨messages, hmessages, services, hservices, rfl⟩
    exact ⟨messages, services, hmessages, hservices, rfl⟩
  · rintro ⟨messages, services, hmessages, hservices, rfl⟩
    exact ⟨messages, hmessages, services, hservices, rfl⟩

end MettaSchema
