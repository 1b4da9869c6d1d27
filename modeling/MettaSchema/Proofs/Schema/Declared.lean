import MettaSchema.Proofs.Schema.Printed
import MettaSchema.Proofs.Schema.Stages

/-!
# What printed schemas declare

The tree of a schema declares the parts of the schema, with every reference as a full name behind
a dot.

* `Message.decl`, `Schema.decl` — the declarations.
* `Statement.Declares`, `FileDecl.AddsAll` — from trees to what they declare.
* `Schema.parse_print_decl` — the text of a schema declares the schema.
-/

namespace MettaSchema

/-! ## Declarations -/

/-- How the type of a field is declared. -/
def FieldType.decl : FieldType → TypeExpr
  | scalar kind => .scalar kind
  | message ref => .named ref.word
  | enum ref => .named ref.word
  | group ref => .named ref.word

/-- The declaration of a field. -/
def Field.decl (field : Field) : FieldDecl :=
  ⟨field.name, field.number, field.label, field.type.decl⟩

/-- The declaration of an enum. -/
def EnumType.decl (enum : EnumType) : EnumDecl := ⟨enum.name, enum.values⟩

namespace Message

mutual

/-- The declaration of a message. -/
def decl : Message → MessageDecl
  | ⟨name, _, fields, messages, enums, _⟩ =>
    ⟨name, fields.map Field.decl, declAll messages, enums.map (·.2.decl)⟩

/-- The declarations of some messages. -/
def declAll : List (String × Message) → List MessageDecl
  | [] => []
  | (_, message) :: rest => decl message :: declAll rest

end

theorem declAll_eq_map (ms : List (String × Message)) : declAll ms = ms.map (·.2.decl) := by
  induction ms with
  | nil => rfl
  | cons p ms ih => rw [declAll, ih, List.map_cons]

end Message

/-- The declaration of a method. -/
def Method.decl (method : Method) : MethodDecl :=
  ⟨method.name, method.input.word, method.output.word, method.clientStreaming,
    method.serverStreaming⟩

/-- The declaration of a service. -/
def Service.decl (service : Service) : ServiceDecl :=
  ⟨service.name, service.methods.map (·.2.decl)⟩

/-- The declarations of a schema. -/
def Schema.decl (schema : Schema) : FileDecl where
  name := schema.name
  dialect := schema.dialect
  package := schema.package
  imports := schema.imports
  messages := Message.declAll schema.messages
  enums := schema.enums.map (·.2.decl)
  services := schema.services.map (·.2.decl)

/-! ## Bodies of messages -/

namespace Statement

/-- The trees stand for statements that declare the body. -/
def Declares (trees : List Tree) (body : Body) : Prop :=
  ∃ statements, ofTrees? trees = some statements ∧ declareAll statements = .ok body

theorem declareAll_append {ss ts : List Statement} {a b : Body} (ha : declareAll ss = .ok a)
    (hb : declareAll ts = .ok b) : declareAll (ss ++ ts) = .ok (a ++ b) := by
  induction ss generalizing a with
  | nil =>
    cases ha
    exact hb
  | cons s ss ih =>
    simp only [declareAll, bind_eq_ok, pure_eq_ok] at ha
    obtain ⟨first, hfirst, more, hmore, rfl⟩ := ha
    simp only [List.cons_append, declareAll, bind_eq_ok, pure_eq_ok]
    refine ⟨first, hfirst, more ++ b, ih hmore, ?_⟩
    simp only [Body.append_eq, List.append_assoc]

theorem Declares.nil : Declares [] .empty := ⟨[], rfl, rfl⟩

theorem Declares.append {ts us : List Tree} {a b : Body} (ha : Declares ts a)
    (hb : Declares us b) : Declares (ts ++ us) (a ++ b) := by
  obtain ⟨ss, hss, ha⟩ := ha
  obtain ⟨ss', hss', hb⟩ := hb
  exact ⟨ss ++ ss', by rw [ofTrees?_append, hss, hss']; rfl, declareAll_append ha hb⟩

theorem Declares.singleton {t : Tree} {s : Statement} {body : Body}
    (ht : ofTree? t = some [s]) (hs : s.declare = .ok body) : Declares [t] body := by
  refine ⟨[s], by rw [ofTrees?_singleton, ht], ?_⟩
  simp only [declareAll, bind_eq_ok, pure_eq_ok]
  refine ⟨body, hs, .empty, rfl, ?_⟩
  simp [Body.append_eq, Body.empty]

/-- What is declared one after another is declared together. -/
theorem Declares.map {α : Type} {xs : List α} {tree : α → Tree} {body : α → Body}
    (h : ∀ x ∈ xs, Declares [tree x] (body x)) :
    Declares (xs.map tree) ⟨xs.flatMap (body · |>.fields), xs.flatMap (body · |>.messages),
      xs.flatMap (body · |>.enums)⟩ := by
  induction xs with
  | nil => exact .nil
  | cons x xs ih =>
    simp only [List.map_cons, List.flatMap_cons]
    exact (h x (by simp)).append (ih fun y hy => h y (by simp [hy]))

end Statement

theorem Label.ofWord_word (label : Label) : ofWord label.word = label := by
  cases label <;> rfl

/-- A type is read back from the way it is written. -/
theorem FieldType.ofName_word {type : FieldType} (h : type.Printable) :
    TypeExpr.ofName type.word = type.decl := by
  have hscalar : ∀ kind ∈ Kind.keywords.map (·.2), TypeExpr.ofName kind.word = .scalar kind := by
    decide
  have href (ref : TypeRef) : TypeExpr.ofName ref.word = .named ref.word := by
    have hkeyword : Kind.ofKeyword? ref.word = none := by
      rw [Kind.ofKeyword?, List.lookup_eq_none_iff]
      intro p hp
      have hdot : ∀ p ∈ Kind.keywords, p.1.toList.head? ≠ some '.' := by decide
      have hne : ref.word ≠ p.1 := by
        rintro heq
        refine hdot p hp ?_
        rw [← heq, ref.toList_word]
        rfl
      simpa using hne
    rw [TypeExpr.ofName, hkeyword]
  cases type with
  | scalar kind => exact hscalar kind h
  | message ref | enum ref => exact href ref
  | group ref => exact h.elim

open Statement

theorem Field.declares {field : Field} (h : field.Printable) :
    Declares [field.tree] ⟨[field.decl], [], []⟩ := by
  have htree : ofTree? field.tree
      = some [.field field.label field.type.word field.name field.number.repr] := by
    simp [-Nat.toList_repr, tree, ofTree?, field?, Tree.token?, Tree.tokens, Label.ofParts,
      Label.ofWord_word]
  refine .singleton htree ?_
  simp only [declare, Literal.fieldNumber_repr h.number, FieldType.ofName_word h.type]
  rfl

namespace EnumType

theorem enumParts?_tree (enum : EnumType) :
    enumParts? (.token .kwEnum "enum".toList :: .token .ident enum.name.toList
        :: enum.values.map valueTree)
      = some (enum.name, enum.values.map fun value => (value.1, value.2.repr)) := by
  have hvalues : (enum.values.map valueTree).mapM enumValue?
      = some (enum.values.map fun value => [(value.1, value.2.repr)]) := by
    refine mapM_map_eq_pure fun value _ => ?_
    simp [valueTree, enumValue?, Tree.token?, Tree.tokens]
  simp only [enumParts?, Tree.token?, Tree.tokens, List.filterMap_cons, List.mapM_cons, enumValue?,
    hvalues]
  simp [← List.flatMap_def, ← List.map_eq_flatMap]

theorem values?_repr {values : List (String × Int)}
    (h : ∀ value ∈ values, Literal.minEnumNumber ≤ value.2 ∧ value.2 ≤ Literal.maxEnumNumber) :
    EnumDecl.values? (values.map fun value => (value.1, value.2.repr)) = .ok values := by
  induction values with
  | nil => rfl
  | cons value values ih =>
    have hvalues := ih fun v hv => h v (by simp [hv])
    have hnumber := Literal.enumNumber_repr (h value (by simp))
    simp only [List.map_cons, EnumDecl.values?, hnumber, hvalues]
    rfl

theorem declares {scope : String} {enum : EnumType} (h : enum.Printable scope) :
    Declares [enum.tree] ⟨[], [], [enum.decl]⟩ := by
  have htree : ofTree? enum.tree
      = some [.enum enum.name (enum.values.map fun value => (value.1, value.2.repr))] := by
    rw [tree, ofTree?, enumParts?_tree]
    rfl
  refine .singleton htree ?_
  rw [declare, EnumDecl.ofStatement, values?_repr fun value hvalue => (h.values value hvalue).2]
  rfl

end EnumType

namespace Message

/-- The parts of a message declare what is in it, if the messages inside it do. -/
theorem declares_body {m : Message} (h : m.Printable)
    (hmessages : ∀ p ∈ m.messages, Declares [p.2.tree] ⟨[], [p.2.decl], []⟩) :
    Declares (m.fields.map Field.tree ++ treesAll m.messages ++ m.enums.map (·.2.tree))
      ⟨m.fields.map Field.decl, declAll m.messages, m.enums.map (·.2.decl)⟩ := by
  have hfields := Declares.map fun field hfield => Field.declares (h.fields field hfield)
  have hinner := Declares.map hmessages
  have henums := Declares.map fun p hp => EnumType.declares (h.inner.printable p hp).2
  have hbody := (hfields.append hinner).append henums
  have hnone {α β : Type} (xs : List α) : xs.flatMap (fun _ => ([] : List β)) = [] :=
    List.flatMap_eq_nil_iff.2 fun _ _ => rfl
  rw [treesAll_eq_map, declAll_eq_map]
  simpa [Body.append_eq, ← List.map_eq_flatMap, hnone] using hbody

theorem declares (m : Message) :
    m.Everywhere Printable → Declares [m.tree] ⟨[], [m.decl], []⟩ := by
  induction m using nestedInduction with
  | inner m ih =>
    intro h
    have hmessages : ∀ p ∈ m.messages, Declares [p.2.tree] ⟨[], [p.2.decl], []⟩ :=
      fun p hp => ih p hp (h.inner hp)
    obtain ⟨statements, hstatements, hbody⟩ := declares_body h.self hmessages
    obtain ⟨name, fullName, fields, messages, enums, ascending⟩ := m
    have htree : ofTree? (tree ⟨name, fullName, fields, messages, enums, ascending⟩)
        = some [.message name statements] := by
      simp [-List.append_assoc, tree, ofTree?, ofTrees?, hstatements, Tree.token?, Tree.tokens]
    refine .singleton htree ?_
    rw [declare, hbody]
    rfl

end Message

/-! ## Services -/

theorem Method.type?_typeTrees (stream : Bool) (ref : TypeRef) :
    MethodDecl.type? (typeTrees stream ref) = some (ref.word, stream) := by
  cases stream <;> simp [MethodDecl.type?, typeTrees, Tree.token?, Tree.tokens]

theorem Method.ofTree?_tree (method : Method) :
    MethodDecl.ofTree? method.tree = some [method.decl] := by
  simp [tree, MethodDecl.ofTree?, Tree.token?, Tree.tokens, Tree.parts?, type?_typeTrees, decl]

theorem Service.ofParts?_tree (service : Service) :
    ServiceDecl.ofParts? (.token .kwService "service".toList :: .token .ident service.name.toList
        :: service.methods.map (·.2.tree)) = some service.decl := by
  have hmethods : (service.methods.map (·.2.tree)).mapM MethodDecl.ofTree?
      = some (service.methods.map fun p => [p.2.decl]) :=
    mapM_map_eq_pure fun p _ => p.2.ofTree?_tree
  simp only [ServiceDecl.ofParts?, Tree.token?, Tree.tokens, List.filterMap_cons, List.mapM_cons,
    MethodDecl.ofTree?, hmethods]
  simp [decl, ← List.flatMap_def, ← List.map_eq_flatMap]

/-! ## Files -/

namespace FileDecl

/-- The trees stand for statements that lead from one file to the other. -/
def AddsAll (trees : List Tree) (file file' : FileDecl) : Prop :=
  ∃ statements, trees.mapM FileStatement.ofTree? = some statements
    ∧ statements.flatten.foldlM add file = .ok file'

theorem AddsAll.append {ts us : List Tree} {file₁ file₂ file₃ : FileDecl}
    (h : AddsAll ts file₁ file₂) (h' : AddsAll us file₂ file₃) :
    AddsAll (ts ++ us) file₁ file₃ := by
  obtain ⟨ss, hss, hadd⟩ := h
  obtain ⟨ss', hss', hadd'⟩ := h'
  refine ⟨ss ++ ss', by simp [List.mapM_append, hss, hss'], ?_⟩
  rw [List.flatten_append, List.foldlM_append, bind_eq_ok]
  exact ⟨file₂, hadd, hadd'⟩

theorem AddsAll.singleton {t : Tree} {s : FileStatement} {file file' : FileDecl}
    (ht : FileStatement.ofTree? t = some [s]) (hs : file.add s = .ok file') :
    AddsAll [t] file file' :=
  ⟨[[s]], by simp [ht], by simp [hs]⟩

/-- Trees of one kind are added one after another. -/
theorem AddsAll.map {α : Type} (tree : α → Tree) (put : List α → FileDecl) (xs : List α)
    (h : ∀ x ∈ xs, ∀ done, AddsAll [tree x] (put done) (put (done ++ [x]))) :
    AddsAll (xs.map tree) (put []) (put xs) := by
  have hfrom (done : List α) : AddsAll (xs.map tree) (put done) (put (done ++ xs)) := by
    induction xs generalizing done with
    | nil => exact ⟨[], rfl, by simp [pure_eq_ok]⟩
    | cons x xs ih =>
      have hx := h x (by simp) done
      have hxs := ih (fun y hy => h y (by simp [hy])) (done ++ [x])
      rw [List.append_assoc] at hxs
      exact hx.append hxs
  exact hfrom []

end FileDecl

namespace Schema

open FileDecl

theorem adds_dialect (dialect : Dialect) (file : FileDecl) :
    AddsAll [dialectTree dialect] file { file with dialect } := by
  have htree : FileStatement.ofTree? (dialectTree dialect)
      = some [.dialect (Literal.quote dialect.name)] := by
    simp [dialectTree, FileStatement.ofTree?, Tree.token?, Tree.tokens]
  have hname : Dialect.ofName? dialect.name = some dialect := by cases dialect <;> rfl
  exact .singleton htree (by simp [add, Literal.unquote_quote, hname])

theorem adds_package (package : Option String) (file : FileDecl) (h : file.package = none) :
    AddsAll (package.toList.map packageTree) file { file with package } := by
  cases package with
  | none => exact ⟨[], rfl, by simp [← h, pure_eq_ok]⟩
  | some package =>
    have htree : FileStatement.ofTree? (packageTree package) = some [.package package] := by
      simp [packageTree, FileStatement.ofTree?, Tree.token?, Tree.tokens]
    exact .singleton htree rfl

theorem adds_imports (imports : List String) (file : FileDecl) (h : file.imports = []) :
    AddsAll (imports.map importTree) file { file with imports } := by
  have hall := AddsAll.map importTree (fun done => { file with imports := done }) imports
    fun path _ done => by
      have htree : FileStatement.ofTree? (importTree path)
          = some [.imports (Literal.quote path)] := by
        simp [importTree, FileStatement.ofTree?, Tree.token?, Tree.tokens]
      exact .singleton htree (by simp [add, Literal.unquote_quote])
  simpa [← h] using hall

theorem adds_message {m : Message} (h : m.Everywhere Message.Printable) (file : FileDecl) :
    AddsAll [m.tree] file { file with messages := file.messages ++ [m.decl] } := by
  obtain ⟨statements, hstatements, hbody⟩ :=
    Message.declares_body h.self fun p hp => Message.declares p.2 (h.inner hp)
  obtain ⟨name, fullName, fields, messages, enums, ascending⟩ := m
  have htree : FileStatement.ofTree? (Message.tree ⟨name, fullName, fields, messages, enums, ascending⟩)
      = some [.message name statements] := by
    simp [-List.append_assoc, Message.tree, FileStatement.ofTree?, Statement.ofTrees?,
      Statement.ofTree?, hstatements, Tree.token?, Tree.tokens]
  exact .singleton htree (by rw [add, hbody]; rfl)

theorem adds_messages {messages : List (String × Message)}
    (hm : ∀ p ∈ messages, p.2.Everywhere Message.Printable) (file : FileDecl)
    (h : file.messages = []) :
    AddsAll (Message.treesAll messages) file
      { file with messages := Message.declAll messages } := by
  have hall := AddsAll.map (fun p : String × Message => p.2.tree)
    (fun done => { file with messages := done.map (·.2.decl) }) messages fun p hp done => by
      rw [List.map_append]
      exact adds_message (hm p hp) _
  rw [Message.treesAll_eq_map, Message.declAll_eq_map]
  simpa [← h] using hall

theorem adds_enums {scope : String} {enums : List (String × EnumType)}
    (he : ∀ p ∈ enums, p.2.Printable scope) (file : FileDecl) (h : file.enums = []) :
    AddsAll (enums.map (·.2.tree)) file { file with enums := enums.map (·.2.decl) } := by
  have hall := AddsAll.map (fun p : String × EnumType => p.2.tree)
    (fun done => { file with enums := done.map (·.2.decl) }) enums fun p hp done => by
      have htree : FileStatement.ofTree? p.2.tree
          = some [.enum p.2.name (p.2.values.map fun value => (value.1, value.2.repr))] := by
        rw [EnumType.tree, FileStatement.ofTree?, EnumType.enumParts?_tree]
        rfl
      have hvalues := EnumType.values?_repr fun value hvalue => ((he p hp).values value hvalue).2
      refine .singleton htree ?_
      rw [add, EnumDecl.ofStatement, hvalues, List.map_append]
      rfl
  simpa [← h] using hall

theorem adds_services (services : List (String × Service)) (file : FileDecl)
    (h : file.services = []) :
    AddsAll (services.map (·.2.tree)) file { file with services := services.map (·.2.decl) } := by
  have hall := AddsAll.map (fun p : String × Service => p.2.tree)
    (fun done => { file with services := done.map (·.2.decl) }) services fun p _ done => by
      have htree : FileStatement.ofTree? p.2.tree = some [.service p.2.decl] := by
        rw [Service.tree, FileStatement.ofTree?, Service.ofParts?_tree]
        rfl
      refine .singleton htree ?_
      rw [add, List.map_append]
      rfl
  simpa [← h] using hall

/-- The text of a schema declares the schema. -/
theorem parse_print_decl {schema : Schema} (h : schema.Printable)
    (hdotted : ∀ ref ∈ schema.references, Scan.Dotted ref.1.toList) :
    FileDecl.parse schema.name schema.print = .ok schema.decl := by
  obtain ⟨trees, hparse, htrees⟩ := parse_print_tree h hdotted
  have hend : AddsAll [.token .endOfInput []] schema.decl schema.decl :=
    ⟨[[]], rfl, by simp [pure_eq_ok]⟩
  have hadds : AddsAll
      (dialectTree schema.dialect :: (schema.statementTrees ++ [.token .endOfInput []]))
      (FileDecl.empty schema.name) schema.decl :=
    (adds_dialect schema.dialect _).append <|
      (((((adds_package schema.package _ rfl).append (adds_imports schema.imports _ rfl)).append
        (adds_messages h.everywhere _ rfl)).append
        (adds_enums (fun p hp => (h.siblings.printable p hp).2) _ rfl)).append
        (adds_services schema.services _ rfl)).append hend
  obtain ⟨statements, hstatements, hfold⟩ := hadds
  have hfile : FileStatement.ofTrees? trees = some statements.flatten := by
    rw [← FileStatement.ofTrees?_skeletonAll, htrees, FileStatement.ofTrees?, tree, Tree.parts?]
    simp only [List.findSome?_cons, if_true, Option.bind_eq_bind, Option.bind_some, hstatements]
    rfl
  simp only [FileDecl.parse, hparse, hfile]
  exact hfold

end Schema

end MettaSchema
