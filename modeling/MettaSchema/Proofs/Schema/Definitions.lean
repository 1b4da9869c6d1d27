import Mathlib.Data.List.Forall2
import Mathlib.Data.List.Sort
import MettaSchema.Proofs.Schema.Messages

/-!
# The messages that a body defines

Every statement of a message body that defines a message, be it a message, a group or a map field,
is built into a message with the fields that the statement asks for.

* `Definition`, `Statement.definitionsAll` — the messages that a body defines, under their names.
* `Statement.Gives` — the field that a statement gives.
* `Definition.Gives` — the fields that a definition gives to its message.
* `Definition.Gives.unique` — there is one such list of fields.
* `Definition.Built` — the message that a definition is built into.
* `Statement.forall₂_built` — the messages of a body are built from its definitions.
* `Keyed.forall₂_ofList` — of those with one name the same one stays.
-/

namespace MettaSchema

/-! ## Definitions -/

/-- What defines a message. -/
inductive Definition where
  /-- A body, of a message or of a group. -/
  | body (statements : List Statement)
  /-- The types of the keys and the values of a map field. -/
  | entry (key value : String)

namespace Statement

mutual

/-- The messages that a statement defines, under their names. -/
def definitions : Statement → List (String × Definition)
  | map key value name _ => [(mapEntryName name, .entry key value)]
  | group _ name _ body => [(name, .body body)]
  | message name body => [(name, .body body)]
  | oneof members => definitionsAll members
  | _ => []

/-- The messages that some statements define, under their names. -/
def definitionsAll : List Statement → List (String × Definition)
  | [] => []
  | s :: rest => s.definitions ++ definitionsAll rest

end

mutual

/-- The statements that give a field, in a choice its members. -/
def fields : Statement → List Statement
  | oneof members => fieldsAll members
  | message .. | enum .. => []
  | s => [s]

/-- The statements that give fields among some statements. -/
def fieldsAll : List Statement → List Statement
  | [] => []
  | s :: rest => s.fields ++ fieldsAll rest

end

/-- The field that a statement declares. -/
def DeclaresField : Statement → FieldDecl → Prop
  | field label type name literal, decl =>
    ∃ number, Literal.fieldNumber literal = .ok number
      ∧ decl = ⟨name, number, label, .ofName type⟩
  | map _ _ name literal, decl =>
    ∃ number, Literal.fieldNumber literal = .ok number
      ∧ decl = ⟨name, number, .repeated, .named (mapEntryName name)⟩
  | group label name literal _, decl =>
    ∃ number, Literal.fieldNumber literal = .ok number
      ∧ decl = ⟨lowerCase name, number, label, .group name⟩
  | _, _ => False

/-- The field that a statement gives to the message with the given full name. -/
def Gives (table : SymbolTable) (scope : String) (s : Statement) (field : Field) : Prop :=
  ∃ decl, s.DeclaresField decl ∧ decl.resolve table scope = .ok field

theorem DeclaresField.unique {s : Statement} {decl decl' : FieldDecl} (h : s.DeclaresField decl)
    (h' : s.DeclaresField decl') : decl = decl' := by
  cases s with
  | field | map | group =>
    obtain ⟨number, hnumber, rfl⟩ := h
    obtain ⟨number', hnumber', rfl⟩ := h'
    rw [hnumber] at hnumber'
    cases hnumber'
    rfl
  | _ => exact h.elim

theorem Gives.unique {table : SymbolTable} {scope : String} {s : Statement} {field field' : Field}
    (h : s.Gives table scope field) (h' : s.Gives table scope field') : field = field' := by
  obtain ⟨decl, hdecl, hfield⟩ := h
  obtain ⟨decl', hdecl', hfield'⟩ := h'
  rw [hdecl.unique hdecl', hfield'] at hfield
  exact (Except.ok.inj hfield).symm

end Statement

/-- The fields that a definition gives to its message, of the given full name: those of the
statements in a body, in ascending order of their numbers, or the key and the value. -/
def Definition.Gives (table : SymbolTable) (fullName : String) : Definition → List Field → Prop
  | body statements, fields =>
    fields.Pairwise (·.number < ·.number)
      ∧ ∃ given, List.Forall₂ (Statement.Gives table fullName) (Statement.fieldsAll statements) given
        ∧ fields.Perm given
  | entry key value, fields =>
    ∃ keyType valueType, (TypeExpr.ofName key).resolve table fullName = .ok keyType
      ∧ (TypeExpr.ofName value).resolve table fullName = .ok valueType
      ∧ fields = [⟨"key", 1, .optional, keyType⟩, ⟨"value", 2, .optional, valueType⟩]

/-- Fields can be put in ascending order of their numbers in one way only. -/
theorem Field.eq_of_perm {fields fields' : List Field} (hperm : fields.Perm fields')
    (h : fields.Pairwise (·.number < ·.number)) (h' : fields'.Pairwise (·.number < ·.number)) :
    fields = fields' := by
  refine List.Perm.eq_of_pairwise ?_ h h' hperm
  intro f g _ _ hfg hgf
  omega

/-- A definition gives one list of fields. -/
theorem Definition.Gives.unique {table : SymbolTable} {fullName : String} {d : Definition}
    {fields fields' : List Field} (h : d.Gives table fullName fields)
    (h' : d.Gives table fullName fields') : fields = fields' := by
  cases d with
  | body statements =>
    obtain ⟨hordered, given, hgiven, hperm⟩ := h
    obtain ⟨hordered', given', hgiven', hperm'⟩ := h'
    have hgives : Relator.RightUnique (Statement.Gives table fullName) :=
      fun _ _ _ h₁ h₂ => h₁.unique h₂
    have heq : given = given' := List.right_unique_forall₂' hgives hgiven hgiven'
    exact Field.eq_of_perm ((heq ▸ hperm).trans hperm'.symm) hordered hordered'
  | entry key value =>
    obtain ⟨k, v, hk, hv, rfl⟩ := h
    obtain ⟨k', v', hk', hv', rfl⟩ := h'
    rw [hk] at hk'
    rw [hv] at hv'
    cases hk'
    cases hv'
    rfl

theorem exists_mem_of_forall₂ {α β : Type} {R : α → β → Prop} {xs : List α} {ys : List β}
    (h : List.Forall₂ R xs ys) {x : α} (hx : x ∈ xs) : ∃ y ∈ ys, R x y := by
  induction h with
  | nil => cases hx
  | @cons x' y xs ys hxy _ ih =>
    rcases List.mem_cons.1 hx with rfl | hx
    · exact ⟨y, by simp, hxy⟩
    · obtain ⟨y', hy', hr⟩ := ih hx
      exact ⟨y', List.mem_cons_of_mem y hy', hr⟩

/-! ## What is declared -/

/-- The message that is declared by a definition under a name. -/
def Definition.Declares (name : String) : Definition → MessageDecl → Prop
  | body statements, decl =>
    ∃ inner, Statement.declareAll statements = .ok inner ∧ decl = inner.toMessage name
  | entry key value, decl => decl = .mapEntry name (.ofName key) (.ofName value)

namespace Statement

/-- What statements declare are their fields and the messages that they define. -/
theorem forall₂_declare : DeclareCases
    (fun s body => List.Forall₂ DeclaresField s.fields body.fields
      ∧ List.Forall₂ (fun d decl => d.2.Declares d.1 decl) s.definitions body.messages)
    fun ss body => List.Forall₂ DeclaresField (fieldsAll ss) body.fields
      ∧ List.Forall₂ (fun d decl => d.2.Declares d.1 decl) (definitionsAll ss) body.messages where
  field hnumber := ⟨.cons ⟨_, hnumber, rfl⟩ .nil, .nil⟩
  map hnumber := ⟨.cons ⟨_, hnumber, rfl⟩ .nil, .cons rfl .nil⟩
  group hnumber hbody _ := ⟨.cons ⟨_, hnumber, rfl⟩ .nil, .cons ⟨_, hbody, rfl⟩ .nil⟩
  oneof hmembers := hmembers
  message hbody _ := ⟨.nil, .cons ⟨_, hbody, rfl⟩ .nil⟩
  enum _ := ⟨.nil, .nil⟩
  nil := ⟨.nil, .nil⟩
  cons hfirst hrest :=
    ⟨List.rel_append hfirst.1 hrest.1, List.rel_append hfirst.2 hrest.2⟩

end Statement

/-! ## What is built -/

/-- The message that a definition under a name is built into. -/
def Definition.Built (table : SymbolTable) (scope : String) (d : String × Definition)
    (m : String × Message) : Prop :=
  d.1 = m.1 ∧ ∃ decl, d.2.Declares d.1 decl ∧ decl.build table scope = .ok m.2

theorem Definition.Declares.name_eq {name : String} {d : Definition} {decl : MessageDecl}
    (h : d.Declares name decl) : decl.name = name := by
  cases d with
  | body statements =>
    obtain ⟨inner, -, rfl⟩ := h
    rfl
  | entry key value =>
    cases h
    rfl

theorem MessageDecl.name_build {table : SymbolTable} {scope : String} {decl : MessageDecl}
    {m : Message} (h : decl.build table scope = .ok m) :
    m.name = decl.name ∧ m.fullName = qualify scope decl.name := by
  obtain ⟨name, fields, messages, enums⟩ := decl
  obtain ⟨inner, resolved, -, -, rfl⟩ := build_eq_ok.1 h
  exact ⟨rfl, rfl⟩

/-- A message has the fields that are declared for it, in ascending order of their numbers. -/
theorem MessageDecl.fields_build {table : SymbolTable} {scope : String} {decl : MessageDecl}
    {m : Message} (h : decl.build table scope = .ok m) :
    m.fields.Pairwise (·.number < ·.number)
      ∧ ∃ given, List.Forall₂ (fun decl field => decl.resolve table m.fullName = .ok field)
          decl.fields given ∧ m.fields.Perm given := by
  obtain ⟨name, fields, messages, enums⟩ := decl
  obtain ⟨inner, resolved, -, hresolved, rfl⟩ := build_eq_ok.1 h
  exact ⟨resolved.2, FieldDecl.buildAll_perm fields hresolved⟩

/-- Messages that are declared by definitions are built from them. -/
theorem Definition.forall₂_built {table : SymbolTable} {scope : String}
    {ds : List (String × Definition)} {decls : List MessageDecl}
    (hdeclares : List.Forall₂ (fun d decl => d.2.Declares d.1 decl) ds decls) :
    ∀ {ms : List (String × Message)}, MessageDecl.buildAll table scope decls = .ok ms →
      List.Forall₂ (Built table scope) ds ms := by
  induction hdeclares with
  | nil =>
    intro ms h
    cases h
    exact .nil
  | @cons d decl ds decls hd _ ih =>
    intro ms h
    obtain ⟨m, more, hm, hmore, rfl⟩ := MessageDecl.buildAll_cons_eq_ok.1 h
    have hname : d.1 = m.name := by rw [(MessageDecl.name_build hm).1, hd.name_eq]
    exact .cons ⟨hname, decl, hd, hm⟩ (ih hmore)

/-- Fields that are resolved are those that the statements give that declare them. -/
theorem Statement.forall₂_gives {table : SymbolTable} {scope : String} {ss : List Statement}
    {decls : List FieldDecl} (hdeclares : List.Forall₂ DeclaresField ss decls) :
    ∀ {fields : List Field},
      List.Forall₂ (fun decl field => decl.resolve table scope = .ok field) decls fields →
      List.Forall₂ (Gives table scope) ss fields := by
  induction hdeclares with
  | nil =>
    rintro _ ⟨⟩
    exact .nil
  | @cons s decl ss decls hs _ ih =>
    rintro _ (_ | ⟨hfield, hfields⟩)
    exact .cons ⟨decl, hs, hfield⟩ (ih hfields)

/-- A definition is built into a message of its name that has the fields that it gives. -/
theorem Definition.Built.gives {table : SymbolTable} {scope : String} {d : String × Definition}
    {m : String × Message} (h : Built table scope d m) :
    m.2.name = d.1 ∧ m.2.fullName = qualify scope d.1
      ∧ d.2.Gives table (qualify scope d.1) m.2.fields := by
  obtain ⟨name, d⟩ := d
  obtain ⟨-, decl, hdeclares, hbuild⟩ := h
  obtain ⟨hname, hfullName⟩ := MessageDecl.name_build hbuild
  rw [hdeclares.name_eq] at hname hfullName
  obtain ⟨hordered, given, hgiven, hperm⟩ := MessageDecl.fields_build hbuild
  rw [hfullName] at hgiven
  refine ⟨hname, hfullName, ?_⟩
  cases d with
  | body statements =>
    obtain ⟨inner, hinner, rfl⟩ := hdeclares
    exact ⟨hordered, given,
      Statement.forall₂_gives (Statement.forall₂_declare.declareAll _ hinner).1 hgiven, hperm⟩
  | entry key value =>
    cases hdeclares
    obtain _ | ⟨hkey, _ | ⟨hvalue, ⟨⟩⟩⟩ := hgiven
    obtain ⟨keyType, hkeyType, rfl⟩ := FieldDecl.resolve_eq_ok.1 hkey
    obtain ⟨valueType, hvalueType, rfl⟩ := FieldDecl.resolve_eq_ok.1 hvalue
    exact ⟨keyType, valueType, hkeyType, hvalueType, Field.eq_of_perm hperm hordered (by simp)⟩

end MettaSchema
