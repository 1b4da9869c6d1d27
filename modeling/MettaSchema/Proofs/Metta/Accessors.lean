import Mathlib.Data.List.FinRange
import MettaSchema.Proofs.Metta.Meaning
import MettaSchema.Proofs.Schema.Identified

/-!
# What accessors give

The equation of an accessor, taken as a rewrite rule, is to give the value of its field when the
accessor is applied to a value that the constructor made.  The variables of an equation are named
by the fields, and fields are told apart by their numbers only, so it does exactly if no two fields
of the message have the same name.

* `Form.Rewrites` — one step of rewriting at the top of a form.
* `Form.rewrites_projects_iff` — what the equation of an accessor gives, whatever names its
  variables have.
* `Translation.equation_mem_documentEntries` — every field of a message at any depth has its
  equation in the document.
* `Schema.accessor_yields` — what the accessors in the document of a text give.
-/

namespace MettaSchema

open Form

namespace Form

/-! ## Rewriting -/

/-- Whether an atom is a variable. -/
def isVariable (name : String) : Bool :=
  name.toList.head? == some '$'

mutual

/-- A form with other forms in the places of its variables. -/
def subst (σ : String → Form) : Form → Form
  | atom name => if isVariable name then σ name else atom name
  | list items => list (substAll σ items)

/-- Forms with other forms in the places of their variables. -/
def substAll (σ : String → Form) : List Form → List Form
  | [] => []
  | form :: rest => form.subst σ :: substAll σ rest

end

/-- Whether a rule leads from a form to a result: it is an equation, and its two sides become the
form and the result when each of its variables is replaced by one form wherever it stands. -/
def Rewrites (rule form result : Form) : Prop :=
  ∃ (lhs rhs : Form) (σ : String → Form),
    rule = .list [.atom "=", lhs, rhs] ∧ lhs.subst σ = form ∧ rhs.subst σ = result

/-- A function applied to what a constructor makes of some values. -/
def call (symbol constructor : String) (values : List Form) : Form :=
  .list [.atom symbol, .list (.atom constructor :: values)]

theorem subst_variable (σ : String → Form) (x : String) :
    (atom ("$" ++ x)).subst σ = σ ("$" ++ x) := by
  have hvariable : isVariable ("$" ++ x) = true := by simp [isVariable]
  rw [subst, if_pos hvariable]

theorem subst_atom_of_fixed {σ : String → Form} {name : String} (h : σ name = .atom name) :
    (atom name).subst σ = .atom name := by
  rw [subst, h, ite_self]

theorem substAll_variables (σ : String → Form) (xs : List String) :
    substAll σ (xs.map fun x => .atom ("$" ++ x)) = xs.map fun x => σ ("$" ++ x) := by
  induction xs with
  | nil => rfl
  | cons x xs ih => rw [List.map_cons, substAll, subst_variable, ih, List.map_cons]

theorem subst_call (σ : String → Form) (symbol constructor : String) (xs : List String) :
    (call symbol constructor (xs.map fun x => .atom ("$" ++ x))).subst σ
      = .list [(atom symbol).subst σ,
          .list ((atom constructor).subst σ :: xs.map fun x => σ ("$" ++ x))] := by
  simp only [call, subst, substAll, substAll_variables]

/-- An equation leads from the form to the result that its sides become. -/
theorem rewrites_projects {symbol constructor chosen : String} {binders : List String}
    {form result : Form} :
    (projects symbol constructor binders chosen).Rewrites form result ↔
      ∃ σ : String → Form,
        (call symbol constructor (binders.map fun x => .atom ("$" ++ x))).subst σ = form
          ∧ σ ("$" ++ chosen) = result := by
  constructor
  · rintro ⟨lhs, rhs, σ, hrule, hform, hresult⟩
    cases hrule
    rw [subst_variable] at hresult
    exact ⟨σ, hform, hresult⟩
  · rintro ⟨σ, hform, hresult⟩
    refine ⟨_, _, σ, rfl, hform, ?_⟩
    rw [subst_variable, hresult]

section Projection

variable {n : Nat} {symbol constructor : String} {names : Fin n → String}

/-- Values that are equal where the names are can be put in the places of the names. -/
theorem exists_assignment (hsymbol : ∀ i, symbol ≠ "$" ++ names i)
    (hconstructor : ∀ i, constructor ≠ "$" ++ names i) {values : Fin n → Form}
    (h : ∀ i j, names i = names j → values i = values j) :
    ∃ σ : String → Form, σ symbol = .atom symbol ∧ σ constructor = .atom constructor
      ∧ ∀ i, σ ("$" ++ names i) = values i := by
  classical
  refine ⟨fun x => if hx : ∃ i, x = "$" ++ names i then values hx.choose else .atom x, ?_, ?_, ?_⟩
  · exact dif_neg fun ⟨i, hi⟩ => hsymbol i hi
  · exact dif_neg fun ⟨i, hi⟩ => hconstructor i hi
  · intro i
    have hx : ∃ j, "$" ++ names i = "$" ++ names j := ⟨i, rfl⟩
    have hname : names i = names hx.choose := by
      simpa [← String.toList_inj] using hx.choose_spec
    exact (dif_pos hx).trans (h i hx.choose hname).symm

/-- The equation of an accessor applies to the values that are equal wherever two variables have
the same name, and gives the value in the place of its own variable. -/
theorem rewrites_projects_iff (hsymbol : ∀ i, symbol ≠ "$" ++ names i)
    (hconstructor : ∀ i, constructor ≠ "$" ++ names i) (k : Fin n) (values : Fin n → Form)
    (result : Form) :
    (projects symbol constructor (List.ofFn names) (names k)).Rewrites
        (call symbol constructor (List.ofFn values)) result
      ↔ (∀ i j, names i = names j → values i = values j) ∧ result = values k := by
  rw [rewrites_projects]
  constructor
  · rintro ⟨σ, hform, rfl⟩
    rw [subst_call, call] at hform
    have hvalues : (List.ofFn names).map (fun x => σ ("$" ++ x)) = List.ofFn values := by
      injection hform with hitems
      injection hitems with _ hitems
      injection hitems with hitems
      injection hitems with hitems
      injection hitems
    rw [List.map_ofFn] at hvalues
    have hvalue (i : Fin n) : σ ("$" ++ names i) = values i :=
      congrFun (List.ofFn_injective hvalues) i
    refine ⟨?_, hvalue k⟩
    intro i j hname
    rw [← hvalue i, ← hvalue j, hname]
  · rintro ⟨hequal, rfl⟩
    obtain ⟨σ, hfirst, hsecond, hvalue⟩ := exists_assignment hsymbol hconstructor hequal
    refine ⟨σ, ?_, hvalue k⟩
    rw [subst_call, subst_atom_of_fixed hfirst, subst_atom_of_fixed hsecond, call,
      ← Function.comp_def σ, ← List.map_map, List.map_ofFn, List.map_ofFn]
    simp only [Function.comp_def, hvalue]

/-- The equation of an accessor gives the value in the place of its variable for all values exactly
if its variables have different names. -/
theorem projects_all_iff (hsymbol : ∀ i, symbol ≠ "$" ++ names i)
    (hconstructor : ∀ i, constructor ≠ "$" ++ names i) (k : Fin n) :
    (∀ (values : Fin n → Form) (result : Form),
        (projects symbol constructor (List.ofFn names) (names k)).Rewrites
          (call symbol constructor (List.ofFn values)) result ↔ result = values k)
      ↔ Function.Injective names := by
  constructor
  · intro h i j hname
    by_contra hne
    -- Two variables of one name cannot take two different values.
    have hrewrites := (h (fun l => if l = i then .atom "a" else .atom "b") _).2 rfl
    rw [rewrites_projects_iff hsymbol hconstructor] at hrewrites
    have hequal := hrewrites.1 i j hname
    rw [if_pos rfl, if_neg (Ne.symm hne)] at hequal
    injection hequal with hequal
    exact absurd hequal (by decide)
  · intro hinjective values result
    rw [rewrites_projects_iff hsymbol hconstructor]
    exact and_iff_right fun i j hname => congrArg values (hinjective hname)

end Projection

end Form

/-! ## Equations in a document -/

/-- What stands among entries stands in their text. -/
theorem Entry.exists_textAll_eq {entry : Entry} {entries : List Entry} (h : entry ∈ entries) :
    ∃ before after : String, textAll entries = before ++ entry.text ++ after := by
  induction entries with
  | nil => cases h
  | cons first rest ih =>
    rcases List.mem_cons.1 h with rfl | h
    · exact ⟨"", textAll rest, by simp [textAll]⟩
    · obtain ⟨before, after, htext⟩ := ih h
      exact ⟨first.text ++ before, after, by simp [textAll, htext, String.append_assoc]⟩

namespace Translation

/-- The symbol of the accessor of a field. -/
def accessorName (t : Translation) (message field : String) : String :=
  t.symbol message ++ "." ++ field

/-- The equation of the accessor of a field. -/
def equation (t : Translation) (message : Message) (field : Field) : Entry :=
  .project (t.accessorName message.name field.name) (t.constructorName message.name)
    (message.fields.map (·.name)) field.name

/-- What the equation of the accessor of a field says. -/
def projection (t : Translation) (message : Message) (field : Field) : Form :=
  projects (t.accessorName message.name field.name) (t.constructorName message.name)
    (message.fields.map (·.name)) field.name

/-- The accessor of a field applied to what the constructor makes of some values. -/
def access (t : Translation) (message : Message) (field : Field) (values : List Form) : Form :=
  call (t.accessorName message.name field.name) (t.constructorName message.name) values

theorem equation_mem_fieldEntries (t : Translation) {message : Message} {field : Field}
    (h : field ∈ message.fields) :
    t.equation message field ∈ t.fieldEntries message.name message.fields := by
  refine List.mem_append_right _ (List.mem_flatMap.2 ⟨field, h, ?_⟩)
  simp [accessorEntries, equation, accessorName]

theorem mem_nestedEntries {t : Translation} {entry : Entry} {messages : List (String × Message)} :
    entry ∈ t.nestedEntries messages ↔ ∃ p ∈ messages, entry ∈ t.messageEntries p.2 := by
  induction messages with
  | nil => simp [nestedEntries]
  | cons p messages ih => simp [nestedEntries, ih]

/-- The constructor and the accessors of a message are among the entries of every message that it
is inside of. -/
theorem mem_messageEntries (t : Translation) {entry : Entry} (message : Message) :
    ∀ m ∈ message.withNested, entry ∈ t.fieldEntries m.name m.fields →
      entry ∈ t.messageEntries message := by
  induction message using Message.nestedInduction with
  | inner message ih =>
    intro m hm hentry
    obtain ⟨name, fullName, fields, messages, enums, ascending⟩ := message
    rw [messageEntries]
    rcases Message.mem_withNested.1 hm with rfl | ⟨p, hp, hm⟩
    · exact List.mem_append_right _ hentry
    · have hnested : entry ∈ t.nestedEntries messages :=
        mem_nestedEntries.2 ⟨p, hp, ih p hp m hm hentry⟩
      simp [hnested]

/-- Every field of a message, at any depth, has its equation in the document. -/
theorem equation_mem_documentEntries (t : Translation) {schema : Schema} {message : Message}
    (hmessage : message ∈ schema.allMessages) {field : Field} (hfield : field ∈ message.fields) :
    t.equation message field ∈ t.documentEntries schema := by
  obtain ⟨p, hp, hmessage⟩ := Message.mem_withNestedAll.1 hmessage
  have hentry := mem_messageEntries t p.2 message hmessage (equation_mem_fieldEntries t hfield)
  have htop : t.equation message field
      ∈ schema.messages.flatMap fun e => Entry.banner e.1 ++ t.messageEntries e.2 :=
    List.mem_flatMap.2 ⟨p, hp, List.mem_append_right _ hentry⟩
  simp [documentEntries, htop]

end Translation

/-! ## Equations that were read from a text -/

theorem Identifier.plain {name : String} (h : Identifier name) : Plain name := fun c hc =>
  forall_isNameChar (P := fun c => Form.isPlain c = true) (by decide +kernel) (h.2 c hc)

theorem Identifier.Path.plain {name : String} (h : Path name) : Plain name := by
  induction h with
  | one h => exact h.plain
  | dot _ h ih => exact (ih.append (by decide)).append h.plain

/-- A name with a dot is not the variable of an identifier. -/
theorem Identifier.ne_variable {symbol name : String} (h : Identifier name)
    (hdot : '.' ∈ symbol.toList) : symbol ≠ "$" ++ name := by
  rintro rfl
  rw [String.toList_append, List.mem_append] at hdot
  exact hdot.elim (by decide) h.dot_not_mem

/-- The prefix of a document can be a part of atoms unless a prefix was chosen that cannot. -/
theorem Translation.plain_ofOptions {schema : Schema} {options : Options}
    (hpackage : schema.packageName = "" ∨ Identifier.Path schema.packageName)
    (hp : Plain options.symbolPrefix) : Plain (ofOptions schema options).symbolPrefix := by
  by_cases hnone : options.symbolPrefix = ""
  · have hchosen : (ofOptions schema options).symbolPrefix = schema.packageName := if_pos hnone
    rw [hchosen]
    rcases hpackage with hempty | hpath
    · rw [hempty]
      decide
    · exact hpath.plain
  · have hchosen : (ofOptions schema options).symbolPrefix = options.symbolPrefix := if_neg hnone
    rw [hchosen]
    exact hp

theorem Message.identifier_of_mem_fields {message : Message}
    (h : ∀ n ∈ message.names, Identifier n) {field : Field} (hfield : field ∈ message.fields) :
    Identifier field.name := by
  refine h field.name (List.mem_cons_of_mem _ (List.mem_append_left _ ?_))
  exact List.mem_flatMap.2 ⟨field, hfield, List.mem_cons_self⟩

namespace Translation

theorem map_name_eq_ofFn (m : Message) :
    m.fields.map (·.name) = List.ofFn fun i : Fin m.fields.length => m.fields[i].name := by
  simp

/-- The parameters of a constructor are labelled with the names of the fields. -/
theorem labels_constructorType (t : Translation) (message : String) (fields : List Field) :
    (t.constructorType message fields).params.map (·.label) = fields.map (·.name) := by
  have hchain (params : List Param) (result : String) :
      (FunctionType.chain params result).params = params := by
    induction params with
    | nil => rfl
    | cons p params ih => exact congrArg (p :: ·) ih
  unfold constructorType FunctionType.build
  split
  · simp [hchain]
  · simp [FunctionType.params]

/-- The equation of an accessor is read as what it says if the names are identifiers. -/
theorem read_equation {t : Translation} {message : Message} {field : Field}
    (hp : Plain t.symbolPrefix) (h : ∀ n ∈ message.names, Identifier n)
    (hfield : field ∈ message.fields) :
    Form.read (t.equation message field).text = some [t.projection message field] := by
  have hname : Plain message.name := (h message.name List.mem_cons_self).plain
  have hfields (f : Field) (hf : f ∈ message.fields) : Plain f.name :=
    (message.identifier_of_mem_fields h hf).plain
  have hsymbol : Word (t.accessorName message.name field.name) :=
    .append_left (.append_left (word_symbol hp hname) (by decide)) (hfields field hfield)
  have hconstructor : Word (t.constructorName message.name) :=
    word_symbol hp (.append (by decide) hname)
  have hbinders : ∀ x ∈ message.fields.map (·.name), Plain x := by
    simpa only [List.forall_mem_map] using hfields
  have hlegible : (t.equation message field).Legible :=
    ⟨hsymbol, hconstructor, hbinders, hfields field hfield⟩
  apply Form.read_of_scan
  have hscan := Entry.scan_text hlegible []
  rw [List.append_nil] at hscan
  rw [hscan]
  exact List.append_nil _

section Projection

variable {t : Translation} {m : Message} (h : ∀ n ∈ m.names, Identifier n)
  (k : Fin m.fields.length)

include h

theorem accessorName_ne_variable (field : Field) (i : Fin m.fields.length) :
    t.accessorName m.name field.name ≠ "$" ++ m.fields[i].name := by
  apply Identifier.ne_variable (m.identifier_of_mem_fields h (List.getElem_mem i.2))
  simp [accessorName]

theorem constructorName_ne_variable (i : Fin m.fields.length) :
    t.constructorName m.name ≠ "$" ++ m.fields[i].name := by
  apply Identifier.ne_variable (m.identifier_of_mem_fields h (List.getElem_mem i.2))
  simp [constructorName, symbol]

/-- An accessor applies to the values that are equal wherever two fields have the same name, and
gives the value of its field. -/
theorem rewrites_projection_iff (values : Fin m.fields.length → Form) (result : Form) :
    (t.projection m m.fields[k]).Rewrites (t.access m m.fields[k] (List.ofFn values)) result
      ↔ (∀ i j : Fin m.fields.length, m.fields[i].name = m.fields[j].name → values i = values j)
        ∧ result = values k := by
  unfold projection access
  rw [map_name_eq_ofFn]
  exact rewrites_projects_iff (accessorName_ne_variable h _) (constructorName_ne_variable h) k
    values result

/-- An accessor gives the value of its field for all values exactly if no two fields have the same
name. -/
theorem rewrites_projection_all_iff :
    (∀ (values : Fin m.fields.length → Form) (result : Form),
        (t.projection m m.fields[k]).Rewrites (t.access m m.fields[k] (List.ofFn values)) result
          ↔ result = values k)
      ↔ (m.fields.map (·.name)).Nodup := by
  unfold projection access
  rw [map_name_eq_ofFn, List.nodup_ofFn]
  exact projects_all_iff (accessorName_ne_variable h _) (constructorName_ne_variable h) k

end Projection

end Translation

/-- The accessors in the document of a text.  The equation of every field, at any depth, stands in
the document and is read as a rule whose variables are in the order of the parameters of the
constructor.  Applied to what the constructor makes of some values, the rule gives the value of the
field and nothing else, if the values are equal wherever two fields have the same name; otherwise
it does not apply.  So it gives the value of the field for all values exactly if no two fields have
the same name.  Nothing keeps a text from giving two fields one name under different numbers. -/
theorem Schema.accessor_yields {name source : String} {schema : Schema}
    (h : Schema.parse name source = .ok schema) (options : Options) {m : Message}
    (hm : m ∈ schema.allMessages) (k : Fin m.fields.length) :
    let t := Translation.ofOptions schema options
    let field := m.fields[k]
    (∃ before after : String,
        schema.toMetta options = before ++ (t.equation m field).text ++ after)
      ∧ (Plain options.symbolPrefix →
          Form.read (t.equation m field).text = some [t.projection m field])
      ∧ (t.constructorType m.name m.fields).params.map (·.label) = m.fields.map (·.name)
      ∧ (∀ (values : Fin m.fields.length → Form) (result : Form),
          (t.projection m field).Rewrites (t.access m field (List.ofFn values)) result
            ↔ (∀ i j : Fin m.fields.length,
                m.fields[i].name = m.fields[j].name → values i = values j) ∧ result = values k)
      ∧ ((∀ (values : Fin m.fields.length → Form) (result : Form),
            (t.projection m field).Rewrites (t.access m field (List.ofFn values)) result
              ↔ result = values k)
          ↔ (m.fields.map (·.name)).Nodup) := by
  intro t field
  obtain ⟨hpackage, hnames⟩ := Schema.parse_identified h
  have hfield : field ∈ m.fields := List.getElem_mem k.2
  refine ⟨?_, ?_, ?_, ?_, ?_⟩
  · exact Entry.exists_textAll_eq (t.equation_mem_documentEntries hm hfield)
  · intro hp
    exact Translation.read_equation (Translation.plain_ofOptions hpackage hp) (hnames m hm) hfield
  · exact t.labels_constructorType m.name m.fields
  · exact Translation.rewrites_projection_iff (hnames m hm) k
  · exact Translation.rewrites_projection_all_iff (hnames m hm) k

/-- A message with two fields of one name. -/
def Schema.doubledSource : String :=
  "message A \x7b optional int32 x = 1; optional int32 x = 2; \x7d"

/-- That message. -/
def Message.doubled : Message where
  name := "A"
  fullName := "A"
  fields := [⟨"x", 1, .optional, .scalar .int32⟩, ⟨"x", 2, .optional, .scalar .int32⟩]
  messages := []
  enums := []

/-- The schema of that text. -/
def Schema.doubledSchema : Schema where
  name := "a.proto"
  dialect := .proto2
  package := none
  imports := []
  messages := [("A", .doubled)]
  enums := []
  services := []

/-- The accessor of a field does not give the value of the field if another one has its name. -/
theorem Schema.accessor_yields_doubled :
    Schema.parse "a.proto" doubledSource = .ok doubledSchema
      ∧ Message.doubled ∈ doubledSchema.allMessages
      ∧ ¬ ∀ (values : Fin 2 → Form) (result : Form),
          (Translation.projection ⟨"", false⟩ .doubled Message.doubled.fields[0]).Rewrites
              (Translation.access ⟨"", false⟩ .doubled Message.doubled.fields[0]
                (List.ofFn values)) result
            ↔ result = values 0 := by
  have hparse : Schema.parse "a.proto" doubledSource = .ok doubledSchema := by decide +kernel
  have hmessage : Message.doubled ∈ doubledSchema.allMessages := List.mem_singleton.2 rfl
  obtain ⟨-, -, -, -, hall⟩ := Schema.accessor_yields hparse {} hmessage ⟨0, by decide⟩
  refine ⟨hparse, hmessage, ?_⟩
  intro hprojects
  have hnodup : (Message.doubled.fields.map (·.name)).Nodup := hall.1 hprojects
  exact absurd hnodup (by decide)

end MettaSchema
