import MettaSchema.Metta.Document
import MettaSchema.Proofs.Metta.Forms
import MettaSchema.Proofs.Schema.Messages

/-!
# What a document says

The document of a schema, read as MeTTa, is a sequence of forms: for every message its type,
what is declared inside it, its constructor, and an accessor with its equation for each field;
for every method its type.

* `FunctionType.form`, `Entry.forms` — what types and entries say.
* `Entry.scan_textAll` — entries are read as what they say, one behind the other.
* `Schema.Legible` — no name can be taken for something else than an atom, and no title of a
  comment for something else than a comment.
* `Translation.schemaForms` — what the document of a schema should say.
* `Schema.read_document` — that is what it says.
-/

namespace MettaSchema

open Form

/-! ## Words and lines -/

/-- Whether no character of a text can end an atom. -/
def Form.Plain (text : String) : Prop := ∀ c ∈ text.toList, isPlain c = true

/-- Whether a text is one atom. -/
def Form.Word (text : String) : Prop := Plain text ∧ text ≠ ""

/-- Whether a text stays on its line. -/
def Form.Line (text : String) : Prop := '\n' ∉ text.toList

instance (text : String) : Decidable (Plain text) :=
  decidable_of_iff (text.toList.all isPlain = true) List.all_eq_true

instance (text : String) : Decidable (Word text) :=
  inferInstanceAs (Decidable (Plain text ∧ text ≠ ""))

instance (text : String) : Decidable (Line text) :=
  inferInstanceAs (Decidable ('\n' ∉ text.toList))

theorem Form.Plain.append {a b : String} (ha : Plain a) (hb : Plain b) : Plain (a ++ b) := by
  intro c hc
  rw [String.toList_append, List.mem_append] at hc
  exact hc.elim (ha c) (hb c)

theorem Form.Plain.line {text : String} (h : Plain text) : Line text := fun hmem =>
  absurd (h '\n' hmem) (by decide)

theorem Form.Line.append {a b : String} (ha : Line a) (hb : Line b) : Line (a ++ b) := by
  rw [Line, String.toList_append, List.mem_append]
  exact not_or.2 ⟨ha, hb⟩

theorem Form.Word.append_left {a b : String} (ha : Word a) (hb : Plain b) : Word (a ++ b) := by
  refine ⟨ha.1.append hb, fun h => ha.2 ?_⟩
  have hlist := congrArg String.toList h
  rw [String.toList_append, String.toList_empty, List.append_eq_nil_iff] at hlist
  exact String.toList_eq_nil_iff.1 hlist.1

theorem Form.Word.append_right {a b : String} (ha : Plain a) (hb : Word b) : Word (a ++ b) := by
  refine ⟨ha.append hb.1, fun h => hb.2 ?_⟩
  have hlist := congrArg String.toList h
  rw [String.toList_append, String.toList_empty, List.append_eq_nil_iff] at hlist
  exact String.toList_eq_nil_iff.1 hlist.2

/-- An atom is read up to the character that ends it. -/
theorem Form.Word.scan {text : String} (h : Word text) {c : Char} (hc : isPlain c = false)
    (s : List Char) :
    scan .between (text.toList ++ c :: s) = .atom text :: scan .between (c :: s) := by
  have hne : text.toList ≠ [] := fun hnil => h.2 (String.toList_eq_nil_iff.1 hnil)
  simpa using scan_word hne h.1 hc s

/-! ## Forms of a document -/

/-- The type of a symbol. -/
def Form.declares (symbol : String) (type : Form) : Form :=
  .list [.atom ":", .atom symbol, type]

/-- The equation of an accessor, which takes one of the variables that a constructor was applied
to. -/
def Form.projects (symbol constructor : String) (binders : List String) (chosen : String) : Form :=
  .list [.atom "=",
    .list [.atom symbol, .list (.atom constructor :: binders.map fun x => .atom ("$" ++ x))],
    .atom ("$" ++ chosen)]

/-! ## Types -/

/-- What a type says. -/
def FunctionType.form : FunctionType → Form
  | atom name => .atom name
  | arrow ps rest => .list (.atom "->" :: (ps.map (fun p => Form.atom p.type) ++ [rest.form]))

/-- Whether the names in a type are atoms and the labels stay on their lines. -/
def FunctionType.Legible : FunctionType → Prop
  | atom name => Word name
  | arrow ps rest => (∀ p ∈ ps, Word p.type ∧ Line p.label) ∧ rest.Legible

namespace FunctionType

theorem scan_arrow {c : Char} (hc : isPlain c = false) (s : List Char) :
    scan .between ('-' :: '>' :: c :: s) = .atom "->" :: scan .between (c :: s) := by
  have hword : Word "->" := ⟨by decide, by decide⟩
  simpa using hword.scan hc s

theorem paramsLine_begins (ps : List Param) (s : List Char) :
    ∃ s', (paramsLine ps).toList ++ ' ' :: s = ' ' :: s' := by
  cases ps with
  | nil => exact ⟨s, rfl⟩
  | cons p ps => exact ⟨p.type.toList ++ ((paramsLine ps).toList ++ ' ' :: s), by simp [paramsLine]⟩

theorem scan_paramsLine {ps : List Param} (h : ∀ p ∈ ps, Word p.type) (s : List Char) :
    scan .between ((paramsLine ps).toList ++ ' ' :: s)
      = ps.map (fun p => Token.atom p.type) ++ scan .between (' ' :: s) := by
  induction ps with
  | nil => rfl
  | cons p ps ih =>
    have hp := h p (by simp)
    have hps := ih fun q hq => h q (by simp [hq])
    obtain ⟨s', hs'⟩ := paramsLine_begins ps s
    have hspace : isPlain ' ' = false := rfl
    simp only [paramsLine, String.toList_append, List.append_assoc]
    rw [hs'] at hps ⊢
    rw [show " ".toList = [' '] from rfl, List.singleton_append, scan_space, hp.scan hspace, hps]
    rfl

theorem tokensAll_atoms (ps : List Param) :
    tokensAll (ps.map fun p => Form.atom p.type) = ps.map fun p => Token.atom p.type := by
  induction ps with
  | nil => rfl
  | cons p ps ih => simp [tokensAll, tokens, ih]

theorem tokens_form_arrow (ps : List Param) (rest : FunctionType) :
    (arrow ps rest).form.tokens
      = .opens :: .atom "->"
        :: (ps.map (fun p => Token.atom p.type) ++ rest.form.tokens ++ [.closes]) := by
  simp [form, tokens, tokensAll, tokensAll_atoms]

/-- A type on one line is read as what it says. -/
theorem scan_line {t : FunctionType} (h : t.Legible) {c : Char} (hc : isPlain c = false)
    (s : List Char) :
    scan .between (t.line.toList ++ c :: s) = t.form.tokens ++ scan .between (c :: s) := by
  induction t generalizing c s with
  | atom name => exact h.scan hc s
  | arrow ps rest ih =>
    have hclose : isPlain ')' = false := rfl
    have hrest := ih h.2 hclose (c :: s)
    have hparams := scan_paramsLine (fun p hp => (h.1 p hp).1) (rest.line.toList ++ ')' :: c :: s)
    obtain ⟨s', hs'⟩ := paramsLine_begins ps (rest.line.toList ++ ')' :: c :: s)
    have hspace : isPlain ' ' = false := rfl
    have htext : (arrow ps rest).line.toList ++ c :: s
        = '(' :: '-' :: '>' ::
          ((paramsLine ps).toList ++ ' ' :: (rest.line.toList ++ ')' :: c :: s)) := by
      simp [line]
    rw [htext, hs', scan_opens, scan_arrow hspace, ← hs', hparams, scan_space, hrest, scan_closes,
      tokens_form_arrow]
    simp

theorem scan_paramLine {p : Param} (h : Word p.type ∧ Line p.label) (s : List Char) :
    scan .between (p.type.toList ++ ' ' :: ';' :: ' ' :: (p.label.toList ++ '\n' :: s))
      = .atom p.type :: scan .between s := by
  have hspace : isPlain ' ' = false := rfl
  have hlabel : '\n' ∉ ' ' :: p.label.toList := by simpa [Line] using h.2
  have hcomment := scan_comment hlabel s
  rw [List.cons_append] at hcomment
  rw [h.1.scan hspace, scan_space, hcomment]

theorem scan_paramsBlock {ps : List Param} (h : ∀ p ∈ ps, Word p.type ∧ Line p.label)
    (s : List Char) :
    scan .between ((paramsBlock ps).toList ++ s)
      = ps.map (fun p => Token.atom p.type) ++ scan .between s := by
  induction ps with
  | nil => rfl
  | cons p ps ih =>
    have hps := ih fun q hq => h q (by simp [hq])
    have hp := scan_paramLine (h p (by simp)) ((paramsBlock ps).toList ++ s)
    have htext : (paramsBlock (p :: ps)).toList ++ s
        = ' ' :: ' ' :: ' ' :: ' ' :: (p.type.toList ++ ' ' :: ';' :: ' ' ::
          (p.label.toList ++ '\n' :: ((paramsBlock ps).toList ++ s))) := by
      simp [paramsBlock]
    rw [htext, scan_space, scan_space, scan_space, scan_space, hp, hps]
    rfl

/-- A type on several lines is read as what it says: its labels are comments. -/
theorem scan_block (chained : Bool) {t : FunctionType} (h : t.Legible) {c : Char}
    (hc : isPlain c = false) (s : List Char) :
    scan .between ((t.block chained).toList ++ c :: s)
      = t.form.tokens ++ scan .between (c :: s) := by
  have hclose : isPlain ')' = false := rfl
  have hspace : isPlain ' ' = false := rfl
  have hline : isPlain '\n' = false := rfl
  induction t generalizing c s with
  | atom name =>
    have htext : ((atom name).block chained).toList ++ c :: s
        = ' ' :: ' ' :: ' ' :: ' ' :: (name.toList ++ c :: s) := by
      simp [block]
    rw [htext, scan_space, scan_space, scan_space, scan_space, h.scan hc]
    rfl
  | arrow ps rest ih =>
    have hrest := ih h.2 hclose (c :: s)
    -- An arrow is chained only if it has one parameter, which then stands on its line.
    by_cases hchained : chained = true ∧ ∃ p, ps = [p]
    · obtain ⟨rfl, p, rfl⟩ := hchained
      have hp := scan_paramLine (h.1 p (by simp)) ((rest.block true).toList ++ ')' :: c :: s)
      have htext : ((arrow [p] rest).block true).toList ++ c :: s
          = ' ' :: ' ' :: ' ' :: '(' :: '-' :: '>' :: ' ' :: (p.type.toList ++ ' ' :: ';' :: ' ' ::
            (p.label.toList ++ '\n' :: ((rest.block true).toList ++ ')' :: c :: s))) := by
        simp [block]
      rw [htext, scan_space, scan_space, scan_space, scan_opens, scan_arrow hspace, scan_space, hp,
        hrest, scan_closes, tokens_form_arrow]
      simp
    · have hps := scan_paramsBlock h.1 ((rest.block chained).toList ++ ')' :: c :: s)
      have htext : ((arrow ps rest).block chained).toList ++ c :: s
          = ' ' :: ' ' :: ' ' :: '(' :: '-' :: '>' :: '\n' ::
            ((paramsBlock ps).toList ++ ((rest.block chained).toList ++ ')' :: c :: s)) := by
        match ps with
        | [] => simp [block]
        | [p] =>
          have hfalse : chained = false := by simpa using hchained
          simp [block, hfalse]
        | _ :: _ :: _ => simp [block]
      rw [htext, scan_space, scan_space, scan_space, scan_opens, scan_arrow hline, scan_newline,
        hps, hrest, scan_closes, tokens_form_arrow]
      simp

end FunctionType

/-! ## Entries -/

namespace Entry

/-- What an entry says. -/
def forms : Entry → List Form
  | rule _ => []
  | comment _ => []
  | emptyLine => []
  | declare symbol type => [declares symbol type.form]
  | construct symbol _ type => [declares symbol type.form]
  | project symbol constructor binders chosen => [projects symbol constructor binders chosen]

/-- Whether the names in an entry are atoms and the texts of comments stay on their lines. -/
def Legible : Entry → Prop
  | rule _ => True
  | comment text => Line text
  | emptyLine => True
  | declare symbol type => Word symbol ∧ type.Legible
  | construct symbol _ type => Word symbol ∧ type.Legible
  | project symbol constructor binders chosen =>
    Word symbol ∧ Word constructor ∧ (∀ x ∈ binders, Plain x) ∧ Plain chosen

theorem word_variable {x : String} (h : Plain x) : Word ("$" ++ x) :=
  .append_left (by decide) h

theorem scan_colon (s : List Char) :
    scan .between (':' :: ' ' :: s) = .atom ":" :: scan .between (' ' :: s) := rfl

theorem scan_equals (s : List Char) :
    scan .between ('=' :: ' ' :: s) = .atom "=" :: scan .between (' ' :: s) := rfl

/-- Variables on lines of their own are read as atoms. -/
theorem scan_variableLines {xs : List String} (h : ∀ x ∈ xs, Plain x) {c : Char}
    (hc : isPlain c = false) (s : List Char) :
    scan .between ((variableLines xs).toList ++ c :: s)
      = tokensAll (xs.map fun x => .atom ("$" ++ x)) ++ scan .between (c :: s) := by
  have hline : isPlain '\n' = false := rfl
  fun_induction variableLines xs with
  | case1 => rfl
  | case2 x =>
    have hx := (word_variable (h x (by simp))).scan hc s
    have htext : ("     $" ++ x).toList ++ c :: s
        = ' ' :: ' ' :: ' ' :: ' ' :: ' ' :: (("$" ++ x).toList ++ c :: s) := by
      simp
    rw [htext, scan_space, scan_space, scan_space, scan_space, scan_space, hx]
    rfl
  | case3 x y rest ih =>
    have hrest := ih fun z hz => h z (by simp [hz])
    have hx := (word_variable (h x (by simp))).scan hline
      ((variableLines (y :: rest)).toList ++ c :: s)
    have htext : ("     $" ++ x ++ "\n" ++ variableLines (y :: rest)).toList ++ c :: s
        = ' ' :: ' ' :: ' ' :: ' ' :: ' ' :: (("$" ++ x).toList ++
          '\n' :: ((variableLines (y :: rest)).toList ++ c :: s)) := by
      simp
    rw [htext, scan_space, scan_space, scan_space, scan_space, scan_space, hx, scan_newline, hrest]
    rfl

/-- An entry is read as what it says. -/
theorem scan_text {entry : Entry} (h : entry.Legible) (s : List Char) :
    scan .between (entry.text.toList ++ s) = tokensAll entry.forms ++ scan .between s := by
  have hspace : isPlain ' ' = false := rfl
  have hclose : isPlain ')' = false := rfl
  have hline : isPlain '\n' = false := rfl
  cases entry with
  | rule width =>
    cases width with
    | zero => exact scan_newline s
    | succ width =>
      have hsemicolons : '\n' ∉ List.replicate width ';' := by simp [List.mem_replicate]
      have hcomment := scan_comment hsemicolons s
      have htext : (rule (width + 1)).text.toList ++ s
          = ';' :: (List.replicate width ';' ++ '\n' :: s) := by
        simp [text, List.replicate_succ]
      rw [htext, hcomment]
      rfl
  | comment title =>
    have htitle : '\n' ∉ ';' :: ' ' :: title.toList := by simpa [Legible, Line] using h
    have hcomment := scan_comment htitle s
    have htext : (comment title).text.toList ++ s
        = ';' :: (';' :: ' ' :: title.toList ++ '\n' :: s) := by
      simp [text]
    rw [htext, hcomment]
    rfl
  | emptyLine => exact scan_newline s
  | declare symbol type =>
    have hsymbol := h.1.scan hspace (type.line.toList ++ ')' :: '\n' :: s)
    have htype := FunctionType.scan_line h.2 hclose ('\n' :: s)
    have htext : (declare symbol type).text.toList ++ s = '(' :: ':' :: ' ' :: (symbol.toList ++
        ' ' :: (type.line.toList ++ ')' :: '\n' :: s)) := by
      simp [text]
    rw [htext, scan_opens, scan_colon, scan_space, hsymbol, scan_space, htype, scan_closes,
      scan_newline]
    simp [forms, declares, tokensAll, tokens]
  | construct symbol chained type =>
    have hsymbol := h.1.scan hline ((type.block chained).toList ++ ')' :: '\n' :: s)
    have htype := FunctionType.scan_block chained h.2 hclose ('\n' :: s)
    have htext : (construct symbol chained type).text.toList ++ s = '(' :: ':' :: ' ' ::
        (symbol.toList ++ '\n' :: ((type.block chained).toList ++ ')' :: '\n' :: s)) := by
      simp [text]
    rw [htext, scan_opens, scan_colon, scan_space, hsymbol, scan_newline, htype, scan_closes,
      scan_newline]
    simp [forms, declares, tokensAll, tokens]
  | project symbol constructor binders chosen =>
    obtain ⟨hsymbol, hconstructor, hbinders, hchosen⟩ := h
    have hend := (word_variable hchosen).scan hclose ('\n' :: s)
    have hvariables := scan_variableLines hbinders hclose
      (')' :: ' ' :: (("$" ++ chosen).toList ++ ')' :: '\n' :: s))
    have hname := hconstructor.scan hline ((variableLines binders).toList ++
      ')' :: ')' :: ' ' :: (("$" ++ chosen).toList ++ ')' :: '\n' :: s))
    have hfirst := hsymbol.scan hline (' ' :: ' ' :: ' ' :: ' ' :: '(' :: (constructor.toList ++
      '\n' :: ((variableLines binders).toList ++
        ')' :: ')' :: ' ' :: (("$" ++ chosen).toList ++ ')' :: '\n' :: s))))
    have htext : (project symbol constructor binders chosen).text.toList ++ s
        = '(' :: '=' :: ' ' :: '(' :: (symbol.toList ++ '\n' :: ' ' :: ' ' :: ' ' :: ' ' :: '(' ::
          (constructor.toList ++ '\n' :: ((variableLines binders).toList ++
            ')' :: ')' :: ' ' :: (("$" ++ chosen).toList ++ ')' :: '\n' :: s)))) := by
      simp [text]
    rw [htext, scan_opens, scan_equals, scan_space, scan_opens, hfirst, scan_newline, scan_space,
      scan_space, scan_space, scan_space, scan_opens, hname, scan_newline, hvariables, scan_closes,
      scan_closes, scan_space, hend, scan_closes, scan_newline]
    simp [forms, projects, tokensAll, tokens]

/-- Entries are read as what they say, one behind the other. -/
theorem scan_textAll {entries : List Entry} (h : ∀ entry ∈ entries, entry.Legible) :
    scan .between (textAll entries).toList = tokensAll (entries.flatMap forms) := by
  induction entries with
  | nil => rfl
  | cons entry entries ih =>
    rw [textAll, String.toList_append, scan_text (h entry (by simp)),
      ih fun e he => h e (by simp [he]), List.flatMap_cons, tokensAll_append]

end Entry

/-! ## Legible schemas -/

/-- The local name of the message or the enum that is the type of a field. -/
def FieldType.localName? : FieldType → Option String
  | scalar _ => none
  | message ref => some ref.name
  | enum ref => some ref.name
  | group _ => none

/-- Whether the names in a message can be parts of atoms. -/
structure Message.Legible (message : Message) : Prop where
  /-- Its own name. -/
  name : Plain message.name
  /-- The names of its fields and of their types. -/
  fields : ∀ f ∈ message.fields, Plain f.name ∧ ∀ name ∈ f.type.localName?, Plain name
  /-- The names of the enums inside it and of their values. -/
  enums : ∀ e ∈ message.enums, Plain e.2.name ∧ ∀ v ∈ e.2.values, Plain v.1

/-- Whether the names in a schema can be parts of atoms, and its titles stay on their lines. -/
structure Schema.Legible (schema : Schema) : Prop where
  /-- The names in its messages. -/
  messages : ∀ m ∈ schema.allMessages, m.Legible
  /-- The names of its methods and of what they take and return. -/
  methods : ∀ s ∈ schema.services, ∀ m ∈ s.2.methods,
    Plain m.1 ∧ Plain m.2.input.name ∧ Plain m.2.output.name
  /-- The name of the file. -/
  name : Line schema.name
  /-- The package. -/
  package : Line schema.packageName
  /-- The keys of the messages. -/
  messageKeys : ∀ m ∈ schema.messages, Line m.1
  /-- The keys of the services. -/
  serviceKeys : ∀ s ∈ schema.services, Line s.1

instance (message : Message) : Decidable message.Legible :=
  decidable_of_iff
    (Plain message.name
      ∧ (∀ f ∈ message.fields, Plain f.name ∧ ∀ name ∈ f.type.localName?, Plain name)
      ∧ ∀ e ∈ message.enums, Plain e.2.name ∧ ∀ v ∈ e.2.values, Plain v.1)
    ⟨fun h => ⟨h.1, h.2.1, h.2.2⟩, fun h => ⟨h.name, h.fields, h.enums⟩⟩

/-! ## What the document of a schema should say -/

/-- The type of functions from some types to a further one, which take their arguments all at
once. -/
def Form.flatArrow (types : List String) (result : String) : Form :=
  .list (.atom "->" :: (types.map Form.atom ++ [.atom result]))

/-- The type of functions from some types to a further one, which take one argument after the
other. -/
def Form.curriedArrow : List String → String → Form
  | [], result => .atom result
  | type :: rest, result => .list [.atom "->", .atom type, curriedArrow rest result]

namespace Translation

/-- The type of the constructor of a message.  Without fields it is an arrow all the same. -/
def constructorForm (t : Translation) (message : String) (fields : List Field) : Form :=
  if t.curried = true ∧ fields ≠ [] then
    curriedArrow (fields.map t.fieldType) (t.symbol message)
  else flatArrow (fields.map t.fieldType) (t.symbol message)

/-- An enum: its type, and its values. -/
def enumForms (t : Translation) (enum : EnumType) : List Form :=
  declares (t.symbol enum.name) (.atom "Type") ::
    enum.values.map fun v =>
      declares (t.symbol enum.name ++ "." ++ v.1) (.atom (t.symbol enum.name))

/-- The accessor of a field, with its equation. -/
def accessorForms (t : Translation) (message : String) (fields : List Field) (field : Field) :
    List Form :=
  [declares (t.symbol message ++ "." ++ field.name)
     (flatArrow [t.symbol message] (t.fieldType field)),
   projects (t.symbol message ++ "." ++ field.name) (t.symbol ("Mk" ++ message))
     (fields.map (·.name)) field.name]

/-- Fields in ascending order of their numbers. -/
def ascending (fields : List Field) : List Field :=
  fields.mergeSort fun f g => decide (f.number ≤ g.number)

mutual

/-- A message: its type, what is declared inside it, its constructor, and its accessors. -/
def messageForms (t : Translation) : Message → List Form
  | ⟨name, _, fields, messages, enums, _⟩ =>
    declares (t.symbol name) (.atom "Type") ::
      (nestedForms t messages ++ enums.flatMap (fun e => t.enumForms e.2)
        ++ declares (t.symbol ("Mk" ++ name)) (t.constructorForm name (ascending fields))
        :: (ascending fields).flatMap (t.accessorForms name (ascending fields)))

/-- Messages one behind the other. -/
def nestedForms (t : Translation) : List (String × Message) → List Form
  | [] => []
  | (_, message) :: rest => messageForms t message ++ nestedForms t rest

end

/-- The type of a method. -/
def methodForm (t : Translation) (name : String) (method : Method) : Form :=
  declares (t.symbol name) (flatArrow [t.symbol method.input.name] (t.symbol method.output.name))

/-- What the document of a schema should say. -/
def schemaForms (t : Translation) (schema : Schema) : List Form :=
  schema.messages.flatMap (fun m => t.messageForms m.2)
    ++ schema.services.flatMap fun s => s.2.methods.map fun m => t.methodForm m.1 m.2

/-! ## What the entries of a schema say -/

theorem ascending_eq_self {fields : List Field} (h : fields.Pairwise (·.number < ·.number)) :
    ascending fields = fields := by
  refine List.mergeSort_of_pairwise (h.imp fun hlt => ?_)
  simpa using Nat.le_of_lt hlt

theorem form_chain (params : List Param) (result : String) :
    (FunctionType.chain params result).form = curriedArrow (params.map (·.type)) result := by
  induction params with
  | nil => rfl
  | cons p params ih =>
    rw [List.map_cons, curriedArrow, ← ih]
    rfl

theorem form_flat (params : List Param) (result : String) :
    (FunctionType.arrow params (.atom result)).form = flatArrow (params.map (·.type)) result := by
  simp [FunctionType.form, flatArrow]

theorem form_constructorType (t : Translation) (message : String) (fields : List Field) :
    (t.constructorType message fields).form = t.constructorForm message fields := by
  have htypes : (fields.map fun f => (⟨t.fieldType f, f.name⟩ : Param)).map (·.type)
      = fields.map t.fieldType := by simp
  unfold constructorType FunctionType.build constructorForm
  by_cases h : t.curried = true ∧ fields ≠ []
  · rw [if_pos h, if_pos (by simpa using h), form_chain, htypes]
  · rw [if_neg h, if_neg (by simpa using h), form_flat, htypes]

theorem forms_enumEntries (t : Translation) (enum : EnumType) :
    (t.enumEntries enum).flatMap Entry.forms = t.enumForms enum := by
  simp [enumEntries, enumForms, Entry.forms, FunctionType.form, List.map_eq_flatMap,
    List.flatMap_assoc]

theorem forms_accessorEntries (t : Translation) (message : String) (fields : List Field)
    (field : Field) :
    (t.accessorEntries message fields field).flatMap Entry.forms
      = t.accessorForms message fields field := by
  have harrow := form_flat [⟨t.symbol message, ""⟩] (t.fieldType field)
  simp only [List.map_cons, List.map_nil] at harrow
  simp [accessorEntries, accessorForms, Entry.forms, harrow, constructorName]

theorem forms_fieldEntries (t : Translation) (message : String) (fields : List Field) :
    (t.fieldEntries message fields).flatMap Entry.forms
      = declares (t.symbol ("Mk" ++ message)) (t.constructorForm message fields)
        :: fields.flatMap (t.accessorForms message fields) := by
  simp [fieldEntries, List.flatMap_assoc, forms_accessorEntries, Entry.forms, constructorName,
    form_constructorType]

mutual

/-- What the entries of a message say. -/
theorem forms_messageEntries (t : Translation) :
    ∀ message : Message, (t.messageEntries message).flatMap Entry.forms = t.messageForms message
  | ⟨name, fullName, fields, messages, enums, hascending⟩ => by
    have hfields : ascending fields = fields := ascending_eq_self hascending
    have hnested := forms_nestedEntries t messages
    have henums : (enums.flatMap fun e => t.enumEntries e.2).flatMap Entry.forms
        = enums.flatMap fun e => t.enumForms e.2 := by
      simp only [List.flatMap_assoc, forms_enumEntries]
    simp only [messageEntries, messageForms, List.flatMap_append, hnested, henums, hfields,
      forms_fieldEntries]
    simp [Entry.forms, FunctionType.form]

/-- What the entries of messages say. -/
theorem forms_nestedEntries (t : Translation) :
    ∀ messages : List (String × Message),
      (t.nestedEntries messages).flatMap Entry.forms = t.nestedForms messages
  | [] => rfl
  | (_, message) :: rest => by
    rw [nestedEntries, nestedForms, List.flatMap_append, forms_messageEntries t message,
      forms_nestedEntries t rest]

end

theorem forms_banner (title : String) : (Entry.banner title).flatMap Entry.forms = [] := rfl

theorem forms_headerEntries (t : Translation) (schema : Schema) :
    (t.headerEntries schema).flatMap Entry.forms = [] := by
  unfold headerEntries
  split <;> split <;> rfl

theorem forms_serviceEntries (t : Translation) (service : Service) :
    (t.serviceEntries service).flatMap Entry.forms
      = service.methods.map fun m => t.methodForm m.1 m.2 := by
  have hmethod (name : String) (method : Method) :
      (t.methodEntries name method).flatMap Entry.forms = [t.methodForm name method] := by
    have harrow := form_flat [⟨t.symbol method.input.name, ""⟩] (t.symbol method.output.name)
    simp only [List.map_cons, List.map_nil] at harrow
    simp [methodEntries, methodForm, Entry.forms, harrow]
  simp only [serviceEntries, List.flatMap_assoc, hmethod, List.map_eq_flatMap]

/-- What the entries of a schema say. -/
theorem forms_documentEntries (t : Translation) (schema : Schema) :
    (t.documentEntries schema).flatMap Entry.forms = t.schemaForms schema := by
  simp only [documentEntries, schemaForms, List.flatMap_append, forms_headerEntries, forms_banner,
    forms_messageEntries, List.flatMap_assoc, forms_serviceEntries, List.nil_append, List.append_nil]

/-! ## Legible entries -/

theorem word_symbol {t : Translation} {name : String} (hp : Plain t.symbolPrefix)
    (hname : Plain name) : Word (t.symbol name) := by
  have hdot : Word "." := by decide
  exact (Word.append_right hp hdot).append_left hname

theorem word_mettaName (kind : Kind) : Word kind.mettaName := by
  cases kind <;> decide

theorem word_fieldType {t : Translation} {field : Field} (hp : Plain t.symbolPrefix)
    (h : ∀ name ∈ field.type.localName?, Plain name) : Word (t.fieldType field) := by
  unfold fieldType
  split
  · rename_i ref htype
    exact word_symbol hp (h ref.name (by simp [htype, FieldType.localName?]))
  · rename_i ref htype
    exact word_symbol hp (h ref.name (by simp [htype, FieldType.localName?]))
  · exact word_mettaName _
  · exact word_mettaName _

theorem line_define {title text : String} (htitle : Plain title) (htext : Line text) :
    Line ("Define " ++ title ++ text) :=
  .append (.append (by decide) htitle.line) htext

theorem legible_build {params : List Param} {result : String} {curried : Bool}
    (hparams : ∀ p ∈ params, Word p.type ∧ Line p.label) (hresult : Word result) :
    (FunctionType.build params result curried).Legible := by
  have hchain : (FunctionType.chain params result).Legible := by
    induction params with
    | nil => exact hresult
    | cons p params ih =>
      refine ⟨fun q hq => ?_, ih fun q hq => hparams q (by simp [hq])⟩
      obtain rfl : q = p := by simpa using hq
      exact hparams q (by simp)
  unfold FunctionType.build
  split
  · exact hchain
  · exact ⟨hparams, hresult⟩

theorem legible_enumEntries {t : Translation} {enum : EnumType} (hp : Plain t.symbolPrefix)
    (hname : Plain enum.name) (hvalues : ∀ v ∈ enum.values, Plain v.1) :
    ∀ entry ∈ t.enumEntries enum, entry.Legible := by
  have htype := word_symbol hp hname
  have hvalue (v : String × Int) (hv : v ∈ enum.values) :
      Word (t.symbol enum.name ++ "." ++ v.1) :=
    .append_left (.append_left htype (by decide)) (hvalues v hv)
  simp only [enumEntries, List.forall_mem_append, List.forall_mem_cons, List.forall_mem_map]
  refine ⟨⟨⟨?_, ?_, trivial, ?_, nofun⟩, ?_⟩, trivial, nofun⟩
  · exact line_define htype.1 (by decide)
  · exact ⟨htype, (by decide : Word "Type")⟩
  · exact line_define htype.1 (by decide)
  · exact fun v hv => ⟨hvalue v hv, htype⟩

theorem legible_fieldEntries {t : Translation} {message : String} {fields : List Field}
    (hp : Plain t.symbolPrefix) (hname : Plain message)
    (hfields : ∀ f ∈ fields, Plain f.name ∧ ∀ name ∈ f.type.localName?, Plain name) :
    ∀ entry ∈ t.fieldEntries message fields, entry.Legible := by
  have htype := word_symbol hp hname
  have hconstructor : Word (t.constructorName message) :=
    word_symbol hp (.append (by decide) hname)
  have hfunction : (t.constructorType message fields).Legible := by
    refine legible_build (fun p hp' => ?_) htype
    obtain ⟨f, hf, rfl⟩ := List.mem_map.1 hp'
    exact ⟨word_fieldType hp (hfields f hf).2, (hfields f hf).1.line⟩
  have haccessor (f : Field) (hf : f ∈ fields) :
      ∀ entry ∈ t.accessorEntries message fields f, entry.Legible := by
    have hsymbol : Word (t.symbol message ++ "." ++ f.name) :=
      .append_left (.append_left htype (by decide)) (hfields f hf).1
    simp only [accessorEntries, List.forall_mem_cons]
    refine ⟨?_, ⟨hsymbol, ?_⟩, ⟨hsymbol, hconstructor, ?_, (hfields f hf).1⟩, trivial, nofun⟩
    · exact Line.append (by decide) hsymbol.1.line
    · exact ⟨by simpa using ⟨htype, by decide⟩, word_fieldType hp (hfields f hf).2⟩
    · simp only [List.forall_mem_map]
      exact fun g hg => (hfields g hg).1
  simp only [fieldEntries, List.forall_mem_append, List.forall_mem_cons, List.forall_mem_flatMap]
  refine ⟨⟨?_, ⟨hconstructor, hfunction⟩, trivial, ?_, trivial, nofun⟩, haccessor⟩
  · exact line_define htype.1 (by decide)
  · exact line_define htype.1 (by decide)

mutual

theorem legible_messageEntries {t : Translation} (hp : Plain t.symbolPrefix) :
    ∀ message : Message, (∀ m ∈ message.withNested, m.Legible) →
      ∀ entry ∈ t.messageEntries message, entry.Legible
  | ⟨name, fullName, fields, messages, enums, ascending⟩, h => by
    simp only [Message.withNested, List.forall_mem_cons] at h
    obtain ⟨hown, hnested⟩ := h
    have htype := word_symbol hp hown.name
    have henum (e : String × EnumType) (he : e ∈ enums) :
        ∀ entry ∈ t.enumEntries e.2, entry.Legible :=
      legible_enumEntries hp (hown.enums e he).1 (hown.enums e he).2
    simp only [messageEntries, List.forall_mem_append, List.forall_mem_cons,
      List.forall_mem_flatMap]
    refine ⟨⟨⟨⟨?_, ⟨htype, ?_⟩, trivial, nofun⟩, ?_⟩, henum⟩, ?_⟩
    · exact line_define htype.1 (by decide)
    · exact (by decide : Word "Type")
    · exact legible_nestedEntries hp messages hnested
    · exact legible_fieldEntries hp hown.name hown.fields

theorem legible_nestedEntries {t : Translation} (hp : Plain t.symbolPrefix) :
    ∀ messages : List (String × Message), (∀ m ∈ Message.withNestedAll messages, m.Legible) →
      ∀ entry ∈ t.nestedEntries messages, entry.Legible
  | [], _ => nofun
  | (_, message) :: rest, h => by
    simp only [Message.withNestedAll, List.forall_mem_append] at h
    simp only [nestedEntries, List.forall_mem_append]
    exact ⟨legible_messageEntries hp message h.1, legible_nestedEntries hp rest h.2⟩

end

theorem legible_banner {title : String} (h : Line title) :
    ∀ entry ∈ Entry.banner title, entry.Legible := by
  simp only [Entry.banner, List.forall_mem_cons]
  exact ⟨trivial, h.append (by decide), trivial, trivial, nofun⟩

theorem legible_headerEntries {t : Translation} {schema : Schema} (hp : Plain t.symbolPrefix)
    (h : schema.Legible) : ∀ entry ∈ t.headerEntries schema, entry.Legible := by
  have hdialect : Line schema.dialect.name := by cases schema.dialect <;> decide
  simp only [headerEntries, List.forall_mem_append, List.forall_mem_cons]
  refine ⟨⟨⟨⟨trivial, ?_, trivial, ?_, ?_, nofun⟩, ?_⟩, ?_⟩, trivial, trivial, nofun⟩
  · exact (by decide : Line "MeTTa representation, generated by protobuf-metta")
  · exact Line.append (by decide) h.name
  · exact Line.append (by decide) hdialect
  · split
    · nofun
    · simp only [List.forall_mem_cons]
      exact ⟨Line.append (by decide) h.package, nofun⟩
  · split
    · nofun
    · simp only [List.forall_mem_cons]
      exact ⟨Line.append (by decide) hp.line, nofun⟩

theorem legible_serviceEntries {t : Translation} {service : Service} (hp : Plain t.symbolPrefix)
    (h : ∀ m ∈ service.methods, Plain m.1 ∧ Plain m.2.input.name ∧ Plain m.2.output.name) :
    ∀ entry ∈ t.serviceEntries service, entry.Legible := by
  simp only [serviceEntries, List.forall_mem_flatMap]
  intro m hm
  obtain ⟨hname, hinput, houtput⟩ := h m hm
  have hsymbol := word_symbol hp hname
  simp only [methodEntries, List.forall_mem_cons]
  refine ⟨?_, ⟨hsymbol, ?_, word_symbol hp houtput⟩, trivial, nofun⟩
  · exact line_define hsymbol.1 (by decide)
  · simpa using ⟨word_symbol hp hinput, (by decide : Line "")⟩

/-- In the document of a legible schema all entries are legible. -/
theorem legible_documentEntries {t : Translation} {schema : Schema} (hp : Plain t.symbolPrefix)
    (h : schema.Legible) : ∀ entry ∈ t.documentEntries schema, entry.Legible := by
  have hmessage (m : String × Message) (hm : m ∈ schema.messages) :
      ∀ entry ∈ t.messageEntries m.2, entry.Legible :=
    legible_messageEntries hp m.2 fun n hn =>
      h.messages n (Message.mem_withNestedAll.2 ⟨m, hm, hn⟩)
  simp only [documentEntries, List.forall_mem_append, List.forall_mem_flatMap]
  refine ⟨⟨⟨⟨legible_headerEntries hp h, legible_banner (by decide)⟩, fun m hm => ?_⟩,
    legible_banner (by decide)⟩, fun s hs => ?_⟩
  · exact ⟨legible_banner (h.messageKeys m hm), hmessage m hm⟩
  · exact ⟨legible_banner (h.serviceKeys s hs), legible_serviceEntries hp (h.methods s hs)⟩

end Translation

/-! ## Documents -/

/-- The document of a schema, read as MeTTa, is the sequence of forms that the schema stands for,
for every prefix and with flat and with curried constructors. -/
theorem Schema.read_document (t : Translation) (schema : Schema) (hp : Plain t.symbolPrefix)
    (hlegible : schema.Legible) :
    Form.read (t.document schema) = some (t.schemaForms schema) := by
  have hentries := Translation.legible_documentEntries hp hlegible
  apply Form.read_of_scan
  rw [Translation.document, Entry.scan_textAll hentries, Translation.forms_documentEntries]

/-- A message with an enum inside it and two fields, and a service. -/
def Schema.shelf : Schema where
  name := "shelf.proto"
  dialect := .proto3
  package := some "shelf"
  imports := []
  messages := [("Book",
    { name := "Book"
      fullName := "shelf.Book"
      fields :=
        [⟨"kind", 1, .optional, .enum ⟨"Kind", "shelf.Book.Kind"⟩⟩,
         ⟨"pages", 2, .repeated, .scalar .int32⟩]
      messages := []
      enums := [("Kind", ⟨"Kind", "shelf.Book.Kind", [("NOVEL", 0), ("POEMS", 1)]⟩)] })]
  enums := []
  services := [("Shelf", ⟨"Shelf", "shelf.Shelf",
    [("Put", ⟨"Put", ⟨"Book", "shelf.Book"⟩, ⟨"Book", "shelf.Book"⟩, false, true⟩)]⟩)]

/-- The constructor of a message with two fields takes them one after the other. -/
theorem Schema.read_document_shelf :
    Plain "s" ∧ shelf.Legible ∧
      Form.read (Translation.document ⟨"s", true⟩ shelf)
        = some (Translation.schemaForms ⟨"s", true⟩ shelf) := by
  have hplain : Plain "s" := by decide
  have hlegible : shelf.Legible := by constructor <;> decide
  exact ⟨hplain, hlegible, Schema.read_document ⟨"s", true⟩ shelf hplain hlegible⟩

end MettaSchema
