import Mathlib.Algebra.BigOperators.Group.List.Lemmas
import Mathlib.Algebra.Group.Pi.Lemmas
import Mathlib.Tactic.Abel
import MettaSchema.Proofs.Grammar.Sites
import MettaSchema.Proofs.Schema.Stages

/-!
# Counting declarations

How many messages, fields, enums, values, services and methods a text declares: as it is read,
as statements and as declarations.  The three counts agree.

* `Part`, `Tally` — what is counted, and how many there are of each.
* `Rule.tally`, `Tree.tallyAll` — what the rules in a tree declare, those inside `extend` apart.
* `Statement.tally_ofTree?`, `Statement.tally_declare` — each step keeps the count.
* `FileDecl.tally_parse` — what a file declares is what is written in its text.
-/

namespace MettaSchema

/-- What is counted. -/
inductive Part where
  /-- Messages. -/
  | message
  /-- Fields of messages. -/
  | field
  /-- Enums. -/
  | enum
  /-- Values of enums. -/
  | value
  /-- Services. -/
  | service
  /-- Methods of services. -/
  | method
  deriving DecidableEq, Repr

/-- How many parts of each kind there are. -/
abbrev Tally := Part → Nat

/-- Some parts of one kind. -/
def Part.times (part : Part) (n : Nat) : Tally :=
  fun counted => if counted = part then n else 0

namespace Part

theorem times_add (part : Part) (m n : Nat) : part.times (m + n) = part.times m + part.times n := by
  funext counted
  simp only [times, Pi.add_apply]
  split <;> rfl

theorem times_zero (part : Part) : part.times 0 = 0 :=
  funext fun _ => ite_self 0

theorem sum_times_one {α : Type} (part : Part) (xs : List α) :
    (xs.map fun _ => part.times 1).sum = part.times xs.length := by
  induction xs with
  | nil => exact part.times_zero.symm
  | cons x xs ih => rw [List.map_cons, List.sum_cons, ih, ← times_add, List.length_cons, add_comm 1]

end Part

/-! ## Trees -/

/-- What a rule declares.  A map field declares the message of its entries, with two fields, and a
group the message of its body. -/
def Rule.tally : Rule → Tally
  | messageDef => Part.message.times 1
  | field => Part.field.times 1
  | mapField => Part.message.times 1 + Part.field.times 3
  | groupField => Part.message.times 1 + Part.field.times 1
  | enumDef => Part.enum.times 1
  | enumValue => Part.value.times 1
  | serviceDef => Part.service.times 1
  | rpc => Part.method.times 1
  | _ => 0

/-- A rule that may stand anywhere declares nothing, and so do its parts. -/
theorem Rule.free_tally {rule : Rule} (h : rule ∉ Site.all.flatMap Site.rules) :
    rule.tally = 0 ∧ rule.site = .detail := by
  revert h
  cases rule <;> first | exact fun _ => ⟨rfl, rfl⟩ | exact fun h => absurd (by decide) h

namespace Tree

mutual

/-- What the rules in a tree declare.  Nothing inside `extend` is a declaration. -/
def tally : Tree → Tally
  | node rule parts => if rule = .extendDef then 0 else rule.tally + tallyAll parts
  | _ => 0

/-- What the rules in some trees declare. -/
def tallyAll : List Tree → Tally
  | [] => 0
  | t :: rest => t.tally + tallyAll rest

end

mutual

/-- Inside a statement in which nothing is declared nothing is declared. -/
theorem tally_detail : ∀ t : Tree, t.Fits .detail → t.tally = 0
  | mark _, _ | blank _, _ | token _ _, _ => rfl
  | node rule parts, h => by
    obtain ⟨hallows, hparts⟩ := h
    have hfree := hallows.resolve_left List.not_mem_nil
    obtain ⟨htally, hsite⟩ := Rule.free_tally hfree
    rw [hsite] at hparts
    rw [tally, htally, tallyAll_detail parts hparts, add_zero, ite_self]

theorem tallyAll_detail : ∀ ts : List Tree, FitsAll .detail ts → tallyAll ts = 0
  | [], _ => rfl
  | t :: rest, h => by
    rw [tallyAll, tally_detail t h.1, tallyAll_detail rest h.2, add_zero]

end

/-- Rules that may stand anywhere declare nothing. -/
theorem tally_free {rule : Rule} {parts : List Tree} (h : rule ∉ Site.all.flatMap Site.rules)
    (hfits : FitsAll rule.site parts) : (node rule parts).tally = 0 := by
  obtain ⟨htally, hsite⟩ := Rule.free_tally h
  rw [hsite] at hfits
  rw [tally, htally, tallyAll_detail parts hfits, add_zero, ite_self]

/-- Where one rule alone may declare something, trees of other rules declare nothing. -/
theorem tally_of_other {site : Site} {rule : Rule} (hsite : site.rules = [rule]) {t : Tree}
    (hfits : t.Fits site) (hother : ∀ parts, t ≠ node rule parts) : t.tally = 0 := by
  cases t with
  | node other parts =>
    have hfree := hfits.1.resolve_left fun hmem => by
      obtain rfl : other = rule := by simpa [hsite] using hmem
      exact hother parts rfl
    exact tally_free hfree hfits.2
  | _ => rfl

/-- Trees that are taken apart one by one declare what is made from them. -/
theorem tallyAll_of_mapM {β : Type} {f : Tree → Option (List β)} {g : β → Tally}
    {ts : List Tree} {lists : List (List β)} (h : ts.mapM f = some lists)
    (hstep : ∀ t ∈ ts, ∀ l, f t = some l → t.tally = (l.map g).sum) :
    tallyAll ts = (lists.flatten.map g).sum := by
  induction ts generalizing lists with
  | nil =>
    cases h
    rfl
  | cons t ts ih =>
    obtain ⟨first, rest, hfirst, hrest, rfl⟩ := mapM_cons_eq_some.1 h
    rw [tallyAll, hstep t (by simp) first hfirst, ih hrest fun t ht => hstep t (by simp [ht]),
      List.flatten_cons, List.map_append, List.sum_append]

end Tree

/-! ## Statements -/

namespace Statement

mutual

/-- What a statement declares. -/
def tally : Statement → Tally
  | field .. => Rule.field.tally
  | map .. => Rule.mapField.tally
  | group _ _ _ body => Rule.groupField.tally + tallyAll body
  | oneof members => tallyAll members
  | message _ body => Rule.messageDef.tally + tallyAll body
  | enum _ values => Rule.enumDef.tally + Part.value.times values.length

/-- What some statements declare. -/
def tallyAll : List Statement → Tally
  | [] => 0
  | s :: rest => s.tally + tallyAll rest

end

theorem tallyAll_append (ss ts : List Statement) : tallyAll (ss ++ ts) = tallyAll ss + tallyAll ts := by
  induction ss with
  | nil => exact (zero_add _).symm
  | cons s ss ih => simp [tallyAll, ih, add_assoc]

/-- The values of an enum. -/
theorem tally_enumParts? {parts : List Tree} {name : String} {values : List (String × String)}
    (h : enumParts? parts = some (name, values)) (hfits : Tree.FitsAll .enum parts) :
    Tree.tallyAll parts = Part.value.times values.length := by
  simp only [enumParts?, Option.bind_eq_bind, Option.bind_eq_some_iff, Option.pure_def,
    Option.some.injEq, Prod.mk.injEq] at h
  obtain ⟨_, -, lists, hlists, rfl, rfl⟩ := h
  rw [← Part.sum_times_one]
  refine Tree.tallyAll_of_mapM hlists fun t ht l hl => ?_
  have htree := Tree.fitsAll_iff.1 hfits t ht
  obtain ⟨_, _, _, rfl, -, -, rfl⟩ | ⟨hother, rfl⟩ := enumValue?_cases hl
  · have hparts := Tree.tallyAll_detail _ htree.2
    simp [Tree.tally, hparts, Rule.tally]
  · exact Tree.tally_of_other rfl htree hother

/-- In a message body, a rule without statements declares nothing. -/
theorem tally_of_not_statement {rule : Rule} {parts : List Tree}
    (hallows : Site.message.Allows rule) (hfits : Tree.FitsAll rule.site parts)
    (hother : rule ∉ [Rule.field, .mapField, .groupField, .oneofDef, .messageDef, .enumDef,
      .messageBody]) : (Tree.node rule parts).tally = 0 := by
  rcases hallows with hmem | hfree
  · obtain rfl : rule = .extendDef := by
      simp only [Site.rules, List.mem_cons, List.not_mem_nil, or_false] at hmem hother
      tauto
    rfl
  · exact Tree.tally_free hfree hfits

mutual

/-- A tree of a message body declares what its statements do. -/
theorem tally_ofTree? : ∀ (t : Tree) {ss : List Statement}, ofTree? t = some ss →
    t.Fits .message → t.tally = tallyAll ss
  | .mark _, ss, h, _ | .blank _, ss, h, _ | .token _ _, ss, h, _ => by
    cases h
    rfl
  | .node rule parts, ss, h, hfits => by
    obtain ⟨hallows, hparts⟩ := hfits
    have hbody (hsite : rule.site = .message) {body : List Statement}
        (hbody : ofTrees? parts = some body) : Tree.tallyAll parts = tallyAll body :=
      tally_ofTrees? parts hbody (hsite ▸ hparts)
    cases ofTree?_eq_some.1 h with
    | field | map => simp [tallyAll, tally, Tree.tally, Tree.tallyAll_detail _ hparts]
    | group _ _ hinner | message _ hinner => simp [tallyAll, tally, Tree.tally, hbody rfl hinner]
    | oneof hmembers => simp [tallyAll, tally, Tree.tally, hbody rfl hmembers, Rule.tally]
    | enum hvalues => simp [tallyAll, tally, Tree.tally, tally_enumParts? hvalues hparts]
    | body hinner =>
      rw [Tree.tally, hbody rfl hinner]
      exact zero_add _
    | other hother => exact tally_of_not_statement hallows hparts hother

/-- The trees of a message body declare what their statements do. -/
theorem tally_ofTrees? : ∀ (ts : List Tree) {ss : List Statement}, ofTrees? ts = some ss →
    Tree.FitsAll .message ts → Tree.tallyAll ts = tallyAll ss
  | [], ss, h, _ => by
    cases h
    rfl
  | t :: rest, ss, h, hfits => by
    simp only [ofTrees?, Option.bind_eq_bind, Option.bind_eq_some_iff, Option.pure_def,
      Option.some.injEq] at h
    obtain ⟨first, hfirst, more, hmore, rfl⟩ := h
    rw [Tree.tallyAll, tally_ofTree? t hfirst hfits.1, tally_ofTrees? rest hmore hfits.2,
      tallyAll_append]

end

end Statement

/-! ## Declarations -/

/-- What an enum declares: itself and its values. -/
def EnumDecl.tally (enum : EnumDecl) : Tally :=
  Part.enum.times 1 + Part.value.times enum.values.length

/-- What some enums declare. -/
def EnumDecl.tallyAll (enums : List EnumDecl) : Tally :=
  (enums.map EnumDecl.tally).sum

mutual

/-- What a message declares: itself, its fields and what is inside it. -/
def MessageDecl.tally : MessageDecl → Tally
  | ⟨_, fields, messages, enums⟩ =>
    Part.message.times 1 + Part.field.times fields.length + MessageDecl.tallyAll messages
      + EnumDecl.tallyAll enums

/-- What some messages declare. -/
def MessageDecl.tallyAll : List MessageDecl → Tally
  | [] => 0
  | m :: rest => m.tally + MessageDecl.tallyAll rest

end

/-- What a service declares: itself and its methods. -/
def ServiceDecl.tally (service : ServiceDecl) : Tally :=
  Part.service.times 1 + Part.method.times service.methods.length

/-- What a body declares. -/
def Body.tally (body : Body) : Tally :=
  Part.field.times body.fields.length + MessageDecl.tallyAll body.messages
    + EnumDecl.tallyAll body.enums

theorem MessageDecl.tallyAll_append (ms ns : List MessageDecl) :
    tallyAll (ms ++ ns) = tallyAll ms + tallyAll ns := by
  induction ms with
  | nil => exact (zero_add _).symm
  | cons m ms ih => simp [tallyAll, ih, add_assoc]

theorem EnumDecl.tallyAll_append (es fs : List EnumDecl) :
    tallyAll (es ++ fs) = tallyAll es + tallyAll fs := by
  simp [tallyAll]

theorem MessageDecl.tallyAll_singleton (m : MessageDecl) : tallyAll [m] = m.tally := add_zero _

theorem EnumDecl.tallyAll_nil : tallyAll [] = 0 := rfl

theorem EnumDecl.tallyAll_singleton (e : EnumDecl) : tallyAll [e] = e.tally := add_zero _

/-- What some fields, messages and enums declare together. -/
theorem Body.tally_mk (fields : List FieldDecl) (messages : List MessageDecl)
    (enums : List EnumDecl) :
    tally ⟨fields, messages, enums⟩ = Part.field.times fields.length
      + MessageDecl.tallyAll messages + EnumDecl.tallyAll enums := rfl

theorem Body.tally_append (a b : Body) : (a ++ b).tally = a.tally + b.tally := by
  simp only [append_eq, tally, List.length_append, Part.times_add, MessageDecl.tallyAll_append,
    EnumDecl.tallyAll_append]
  abel

theorem Body.tally_toMessage (name : String) (body : Body) :
    (body.toMessage name).tally = Part.message.times 1 + body.tally := by
  simp only [toMessage, MessageDecl.tally, tally, add_assoc]

theorem EnumDecl.tally_ofStatement {name : String} {values : List (String × String)}
    {decl : EnumDecl} (h : ofStatement name values = .ok decl) :
    decl.tally = (Statement.enum name values).tally := by
  have hlength : decl.values.length = values.length := by
    simpa using congrArg List.length (keys_ofStatement h).2
  rw [tally, Statement.tally, hlength]
  rfl

namespace Statement

/-- Statements declare what is counted for them. -/
theorem tally_declare : DeclareCases (fun s body => body.tally = s.tally)
    fun ss body => body.tally = tallyAll ss where
  field _ := rfl
  map _ := by
    have hthree : Part.field.times 3 = Part.field.times 1 + Part.field.times 2 :=
      Part.times_add _ 1 2
    have hentry (entry : String) (k v : TypeExpr) : (MessageDecl.mapEntry entry k v).tally
        = Part.message.times 1 + Part.field.times 2 := rfl
    rw [Body.tally_mk, MessageDecl.tallyAll_singleton, hentry, tally, Rule.tally, hthree,
      EnumDecl.tallyAll_nil, List.length_singleton]
    abel
  group _ _ hinner := by
    rw [Body.tally_mk, MessageDecl.tallyAll_singleton, Body.tally_toMessage, hinner, tally,
      Rule.tally, EnumDecl.tallyAll_nil, List.length_singleton]
    abel
  oneof hmembers := hmembers
  message _ hinner := by
    rw [Body.tally_mk, MessageDecl.tallyAll_singleton, Body.tally_toMessage, hinner, tally,
      Rule.tally, EnumDecl.tallyAll_nil, List.length_nil, Part.times_zero, zero_add, add_zero]
  enum hdecl := by
    rw [Body.tally_mk, EnumDecl.tallyAll_singleton, EnumDecl.tally_ofStatement hdecl,
      MessageDecl.tallyAll, List.length_nil, Part.times_zero, add_zero, zero_add]
  nil := by
    rw [Body.empty, Body.tally_mk, MessageDecl.tallyAll, EnumDecl.tallyAll_nil, tallyAll,
      List.length_nil, Part.times_zero]
    rfl
  cons hfirst hrest := by rw [Body.tally_append, hfirst, hrest, tallyAll]

end Statement

/-! ## Files -/

/-- What a statement of a file declares. -/
def FileStatement.tally : FileStatement → Tally
  | message _ body => Part.message.times 1 + Statement.tallyAll body
  | enum name values => (Statement.enum name values).tally
  | .service decl => decl.tally
  | _ => 0

/-- What a file declares. -/
def FileDecl.tally (file : FileDecl) : Tally :=
  MessageDecl.tallyAll file.messages + EnumDecl.tallyAll file.enums
    + (file.services.map ServiceDecl.tally).sum

/-- The methods of a service. -/
theorem ServiceDecl.tally_ofParts? {parts : List Tree} {service : ServiceDecl}
    (h : ofParts? parts = some service) (hfits : Tree.FitsAll .service parts) :
    Tree.tallyAll parts = Part.method.times service.methods.length := by
  simp only [ofParts?, Option.bind_eq_bind, Option.bind_eq_some_iff, Option.pure_def,
    Option.some.injEq] at h
  obtain ⟨_, -, lists, hlists, rfl⟩ := h
  rw [← Part.sum_times_one]
  refine Tree.tallyAll_of_mapM hlists fun t ht l hl => ?_
  have htree := Tree.fitsAll_iff.1 hfits t ht
  obtain ⟨_, _, rfl, -, -, -, rfl⟩ | ⟨hother, rfl⟩ := MethodDecl.ofTree?_cases hl
  · have hparts := Tree.tallyAll_detail _ htree.2
    simp [Tree.tally, hparts, Rule.tally]
  · exact Tree.tally_of_other rfl htree hother

namespace FileStatement

/-- A tree of a file declares what its statements do. -/
theorem tally_ofTree? {t : Tree} {ss : List FileStatement} (h : ofTree? t = some ss)
    (hfits : t.Fits .file) : t.tally = (ss.map tally).sum := by
  cases t with
  | node rule parts =>
    obtain ⟨hallows, hparts⟩ := hfits
    cases ofTree?_eq_some.1 h with
    | dialect | edition | imports | package => exact Tree.tally_free (by decide) hparts
    | message _ hbody =>
      simp [Tree.tally, Statement.tally_ofTrees? parts hbody hparts, tally, Rule.tally]
    | enum hvalues =>
      simp [Tree.tally, Statement.tally_enumParts? hvalues hparts, tally, Statement.tally]
    | service hservice =>
      simp [Tree.tally, ServiceDecl.tally_ofParts? hservice hparts, tally, ServiceDecl.tally,
        Rule.tally]
    | other hother =>
      rcases hallows with hmem | hfree
      · obtain rfl : rule = .extendDef := by
          simp only [Site.rules, List.mem_cons, List.not_mem_nil, or_false] at hmem hother
          tauto
        rfl
      · exact Tree.tally_free hfree hparts
  | _ =>
    cases h
    rfl

end FileStatement

/-- Adding a statement adds what it declares. -/
theorem FileDecl.tally_add {file file' : FileDecl} {s : FileStatement}
    (h : file.add s = .ok file') : file'.tally = file.tally + s.tally := by
  cases added_of_add h with
  | message hinner =>
    simp only [tally, MessageDecl.tallyAll_append, MessageDecl.tallyAll_singleton,
      Body.tally_toMessage, Statement.tally_declare.declareAll _ hinner, FileStatement.tally]
    abel
  | enum hdecl =>
    simp only [tally, EnumDecl.tallyAll_append, EnumDecl.tallyAll_singleton,
      EnumDecl.tally_ofStatement hdecl, FileStatement.tally]
    abel
  | service decl => simp [tally, FileStatement.tally, add_assoc]
  | _ => exact (add_zero _).symm

theorem FileDecl.tally_foldlM (statements : List FileStatement) :
    ∀ {file file' : FileDecl}, statements.foldlM add file = .ok file' →
      file'.tally = file.tally + (statements.map FileStatement.tally).sum := by
  induction statements with
  | nil =>
    intro file file' h
    cases h
    exact (add_zero _).symm
  | cons s statements ih =>
    intro file file' h
    rw [List.foldlM_cons, bind_eq_ok] at h
    obtain ⟨added, hadded, h⟩ := h
    rw [ih h, tally_add hadded, List.map_cons, List.sum_cons, add_assoc]

/-- What a file declares is what is written in its text. -/
theorem FileDecl.tally_parse {name source : String} {file : FileDecl}
    (h : FileDecl.parse name source = .ok file) :
    ∃ trees, Proto.parse Proto.file source.toList = .ok trees
      ∧ Tree.tallyAll trees = file.tally := by
  unfold FileDecl.parse at h
  split at h
  · cases h
  · rename_i trees hparse
    split at h
    · cases h
    · rename_i statements hstatements
      refine ⟨trees, hparse, ?_⟩
      obtain ⟨parts, rfl⟩ := Proto.parse_file_eq_node hparse
      have hfits := (Proto.parse_file_fits hparse).1.2
      simp only [FileStatement.ofTrees?, Option.bind_eq_bind, Option.bind_eq_some_iff,
        Option.pure_def, Option.some.injEq] at hstatements
      obtain ⟨_, ⟨⟩, lists, hlists, rfl⟩ := hstatements
      have hparts := Tree.tallyAll_of_mapM hlists fun t ht l hl =>
        FileStatement.tally_ofTree? hl (Tree.fitsAll_iff.1 hfits t ht)
      have hempty : (FileDecl.empty name).tally = 0 := rfl
      rw [FileDecl.tally_foldlM _ h, hempty, zero_add, ← hparts]
      simp [Tree.tallyAll, Tree.tally, Rule.tally]

end MettaSchema
