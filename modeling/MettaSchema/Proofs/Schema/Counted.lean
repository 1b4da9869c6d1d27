import Mathlib.Algebra.Order.Group.Nat
import Mathlib.Algebra.Order.Pi
import Mathlib.Data.List.Forall2
import MettaSchema.Schema.Parse
import MettaSchema.Proofs.Schema.Messages
import MettaSchema.Proofs.Schema.Tally

/-!
# Declarations that are lost

A schema never has more messages, fields, enums, values, services or methods than its text
declares.  It has as many of all of them exactly if no two siblings have the same name: of two
messages, enums, values, services or methods under one name only the later one is in the schema.
Fields are never lost, as two fields with one number are an error.

* `Schema.count` — how many parts of each kind a schema has.
* `FileDecl.Unrepeated` — no two siblings have the same name.
* `Tally.LosslessIff` — a count that is smaller than another unless a condition holds.
* `Keyed.losslessIff_ofList` — what is lost in a keyed list.
* `MessageDecl.losslessIff_build`, `FileDecl.losslessIff_build` — what is lost by building.
* `Schema.parse_counted` — what is lost between a text and its schema.
-/

namespace MettaSchema

/-- How many parts of each kind a schema has, at all depths. -/
def Schema.count (schema : Schema) : Tally
  | .message => schema.allMessages.length
  | .field => (schema.allMessages.map (·.fields.length)).sum
  | .enum => schema.allEnums.length
  | .value => (schema.allEnums.map (·.values.length)).sum
  | .service => schema.services.length
  | .method => (schema.services.map (·.2.methods.length)).sum

/-! ## Names that are not repeated -/

/-- No two of some enums have the same name, nor do two values of one of them. -/
def EnumDecl.Unrepeated (enums : List EnumDecl) : Prop :=
  (enums.map (·.name)).Nodup ∧ ∀ e ∈ enums, (Keyed.keys e.values).Nodup

mutual

/-- Inside a message, at any depth, no two siblings have the same name. -/
def MessageDecl.Unrepeated : MessageDecl → Prop
  | ⟨_, _, messages, enums⟩ =>
    ((messages.map (·.name)).Nodup ∧ MessageDecl.UnrepeatedInside messages)
      ∧ EnumDecl.Unrepeated enums

/-- Inside each of some messages no two siblings have the same name. -/
def MessageDecl.UnrepeatedInside : List MessageDecl → Prop
  | [] => True
  | m :: rest => m.Unrepeated ∧ MessageDecl.UnrepeatedInside rest

end

/-- No two of some services have the same name, nor do two methods of one of them. -/
def ServiceDecl.Unrepeated (services : List ServiceDecl) : Prop :=
  (services.map (·.name)).Nodup ∧ ∀ s ∈ services, (s.methods.map (·.name)).Nodup

/-- In a file, at any depth, no two siblings have the same name. -/
structure FileDecl.Unrepeated (file : FileDecl) : Prop where
  /-- The top-level messages. -/
  messages : (file.messages.map (·.name)).Nodup
  /-- What is inside messages. -/
  inside : MessageDecl.UnrepeatedInside file.messages
  /-- The top-level enums and their values. -/
  enums : EnumDecl.Unrepeated file.enums
  /-- The services and their methods. -/
  services : ServiceDecl.Unrepeated file.services

/-! ## Counts that are smaller -/

/-- The first count is at most the second, and nothing is lost exactly if the condition holds. -/
def Tally.LosslessIff (kept all : Tally) (P : Prop) : Prop :=
  kept ≤ all ∧ (kept = all ↔ P)

namespace Tally.LosslessIff

variable {a a' b b' c : Tally} {P Q : Prop}

theorem refl (a : Tally) : LosslessIff a a True :=
  ⟨le_refl a, iff_of_true rfl trivial⟩

theorem congr (h : LosslessIff a b P) (hiff : P ↔ Q) : LosslessIff a b Q :=
  ⟨h.1, h.2.trans hiff⟩

/-- What is lost by one step after another. -/
theorem trans (hab : LosslessIff a b P) (hbc : LosslessIff b c Q) : LosslessIff a c (Q ∧ P) := by
  refine ⟨hab.1.trans hbc.1, ?_⟩
  rw [← hab.2, ← hbc.2]
  constructor
  · rintro rfl
    have hb := le_antisymm hbc.1 hab.1
    exact ⟨hb, hb.symm⟩
  · rintro ⟨rfl, rfl⟩
    rfl

/-- What is lost of two parts. -/
theorem add (h : LosslessIff a b P) (h' : LosslessIff a' b' Q) :
    LosslessIff (a + a') (b + b') (P ∧ Q) := by
  refine ⟨add_le_add h.1 h'.1, ?_⟩
  rw [add_eq_add_iff_eq_and_eq h.1 h'.1, h.2, h'.2]

/-- What is lost of some parts one by one. -/
theorem sum {α : Type} {v w : α → Tally} {P : α → Prop} {xs : List α}
    (h : ∀ x ∈ xs, LosslessIff (w x) (v x) (P x)) :
    LosslessIff (xs.map w).sum (xs.map v).sum (∀ x ∈ xs, P x) := by
  induction xs with
  | nil => exact (refl 0).congr (by simp)
  | cons x xs ih =>
    have hx := h x (by simp)
    have hxs := ih fun y hy => h y (by simp [hy])
    exact (hx.add hxs).congr (by simp)

/-- What is lost of the parts that are made from some others one by one. -/
theorem of_mapM {α β : Type} {f : α → Except SchemaError β} {w : β → Tally} {v : α → Tally}
    {P : α → Prop} {xs : List α} {ys : List β} (h : xs.mapM f = .ok ys)
    (hstep : ∀ x y, f x = .ok y → LosslessIff (w y) (v x) (P x)) :
    LosslessIff (ys.map w).sum (xs.map v).sum (∀ x ∈ xs, P x) := by
  induction xs generalizing ys with
  | nil =>
    cases h
    exact (refl 0).congr (by simp)
  | cons x xs ih =>
    obtain ⟨y, rest, hy, hrest, rfl⟩ := mapM_cons_eq_ok.1 h
    exact ((hstep x y hy).add (ih hrest)).congr (by simp)

end Tally.LosslessIff

/-! ## Keyed lists -/

theorem Part.times_one_add_ne_zero (part : Part) (tally : Tally) : part.times 1 + tally ≠ 0 := by
  intro hzero
  simpa [times] using congrFun hzero part

theorem Part.times_one_ne_zero (part : Part) : part.times 1 ≠ 0 := by
  simpa using part.times_one_add_ne_zero 0

namespace Keyed

variable {α : Type}

/-- The first of some entries is lost if a later one has its key. -/
theorem ofList_cons_perm (entry : String × α) (entries : List (String × α)) :
    (ofList (entry :: entries)).Perm
      (if entry.1 ∈ keys entries then ofList entries else entry :: ofList entries) := by
  have hnodup (entries : List (String × α)) : (ofList entries).Nodup :=
    (nodup_keys_ofList entries).of_map _
  split
  · rename_i hlater
    refine (List.perm_ext_iff_of_nodup (hnodup _) (hnodup _)).2 fun p => ?_
    simp [mem_ofList_cons, hlater]
  · rename_i hnew
    have hentry : entry ∉ ofList entries := fun hmem =>
      hnew (List.mem_map_of_mem (mem_of_mem_ofList hmem))
    refine (List.perm_ext_iff_of_nodup (hnodup _) (List.nodup_cons.2 ⟨hentry, hnodup _⟩)).2 ?_
    intro p
    simp [mem_ofList_cons, hnew]

/-- Entries are lost exactly if two of them have the same key, provided each counts. -/
theorem losslessIff_kept {w : String × α → Tally} (hw : ∀ entry, w entry ≠ 0)
    (entries : List (String × α)) :
    Tally.LosslessIff ((ofList entries).map w).sum (entries.map w).sum (keys entries).Nodup := by
  induction entries with
  | nil => exact (Tally.LosslessIff.refl 0).congr (by simp [keys])
  | cons entry entries ih =>
    rw [((ofList_cons_perm entry entries).map w).sum_eq, List.map_cons, List.sum_cons, keys_cons,
      List.nodup_cons]
    split
    · rename_i hlater
      have hless : ((ofList entries).map w).sum < w entry + (entries.map w).sum :=
        ih.1.trans_lt (lt_add_of_pos_left _ (pos_iff_ne_zero.2 (hw entry)))
      exact ⟨hless.le, iff_of_false hless.ne fun h => h.1 hlater⟩
    · rename_i hnew
      rw [List.map_cons, List.sum_cons]
      exact ((Tally.LosslessIff.refl (w entry)).add ih).congr (by simp [hnew])

/-- Something is lost from the start to a keyed list exactly if two entries have the same key or
it was lost before. -/
theorem losslessIff_ofList {w : String × α → Tally} (hw : ∀ entry, w entry ≠ 0)
    {entries : List (String × α)} {names : List String} (hkeys : keys entries = names)
    {all : Tally} {P : Prop} (h : Tally.LosslessIff (entries.map w).sum all P) :
    Tally.LosslessIff ((ofList entries).map w).sum all (names.Nodup ∧ P) := by
  have hkept := losslessIff_kept hw entries
  rw [hkeys] at hkept
  exact (hkept.trans h).congr and_comm

/-- Parts of one kind are lost exactly if two of them have the same key. -/
theorem losslessIff_times (part : Part) (entries : List (String × α)) :
    Tally.LosslessIff (part.times (ofList entries).length) (part.times entries.length)
      (keys entries).Nodup := by
  rw [← Part.sum_times_one, ← Part.sum_times_one]
  exact losslessIff_kept (fun _ => part.times_one_ne_zero) entries

end Keyed

/-! ## Schemas -/

/-- What is counted of an enum: itself and its values. -/
def EnumType.tally (enum : EnumType) : Tally :=
  Part.enum.times 1 + Part.value.times enum.values.length

/-- What is counted of a service: itself and its methods. -/
def Service.tally (service : Service) : Tally :=
  Part.service.times 1 + Part.method.times service.methods.length

namespace Message

mutual

/-- What is counted of a message: itself, its fields and what is inside it. -/
def tally : Message → Tally
  | ⟨_, _, fields, messages, enums, _⟩ =>
    Part.message.times 1 + Part.field.times fields.length + tallyAll messages
      + (enums.map (·.2.tally)).sum

/-- What is counted of some messages. -/
def tallyAll : List (String × Message) → Tally
  | [] => 0
  | (_, m) :: rest => m.tally + tallyAll rest

end

theorem tallyAll_eq (ms : List (String × Message)) : tallyAll ms = (ms.map (·.2.tally)).sum := by
  induction ms with
  | nil => rfl
  | cons p ms ih => rw [tallyAll, ih, List.map_cons, List.sum_cons]

/-- What is counted of a message itself. -/
def ownTally (m : Message) : Tally :=
  Part.message.times 1 + Part.field.times m.fields.length

mutual

theorem tally_eq_flat : ∀ m : Message,
    m.tally = (m.withNested.map ownTally).sum + (m.allEnums.map EnumType.tally).sum
  | ⟨name, fullName, fields, messages, enums, ascending⟩ => by
    simp only [tally, tallyAll_eq_flat messages, withNested, allEnums, List.map_cons,
      List.sum_cons, List.map_append, List.sum_append, List.map_map, Function.comp_def, ownTally]
    abel

theorem tallyAll_eq_flat : ∀ ms : List (String × Message),
    tallyAll ms
      = ((withNestedAll ms).map ownTally).sum + ((nestedEnums ms).map EnumType.tally).sum
  | [] => rfl
  | (_, m) :: rest => by
    simp only [tallyAll, tally_eq_flat m, tallyAll_eq_flat rest, withNestedAll, nestedEnums,
      List.map_append, List.sum_append]
    abel

end

end Message

theorem Tally.sum_map_apply {α : Type} (f : α → Tally) (xs : List α) (part : Part) :
    (xs.map f).sum part = (xs.map fun x => f x part).sum := by
  induction xs with
  | nil => rfl
  | cons x xs ih => rw [List.map_cons, List.sum_cons, Pi.add_apply, ih, List.map_cons, List.sum_cons]

/-- A schema is counted part by part. -/
theorem Schema.count_eq (schema : Schema) :
    schema.count = Message.tallyAll schema.messages + (schema.enums.map (·.2.tally)).sum
      + (schema.services.map (·.2.tally)).sum := by
  have hparts : schema.count = (schema.allMessages.map Message.ownTally).sum
      + (schema.allEnums.map EnumType.tally).sum + (schema.services.map (·.2.tally)).sum := by
    funext part
    simp only [Pi.add_apply, Tally.sum_map_apply]
    cases part <;> simp [count, Message.ownTally, EnumType.tally, Service.tally, Part.times]
  rw [hparts, Message.tallyAll_eq_flat, allMessages, allEnums, List.map_append, List.sum_append,
    List.map_map]
  simp only [Function.comp_def]
  abel

/-! ## Building -/

/-- No field is lost. -/
theorem FieldDecl.length_buildAll {table : SymbolTable} {scope : String} {decls : List FieldDecl}
    {built : Fields} (h : FieldDecl.buildAll table scope .empty decls = .ok built) :
    built.1.length = decls.length := by
  obtain ⟨resolved, hresolved, hperm⟩ := buildAll_perm decls h
  rw [hperm.length_eq, Fields.val_empty, List.nil_append, hresolved.length_eq]

namespace EnumDecl

/-- Values are lost exactly if two of them have the same name. -/
theorem losslessIff_build (scope : String) (decl : EnumDecl) :
    Tally.LosslessIff (decl.build scope).tally decl.tally (Keyed.keys decl.values).Nodup := by
  have hvalues := Keyed.losslessIff_times .value decl.values
  exact ((Tally.LosslessIff.refl (Part.enum.times 1)).add hvalues).congr (by rw [true_and])

/-- Enums and values are lost exactly if two siblings have the same name. -/
theorem losslessIff_buildAll (scope : String) (decls : List EnumDecl) :
    Tally.LosslessIff ((buildAll scope decls).map (·.2.tally)).sum (tallyAll decls)
      (Unrepeated decls) := by
  have hkeys : Keyed.keys (decls.map fun decl => (decl.name, decl.build scope))
      = decls.map (·.name) := by
    simp [Keyed.keys]
  refine Keyed.losslessIff_ofList (fun entry => Part.enum.times_one_add_ne_zero _) hkeys ?_
  rw [tallyAll, List.map_map]
  exact .sum fun e _ => losslessIff_build scope e

end EnumDecl

/-- Of some messages one is lost exactly if a later one has its name. -/
theorem Message.losslessIff_ofList {ms : List (String × Message)} {names : List String}
    {all : Tally} {P : Prop} (hkeys : Keyed.keys ms = names)
    (h : Tally.LosslessIff (tallyAll ms) all P) :
    Tally.LosslessIff (tallyAll (Keyed.ofList ms)) all (names.Nodup ∧ P) := by
  have hpositive (entry : String × Message) : entry.2.tally ≠ 0 := by
    obtain ⟨name, fullName, fields, messages, enums, ascending⟩ := entry.2
    rw [tally, add_assoc, add_assoc]
    exact Part.times_one_add_ne_zero _ _
  rw [tallyAll_eq] at h ⊢
  exact Keyed.losslessIff_ofList hpositive hkeys h

mutual

/-- Inside a message something is lost exactly if two siblings have the same name. -/
theorem MessageDecl.losslessIff_build {table : SymbolTable} :
    ∀ (decl : MessageDecl) {scope : String} {m : Message}, decl.build table scope = .ok m →
      m.name = decl.name ∧ Tally.LosslessIff m.tally decl.tally decl.Unrepeated
  | ⟨name, fields, messages, enums⟩, scope, m, h => by
    obtain ⟨inner, resolved, hinner, hresolved, rfl⟩ := build_eq_ok.1 h
    refine ⟨rfl, ?_⟩
    obtain ⟨hkeys, hbuilt⟩ := MessageDecl.losslessIff_buildAll messages hinner
    have hmessages := Message.losslessIff_ofList hkeys hbuilt
    have henums := EnumDecl.losslessIff_buildAll (qualify scope name) enums
    have hown := Tally.LosslessIff.refl (Part.message.times 1 + Part.field.times fields.length)
    rw [Message.tally, FieldDecl.length_buildAll hresolved, tally]
    exact ((hown.add hmessages).add henums).congr (by simp [Unrepeated])

/-- Inside some messages something is lost exactly if two siblings have the same name. -/
theorem MessageDecl.losslessIff_buildAll {table : SymbolTable} :
    ∀ (decls : List MessageDecl) {scope : String} {ms : List (String × Message)},
      buildAll table scope decls = .ok ms →
      Keyed.keys ms = decls.map (·.name)
        ∧ Tally.LosslessIff (Message.tallyAll ms) (tallyAll decls) (UnrepeatedInside decls)
  | [], scope, ms, h => by
    cases h
    exact ⟨rfl, .refl 0⟩
  | decl :: rest, scope, ms, h => by
    obtain ⟨m, more, hm, hmore, rfl⟩ := buildAll_cons_eq_ok.1 h
    obtain ⟨hname, hfirst⟩ := MessageDecl.losslessIff_build decl hm
    obtain ⟨hkeys, hrest⟩ := MessageDecl.losslessIff_buildAll rest hmore
    exact ⟨by rw [Keyed.keys_cons, hname, hkeys, List.map_cons], hfirst.add hrest⟩

end

theorem MethodDecl.name_build {table : SymbolTable} {scope : String} {decl : MethodDecl}
    {method : Method} (h : decl.build table scope = .ok method) : method.name = decl.name := by
  obtain ⟨input, output, -, -, rfl⟩ := build_eq_ok.1 h
  rfl

namespace ServiceDecl

/-- Methods are lost exactly if two of them have the same name. -/
theorem losslessIff_build {table : SymbolTable} {scope : String} {decl : ServiceDecl}
    {service : Service} (h : decl.build table scope = .ok service) :
    service.name = decl.name
      ∧ Tally.LosslessIff service.tally decl.tally (decl.methods.map (·.name)).Nodup := by
  obtain ⟨methods, hmethods, rfl⟩ := build_eq_ok.1 h
  refine ⟨rfl, ?_⟩
  have hnames := map_eq_of_mapM_eq_ok (g := MethodDecl.name) (k := Method.name) hmethods
    fun _ _ => MethodDecl.name_build
  have hlength : methods.length = decl.methods.length := by
    simpa only [List.length_map] using congrArg List.length hnames
  have hkeys : Keyed.keys (methods.map fun m => (m.name, m)) = decl.methods.map (·.name) := by
    simpa [Keyed.keys, Function.comp_def] using hnames
  have hkept := Keyed.losslessIff_times .method (methods.map fun m => (m.name, m))
  rw [hkeys, List.length_map, hlength] at hkept
  exact ((Tally.LosslessIff.refl (Part.service.times 1)).add hkept).congr (by rw [true_and])

/-- Services and methods are lost exactly if two siblings have the same name. -/
theorem losslessIff_mapM {table : SymbolTable} {scope : String} {decls : List ServiceDecl}
    {services : List Service} (h : decls.mapM (build table scope) = .ok services) :
    Tally.LosslessIff
      ((Keyed.ofList (services.map fun s => (s.name, s))).map (·.2.tally)).sum
      (decls.map ServiceDecl.tally).sum (Unrepeated decls) := by
  have hnames := map_eq_of_mapM_eq_ok (g := ServiceDecl.name) (k := Service.name) h
    fun _ _ hservice => (losslessIff_build hservice).1
  have hkeys : Keyed.keys (services.map fun s => (s.name, s)) = decls.map (·.name) := by
    simpa [Keyed.keys, Function.comp_def] using hnames
  have hbuilt := Tally.LosslessIff.of_mapM (w := Service.tally) (v := ServiceDecl.tally) h
    fun _ _ hservice => (losslessIff_build hservice).2
  refine Keyed.losslessIff_ofList (fun entry => Part.service.times_one_add_ne_zero _) hkeys ?_
  rwa [List.map_map]

end ServiceDecl

theorem FileDecl.unrepeated_iff {file : FileDecl} :
    file.Unrepeated ↔
      (((file.messages.map (·.name)).Nodup ∧ MessageDecl.UnrepeatedInside file.messages)
        ∧ EnumDecl.Unrepeated file.enums) ∧ ServiceDecl.Unrepeated file.services :=
  ⟨fun ⟨hmessages, hinside, henums, hservices⟩ => ⟨⟨⟨hmessages, hinside⟩, henums⟩, hservices⟩,
    fun ⟨⟨⟨hmessages, hinside⟩, henums⟩, hservices⟩ => ⟨hmessages, hinside, henums, hservices⟩⟩

/-- Something is lost between a file and its schema exactly if two siblings have the same name. -/
theorem FileDecl.losslessIff_build {table : SymbolTable} {file : FileDecl} {schema : Schema}
    (h : file.build table = .ok schema) :
    Tally.LosslessIff schema.count file.tally file.Unrepeated := by
  obtain ⟨messages, services, hmessages, hservices, rfl⟩ := build_eq_ok.1 h
  obtain ⟨hkeys, hbuilt⟩ := MessageDecl.losslessIff_buildAll file.messages hmessages
  have hlost := ((Message.losslessIff_ofList hkeys hbuilt).add
    (EnumDecl.losslessIff_buildAll file.scope file.enums)).add
    (ServiceDecl.losslessIff_mapM hservices)
  rw [Schema.count_eq]
  exact hlost.congr unrepeated_iff.symm

/-- The schema of a text has no more messages, fields, enums, values, services and methods than
are written in the text outside `extend`, and it has as many exactly if no two siblings have the
same name. -/
theorem Schema.parse_counted {name source : String} {schema : Schema}
    (h : Schema.parse name source = .ok schema) :
    ∃ trees root, Proto.parse Proto.file source.toList = .ok trees
      ∧ FileDecl.parse name source = .ok root
      ∧ schema.count ≤ Tree.tallyAll trees
      ∧ (schema.count = Tree.tallyAll trees ↔ root.Unrepeated) := by
  rw [Schema.parse, bind_eq_ok] at h
  obtain ⟨root, hroot, h⟩ := h
  obtain ⟨trees, htrees, htally⟩ := FileDecl.tally_parse hroot
  obtain ⟨hle, hiff⟩ := FileDecl.losslessIff_build h
  exact ⟨trees, root, htrees, hroot, htally ▸ hle, htally ▸ hiff⟩

/-- A text with two messages of one name. -/
def Schema.repeatedSource : String :=
  "message A {} message A {}"

/-- The schema of that text: the later message. -/
def Schema.repeatedSchema : Schema where
  name := "a.proto"
  dialect := .proto2
  package := none
  imports := []
  messages := [("A", .flat "A" "A" [])]
  enums := []
  services := []

/-- Of two messages with one name, one is lost. -/
theorem Schema.parse_counted_repeated :
    Schema.parse "a.proto" repeatedSource = .ok repeatedSchema ∧
      ∃ trees, Proto.parse Proto.file repeatedSource.toList = .ok trees
        ∧ repeatedSchema.count ≤ Tree.tallyAll trees
        ∧ repeatedSchema.count ≠ Tree.tallyAll trees := by
  have hparse : Schema.parse "a.proto" repeatedSource = .ok repeatedSchema := by decide +kernel
  have hfile : FileDecl.parse "a.proto" repeatedSource = .ok
      { FileDecl.empty "a.proto" with messages := [⟨"A", [], [], []⟩, ⟨"A", [], [], []⟩] } := by
    decide +kernel
  obtain ⟨trees, root, htrees, hroot, hle, hiff⟩ := Schema.parse_counted hparse
  rw [hfile] at hroot
  cases hroot
  exact ⟨hparse, trees, htrees, hle, fun heq => absurd (hiff.1 heq).messages (by decide)⟩

end MettaSchema
