import MettaSchema.Metta.Document
import MettaSchema.Proofs.Schema.Messages

/-!
# What a document shows of a schema

A document depends on a few parts of a schema only.  Full names, the numbers of fields and of enum
values, labels, streaming, imports and top-level enums leave no trace in it, and neither does
whether a reference is to a message or to an enum.

* `FieldType.shown` — what is seen of the type of a field.
* `Message.Alike`, `Schema.Alike` — to have the same visible parts, in the same order.
* `Translation.messageEntries_congr` — messages that look alike are written alike.
* `Schema.toMetta_congr` — and so are schemas.
-/

namespace MettaSchema

/-- What is seen of the type of a field: a kind, or the name of a reference in its scope.  Of a
group only the kind is seen. -/
def FieldType.shown : FieldType → Kind ⊕ String
  | scalar kind => .inl kind
  | message ref => .inr ref.name
  | enum ref => .inr ref.name
  | group _ => .inl .group

/-! ## Looking alike -/

/-- Two fields look alike. -/
structure Field.Alike (f g : Field) : Prop where
  /-- They have the same name. -/
  name : f.name = g.name
  /-- Their types are seen as the same. -/
  type : f.type.shown = g.type.shown

/-- Two enums look alike. -/
structure EnumType.Alike (e e' : EnumType) : Prop where
  /-- They have the same name. -/
  name : e.name = e'.name
  /-- Their values have the same names. -/
  values : e.values.map (·.1) = e'.values.map (·.1)

/-- Two messages look alike, with everything inside them: they have the same name, and their
fields, the messages and the enums inside them look alike one by one. -/
inductive Message.Alike : Message → Message → Prop where
  /-- The parts look alike. -/
  | intro {m m' : Message} (name : m.name = m'.name)
      (fields : List.Forall₂ Field.Alike m.fields m'.fields)
      (messages : List.Forall₂ (fun p p' => Message.Alike p.2 p'.2) m.messages m'.messages)
      (enums : List.Forall₂ (fun p p' => EnumType.Alike p.2 p'.2) m.enums m'.enums) :
      Message.Alike m m'

/-- Two methods look alike. -/
structure Method.Alike (a b : Method) : Prop where
  /-- What they take has the same name. -/
  input : a.input.name = b.input.name
  /-- What they return has the same name. -/
  output : a.output.name = b.output.name

/-- Two services look alike: they have methods that look alike, under the same keys. -/
def Service.Alike (s s' : Service) : Prop :=
  List.Forall₂ (fun p p' => p.1 = p'.1 ∧ Method.Alike p.2 p'.2) s.methods s'.methods

/-- Two schemas look alike. -/
structure Schema.Alike (s s' : Schema) : Prop where
  /-- They describe files of the same name. -/
  name : s.name = s'.name
  /-- They are in the same dialect. -/
  dialect : s.dialect = s'.dialect
  /-- They have the same package. -/
  package : s.packageName = s'.packageName
  /-- Their messages look alike, under the same keys. -/
  messages : List.Forall₂ (fun p p' => p.1 = p'.1 ∧ Message.Alike p.2 p'.2) s.messages s'.messages
  /-- Their services look alike, under the same keys. -/
  services : List.Forall₂ (fun p p' => p.1 = p'.1 ∧ Service.Alike p.2 p'.2) s.services s'.services

/-! ## Entries -/

section Lists

variable {α β γ : Type} {R : α → β → Prop} {l : List α} {l' : List β}

theorem map_congr_forall₂ {f : α → γ} {g : β → γ} (h : List.Forall₂ R l l')
    (hfg : ∀ a ∈ l, ∀ b, R a b → f a = g b) : l.map f = l'.map g := by
  induction h with
  | nil => rfl
  | cons hab _ ih =>
    rw [List.map_cons, List.map_cons, hfg _ (by simp) _ hab,
      ih fun a ha => hfg a (List.mem_cons_of_mem _ ha)]

/-- Members that match one by one and give the same list each give the same list together. -/
theorem flatMap_congr_forall₂ {f : α → List γ} {g : β → List γ} (h : List.Forall₂ R l l')
    (hfg : ∀ a ∈ l, ∀ b, R a b → f a = g b) : l.flatMap f = l'.flatMap g := by
  rw [List.flatMap_def, List.flatMap_def, map_congr_forall₂ h hfg]

end Lists

namespace Translation

variable {t : Translation}

theorem fieldType_congr {f g : Field} (h : f.Alike g) : t.fieldType f = t.fieldType g := by
  have htype := h.type
  unfold fieldType
  cases hf : f.type <;> cases hg : g.type <;> simp_all [FieldType.shown]

theorem fieldEntries_congr {message : String} {fields fields' : List Field}
    (h : List.Forall₂ Field.Alike fields fields') :
    t.fieldEntries message fields = t.fieldEntries message fields' := by
  have hparams : fields.map (fun f => (⟨t.fieldType f, f.name⟩ : Param))
      = fields'.map fun f => ⟨t.fieldType f, f.name⟩ :=
    map_congr_forall₂ h fun f _ g hfg => by rw [fieldType_congr hfg, hfg.name]
  have hnames : fields.map (·.name) = fields'.map (·.name) :=
    map_congr_forall₂ h fun f _ g hfg => hfg.name
  -- An accessor shows its field and the names of all fields of the message.
  have haccessors : fields.flatMap (t.accessorEntries message fields)
      = fields'.flatMap (t.accessorEntries message fields') :=
    flatMap_congr_forall₂ h fun f _ g hfg => by
      rw [accessorEntries, accessorEntries, hnames, hfg.name, fieldType_congr hfg]
  rw [fieldEntries, fieldEntries, constructorType, constructorType, hparams, haccessors]

theorem enumEntries_congr {e e' : EnumType} (h : e.Alike e') :
    t.enumEntries e = t.enumEntries e' := by
  have hvalues (type : String) :
      e.values.map (fun value => Entry.declare (type ++ "." ++ value.1) (.atom type))
        = e'.values.map fun value => .declare (type ++ "." ++ value.1) (.atom type) := by
    have hmap := congrArg (List.map fun name => Entry.declare (type ++ "." ++ name) (.atom type))
      h.values
    rwa [List.map_map, List.map_map] at hmap
  rw [enumEntries, enumEntries, h.name, hvalues]

theorem nestedEntries_eq_flatMap (ms : List (String × Message)) :
    t.nestedEntries ms = ms.flatMap fun p => t.messageEntries p.2 := by
  induction ms with
  | nil => rfl
  | cons p ms ih => rw [nestedEntries, ih, List.flatMap_cons]

theorem messageEntries_eq (m : Message) :
    t.messageEntries m
      = [.comment ("Define " ++ t.symbol m.name ++ " type"),
         .declare (t.symbol m.name) (.atom "Type"), .emptyLine]
        ++ t.nestedEntries m.messages
        ++ m.enums.flatMap (fun entry => t.enumEntries entry.2)
        ++ t.fieldEntries m.name m.fields := by
  cases m
  rw [messageEntries]

/-- Messages that look alike are written alike, with everything inside them. -/
theorem messageEntries_congr {m m' : Message} (h : m.Alike m') :
    t.messageEntries m = t.messageEntries m' := by
  induction m using Message.nestedInduction generalizing m' with
  | inner m ih =>
    obtain ⟨hname, hfields, hmessages, henums⟩ := h
    have hnested : t.nestedEntries m.messages = t.nestedEntries m'.messages := by
      rw [nestedEntries_eq_flatMap, nestedEntries_eq_flatMap]
      exact flatMap_congr_forall₂ hmessages fun p hp p' halike => ih p hp halike
    have henumEntries : m.enums.flatMap (fun entry => t.enumEntries entry.2)
        = m'.enums.flatMap fun entry => t.enumEntries entry.2 :=
      flatMap_congr_forall₂ henums fun p _ p' halike => enumEntries_congr halike
    rw [messageEntries_eq, messageEntries_eq, hname, hnested, henumEntries,
      fieldEntries_congr hfields]

theorem methodEntries_congr {name : String} {a b : Method} (h : a.Alike b) :
    t.methodEntries name a = t.methodEntries name b := by
  rw [methodEntries, methodEntries, h.input, h.output]

theorem serviceEntries_congr {s s' : Service} (h : s.Alike s') :
    t.serviceEntries s = t.serviceEntries s' :=
  flatMap_congr_forall₂ h fun p _ p' hp => by rw [hp.1, methodEntries_congr hp.2]

theorem documentEntries_congr {s s' : Schema} (h : s.Alike s') :
    t.documentEntries s = t.documentEntries s' := by
  have hheader : t.headerEntries s = t.headerEntries s' := by
    rw [headerEntries, headerEntries, h.name, h.dialect, h.package]
  have hmessages :
      s.messages.flatMap (fun entry => Entry.banner entry.1 ++ t.messageEntries entry.2)
        = s'.messages.flatMap fun entry => Entry.banner entry.1 ++ t.messageEntries entry.2 :=
    flatMap_congr_forall₂ h.messages fun p _ p' hp => by rw [hp.1, messageEntries_congr hp.2]
  have hservices :
      s.services.flatMap (fun entry => Entry.banner entry.1 ++ t.serviceEntries entry.2)
        = s'.services.flatMap fun entry => Entry.banner entry.1 ++ t.serviceEntries entry.2 :=
    flatMap_congr_forall₂ h.services fun p _ p' hp => by rw [hp.1, serviceEntries_congr hp.2]
  rw [documentEntries, documentEntries, hheader, hmessages, hservices]

end Translation

/-- Schemas that look alike have the same document, with every choice that can be made about
it. -/
theorem Schema.toMetta_congr {s s' : Schema} (h : s.Alike s') (options : Options) :
    s.toMetta options = s'.toMetta options := by
  have ht : Translation.ofOptions s options = Translation.ofOptions s' options := by
    rw [Translation.ofOptions, Translation.ofOptions, h.package]
  rw [toMetta, toMetta, ht, Translation.document, Translation.document,
    Translation.documentEntries_congr h]

/-- A message with fields of every type, with a message and an enum inside it, and a service. -/
def Schema.shownOnce : Schema where
  name := "trip.proto"
  dialect := .proto3
  package := some "trip"
  imports := ["town.proto"]
  messages := [("Leg", {
    name := "Leg"
    fullName := "trip.Leg"
    fields := [
      { name := "to", number := 1, label := .optional, type := .message ⟨"Town", "town.Town"⟩ },
      { name := "by", number := 2, label := .repeated, type := .enum ⟨"Means", "trip.Leg.Means"⟩ },
      { name := "km", number := 3, label := .optional, type := .scalar .uint32 },
      { name := "stop", number := 4, label := .repeated, type := .group ⟨"Stop", "trip.Leg.Stop"⟩ }]
    messages := [("Stop", .flat "Stop" "trip.Leg.Stop" [])]
    enums := [("Means", ⟨"Means", "trip.Leg.Means", [("FOOT", 0), ("RAIL", 1)]⟩)] })]
  enums := [("Season", ⟨"Season", "trip.Season", [("DRY", 0)]⟩)]
  services := [("Guide", ⟨"Guide", "trip.Guide",
    [("plan", ⟨"plan", ⟨"Town", "town.Town"⟩, ⟨"Leg", "trip.Leg"⟩, false, true⟩)]⟩)]

/-- The same with all other parts changed. -/
def Schema.shownAgain : Schema where
  name := "trip.proto"
  dialect := .proto3
  package := some "trip"
  imports := []
  messages := [("Leg", {
    name := "Leg"
    fullName := "Leg"
    fields := [
      { name := "to", number := 7, label := .required, type := .enum ⟨"Town", "Town"⟩ },
      { name := "by", number := 8, label := .optional, type := .message ⟨"Means", "Means"⟩ },
      { name := "km", number := 9, label := .repeated, type := .scalar .uint32 },
      { name := "stop", number := 11, label := .optional, type := .group ⟨"Halt", "Halt"⟩ }]
    messages := [("Halt", .flat "Stop" "Halt" [])]
    enums := [("Way", ⟨"Means", "Way", [("FOOT", 5), ("RAIL", -1)]⟩)] })]
  enums := []
  services := [("Guide", ⟨"Tour", "Tour",
    [("plan", ⟨"tour", ⟨"Town", "Town"⟩, ⟨"Leg", "Leg"⟩, true, false⟩)]⟩)]

theorem Schema.toMetta_congr_shown :
    shownOnce.Alike shownAgain ∧ shownOnce.imports ≠ shownAgain.imports
      ∧ shownOnce.toMetta { curried := true } = shownAgain.toMetta { curried := true } := by
  have hleg : List.Forall₂ (fun p p' => p.1 = p'.1 ∧ Message.Alike p.2 p'.2)
      shownOnce.messages shownAgain.messages :=
    .cons ⟨rfl, .intro rfl
      (.cons ⟨rfl, rfl⟩ (.cons ⟨rfl, rfl⟩ (.cons ⟨rfl, rfl⟩ (.cons ⟨rfl, rfl⟩ .nil))))
      (.cons (.intro rfl .nil .nil .nil) .nil) (.cons ⟨rfl, rfl⟩ .nil)⟩ .nil
  have halike : shownOnce.Alike shownAgain :=
    ⟨rfl, rfl, rfl, hleg, .cons ⟨rfl, .cons ⟨rfl, rfl, rfl⟩ .nil⟩ .nil⟩
  exact ⟨halike, by decide, toMetta_congr halike _⟩

end MettaSchema
