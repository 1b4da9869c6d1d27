import MettaSchema.Proofs.Schema.Print

/-!
# Reading printed schemas

What the grammar reads of the words of a schema is the tree of the schema.

* `Field.takes`, `EnumType.takes`, `Message.takes`, … — part by part, whatever follows.
* `Schema.takes` — a whole file.
-/

namespace MettaSchema

open Scan Words Phrase

/-! ## Words -/

theorem ready_cons {w : String} (ws : List String) (h : startsWith isNameChar w.toList = true) :
    Ready (w :: ws) := by
  cases hw : w.toList with
  | nil =>
    rw [hw] at h
    cases h
  | cons c s =>
    rw [hw] at h
    have hc : isSolid c = true := isSolid_of_isInner (inner_isNameChar c h)
    simp only [isSolid, Bool.not_eq_true', Bool.or_eq_false_iff] at hc
    refine ⟨by simp [hw], ?_⟩
    rw [hw]
    simp [startsWith, beginsBlank, hc]

theorem ready_name {name : String} (ws : List String) (h : isName name.toList = true) :
    Ready (name :: ws) := by
  refine ready_cons ws ?_
  cases hw : name.toList with
  | nil =>
    rw [hw] at h
    cases h
  | cons c s => exact isNameChar_of_isName (hw ▸ h) c (by simp)

theorem catches_ident {name : String} (h : isName name.toList = true) : Catches ident name :=
  catches_of_local local_ident (ident_of_name h)

theorem catches_punct {c : Char} (w : String) (hw : w.toList = [c]) :
    Catches (exactly w.toList) w := by
  intro ws
  simp [hw, exactly]

theorem catches_intLit (i : Int) : Catches intLit i.repr :=
  catches_of_local local_intLit (intLit_repr i)

theorem catches_word {text : String} (h : text.toList.all isSolid = true) :
    Catches (word text) text := by
  refine catches_of_local (local_word h) ?_
  simp [word, before, exactly, startsWith]

namespace Phrase

theorem Takes.name {name : String} {ws : List String} (h : isName name.toList = true)
    (hws : Ready ws) : Takes Proto.ident (name :: ws) [.token .ident name.toList] ws :=
  .token (catches_ident h) hws

theorem Takes.punct {w : String} {c : Char} {ws : List String} (hw : w.toList = [c])
    (hws : Ready ws) : Takes (Phrase.punct w) (w :: ws) [] ws :=
  .mark (catches_punct w hw) hws

theorem Takes.intLit {ws : List String} (i : Int) (hws : Ready ws) :
    Takes Proto.intLit (i.repr :: ws) [.token .intLit i.repr.toList] ws :=
  .token (catches_intLit i) hws

theorem Takes.keyword {rule : Rule} {text : String} {ws : List String}
    (h : text.toList.all isSolid = true) (hws : Ready ws) :
    Takes (Proto.keyword rule text) (text :: ws) [.token rule text.toList] ws :=
  .token (catches_word h) hws

end Phrase

theorem ready_int (i : Int) (ws : List String) : Ready (i.repr :: ws) := by
  rw [Ready, toList_repr]
  split
  · cases hd : Nat.toDigits 10 i.natAbs with
    | nil => exact absurd hd Nat.toDigits_ne_nil
    | cons c s =>
      have hdigit := Nat.isDigit_of_mem_toDigits (b := 10) (n := i.natAbs) (c := c) (by decide)
        (by decide) (by simp [hd])
      have hc := isSolid_of_isInner (inner_isDigit c hdigit)
      simp only [isSolid, Bool.not_eq_true', Bool.or_eq_false_iff] at hc
      simp [startsWith, beginsBlank, hc]
  · simp [startsWith, beginsBlank, isBlank]

/-- Whether words are ready shows in the first of them. -/
theorem ready_of {w : String} {ws : List String} (h : Ready [w]) : Ready (w :: ws) := h

/-- A semicolon is no option. -/
theorem Phrase.Takes.noOptions {ws : List String} :
    Takes (.opt Proto.fieldOptions) (";" :: ws) [] (";" :: ws) :=
  have hready : Ready (";" :: ws) := ready_of (by decide)
  .opt_none (refuses_of_blocked Proto.firm_fieldOptions hready (by decide)) hready

/-- A block in braces is read as a whole if all its parts are. -/
theorem Phrase.Takes.block {p : Phrase} {parts : List (List String × List Tree)}
    (h : ∀ part ∈ parts, Spells p part.1 part.2) (hf : p.FirmFirst)
    (hb : p.blocked ['\x7d'] = true) {ws : List String} (hws : Ready ws) :
    Takes (.sequence [Proto.openBrace, .star p, Proto.closeBrace])
      ("\x7b" :: (parts.flatMap (·.1) ++ ["\x7d"]) ++ ws) (parts.flatMap (·.2)) ws := by
  have hclose : Ready ("\x7d" :: ws) := ready_of (by decide)
  have hstar : Takes (.star p) (parts.flatMap (·.1) ++ "\x7d" :: ws) (parts.flatMap (·.2))
      ("\x7d" :: ws) := .star parts h hclose (refuses_of_blocked hf hclose hb)
  have hready : Ready (parts.flatMap (·.1) ++ "\x7d" :: ws) := Spells.ready_flatMap h hclose
  have hopen : Takes Proto.openBrace ("\x7b" :: (parts.flatMap (·.1) ++ "\x7d" :: ws)) []
      (parts.flatMap (·.1) ++ "\x7d" :: ws) :=
    .punct (w := "\x7b") (c := '\x7b') rfl hready
  have hshut : Takes Proto.closeBrace ("\x7d" :: ws) [] ws :=
    .punct (w := "\x7d") (c := '\x7d') rfl hws
  simpa [Phrase.sequence] using hopen.seq (hstar.seq hshut)

/-! ## Enums -/

namespace EnumType

theorem takes_value {value : String × Int} (h : isName value.1.toList = true) {ws : List String}
    (hws : Ready ws) :
    Takes Proto.enumValue (valueWords value ++ ws) [valueTree value] ws :=
  .node <| .seq (.name h (ready_of (by decide))) <|
    .seq (.punct (c := '=') rfl (ready_int _ _)) <|
    .seq (.intLit value.2 (ready_of (by decide))) <|
    .seq .noOptions <|
    .punct (c := ';') rfl hws

end EnumType

/-- A name begins a statement only if it is its keyword, and then the rest of the statement has to
follow. -/
theorem refuses_statement {rule rule' : Rule} {text name w : String} {p : Phrase}
    {ws : List String} (h : isName name.toList = true)
    (htext : text.toList.all isSolid = true) (hw : Ready (w :: ws)) (hp : Refuses p (w :: ws)) :
    Refuses (.node rule (.seq (Proto.keyword rule' text) p)) (name :: w :: ws) := by
  refine .node ?_
  by_cases hname : name = text
  · subst hname
    exact .seq_second (.keyword htext hw) hp
  · have hne : name.toList ≠ text.toList := fun heq => hname (String.toList_injective heq)
    refine .seq_first (refuses_of_blocked (Proto.firm_keyword htext) (ready_name _ h) ?_)
    simp [Proto.keyword, blocked, word_of_name h hne]

namespace EnumType

/-- The elements of an enum. -/
abbrev element : Phrase :=
  .choice [Proto.optionStatement, Proto.reserved, Proto.enumValue, Proto.emptyStatement]

/-- A value of an enum may have a keyword as its name. -/
theorem spells_value {value : String × Int} (h : isName value.1.toList = true) :
    Spells element (valueWords value) [valueTree value] := by
  intro ws hws
  have hready : Ready ("=" :: value.2.repr :: ";" :: ws) := ready_of (by decide)
  have hoption : Refuses Proto.optionStatement (valueWords value ++ ws) :=
    refuses_statement h (by decide) hready
      (.seq_first (refuses_of_blocked Proto.firm_optionName hready (by decide)))
  have hreserved : Refuses Proto.reserved (valueWords value ++ ws) := by
    refine refuses_statement h (by decide) hready (.seq_first (.alt ?_ ?_))
    · exact refuses_of_blocked Proto.firm_ranges hready (by decide)
    · exact .node (.seq_first (.alt (.token rfl)
        (refuses_of_blocked Proto.firm_ident hready (by decide))))
  refine ⟨ready_name _ h, ?_⟩
  exact .alt_second hoption (.alt_second hreserved (.alt_first (takes_value h hws)))

theorem takes {scope : String} {enum : EnumType} (h : enum.Printable scope) {ws : List String}
    (hws : Ready ws) : Takes Proto.enumDef (enum.words ++ ws) [enum.tree] ws := by
  have hvalues : ∀ part ∈ enum.values.map fun value => (valueWords value, [valueTree value]),
      Spells element part.1 part.2 := by
    intro part hpart
    obtain ⟨value, hvalue, rfl⟩ := List.mem_map.1 hpart
    exact spells_value (h.values value hvalue).1
  have hblock := Takes.block hvalues Proto.firm_enumElement (by decide) hws
  simp only [List.flatMap_map, ← List.map_eq_flatMap] at hblock
  exact .node (.seq (.keyword (by decide) (ready_name _ h.name))
    (.seq (.name h.name (ready_of (by decide))) hblock))

end EnumType

/-! ## Fields -/

theorem TypeRef.toList_word (ref : TypeRef) : ref.word.toList = '.' :: ref.fullName.toList := by
  rw [word, String.toList_append]
  rfl

theorem TypeRef.ready (ref : TypeRef) (ws : List String) : Ready (ref.word :: ws) := by
  rw [Ready, ref.toList_word]
  exact ⟨by simp, rfl⟩

theorem TypeRef.catches {ref : TypeRef} (h : Dotted ref.fullName.toList) :
    Catches typeName ref.word := by
  refine catches_of_local local_typeName ?_
  rw [ref.toList_word, typeName_of_dotted h]

/-- How a type is written: it is no word that begins a group. -/
theorem FieldType.catches {type : FieldType} (h : type.Printable)
    (hdotted : ∀ ref ∈ type.reference?, Dotted ref.1.toList) :
    Catches typeName type.word ∧ Ready [type.word] ∧ Scan.word "group" type.word.toList = none := by
  have href (ref : TypeRef) (hd : Dotted ref.fullName.toList) :
      Catches typeName ref.word ∧ Ready [ref.word] ∧ Scan.word "group" ref.word.toList = none := by
    refine ⟨ref.catches hd, ref.ready [], ?_⟩
    rw [ref.toList_word]
    rfl
  cases type with
  | scalar kind =>
    have hscalar : ∀ kind ∈ Kind.keywords.map (·.2),
        typeName kind.word.toList = some (kind.word.toList, []) ∧ Ready [kind.word]
          ∧ Scan.word "group" kind.word.toList = none := by decide
    obtain ⟨hscan, hready, hgroup⟩ := hscalar kind h
    exact ⟨catches_of_local local_typeName hscan, hready, hgroup⟩
  | message ref => exact href ref (hdotted _ rfl)
  | enum ref => exact href ref (hdotted _ rfl)
  | group ref => exact h.elim

theorem Label.catches (label : Label) :
    Catches (oneOfWords ["optional", "required", "repeated"]) label.word := by
  refine catches_of_local (local_oneOfWords (by decide)) ?_
  cases label <;> rfl

namespace Field

theorem takes {field : Field} (h : field.Printable)
    (hdotted : ∀ ref ∈ field.type.reference?, Dotted ref.1.toList) {ws : List String}
    (hws : Ready ws) : Takes Proto.field (field.words ++ ws) [field.tree] ws := by
  obtain ⟨hcatches, htype, -⟩ := FieldType.catches h.type hdotted
  exact .node <| .seq (.opt_some (.token field.label.catches (ready_of htype))) <|
    .seq (.token hcatches (ready_name _ h.name)) <|
    .seq (.name h.name (ready_of (by decide))) <|
    .seq (.punct (c := '=') rfl (ready_int field.number _)) <|
    .seq (.intLit field.number (ready_of (by decide))) <|
    .seq .noOptions <|
    .punct (c := ';') rfl hws

/-- A field is no group, and its label is no word that begins another statement. -/
theorem spells {field : Field} (h : field.Printable)
    (hdotted : ∀ ref ∈ field.type.reference?, Dotted ref.1.toList) :
    Spells Proto.messageElement field.words [field.tree] := by
  intro ws hws
  obtain ⟨-, htype, hgroup⟩ := FieldType.catches h.type hdotted
  have hready : Ready (field.words ++ ws) := by
    refine ready_of ?_
    cases field.label <;> decide
  have hblocked := refuses_of_all_blocked [Proto.optionStatement, Proto.reserved,
    Proto.extensions, Proto.messageDef, Proto.enumDef, Proto.extendDef, Proto.oneofDef,
    Proto.mapField] [Proto.groupField, Proto.field, Proto.emptyStatement]
    Proto.firm_messageElement hready (by cases field.label <;> decide)
  have hnogroup : Refuses Proto.groupField (field.words ++ ws) := by
    refine .node (.seq_second (.opt_some (.token field.label.catches (ready_of htype)))
      (.seq_first ?_))
    refine refuses_of_blocked (Proto.firm_keyword (by decide)) (ready_of htype) ?_
    simp [Proto.keyword, blocked, hgroup]
  refine ⟨hready, Takes.choice _ (by simp) hblocked ?_⟩
  exact .alt_second hnogroup (.alt_first (takes h hdotted hws))

end Field

/-! ## Messages -/

namespace Message

/-- A message that can be written, and whose references are to dotted names. -/
def Spelt (message : Message) : Prop :=
  message.Printable ∧ ∀ ref ∈ message.fieldReferences, Dotted ref.1.toList

theorem wordsAll_eq_flatMap (ms : List (String × Message)) :
    wordsAll ms = ms.flatMap (·.2.words) := by
  induction ms with
  | nil => rfl
  | cons p ms ih => rw [wordsAll, ih, List.flatMap_cons]

theorem treesAll_eq_map (ms : List (String × Message)) : treesAll ms = ms.map (·.2.tree) := by
  induction ms with
  | nil => rfl
  | cons p ms ih => rw [treesAll, ih, List.map_cons]

/-- The message is read as a whole, however deep messages are nested in it. -/
theorem takes (m : Message) : m.Everywhere Spelt → ∀ ws, Ready ws →
    Takes Proto.messageDef (m.words ++ ws) [m.tree] ws := by
  induction m using nestedInduction with
  | inner m ih =>
    intro h ws hws
    obtain ⟨⟨hname, hfields, hinner⟩, hdotted⟩ := h.self
    have hparts : ∀ part ∈ m.fields.map (fun field => (field.words, [field.tree]))
        ++ m.messages.map (fun p => (p.2.words, [p.2.tree]))
        ++ m.enums.map (fun p => (p.2.words, [p.2.tree])),
        Spells Proto.messageElement part.1 part.2 := by
      simp only [List.mem_append, List.mem_map]
      rintro part ((⟨field, hfield, rfl⟩ | ⟨p, hp, rfl⟩) | ⟨p, hp, rfl⟩)
      · refine Field.spells (hfields field hfield) fun ref href => hdotted ref ?_
        exact List.mem_filterMap.2 ⟨field, hfield, href⟩
      · have htakes := ih p hp (h.inner hp)
        obtain ⟨key, name, fullName, fields, messages, enums, ascending⟩ := p
        exact .choice [Proto.optionStatement, Proto.reserved, Proto.extensions]
          [Proto.enumDef, Proto.extendDef, Proto.oneofDef, Proto.mapField, Proto.groupField,
            Proto.field, Proto.emptyStatement] Proto.firm_messageElement (by decide) (by decide)
          htakes
      · exact .choice [Proto.optionStatement, Proto.reserved, Proto.extensions, Proto.messageDef]
          [Proto.extendDef, Proto.oneofDef, Proto.mapField, Proto.groupField, Proto.field,
            Proto.emptyStatement] Proto.firm_messageElement (by decide) (by decide)
          fun ws hws => EnumType.takes (hinner.printable p hp).2 hws
    have hblock := Takes.block hparts Proto.firm_messageElement (by decide) hws
    simp only [List.flatMap_append, List.flatMap_map, ← List.map_eq_flatMap,
      ← wordsAll_eq_flatMap, ← treesAll_eq_map] at hblock
    obtain ⟨name, fullName, fields, messages, enums, ascending⟩ := m
    exact .node (.seq (.keyword (by decide) (ready_name _ hname))
      (.seq (.name hname (ready_of (by decide))) (.body (.node hblock))))

end Message

/-! ## Services -/

namespace Method

theorem takes_type (stream : Bool) {ref : TypeRef} (hd : Dotted ref.fullName.toList)
    {ws : List String} (hws : Ready ws) :
    Ready (typeWords stream ref ++ ws) ∧ Takes (.seq (.opt Proto.stream) Proto.typeName)
      (typeWords stream ref ++ ws) (typeTrees stream ref) ws := by
  have htype : Takes Proto.typeName (ref.word :: ws) [.token .typeName ref.word.toList] ws :=
    .token (ref.catches hd) hws
  have hready := ref.ready ws
  cases stream with
  | true =>
    have hstream : Takes Proto.stream ("stream" :: ref.word :: ws)
        [.token .stream "stream".toList] (ref.word :: ws) :=
      ⟨_, _, .token_some rfl, hready.blanks_trail, rfl⟩
    exact ⟨ready_of (by decide), .seq (.opt_some hstream) htype⟩
  | false =>
    have hnone : Refuses Proto.stream (ref.word :: ws) := by
      refine .token ?_
      rw [spaced, ref.toList_word]
      rfl
    exact ⟨hready, .seq (.opt_none hnone hready) htype⟩

theorem takes {method : Method} (h : method.Printable)
    (hdotted : ∀ ref ∈ method.references, Dotted ref.1.toList) {ws : List String}
    (hws : Ready ws) : Takes Proto.rpc (method.words ++ ws) [method.tree] ws := by
  have hend : Takes (.choice [Proto.rpcBody, .punct ";"]) (";" :: ws) [] ws := by
    have hready : Ready (";" :: ws) := ready_of (by decide)
    have hopen : Proto.openBrace.FirmFirst := firm_punctuation (by decide)
    exact .alt_second (.seq_first (refuses_of_blocked hopen hready (by decide)))
      (.punct (c := ';') rfl hws)
  have hclose : Ready (")" :: ";" :: ws) := ready_of (by decide)
  obtain ⟨houtput, htakesOutput⟩ := takes_type method.serverStreaming
    (hdotted (method.output.fullName, .message) (by simp [references])) hclose
  have hreturns : Ready (")" :: "returns" :: "("
      :: (typeWords method.serverStreaming method.output ++ ")" :: ";" :: ws)) :=
    ready_of (by decide)
  obtain ⟨hinput, htakesInput⟩ := takes_type method.clientStreaming
    (hdotted (method.input.fullName, .message) (by simp [references])) hreturns
  simp only [words, List.append_assoc, List.cons_append, List.nil_append]
  exact .node <| .seq (.keyword (by decide) (ready_name _ h.name)) <|
    .seq (.name h.name (ready_of (by decide))) <|
    .seq (.punct (c := '(') rfl hinput) <|
    .seq (.node htakesInput) <|
    .seq (.punct (c := ')') rfl (ready_of (by decide))) <|
    .seq (.keyword (by decide) (ready_of (by decide))) <|
    .seq (.punct (c := '(') rfl houtput) <|
    .seq (.node htakesOutput) <|
    .seq (.punct (c := ')') rfl (ready_of (by decide))) hend

end Method

theorem Service.takes {scope : String} {service : Service} (h : service.Printable scope)
    (hdotted : ∀ p ∈ service.methods, ∀ ref ∈ p.2.references, Dotted ref.1.toList)
    {ws : List String} (hws : Ready ws) :
    Takes Proto.serviceDef (service.words ++ ws) [service.tree] ws := by
  have hmethods : ∀ part ∈ service.methods.map fun p => (p.2.words, [p.2.tree]),
      Spells (.choice [Proto.optionStatement, Proto.rpc, Proto.emptyStatement]) part.1 part.2 := by
    intro part hpart
    obtain ⟨p, hp, rfl⟩ := List.mem_map.1 hpart
    exact .choice [Proto.optionStatement] [Proto.emptyStatement] Proto.firm_serviceElement
      (by decide) (by decide) fun ws hws => Method.takes (h.methods p hp).2 (hdotted p hp) hws
  have hblock := Takes.block hmethods Proto.firm_serviceElement (by decide) hws
  simp only [List.flatMap_map, ← List.map_eq_flatMap] at hblock
  exact .node (.seq (.keyword (by decide) (ready_name _ h.name))
    (.seq (.name h.name (ready_of (by decide))) hblock))

/-! ## Files -/

namespace Schema

theorem ready_quote (text : String) (ws : List String) : Ready (Literal.quote text :: ws) := by
  rw [Ready, Literal.toList_quote]
  exact ⟨by simp, rfl⟩

theorem takes_quote (text : String) {ws : List String} (hws : Ready ws) :
    Takes Proto.strLit (Literal.quote text :: ws)
      [.token .strLit (Literal.quote text).toList] ws :=
  .token (fun ws => strLit_append (Literal.literal_quote text) (trail ws)) hws

theorem takes_dialect (dialect : Dialect) {ws : List String} (hws : Ready ws) :
    Takes Proto.syntaxLine (["syntax", "=", Literal.quote dialect.name, ";"] ++ ws)
      [dialectTree dialect] ws :=
  .node <| .seq (.keyword (by decide) (ready_of (by decide))) <|
    .seq (.punct (c := '=') rfl (ready_quote _ _)) <|
    .seq (takes_quote _ (ready_of (by decide))) <|
    .punct (c := ';') rfl hws

theorem takes_package {package : String} (h : Dotted package.toList) {ws : List String}
    (hws : Ready ws) :
    Takes Proto.packageLine (packageWords package ++ ws) [packageTree package] ws := by
  have hready : Ready (package :: ";" :: ws) := by
    refine ready_cons _ ?_
    have hstart := h.starts
    cases hp : package.toList with
    | nil => exact absurd hp h.ne_nil
    | cons c s =>
      rw [hp] at hstart
      exact isNameChar_of_isNameStart hstart
  exact .node <| .seq (.keyword (by decide) hready) <|
    .seq (.token (catches_of_local local_dotted (dotted_of_dotted h)) (ready_of (by decide))) <|
    .punct (c := ';') rfl hws

theorem takes_import (path : String) {ws : List String} (hws : Ready ws) :
    Takes Proto.importLine (importWords path ++ ws) [importTree path] ws := by
  have hready := ready_quote path (";" :: ws)
  have hmodifier : Refuses Proto.importModifier (Literal.quote path :: ";" :: ws) := by
    refine .token ?_
    rw [spaced, Literal.toList_quote]
    rfl
  exact .node <| .seq (.keyword (by decide) hready) <|
    .seq (.opt_none hmodifier hready) <|
    .seq (takes_quote path (ready_of (by decide))) <|
    .punct (c := ';') rfl hws

/-- The statements behind the first line, each with its tree. -/
def parts (schema : Schema) : List (List String × List Tree) :=
  schema.package.toList.map (fun package => (packageWords package, [packageTree package]))
    ++ schema.imports.map (fun path => (importWords path, [importTree path]))
    ++ schema.messages.map (fun p => (p.2.words, [p.2.tree]))
    ++ schema.enums.map (fun p => (p.2.words, [p.2.tree]))
    ++ schema.services.map (fun p => (p.2.words, [p.2.tree]))

theorem spells_parts {schema : Schema} (h : schema.Printable)
    (hdotted : ∀ ref ∈ schema.references, Dotted ref.1.toList) :
    ∀ part ∈ schema.parts, Spells Proto.topLevel part.1 part.2 := by
  have hspelt : ∀ m ∈ schema.allMessages, m.Spelt := fun m hm =>
    ⟨h.messages m hm, fun ref href =>
      hdotted ref (List.mem_append_left _ (List.mem_flatMap.2 ⟨m, hm, href⟩))⟩
  simp only [parts, List.mem_append, List.mem_map]
  rintro part ((((⟨package, hp, rfl⟩ | ⟨path, -, rfl⟩) | ⟨p, hp, rfl⟩) | ⟨p, hp, rfl⟩)
    | ⟨p, hp, rfl⟩)
  · exact .choice [Proto.importLine] [Proto.optionStatement, Proto.messageDef, Proto.enumDef,
      Proto.serviceDef, Proto.extendDef, Proto.emptyStatement] Proto.firm_topLevel (by decide)
      (by decide) fun ws hws => takes_package (h.package package (by simpa using hp)) hws
  · exact .choice [] [Proto.packageLine, Proto.optionStatement, Proto.messageDef, Proto.enumDef,
      Proto.serviceDef, Proto.extendDef, Proto.emptyStatement] Proto.firm_topLevel (by decide)
      rfl fun ws hws => takes_import path hws
  · have htakes := Message.takes p.2 fun n hn =>
      hspelt n (Message.mem_withNestedAll.2 ⟨p, hp, hn⟩)
    obtain ⟨key, name, fullName, fields, messages, enums, ascending⟩ := p
    exact .choice [Proto.importLine, Proto.packageLine, Proto.optionStatement] [Proto.enumDef,
      Proto.serviceDef, Proto.extendDef, Proto.emptyStatement] Proto.firm_topLevel (by decide)
      (by decide) htakes
  · exact .choice [Proto.importLine, Proto.packageLine, Proto.optionStatement, Proto.messageDef]
      [Proto.serviceDef, Proto.extendDef, Proto.emptyStatement] Proto.firm_topLevel (by decide)
      (by decide) fun ws hws => EnumType.takes (h.siblings.printable p hp).2 hws
  · have hmethods : ∀ q ∈ p.2.methods, ∀ ref ∈ q.2.references, Dotted ref.1.toList :=
      fun q hq ref href => hdotted ref (List.mem_append_right _
        (List.mem_flatMap.2 ⟨p, hp, List.mem_flatMap.2 ⟨q, hq, href⟩⟩))
    exact .choice [Proto.importLine, Proto.packageLine, Proto.optionStatement, Proto.messageDef,
      Proto.enumDef] [Proto.extendDef, Proto.emptyStatement] Proto.firm_topLevel (by decide)
      (by decide) fun ws hws => Service.takes (h.services p hp).2 hmethods hws

/-- The words of a schema are read as its tree. -/
theorem takes {schema : Schema} (h : schema.Printable)
    (hdotted : ∀ ref ∈ schema.references, Dotted ref.1.toList) :
    Takes Proto.file schema.words [schema.tree] [] := by
  have hspells := spells_parts h hdotted
  have hready : Ready (schema.parts.flatMap (·.1) ++ []) := Spells.ready_flatMap hspells trivial
  have hempty : Ready [] := trivial
  have hstar := Takes.star schema.parts hspells hempty
    (refuses_nil (by decide))
  have hend : Takes (.token .endOfInput endOfInput) [] [.token .endOfInput []] [] :=
    ⟨_, _, .token_some rfl, rfl, rfl⟩
  have hfirst : Ready (["syntax", "=", Literal.quote schema.dialect.name, ";"]
      ++ (schema.parts.flatMap (·.1) ++ [])) := ready_of (by decide)
  have hfile := Takes.seq (.nothing hfirst)
    (.seq (.opt_some (.alt_first (q := Proto.editionLine) (takes_dialect schema.dialect hready)))
      (hstar.seq hend))
  simp only [parts, List.flatMap_append, List.flatMap_map, ← List.map_eq_flatMap,
    ← Message.wordsAll_eq_flatMap, ← Message.treesAll_eq_map, List.append_nil] at hfile
  exact .node hfile

/-- The text of a schema is accepted, and it has the tree of the schema. -/
theorem parse_print_tree {schema : Schema} (h : schema.Printable)
    (hdotted : ∀ ref ∈ schema.references, Dotted ref.1.toList) :
    ∃ trees, Proto.parse Proto.file schema.print.toList = .ok trees
      ∧ Tree.skeletonAll trees = [schema.tree] := by
  obtain ⟨trees, r, hreads, -, htrees⟩ := takes h hdotted
  refine ⟨trees, ?_, htrees⟩
  rw [print, String.toList_ofList, Proto.parse, (Proto.read_eq_iff Proto.sound_file).2 hreads]

end Schema

end MettaSchema
