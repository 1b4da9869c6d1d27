import MettaSchema.Proofs.Import.Contributed
import MettaSchema.Proofs.Metta.Accessors

/-!
# The name of a file in its document

The name of a file stands in a comment at the head of its document and nowhere else, but it is
written there as it is.  Only its first line belongs to the comment: what the other lines say is
read in front of everything that the document says.

* `Form.tokensBehind`, `Form.readBehind` — what is read of a text whose first line is in a comment.
* `Schema.scan_named`, `Schema.read_named` — a document is read behind the name of its file.
* `Schema.parse_renamed` — but for the name, a text has the same schema under every name.
* `Schema.read_of_parse` — the document of a text can be read if the name is one line.
* `Schema.read_renamed_iff` — when the documents under two names say the same.
-/

namespace MettaSchema

open Form

/-! ## Texts whose first line is in a comment -/

namespace Form

/-- The tokens of a text whose first line is in a comment. -/
def tokensBehind (text : String) : List Token :=
  scan .comment text.toList

/-- The forms of a text whose first line is in a comment, if its parentheses match. -/
def readBehind (text : String) : Option (List Form) :=
  group [[]] (tokensBehind text)

theorem tokensBehind_append {line : String} (h : Line line) (text : String) :
    tokensBehind (line ++ text) = tokensBehind text := by
  rw [tokensBehind, String.toList_append, scan_comment_append h]
  rfl

theorem tokensBehind_of_line {line : String} (h : Line line) : tokensBehind line = [] := by
  rw [← String.append_empty (s := line), tokensBehind_append h]
  rfl

/-- Behind its first line a text is read as it is. -/
theorem readBehind_lineBreak {line : String} (h : Line line) (text : String) :
    readBehind (line ++ "\n" ++ text) = read text := by
  rw [readBehind, String.append_assoc, tokensBehind_append h, tokensBehind, String.toList_append]
  rfl

end Form

/-- The title of a comment is in the comment up to its first line break. -/
theorem Entry.scan_comment_text (title : String) (s : List Char) :
    scan .between ((comment title).text.toList ++ s) = tokensBehind title ++ scan .between s := by
  have htext : (comment title).text.toList ++ s
      = ';' :: (";; ".toList.tail ++ (title.toList ++ '\n' :: s)) := by
    simp [text]
  rw [htext, scan, start, if_pos rfl, List.nil_append, scan_comment_append (by decide),
    scan_append_line]
  rfl

/-! ## Documents of one schema under several names -/

/-- The same schema under another name. -/
def Schema.named (name : String) (schema : Schema) : Schema :=
  { schema with name }

/-- The name of a schema stands in the fourth entry of its document. -/
theorem Translation.documentEntries_named (t : Translation) (schema : Schema) (name : String) :
    t.documentEntries (schema.named name)
      = .rule 61 :: .comment "MeTTa representation, generated by protobuf-metta" :: .rule 2
        :: .comment ("Protobuf file: " ++ name) :: (t.documentEntries schema).drop 4 :=
  rfl

namespace Schema

variable {schema : Schema} {options : Options}

/-- The tokens of a document are those of the name of the file, behind its first line, and others
that do not depend on the name. -/
theorem scan_named (schema : Schema) (options : Options) (name : String) :
    scan .between ((schema.named name).toMetta options).toList
      = tokensBehind name ++ scan .between ((schema.named "").toMetta options).toList := by
  let t := Translation.ofOptions schema options
  let rest := (t.documentEntries schema).drop 4
  have hheader (name : String) : scan .between ((schema.named name).toMetta options).toList
      = tokensBehind name ++ scan .between (Entry.textAll rest).toList := by
    have htext : (schema.named name).toMetta options = Entry.textAll (.rule 61
        :: .comment "MeTTa representation, generated by protobuf-metta" :: .rule 2
        :: .comment ("Protobuf file: " ++ name) :: rest) :=
      congrArg Entry.textAll (t.documentEntries_named schema name)
    have hrule (width : Nat) : (Entry.rule width).Legible := trivial
    have hbanner : Line "MeTTa representation, generated by protobuf-metta" := by decide
    have hlabel : Line "Protobuf file: " := by decide
    rw [htext, Entry.textAll, String.toList_append, Entry.scan_text (hrule 61), Entry.textAll,
      String.toList_append, Entry.scan_comment_text, Entry.textAll, String.toList_append,
      Entry.scan_text (hrule 2), Entry.textAll, String.toList_append, Entry.scan_comment_text,
      tokensBehind_append hlabel, tokensBehind_of_line hbanner]
    rfl
  rw [hheader, hheader ""]
  rfl

/-- A document that can be read under a name of one line says the same under every other name,
behind what the name says. -/
theorem read_named {forms : List Form}
    (h : read ((schema.named "").toMetta options) = some forms) (name : String) :
    read ((schema.named name).toMetta options) = (readBehind name).map (· ++ forms) := by
  rw [Form.read, scan_named, read_eq_some_iff.1 h, group_append_tokensAll]
  rfl

end Schema

/-! ## Names and texts -/

/-- The name of a file goes into its schema as it is. -/
theorem FileDecl.build_named (name : String) (table : SymbolTable) (file : FileDecl) :
    (file.named name).build table = (file.build table).map (Schema.named name) := by
  have hscope : (file.named name).scope = file.scope := rfl
  rw [build, build, hscope]
  simp only [named]
  cases MessageDecl.buildAll table file.scope file.messages with
  | error e => rfl
  | ok messages =>
    cases file.services.mapM (ServiceDecl.build table file.scope) <;> rfl

theorem MessageDecl.key_buildAll {table : SymbolTable} {scope : String} (decls : List MessageDecl) :
    ∀ {ms : List (String × Message)}, buildAll table scope decls = .ok ms →
      ∀ p ∈ ms, p.1 = p.2.name := by
  induction decls with
  | nil =>
    intro ms h
    cases h
    exact fun p hp => absurd hp List.not_mem_nil
  | cons decl decls ih =>
    intro ms h
    obtain ⟨m, more, -, hmore, rfl⟩ := buildAll_cons_eq_ok.1 h
    exact List.forall_mem_cons.2 ⟨rfl, ih hmore⟩

/-- A message that is named by identifiers is legible. -/
theorem Message.legible_of_identified {m : Message} (h : ∀ n ∈ m.names, Identifier n) :
    m.Legible := by
  have hname := h m.name List.mem_cons_self
  rw [names, List.forall_mem_cons, List.forall_mem_append, List.forall_mem_flatMap,
    List.forall_mem_flatMap] at h
  obtain ⟨-, hfields, henums⟩ := h
  refine ⟨hname.plain, fun f hf => ?_, fun e he => ?_⟩
  · obtain ⟨hfield, htype⟩ := List.forall_mem_cons.1 (hfields f hf)
    refine ⟨hfield.plain, fun n hn => Identifier.plain (htype n ?_)⟩
    cases hkind : f.type with
    | message ref | enum ref =>
      rw [hkind] at hn
      obtain rfl : ref.name = n := by simpa [FieldType.localName?] using hn
      simp [FieldType.ref?]
    | _ =>
      rw [hkind] at hn
      cases hn
  · obtain ⟨henum, hvalues⟩ := List.forall_mem_cons.1 (henums e he)
    exact ⟨henum.plain, fun v hv => (hvalues v.1 (List.mem_map_of_mem hv)).plain⟩

namespace Schema

variable {name source : String} {schema : Schema}

/-- A text has the same schema under every name of the file, but for the name. -/
theorem parse_renamed (h : Schema.parse name source = .ok schema) (name' : String) :
    Schema.parse name' source = .ok (schema.named name') := by
  rw [Schema.parse, bind_eq_ok] at h
  obtain ⟨file, hfile, h⟩ := h
  have hbuild := file.build_named name' (.ofFiles (file :: file.imports.filterMap Bundled.file?))
  rw [h] at hbuild
  rw [Schema.parse, FileDecl.parse_named hfile name']
  exact hbuild

/-- The schema of a text goes by the name of the file, and its messages by their own. -/
theorem parse_named (h : Schema.parse name source = .ok schema) :
    schema.name = name ∧ ∀ p ∈ schema.messages, p.1 = p.2.name := by
  rw [Schema.parse, bind_eq_ok] at h
  obtain ⟨file, hfile, h⟩ := h
  obtain ⟨messages, services, hmessages, -, rfl⟩ := FileDecl.build_eq_ok.1 h
  exact ⟨FileDecl.name_parse hfile, fun p hp =>
    MessageDecl.key_buildAll _ hmessages p (Keyed.mem_of_mem_ofList hp)⟩

/-- The schema of a text goes by the name that it was read under. -/
theorem named_of_parse (h : Schema.parse name source = .ok schema) :
    schema.named name = schema := by
  rw [← (parse_named h).1]
  rfl

/-- The schema of a text is legible if the name of the file stays on its line. -/
theorem parse_legible (h : Schema.parse name source = .ok schema) (hname : Line name) :
    schema.Legible := by
  obtain ⟨hpackage, hmessages⟩ := parse_identified h
  obtain ⟨hcalled, hkeys⟩ := parse_named h
  have hservices := parse_identified_services h
  refine ⟨fun m hm => Message.legible_of_identified (hmessages m hm), ?_, hcalled ▸ hname, ?_, ?_,
    ?_⟩
  · intro s hs m hm
    obtain ⟨hmethod, hinput, houtput⟩ := (hservices s hs).2 m hm
    exact ⟨hmethod.plain, hinput.plain, houtput.plain⟩
  · rcases hpackage with hempty | hpath
    · rw [hempty]
      decide
    · exact hpath.plain.line
  · intro p hp
    have hmem : p.2 ∈ schema.allMessages :=
      Message.mem_withNestedAll.2 ⟨p, hp, Message.mem_withNested.2 (.inl rfl)⟩
    rw [hkeys p hp]
    exact (hmessages p.2 hmem p.2.name List.mem_cons_self).plain.line
  · exact fun s hs => (hservices s hs).1.plain.line

/-- The document of a text is read as what its entries say. -/
theorem read_of_parse (h : Schema.parse name source = .ok schema) (hname : Line name)
    {options : Options} (hmarked : Plain options.symbolPrefix) :
    Form.read (schema.toMetta options)
      = some (((Translation.ofOptions schema options).documentEntries schema).flatMap
          Entry.forms) := by
  have hplain := Translation.plain_ofOptions (parse_identified h).1 hmarked
  apply Form.read_of_scan
  exact Entry.scan_textAll (Translation.legible_documentEntries hplain (parse_legible h hname))

/-- A text that has a schema under one name has one under every other name.  Both documents say the
same, whatever the options, if the names have the same tokens behind their first lines, for
instance none.  If the document can be read under a name without lines of its own, as it can with
every prefix that is part of an atom, then both documents say the same exactly if the names do
behind their first lines. -/
theorem read_renamed_iff (h : Schema.parse name source = .ok schema) (name' : String) :
    ∃ schema', Schema.parse name' source = .ok schema' ∧ ∀ options : Options,
      (tokensBehind name' = tokensBehind name →
        read (schema'.toMetta options) = read (schema.toMetta options))
      ∧ ((read ((schema.named "").toMetta options)).isSome →
        (read (schema'.toMetta options) = read (schema.toMetta options)
          ↔ readBehind name' = readBehind name))
      ∧ (Plain options.symbolPrefix → (read ((schema.named "").toMetta options)).isSome) := by
  refine ⟨schema.named name', parse_renamed h name', fun options => ⟨?_, ?_, ?_⟩⟩
  · intro htokens
    rw [Form.read, Form.read, scan_named, htokens, ← scan_named, named_of_parse h]
  · intro hsome
    obtain ⟨forms, hforms⟩ := Option.isSome_iff_exists.1 hsome
    have hread := read_named hforms name
    rw [named_of_parse h] at hread
    rw [read_named hforms, hread]
    exact (Option.map_injective (List.append_left_injective forms)).eq_iff
  · intro hmarked
    rw [read_of_parse (parse_renamed h "") (by decide) hmarked]
    rfl

/-- A text with one message. -/
def plainSource : String :=
  "message A \x7b\x7d"

/-- The schema of that text. -/
def plainSchema : Schema where
  name := "a"
  dialect := .proto2
  package := none
  imports := []
  messages := [("A", .flat "A" "A" [])]
  enums := []
  services := []

/-- A name can add a declaration on its second line.  Another comment adds nothing. -/
theorem read_renamed_iff_declaring :
    Schema.parse "a" plainSource = .ok plainSchema
    ∧ (∃ schema', Schema.parse "a\n(: b Type)" plainSource = .ok schema'
      ∧ read (schema'.toMetta {}) ≠ read (plainSchema.toMetta {}))
    ∧ ∃ schema', Schema.parse "b\n; c" plainSource = .ok schema'
      ∧ read (schema'.toMetta {}) = read (plainSchema.toMetta {}) := by
  have hparse : Schema.parse "a" plainSource = .ok plainSchema := by decide +kernel
  have hdeclares : readBehind "a\n(: b Type)" = some [declares "b" (.atom "Type")] := rfl
  obtain ⟨schema', hparse', hread⟩ := read_renamed_iff hparse "a\n(: b Type)"
  obtain ⟨schema'', hparse'', hread'⟩ := read_renamed_iff hparse "b\n; c"
  refine ⟨hparse, ⟨schema', hparse', fun hsame => ?_⟩, schema'', hparse'', (hread' {}).1 rfl⟩
  have hsame' := ((hread {}).2.1 ((hread {}).2.2 (by decide))).1 hsame
  rw [hdeclares] at hsame'
  cases hsame'

end Schema

end MettaSchema
