import MettaSchema.Declaration
import MettaSchema.Proofs.Grammar.Rearranged
import Mathlib.Data.List.Forall2

/-!
# Words that look like keywords

No word is reserved: a type or a field may be called `message`, `reserved`, `group` or `mapping`.
Only at the front of a statement a label is a label, and `option` begins an option.

* `Scan.first_of_word` — a keyword at the front of a type name is all of its first component.
* `PlainField.Ordinary` — a field that begins with neither a label nor `option`.
* `PlainField.Text` — plain fields one after another, and choices among them, in any layout.
* `PlainField.Text.series` — each of them is read as a field.
* `PlainField.Text.declares` — each of them declares one optional field.
* `PlainField.read_ordinary` — the body of a message is read as just these fields.
-/

namespace MettaSchema

open Scan

namespace Scan

theorem typeName_of_named {w : List Char} (h : Dotted w) : typeName w = some (w, []) := by
  have hdotted := dotted_of_dotted h
  cases w with
  | nil => cases hdotted
  | cons c w =>
    have hc : isNameStart c = true := h.starts
    have hdot : c ≠ '.' := by
      rintro rfl
      cases hc
    rw [typeName, if_neg hdot, hdotted]

/-- A type name that begins with a keyword has the keyword as its first component. -/
theorem first_of_word {b : String} (hb : isName b.toList = true) {s type r : List Char}
    {taken : List Char × List Char} (hword : word b s = some taken)
    (htype : typeName s = some (type, r)) : type.takeWhile (· != '.') = b.toList := by
  have hdots : ∀ c ∈ b.toList, (c != '.') = true := by
    rintro c hc
    rw [bne_iff_ne]
    rintro rfl
    exact dot_not_mem_of_isName hb hc
  obtain ⟨t, r'⟩ := taken
  obtain ⟨rfl, -, -⟩ := word_eq_some.1 hword
  rcases typeName_of_word hb hword with hwhole | ⟨x, u, r'', rfl, hu, hwhole⟩
  · obtain ⟨rfl, -⟩ := Prod.mk.inj (Option.some.inj (hwhole.symm.trans htype))
    exact (takeWhile_eq_self hdots).1
  · obtain ⟨rfl, -⟩ := Prod.mk.inj (Option.some.inj (hwhole.symm.trans htype))
    rw [typeName, if_pos rfl] at hu
    obtain ⟨v, -, rfl⟩ := map_push_eq_some.1 hu
    exact (takeWhile_run hdots rfl).1

end Scan

/-- A field that is written without a label and without options. -/
structure PlainField where
  /-- The type as it is written. -/
  type : String
  /-- The name. -/
  name : String
  /-- The number. -/
  number : Nat
  deriving DecidableEq, Repr

namespace PlainField

/-! ## Plain fields and their texts -/

/-- The words that are something else at the front of a statement. -/
def leading : List String := ["option", "optional", "required", "repeated"]

/-- A field whose type does not begin with a leading word.  Its name can be any name. -/
structure Ordinary (f : PlainField) : Prop where
  /-- The type is a dotted name, with or without a dot in front of it. -/
  type : Dotted f.type.toList ∨ ∃ w, Dotted w ∧ f.type.toList = '.' :: w
  /-- The first component of the type is no leading word. -/
  first : String.ofList (f.type.toList.takeWhile (· != '.')) ∉ leading
  /-- The name is a name. -/
  name : isName f.name.toList = true
  /-- The number is one that a field can have. -/
  number : 1 ≤ f.number ∧ (f.number : Int) ≤ Literal.maxFieldNumber

/-- The blanks inside a plain field. -/
structure Gaps where
  /-- The blanks between the type and the name. -/
  type : List Char
  /-- The blanks in front of the equals sign. -/
  name : List Char
  /-- The blanks behind the equals sign. -/
  equals : List Char
  /-- The blanks in front of the semicolon. -/
  number : List Char
  /-- Only the type and the name have to be kept apart. -/
  gap_type : Gap type
  gap_name : name = [] ∨ Gap name
  gap_equals : equals = [] ∨ Gap equals
  gap_number : number = [] ∨ Gap number

/-- The text of a field, in front of another text. -/
def spell (f : PlainField) (g : Gaps) (more : List Char) : List Char :=
  f.type.toList ++ (g.type ++ (f.name.toList ++ (g.name ++ '=' :: (g.equals
    ++ (f.number.repr.toList ++ (g.number ++ ';' :: more))))))

/-- The skeleton of a field. -/
def tree (f : PlainField) : Tree :=
  .node .field [.token .typeName f.type.toList, .token .ident f.name.toList,
    .token .intLit f.number.repr.toList]

/-- The declaration is that of the field: optional, with the name and the number, and with the type
for which the word stands if it is the word of a scalar. -/
structure Declares (f : PlainField) (decl : FieldDecl) : Prop where
  /-- The name. -/
  name : decl.name = f.name
  /-- The number. -/
  number : decl.number = f.number
  /-- The label. -/
  label : decl.label = .optional
  /-- The words of scalars are these. -/
  scalar : ∀ kind, (f.type, kind) ∈ Kind.keywords → decl.type = .scalar kind
  /-- All others are names. -/
  named : f.type ∉ Kind.keywords.map (·.1) → decl.type = .named f.type

/-- What a field declares. -/
def decl (f : PlainField) : FieldDecl := ⟨f.name, f.number, .optional, .ofName f.type⟩

theorem declares_decl (f : PlainField) : f.Declares f.decl where
  name := rfl
  number := rfl
  label := rfl
  scalar kind hkind := by
    have hwords : ∀ word ∈ Kind.keywords, Kind.ofKeyword? word.1 = some word.2 := by decide
    rw [decl, TypeExpr.ofName, hwords _ hkind]
  named hother := by
    have hnone : Kind.ofKeyword? f.type = none := by
      refine List.lookup_eq_none_iff.2 fun word hword => ?_
      rw [bne_iff_ne]
      exact fun heq => hother (heq ▸ List.mem_map_of_mem hword)
    rw [decl, TypeExpr.ofName, hnone]

/-- The statements of a message body or of a choice: fields, and in a message body choices among
fields as well.  Blanks stand in front of each statement and behind the last.  The trees are the
skeletons of the statements. -/
inductive Text : Rule → List PlainField → List Tree → List Char → Prop
  /-- No statements. -/
  | nil {rule : Rule} {g : List Char} (hg : g = [] ∨ Gap g) : Text rule [] [] g
  /-- A field. -/
  | field {rule : Rule} {f : PlainField} {fields : List PlainField} {trees : List Tree}
      {g text : List Char} (hg : g = [] ∨ Gap g) (gaps : Gaps) (hmore : Text rule fields trees text) :
      Text rule (f :: fields) (f.tree :: trees) (g ++ f.spell gaps text)
  /-- A choice. -/
  | choice {members fields : List PlainField} {inner trees : List Tree}
      {g gap name gap' inside text : List Char} (hg : g = [] ∨ Gap g) (hgap : Gap gap)
      (hname : isName name = true) (hgap' : gap' = [] ∨ Gap gap')
      (hinside : Text .oneofDef members inner inside) (hmore : Text .messageBody fields trees text) :
      Text .messageBody (members ++ fields)
        (.node .oneofDef (.token .kwOneof "oneof".toList :: .token .ident name :: inner) :: trees)
        (g ++ ("oneof".toList ++ (gap ++ (name ++ (gap' ++ openBrace
          :: (inside ++ closeBrace :: text))))))

/-! ## Reading -/

open Proto Phrase

variable {f : PlainField} {fields : List PlainField} {trees : List Tree} {text : List Char}

theorem Ordinary.typeName (h : f.Ordinary) :
    Scan.typeName f.type.toList = some (f.type.toList, []) := by
  rcases h.type with htype | ⟨w, hw, heq⟩
  · exact typeName_of_named htype
  · rw [heq]
    exact typeName_of_dotted hw

variable (g : Gaps) (m : List Char)

/-- The type is read up to the blanks behind it. -/
theorem Ordinary.typeName_spell (h : f.Ordinary) : ∃ r, r = g.type ++ (f.name.toList ++ (g.name
      ++ '=' :: (g.equals ++ (f.number.repr.toList ++ (g.number ++ ';' :: m)))))
    ∧ Scan.typeName (f.spell g m) = some (f.type.toList, r) := by
  refine ⟨_, rfl, ?_⟩
  rw [spell, local_typeName _ (startsWith_gap (fun _ => id) g.gap_type _), h.typeName]
  rfl

/-- None of the leading words is read. -/
theorem Ordinary.word_spell (h : f.Ordinary) {b : String} (hb : b ∈ leading) :
    word b (f.spell g m) = none := by
  have hname : ∀ b ∈ leading, isName b.toList = true := by decide
  cases hword : word b (f.spell g m) with
  | none => rfl
  | some taken =>
    obtain ⟨r, -, htype⟩ := h.typeName_spell g m
    have hfirst := first_of_word (hname b hb) hword htype
    refine absurd hb ?_
    rw [← String.ofList_toList (s := b), ← hfirst]
    exact h.first

/-- A field without a label is read as a field. -/
theorem Ordinary.reads (h : f.Ordinary) : ∃ t, Reads false Proto.field (f.spell g m) (some ([t], m))
    ∧ t.isBlank = false ∧ t.skeleton = [f.tree] := by
  have hlabel : oneOfWords ["optional", "required", "repeated"] (f.spell g m) = none := by
    rw [oneOfWords, List.findSome?_eq_none_iff]
    exact fun b hb => h.word_spell g m (.tail _ hb)
  obtain ⟨r, rfl, htype⟩ := h.typeName_spell g m
  have hdigits : intLit f.number.repr.toList = some (f.number.repr.toList, []) :=
    intLit_repr f.number
  have hnumber : Reads false Proto.intLit (f.number.repr.toList ++ (g.number ++ ';' :: m))
      (some ([.token .intLit f.number.repr.toList], g.number ++ ';' :: m)) := by
    refine .token_some ?_
    rw [local_intLit _ (halts_gap_or_nil g.gap_number rfl m), hdigits]
    rfl
  have hend : Reads false (seq (opt fieldOptions) (punct ";")) (';' :: m)
      (some ([] ++ Tree.ofBlanks [] ++ [.mark [';']], m)) :=
    .seq_gap (g := []) (.opt_none (reads_none_of_blocked (blanks_of_head rfl) rfl))
      (blanks_of_head rfl) (.mark_some rfl)
  have hvalue := hnumber.seq_gap (blanks_gap_or_nil g.gap_number rfl) hend
  have hequals (x : List Char) : Reads false (punct "=") ('=' :: x) (some ([.mark ['=']], x)) :=
    .mark_some rfl
  have hassigned := (hequals _).seq_gap
    (blanks_gap_or_nil g.gap_equals (not_begins local_intLit eats_intLit hdigits _)) hvalue
  have hnamed := (reads_ident h.name (halts_gap_or_nil g.gap_name rfl _)).seq_gap
    (blanks_gap_or_nil g.gap_name rfl) hassigned
  have htypeName : Reads false Proto.typeName _ _ := .token_some htype
  have htyped := htypeName.seq_gap (blanks_gap g.gap_type (not_begins_name h.name _)) hnamed
  have hunlabelled : Reads false (opt label) (f.spell g m) (some ([], f.spell g m)) :=
    .opt_none (.token_none hlabel)
  have hwhole := hunlabelled.seq_gap (g := [])
    (blanks_of_head (not_begins local_typeName eats_typeName h.typeName _)) htyped
  exact ⟨_, .node_some hwhole, rfl, by simp [tree, Tree.skeleton, Tree.skeletonAll]⟩

/-- Where a field is read that is no option, it is a statement of the block. -/
theorem reads_element {rule : Rule} (hrule : rule ∈ [.messageBody, .oneofDef]) {s : List Char}
    {taken : List Tree × List Char} (hs : blanks s = ([], s)) (hoption : word "option" s = none)
    (h : Reads false Proto.field s (some taken)) : Reads false rule.element s (some taken) := by
  have hnone : Reads false optionStatement s none := .node_none (.seq_first (.token_none hoption))
  simp only [List.mem_cons, List.not_mem_nil, or_false] at hrule
  rcases hrule with rfl | rfl
  · have hsplit : members = [groupField] ++ Proto.field :: [emptyStatement] := rfl
    exact .alt_second hnone (h.choice_of_excludes (members_excludes hsplit) hs)
  · exact .alt_second hnone (.alt_second (field_excludes_groupField hs h) (.alt_first h))

/-- The statements are read one after another, each as what it is. -/
theorem Text.series {rule : Rule} (htext : Text rule fields trees text)
    (hrule : rule ∈ [.messageBody, .oneofDef]) (h : ∀ f ∈ fields, f.Ordinary) (m : List Char) :
    ∃ ts r, Series rule.element (text ++ m) ts r ∧ Tree.skeletonAll ts = trees
      ∧ (blanks r).2 = (blanks m).2 := by
  induction htext generalizing m with
  | nil hg => exact (Series.nil m).behind_gap hg
  | @field rule f fields trees g text hg gaps hmore ih =>
    obtain ⟨ts, r, hseries, rfl, hr⟩ := ih hrule (fun f hf => h f (by simp [hf])) m
    have hf : f.Ordinary := h f (by simp)
    obtain ⟨t, hreads, ht, hskeleton⟩ := hf.reads gaps (text ++ m)
    have hhead := not_begins local_typeName eats_typeName hf.typeName
    have hs : blanks (f.spell gaps (text ++ m)) = ([], f.spell gaps (text ++ m)) :=
      blanks_of_head (hhead _)
    have helement := reads_element hrule hs (hf.word_spell gaps _ (.head _)) hreads
    have hblanks : blanks (g ++ f.spell gaps text ++ m) = (g, f.spell gaps (text ++ m)) := by
      rw [List.append_assoc, show f.spell gaps text ++ m = f.spell gaps (text ++ m) by simp [spell]]
      exact blanks_gap_or_nil hg (hhead _)
    have hcons := Series.cons (s := g ++ f.spell gaps text ++ m) ht (by rw [hblanks]; exact helement)
      hseries
    exact ⟨_, r, hcons, by simp [Tree.skeletonAll, hskeleton], hr⟩
  | @choice members fields inner trees g gap name gap' inside text hg hgap hname hgap' _ _ ihs ih =>
    obtain ⟨ts, r, hseries, rfl, hr⟩ := ih hrule (fun f hf => h f (by simp [hf])) m
    obtain ⟨us, r', hinside, rfl, hr'⟩ :=
      ihs (by decide) (fun f hf => h f (by simp [hf])) (closeBrace :: (text ++ m))
    obtain ⟨parts, hbraces, hparts⟩ := hinside.braced (by decide) hr'
    have hnode : Reads false oneofDef _ _ := reads_named "oneof" hgap hname hgap' hbraces
    have htext : g ++ ("oneof".toList ++ (gap ++ (name ++ (gap' ++ Scan.openBrace
        :: (inside ++ Scan.closeBrace :: text))))) ++ m = g ++ ("oneof".toList ++ (gap ++ (name
        ++ (gap' ++ Scan.openBrace :: (inside ++ Scan.closeBrace :: (text ++ m)))))) := by
      simp
    have hblanks : blanks (g ++ ("oneof".toList ++ (gap ++ (name ++ (gap' ++ Scan.openBrace
        :: (inside ++ Scan.closeBrace :: (text ++ m))))))) = (g, _) := blanks_gap_or_nil hg rfl
    have helement := hnode.element_of_oneofDef (blanks_of_head rfl)
    rw [htext]
    have hcons := Series.cons rfl (by rw [hblanks]; exact helement) hseries
    exact ⟨_, r, hcons, by simp [Tree.skeletonAll, Tree.skeleton, hparts], hr⟩

/-! ## Declaring -/

/-- The statements of the skeletons declare one optional field each. -/
theorem Text.declares {rule : Rule} (htext : Text rule fields trees text)
    (h : ∀ f ∈ fields, f.Ordinary) : ∃ statements, Statement.ofTrees? trees = some statements
      ∧ Statement.declareAll statements = .ok ⟨fields.map decl, [], []⟩ := by
  induction htext with
  | nil => exact ⟨[], rfl, rfl⟩
  | @field rule f fields trees g text hg gaps hmore ih =>
    obtain ⟨statements, htrees, hdeclares⟩ := ih fun f hf => h f (by simp [hf])
    have hf : f.Ordinary := h f (by simp)
    refine ⟨.field .optional f.type f.name f.number.repr :: statements, ?_, ?_⟩
    · simp [Statement.ofTrees?, Statement.ofTree?, Statement.field?, tree, htrees, Tree.token?,
        Tree.tokens, Label.ofParts, -Nat.toList_repr]
    · have hnumber := Literal.fieldNumber_repr hf.number
      simp only [Statement.declareAll, Statement.declare, hnumber, hdeclares]
      rfl
  | @choice members fields inner trees _ _ name _ _ _ _ _ _ _ _ _ ihs ih =>
    obtain ⟨inside, hinner, hinside⟩ := ihs fun f hf => h f (by simp [hf])
    obtain ⟨statements, htrees, hdeclares⟩ := ih fun f hf => h f (by simp [hf])
    refine ⟨.oneof inside :: statements, ?_, ?_⟩
    · simp [Statement.ofTrees?, Statement.ofTree?, hinner, htrees]
    · simp only [Statement.declareAll, Statement.declare, hinside, hdeclares, List.map_append]
      rfl

/-- A message body is read up to its closing brace. -/
theorem Text.reads_body (htext : Text .messageBody fields trees text)
    (h : ∀ f ∈ fields, f.Ordinary) (m : List Char) :
    ∃ t, Reads false messageBody (Scan.openBrace :: (text ++ Scan.closeBrace :: m)) (some ([t], m))
      ∧ t.skeleton = [.node .messageBody trees] := by
  obtain ⟨ts, r, hseries, rfl, hr⟩ := htext.series (by decide) h (Scan.closeBrace :: m)
  obtain ⟨parts, hbraces, hparts⟩ := hseries.braced (by decide) hr
  exact ⟨_, .node_some hbraces, by simp [Tree.skeleton, hparts]⟩

/-- A file of one statement is read up to its end. -/
theorem reads_file {s : List Char} {t : Tree} (hs : blanks s = ([], s)) (ht : t.isBlank = false)
    (h : Reads false topLevel s (some ([t], []))) :
    Reads false file s (some ([.node .proto [t, .token .endOfInput []]], [])) := by
  have hseries := Series.cons (s := s) ht (by rw [hs]; exact h) (.nil [])
  obtain ⟨vs, htail, hvs⟩ := hseries.fileTail rfl
  have hbody := htail.file_of_tail
  rw [hvs, hs] at hbody
  exact .node_some hbody

/-- A file with one message is read up to its end. -/
theorem reads_messageFile {gap name gap' body : List Char} {t : Tree} (hgap : Gap gap)
    (hname : isName name = true) (hgap' : gap' = [] ∨ Gap gap')
    (h : Reads false messageBody (Scan.openBrace :: body) (some ([t], []))) :
    Reads false file ("message".toList ++ (gap ++ (name ++ (gap' ++ Scan.openBrace :: body))))
      (some ([.node .proto [.node .messageDef (.token .kwMessage "message".toList
        :: (Tree.ofBlanks gap ++ .token .ident name :: (Tree.ofBlanks gap' ++ [t]))),
          .token .endOfInput []]], [])) := by
  have hmessage : Reads false messageDef _ _ :=
    reads_named "message" hgap hname hgap' (p := .body) (.body h)
  have hs : blanks ("message".toList ++ (gap ++ (name ++ (gap' ++ Scan.openBrace :: body))))
      = ([], _) := blanks_of_head rfl
  have hmember : (messageDef, "message") ∈ keywordStatements := by
    simp [keywordStatements, messageKeywords]
  exact reads_file hs rfl (hmessage.choice_of_keyword "message"
    (fileKeywords.take 3) hmember (by simp [keywordStatements, fileKeywords]) (by decide) hs)

/-- What a file with one message declares. -/
theorem parse_messageFile {gap name gap' body : List Char} {t : Tree} (hgap : Gap gap)
    (hname : isName name = true) (hgap' : gap' = [] ∨ Gap gap')
    (h : Reads false messageBody (Scan.openBrace :: body) (some ([t], [])))
    {statements : List Statement} {inner : Body} (hstatements : Statement.ofTree? t = some statements)
    (hinner : Statement.declareAll statements = .ok inner) (file : String) :
    FileDecl.parse file (String.ofList ("message".toList
        ++ (gap ++ (name ++ (gap' ++ Scan.openBrace :: body)))))
      = .ok { FileDecl.empty file with messages := [inner.toMessage (String.ofList name)] } := by
  have hparse := (read_eq_iff sound_file).2 (reads_messageFile hgap hname hgap' h)
  have htrees : FileStatement.ofTrees? [.node .proto [.node .messageDef
      (.token .kwMessage "message".toList :: (Tree.ofBlanks gap ++ .token .ident name
        :: (Tree.ofBlanks gap' ++ [t]))), .token .endOfInput []]]
      = some [.message (String.ofList name) statements] := by
    rw [← FileStatement.ofTrees?_skeletonAll]
    have hinside : Statement.ofTrees? t.skeleton = some statements := by
      rw [Statement.ofTrees?_skeleton, hstatements]
    simp [Tree.skeletonAll, Tree.skeleton, FileStatement.ofTrees?, FileStatement.ofTree?, Tree.parts?,
      Tree.token?, Tree.tokens, Statement.ofTrees?, Statement.ofTree?, hinside]
  simp only [FileDecl.parse, String.toList_ofList, Proto.parse, hparse, htrees,
    FileDecl.ofStatements, List.foldlM, FileDecl.add, hinner]
  rfl

end PlainField

/-- No word is reserved: in the body of a message, plain fields whose types do not begin with a
leading word are read as these fields and nothing else, wherever the body stands, and so are those
in choices among them.  Each declares one optional field, with its name and its number, and whose type
is the scalar that the word stands for or the name as it is written. -/
theorem PlainField.read_ordinary {fields : List PlainField} {trees : List Tree} {text : List Char}
    (htext : Text .messageBody fields trees text) (h : ∀ f ∈ fields, f.Ordinary) :
    ∃ decls, List.Forall₂ Declares fields decls
      ∧ (∀ rest, ∃ tree statements,
        Proto.read Proto.messageBody (Scan.openBrace :: (text ++ Scan.closeBrace :: rest))
            = some ([tree], rest)
          ∧ tree.skeleton = [.node .messageBody trees]
          ∧ Statement.ofTree? tree = some statements
          ∧ Statement.declareAll statements = .ok ⟨decls, [], []⟩)
      ∧ ∀ (file : String) {gap name gap' : List Char}, Gap gap → isName name = true →
        (gap' = [] ∨ Gap gap') →
        FileDecl.parse file (String.ofList ("message".toList ++ (gap ++ (name
            ++ (gap' ++ Scan.openBrace :: (text ++ [Scan.closeBrace]))))))
          = .ok { FileDecl.empty file with messages := [⟨String.ofList name, decls, [], []⟩] } := by
  obtain ⟨statements, htrees, hdeclares⟩ := htext.declares h
  have hstatements {t : Tree} (ht : t.skeleton = [.node .messageBody trees]) :
      Statement.ofTree? t = some statements := by
    rw [← Statement.ofTrees?_skeleton, ht, Statement.ofTrees?_singleton, Statement.ofTree?, htrees]
  refine ⟨fields.map decl, ?_, fun rest => ?_, fun file _ _ _ hgap hname hgap' => ?_⟩
  · rw [List.forall₂_map_right_iff]
    exact List.forall₂_same.2 fun f _ => f.declares_decl
  · obtain ⟨t, hreads, ht⟩ := htext.reads_body h rest
    exact ⟨t, statements, (Proto.read_eq_iff Proto.sound_messageBody.1).2 hreads, ht, hstatements ht,
      hdeclares⟩
  · obtain ⟨t, hreads, ht⟩ := htext.reads_body h []
    exact parse_messageFile hgap hname hgap' hreads (hstatements ht) hdeclares file

namespace PlainField

theorem gap_blank : Gap [' '] :=
  gap_of_isBlank (List.forall_mem_singleton.2 rfl) (List.cons_ne_nil _ _)

/-- A blank on each side of the equals sign. -/
def Gaps.single : Gaps where
  type := [' ']
  name := [' ']
  equals := [' ']
  number := []
  gap_type := gap_blank
  gap_name := .inr gap_blank
  gap_equals := .inr gap_blank
  gap_number := .inl rfl

/-- Fields with keywords as types, as names, and at the front of both. -/
def words : List PlainField :=
  [⟨"message", "group", 1⟩, ⟨"map.option", "enum", 2⟩, ⟨"reserved", "max", 3⟩,
    ⟨"int32", "oneof", 4⟩, ⟨"optionals", "extend", 536870911⟩]

/-- A message of these fields, two of them in a choice. -/
def wordsSource : String :=
  "message M \x7bmessage group = 1; oneof syntax \x7bmap.option enum = 2;reserved max = 3;\x7d" ++
  "int32 oneof = 4;optionals extend = 536870911;\x7d"

theorem read_ordinary_words : (∀ f ∈ words, f.Ordinary)
    ∧ ∃ decls, List.Forall₂ Declares words decls ∧ FileDecl.parse "words.proto" wordsSource
      = .ok { FileDecl.empty "words.proto" with messages := [⟨"M", decls, [], []⟩] } := by
  have hordinary : ∀ f ∈ words, f.Ordinary := by
    simp only [words, List.forall_mem_cons]
    exact ⟨⟨.inl (by decide), by decide, by decide, by decide⟩,
      ⟨.inl (by decide), by decide, by decide, by decide⟩,
      ⟨.inl (by decide), by decide, by decide, by decide⟩,
      ⟨.inl (by decide), by decide, by decide, by decide⟩,
      ⟨.inl (by decide), by decide, by decide, by decide⟩, by simp⟩
  have hend (rule : Rule) : Text rule [] [] [] := .nil (.inl rfl)
  have hmembers : Text .oneofDef [⟨"map.option", "enum", 2⟩, ⟨"reserved", "max", 3⟩] _ _ :=
    .field (.inl rfl) .single (.field (.inl rfl) .single (hend _))
  have hchoice : isName "syntax".toList = true := by decide
  have htext : Text .messageBody words _ _ :=
    .field (.inl rfl) .single (.choice (.inr gap_blank) gap_blank hchoice (.inr gap_blank) hmembers
      (.field (.inl rfl) .single (.field (.inl rfl) .single (hend _))))
  obtain ⟨decls, hdecls, -, hparse⟩ := read_ordinary htext hordinary
  have hname : isName ['M'] = true := by decide
  have hfile := hparse "words.proto" gap_blank hname (.inr gap_blank)
  refine ⟨hordinary, decls, hdecls, (congrArg (FileDecl.parse "words.proto") ?_).trans hfile⟩
  decide +kernel

end PlainField

end MettaSchema
