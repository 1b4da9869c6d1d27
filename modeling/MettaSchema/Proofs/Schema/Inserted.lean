import MettaSchema.Proofs.Grammar.Skipped
import MettaSchema.Proofs.Schema.Restated
import MettaSchema.Schema.Parse

/-!
# Statements that do not change the schema

A statement that declares nothing can be put anywhere between the statements of a block that skips
it, on lines of its own.  The schema stays the same, whatever option, number or range the statement
is about.

* `Tree.restates_skipping` — the statements around it are the same.
* `Tree.text_inserted` — the new text is the old one with the statement in some place.
* `Schema.parse_inserted` — the schema is the same.
-/

namespace MettaSchema

open MettaSchema.Tree

namespace Tree

/-- A tree that none of the statements around it is made from. -/
structure Idle (t : Tree) : Prop where
  /-- It is no token. -/
  tokens (rule : Rule) : Tree.tokens rule [t] = []
  /-- It is no statement of a message body. -/
  statement : Statement.ofTree? t = some []
  /-- It is no value of an enum. -/
  value : Statement.enumValue? t = some []
  /-- It is no method of a service. -/
  method : MethodDecl.ofTree? t = some []
  /-- It is no statement of a file. -/
  file : FileStatement.ofTree? t = some []

/-- Statements that declare nothing are idle. -/
theorem idle_of_skipping {rule : Rule} {g g' : List Char} {t : Tree} (h : Skipping rule g t g') :
    Idle t := by
  obtain ⟨p, hp, hread⟩ := h.reads
  have hreads := (Proto.read_eq_iff (Proto.sound_of_skipped hp)).1 hread
  have hp' := Proto.skipped_messageBody hp
  simp only [Rule.skipped, List.mem_cons, List.not_mem_nil, or_false] at hp'
  rcases hp' with rfl | rfl | rfl | rfl | rfl <;> cases hreads <;>
    exact ⟨fun _ => rfl, rfl, rfl, rfl, rfl⟩

theorem idle_ofBlanks (s : List Char) : ∀ t ∈ ofBlanks s, Idle t := by
  intro t ht
  cases s with
  | nil => cases ht
  | cons c s =>
    obtain rfl := List.mem_singleton.1 ht
    exact ⟨fun _ => rfl, rfl, rfl, rfl, rfl⟩

/-- What is made from each tree is made without the idle ones. -/
theorem mapM_flatten_insert {α : Type} {f : Tree → Option (List α)} {idle : List Tree}
    (hidle : ∀ t ∈ idle, f t = some []) (front back : List Tree) :
    ((front ++ (idle ++ back)).mapM f).map List.flatten
      = ((front ++ back).mapM f).map List.flatten := by
  induction idle with
  | nil => rfl
  | cons t idle ih =>
    rw [← ih fun u hu => hidle u (by simp [hu])]
    simp only [List.mapM_append, List.cons_append, List.mapM_cons, hidle t (by simp)]
    cases front.mapM f <;> cases idle.mapM f <;> cases back.mapM f <;> simp

variable {rule : Rule} {parts parts' : List Tree}

/-- The trees that are put in are idle. -/
theorem exists_idle (h : Inserted Skipping rule parts parts') : ∃ front idle back,
    parts = front ++ back ∧ parts' = front ++ (idle ++ back) ∧ ∀ t ∈ idle, Idle t := by
  obtain ⟨front, back, g, t, g', -, hskip, rfl, rfl⟩ := h
  refine ⟨front, ofBlanks g ++ t :: ofBlanks g', back, rfl, by simp, ?_⟩
  simp only [List.mem_append, List.mem_cons]
  rintro u (hu | rfl | hu)
  · exact idle_ofBlanks g u hu
  · exact idle_of_skipping hskip
  · exact idle_ofBlanks g' u hu

theorem ofTrees?_insert {idle : List Tree} (hidle : ∀ t ∈ idle, Idle t) (front back : List Tree) :
    Statement.ofTrees? (front ++ (idle ++ back)) = Statement.ofTrees? (front ++ back) := by
  induction idle with
  | nil => rfl
  | cons t idle ih =>
    rw [← ih fun u hu => hidle u (by simp [hu])]
    simp only [Statement.ofTrees?_append, List.cons_append, Statement.ofTrees?,
      (hidle t (by simp)).statement]
    cases Statement.ofTrees? front <;> cases Statement.ofTrees? idle <;>
      cases Statement.ofTrees? back <;> simp

theorem tokens_insert {idle : List Tree} (hidle : ∀ t ∈ idle, Idle t) (front back : List Tree)
    (r : Rule) : tokens r (front ++ (idle ++ back)) = tokens r (front ++ back) := by
  induction idle with
  | nil => rfl
  | cons t idle ih =>
    have hcons (us : List Tree) : tokens r (t :: us) = tokens r us := by
      rw [← List.singleton_append, tokens_append, (hidle t (by simp)).tokens, List.nil_append]
    rw [← ih fun u hu => hidle u (by simp [hu]), List.cons_append, tokens_append, hcons,
      ← tokens_append]

/-- Skipped statements leave those around them as they are. -/
theorem restates_skipping : Restates (Inserted Skipping) Eq where
  congruence := Statement.congruence_eq
  isBlock := Proto.edits_skipping.isBlock
  tokens_eq h r := by
    obtain ⟨front, idle, back, rfl, rfl, hidle⟩ := exists_idle h
    exact tokens_insert hidle front back r
  statements h _ _ hss := by
    obtain ⟨front, idle, back, rfl, rfl, hidle⟩ := exists_idle h
    exact ⟨_, (ofTrees?_insert hidle front back).trans hss, rfl⟩
  values h := by
    obtain ⟨front, idle, back, rfl, rfl, hidle⟩ := exists_idle h
    have hvalues := mapM_flatten_insert (fun t ht => (hidle t ht).value) front back
    simp only [Statement.enumParts?, token?, tokens_insert hidle]
    cases hs : (front ++ (idle ++ back)).mapM Statement.enumValue? <;>
      cases ht : (front ++ back).mapM Statement.enumValue? <;> simp_all
  methods h := by
    obtain ⟨front, idle, back, rfl, rfl, hidle⟩ := exists_idle h
    have hmethods := mapM_flatten_insert (fun t ht => (hidle t ht).method) front back
    simp only [ServiceDecl.ofParts?, token?, tokens_insert hidle]
    cases hs : (front ++ (idle ++ back)).mapM MethodDecl.ofTree? <;>
      cases ht : (front ++ back).mapM MethodDecl.ofTree? <;> simp_all

/-- The text of trees with a statement put in is the old text with the statement in some place. -/
theorem text_inserted {C : Rule → List Char → Tree → List Char → Prop} {ts ts' : List Tree}
    (h : Within (Inserted C) ts ts') : ∃ before rule g t g' after, C rule g t g'
      ∧ textAll ts = before ++ after ∧ textAll ts' = before ++ (g ++ (t.text ++ (g' ++ after))) := by
  induction h with
  | here front back h =>
    obtain ⟨front', back', g, t, g', -, hC, rfl, rfl⟩ := h
    exact ⟨textAll front ++ textAll front', _, g, t, g', textAll back' ++ textAll back, hC,
      by simp [textAll, text], by simp [textAll, text]⟩
  | inside rule front back h ih =>
    obtain ⟨before, rule', g, t, g', after, hC, htext, htext'⟩ := ih
    exact ⟨textAll front ++ before, rule', g, t, g', after ++ textAll back, hC,
      by simp [textAll, text, htext], by simp [textAll, text, htext']⟩

end Tree

theorem FileStatement.Restated.eq {xs xs' : List FileStatement} (h : Restated Eq xs xs') :
    xs' = xs := by
  cases h with
  | refl => rfl
  | message _ _ _ heq => rw [heq]

/-- The statements of a file stay the same when a skipped statement is put between others. -/
theorem FileStatement.ofText?_inserted {source : String} {trees trees' : List Tree}
    (h : Proto.parse Proto.file source.toList = .ok trees) {statements : List FileStatement}
    (hstatements : ofText? source = some statements)
    (hedit : Within (Inserted Skipping) trees trees') :
    ofText? (String.ofList (textAll trees')) = some statements := by
  rw [ofText?_edited Proto.edits_skipping.toRereads h False.elim hedit]
  rw [ofText?_of_parse h] at hstatements
  obtain ⟨parts, rfl⟩ := Proto.parse_file_eq_node h
  obtain ⟨parts', rfl, hparts⟩ := hedit.node_inv
  rw [ofTrees?_node] at hstatements ⊢
  rcases hparts with hinserted | hwithin
  · obtain ⟨front, idle, back, rfl, rfl, hidle⟩ := exists_idle hinserted
    rw [mapM_flatten_insert (fun t ht => (hidle t ht).file), hstatements]
  · obtain ⟨xss, hxss, rfl⟩ := Option.map_eq_some_iff.1 hstatements
    have hfits : FitsAll .file parts := (Proto.parse_file_fits h).1.2
    obtain ⟨xss', hxss', hrestated⟩ := mapM_ofTree?_within restates_skipping hwithin hfits hxss
    rw [hxss', Option.map_some, hrestated.eq]

/-- Options and the other skipped statements do not change the schema: a text that stands for a
schema still stands for it when a statement that the block skips is put, on lines of its own,
directly behind what opens the block or directly behind one of its statements. -/
theorem Schema.parse_inserted (name : String) {source : String} {trees trees' : List Tree}
    {schema : Schema} (h : Proto.parse Proto.file source.toList = .ok trees)
    (hschema : Schema.parse name source = .ok schema)
    (hedit : Within (Inserted Skipping) trees trees') :
    Schema.parse name (String.ofList (textAll trees')) = .ok schema := by
  obtain ⟨file, hfile, hbuild⟩ := bind_eq_ok.1 hschema
  obtain ⟨statements, hstatements, hdecl⟩ := FileDecl.parse_eq_ok.1 hfile
  have hfile' : FileDecl.parse name (String.ofList (textAll trees')) = .ok file :=
    FileDecl.parse_eq_ok.2 ⟨statements, FileStatement.ofText?_inserted h hstatements hedit, hdecl⟩
  exact bind_eq_ok.2 ⟨file, hfile', hbuild⟩

/-- A message with the given parts of its body. -/
def Tree.messageWith (parts : List Tree) : List Tree :=
  [node .proto
    [node .messageDef
      [token .kwMessage "message".toList, blank [' '], token .ident ['A'], node .messageBody parts],
     token .endOfInput []]]

/-- An option whose value holds a closing brace in a string. -/
def Tree.bracedOption : Tree :=
  node .optionStatement
    [token .kwOption "option".toList, blank [' '], token .optionName ['o'], mark ['='],
     node .constant [token .aggregate "\x7ba:'\x7d'\x7d".toList], mark [';']]

/-- The schema of a message with nothing in it. -/
def Schema.ofBareMessage : Schema where
  name := "a.proto"
  dialect := .proto2
  package := none
  imports := []
  messages := [("A", .flat "A" "A" [])]
  enums := []
  services := []

/-- An option with a brace in a string is put into the body of a message. -/
theorem Schema.parse_inserted_option :
    Proto.parse Proto.file "message A\x7b\x7d".toList
        = .ok (messageWith [mark [Scan.openBrace], mark [Scan.closeBrace]]) ∧
      Schema.parse "a.proto" "message A\x7b\x7d" = .ok ofBareMessage ∧
      Schema.parse "a.proto" "message A\x7b\noption o=\x7ba:'\x7d'\x7d;\n\x7d"
        = .ok ofBareMessage := by
  have hparse : Proto.parse Proto.file "message A\x7b\x7d".toList
      = .ok (messageWith [mark [Scan.openBrace], mark [Scan.closeBrace]]) := by decide +kernel
  have hschema : Schema.parse "a.proto" "message A\x7b\x7d" = .ok ofBareMessage := by decide +kernel
  have hbreak : Scan.LineBreak ['\n'] := ⟨by simp [Scan.isBlank], by simp [Scan.isLineEnd]⟩
  have hskipping : Skipping .messageBody ['\n'] bracedOption ['\n'] :=
    ⟨hbreak, hbreak, Proto.optionStatement, by simp [Rule.skipped], by decide +kernel⟩
  have hslot : Slot [mark [Scan.openBrace]] [mark [Scan.closeBrace]] :=
    ⟨by rintro t ⟨⟩; rfl, by simp [opensBlock]; decide, by simp⟩
  have hedit : Within (Inserted Skipping) (messageWith [mark [Scan.openBrace], mark [Scan.closeBrace]])
      (messageWith [mark [Scan.openBrace], blank ['\n'], bracedOption, blank ['\n'],
        mark [Scan.closeBrace]]) :=
    .inside .proto [] [] (.inside .messageDef [] _ (.here [_, _, _] []
      ⟨_, _, _, _, _, hslot, hskipping, rfl, rfl⟩))
  have hinserted := Schema.parse_inserted "a.proto" hparse hschema hedit
  have htext : String.ofList (textAll (messageWith [mark [Scan.openBrace], blank ['\n'], bracedOption,
      blank ['\n'], mark [Scan.closeBrace]])) = "message A\x7b\noption o=\x7ba:'\x7d'\x7d;\n\x7d" := by
    decide +kernel
  rw [htext] at hinserted
  exact ⟨hparse, hschema, hinserted⟩

end MettaSchema
