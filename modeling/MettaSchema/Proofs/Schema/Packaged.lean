import MettaSchema.Proofs.Grammar.Skipped
import MettaSchema.Proofs.Schema.Prefixed
import MettaSchema.Proofs.Schema.Restated
import MettaSchema.Schema.Parse

/-!
# Moving a text into a package

A package line among the statements of a text that names no package moves the text into the package:
the schema is the same, with the package in front of all full names.

* `Tree.Packaging` — a package line between blanks.
* `FileDecl.ofStatements_inPackage` — what the statements declare with the line among them.
* `Schema.parse_inPackage` — the schema of the new text.
-/

namespace MettaSchema

open Scan MettaSchema.Tree

namespace Tree

/-- The line that names a package. -/
def packageLine (package : String) : Tree :=
  node .packageLine
    [token .kwPackage "package".toList, blank [' '], token .fullIdent package.toList, mark [';']]

/-- The line that names a package, among the statements of a file, with blank characters or nothing
around it. -/
structure Packaging (package : String) (rule : Rule) (g : List Char) (t : Tree) (g' : List Char) :
    Prop where
  /-- The line is a statement of the file. -/
  rule_eq : rule = .proto
  /-- The line. -/
  line : t = packageLine package
  /-- The blanks in front of the line. -/
  before : ∀ c ∈ g, Scan.isBlank c = true
  /-- The blanks behind it. -/
  behind : ∀ c ∈ g', Scan.isBlank c = true

end Tree

/-- No file is inside of another one. -/
theorem Tree.Within.not_below_top {R : Rule → List Tree → List Tree → Prop}
    (hR : ∀ {rule parts parts'}, R rule parts parts' → rule = .proto) {ts vs : List Tree}
    (h : Within R ts vs) : ∀ {site : Site}, site ≠ .top → ¬ FitsAll site ts := by
  induction h with
  | @here rule parts _ front back h =>
    intro site hsite hfits
    obtain ⟨hallows, -⟩ := fitsAll_iff.1 hfits (node rule parts) (by simp)
    obtain rfl := hR h
    revert hsite hallows
    cases site <;> decide
  | @inside rule parts _ front back _ ih =>
    intro site _ hfits
    obtain ⟨-, hparts⟩ := fitsAll_iff.1 hfits (node rule parts) (by simp)
    exact ih (by cases rule <;> decide) hparts

/-- There are no quotes in dotted names. -/
theorem Scan.Dotted.not_quote {w : List Char} (h : Dotted w) {c : Char} (hc : c ∈ w) :
    c ∉ ['\\', doubleQuote, singleQuote] := by
  have hname {w : List Char} (hw : isName w = true) (hc : c ∈ w) :
      c ∉ ['\\', doubleQuote, singleQuote] := by
    have hchar := isNameChar_of_isName hw c hc
    rintro hquote
    simp only [List.mem_cons, List.not_mem_nil, or_false] at hquote
    rcases hquote with rfl | rfl | rfl <;> exact absurd hchar (by decide)
  induction h with
  | name hw => exact hname hw hc
  | dot _ hw ih =>
    rcases List.mem_append.1 hc with hc | hc
    · exact ih hc
    · rcases List.mem_cons.1 hc with rfl | hc
      · decide
      · exact hname hw hc

namespace Proto

open Phrase

/-- The line that names a package is read whatever stands behind it. -/
theorem reads_packageLine {package : String} (h : Dotted package.toList) (m : List Char) :
    Reads false packageLine ((Tree.packageLine package).text ++ m)
      (some ([Tree.packageLine package], m)) := by
  have hword : word "package" ("package".toList ++ (' ' :: (package.toList ++ ';' :: m)))
      = some ("package".toList, ' ' :: (package.toList ++ ';' :: m)) := word_eq_some.2 ⟨rfl, rfl, rfl⟩
  have hname : dotted (package.toList ++ ';' :: m) = some (package.toList, ';' :: m) := by
    have hhalts : Halts isInner (';' :: m) := rfl
    rw [local_dotted _ hhalts, dotted_of_dotted h]
    rfl
  have hsemicolon : Reads false (punct ";") (';' :: m) (some ([.mark [';']], m)) := .mark_some rfl
  have hstart : startsWith beginsBlank (package.toList ++ ';' :: m) = false := by
    have hfirst := h.starts
    cases hs : package.toList with
    | nil => exact absurd hs h.ne_nil
    | cons c s =>
      rw [hs] at hfirst
      exact beginsBlank_of_solid (isSolid_of_isInner (inner_isNameStart c hfirst))
  have hblanks : blanks (' ' :: (package.toList ++ ';' :: m)) = ([' '], package.toList ++ ';' :: m) :=
    blanks_gap (g := [' ']) (.one (.blank rfl)) hstart
  have hend : blanks (';' :: m) = ([], ';' :: m) := blanks_of_head rfl
  have hfull : Reads false fullIdent (package.toList ++ ';' :: m)
      (some ([.token .fullIdent package.toList], ';' :: m)) := .token_some hname
  have htail := hfull.seq_both (q := punct ";") (by rw [hend]; exact hsemicolon)
  have hkeyword : Reads false (keyword .kwPackage "package")
      ("package".toList ++ (' ' :: (package.toList ++ ';' :: m)))
      (some ([.token .kwPackage "package".toList], ' ' :: (package.toList ++ ';' :: m))) :=
    .token_some hword
  have hline := hkeyword.seq_both (q := seq fullIdent (punct ";")) (by rw [hblanks]; exact htail)
  rw [hblanks, hend] at hline
  have hnode : Reads false packageLine _ _ := .node_some hline
  simpa [Tree.packageLine, Tree.text, Tree.textAll, Tree.ofBlanks] using hnode

/-- The line that names a package can be put between two statements of a file. -/
theorem insertable_packageLine {package : String} (h : Dotted package.toList) {rule : Rule}
    {g g' : List Char} {t : Tree} (ht : Tree.Packaging package rule g t g') :
    Insertable False rule.element g t g' := by
  obtain ⟨rfl, rfl, hg, hg'⟩ := ht
  have hgap {g : List Char} (hg : ∀ c ∈ g, isBlank c = true) : g = [] ∨ Gap g := by
    by_cases hne : g = []
    · exact .inl hne
    · exact .inr (gap_of_isBlank hg hne)
  have htext : (Tree.packageLine package).text
      = "package".toList ++ ' ' :: (package.toList ++ [';']) := by
    simp [Tree.packageLine, Tree.text, Tree.textAll]
  refine ⟨hgap hg, hgap hg', fun m => ?_, ⟨'p', _, htext, rfl⟩, fun m => ?_⟩
  · have hhead : blanks ((Tree.packageLine package).text ++ (g' ++ m))
        = ([], (Tree.packageLine package).text ++ (g' ++ m)) := by
      rw [htext]
      exact blanks_of_head rfl
    exact ⟨_, (reads_packageLine h _).choice_of_keyword "package" (fileKeywords.take 1)
      (by simp [keywordStatements, fileKeywords]) (by simp [keywordStatements, fileKeywords])
      (by decide) hhead, rfl⟩
  · have hkeyword : Dotted "package".toList := .name rfl
    have hplain : ∀ c ∈ g ++ ((Tree.packageLine package).text ++ g'),
        c ∉ ['\\', doubleQuote, singleQuote] := by
      intro c hc
      rw [htext, List.mem_append, List.mem_append, List.mem_append, List.mem_cons, List.mem_append,
        List.mem_singleton] at hc
      rcases hc with hc | (hc | rfl | hc | rfl) | hc
      · exact Calm.not_quote_of_isBlank (hg c hc)
      · exact hkeyword.not_quote hc
      · decide
      · exact h.not_quote hc
      · decide
      · exact Calm.not_quote_of_isBlank (hg' c hc)
    simpa using (Calm.refl m).skip hplain

theorem edits_packaging {package : String} (h : Dotted package.toList) :
    Edits False (Tree.Inserted (Tree.Packaging package)) :=
  edits_inserted (fun ht => by rw [ht.rule_eq]; rfl) (insertable_packageLine h)

end Proto

/-! ## Declarations -/

namespace FileDecl

/-- A statement that names no package adds the same to a file in a package. -/
theorem add_inPackage (package : String) {file file' : FileDecl} {s : FileStatement}
    (h : file.add s = .ok file') (hs : ∀ name, s ≠ .package name) :
    (file.inPackage package).add s = .ok (file'.inPackage package) := by
  cases added_of_add h with
  | dialect hdialect => simp [add, hdialect, inPackage]
  | imports literal => rfl
  | package name => exact absurd rfl (hs name)
  | message hbody => simp [add, hbody, inPackage, bind, Except.bind, pure, Except.pure]
  | enum hdecl => simp [add, hdecl, inPackage, bind, Except.bind, pure, Except.pure]
  | service decl => rfl

/-- A package that was named is not forgotten. -/
theorem package_foldlM {statements : List FileStatement} {file file' : FileDecl}
    (h : statements.foldlM add file = .ok file') (hpackage : file.package ≠ none) :
    file'.package ≠ none := by
  refine foldlM_invariant (P := fun file => file.package ≠ none) (fun b s b' _ hb hadd => ?_)
    hpackage h
  cases added_of_add hadd with
  | package => exact Option.some_ne_none _
  | _ => exact hb

/-- Statements that name no package add the same to a file in a package. -/
theorem foldlM_inPackage (package : String) {statements : List FileStatement} :
    ∀ {file file' : FileDecl}, statements.foldlM add file = .ok file' → file'.package = none →
      statements.foldlM add (file.inPackage package) = .ok (file'.inPackage package) := by
  induction statements with
  | nil =>
    rintro file _ ⟨⟩ -
    rfl
  | cons s rest ih =>
    intro file file' h hnone
    rw [List.foldlM_cons, bind_eq_ok] at h ⊢
    obtain ⟨file₁, hadd, hrest⟩ := h
    have hs : ∀ name, s ≠ .package name := by
      rintro name rfl
      cases hadd
      exact package_foldlM hrest (Option.some_ne_none name) hnone
    exact ⟨_, add_inPackage package hadd hs, ih hrest hnone⟩

/-- What the statements of a file declare when a package is named among them. -/
theorem ofStatements_inPackage {name : String} {front back : List FileStatement} {file : FileDecl}
    (h : ofStatements name (front ++ back) = .ok file) (hnone : file.package = none)
    (package : String) :
    ofStatements name (front ++ .package package :: back) = .ok (file.inPackage package) := by
  unfold ofStatements at h ⊢
  rw [List.foldlM_append, bind_eq_ok] at h ⊢
  obtain ⟨file₁, hfront, hback⟩ := h
  exact ⟨file₁, hfront, foldlM_inPackage package hback hnone⟩

end FileDecl

/-- The statements of a text with a line that names a package among them. -/
theorem FileStatement.ofText?_packaging {package source : String} (hpackage : Dotted package.toList)
    {trees trees' : List Tree} (h : Proto.parse Proto.file source.toList = .ok trees)
    {statements : List FileStatement} (hstatements : ofText? source = some statements)
    (hedit : Within (Inserted (Packaging package)) trees trees') :
    ∃ front back, statements = front ++ back
      ∧ ofText? (String.ofList (textAll trees')) = some (front ++ .package package :: back) := by
  rw [ofText?_edited (Proto.edits_packaging hpackage).toRereads h False.elim hedit]
  rw [ofText?_of_parse h] at hstatements
  obtain ⟨parts, rfl⟩ := Proto.parse_file_eq_node h
  obtain ⟨parts', rfl, hparts⟩ := hedit.node_inv
  rw [ofTrees?_node] at hstatements ⊢
  rcases hparts with ⟨front, back, g, t, g', -, hpackaging, rfl, rfl⟩ | hwithin
  · obtain ⟨a, b, ha, hb, rfl⟩ := mapM_ofTree?_append.1 hstatements
    refine ⟨a, b, rfl, mapM_ofTree?_append.2 ⟨a, _, ha, ?_, rfl⟩⟩
    have hline : ([t].mapM ofTree?).map List.flatten = some [.package package] := by
      simp [hpackaging.line, Tree.packageLine, ofTree?, token?, tokens]
    have hline' := mapM_ofTree?_append.2 ⟨_, _, hline, mapM_ofTree?_append.2
      ⟨_, _, mapM_ofTree?_ofBlanks g', hb, rfl⟩, rfl⟩
    exact mapM_ofTree?_append.2 ⟨_, _, mapM_ofTree?_ofBlanks g, hline', rfl⟩
  · have hproto {rule : Rule} {ps ps' : List Tree}
        (hinserted : Inserted (Packaging package) rule ps ps') : rule = .proto := by
      obtain ⟨_, _, _, _, _, -, hpackaging, -⟩ := hinserted
      exact hpackaging.rule_eq
    exact absurd (Proto.parse_file_fits h).1.2 (hwithin.not_below_top hproto (by decide))

/-- Moving a file into a package only puts the package in front of the full names: if a text without
a package, without imports and without full names of types stands for a schema, the text with a line
that names a package, directly behind the dialect or directly behind a statement of the file, stands
for the schema in the package. -/
theorem Schema.parse_inPackage (name : String) {package source : String}
    (hpackage : Dotted package.toList) {trees trees' : List Tree} {file : FileDecl} {schema : Schema}
    (h : Proto.parse Proto.file source.toList = .ok trees)
    (hfile : FileDecl.parse name source = .ok file) (hnone : file.package = none)
    (himports : file.imports = []) (hrelative : file.Relative)
    (hschema : Schema.parse name source = .ok schema)
    (hedit : Within (Inserted (Packaging package)) trees trees') :
    Schema.parse name (String.ofList (textAll trees')) = .ok (schema.inPackage package) := by
  have hne : package ≠ "" := by
    rintro rfl
    exact hpackage.ne_nil rfl
  obtain ⟨statements, hstatements, hdecl⟩ := FileDecl.parse_eq_ok.1 hfile
  obtain ⟨front, back, rfl, htext⟩ := FileStatement.ofText?_packaging hpackage h hstatements hedit
  have hfile' : FileDecl.parse name (String.ofList (textAll trees')) = .ok (file.inPackage package) :=
    FileDecl.parse_eq_ok.2 ⟨_, htext, FileDecl.ofStatements_inPackage hdecl hnone package⟩
  have hbuild : file.build (.ofFiles [file]) = .ok schema := by
    simpa [Schema.parse, hfile, himports, bind, Except.bind] using hschema
  have hbuild' := FileDecl.build_inPackage hne (FileDecl.parse_identified hfile) hnone hrelative hbuild
  have himports' : (file.inPackage package).imports = [] := himports
  simpa [Schema.parse, hfile', himports', bind, Except.bind] using hbuild'

/-- The parts of a text that declares a message `A` with a message `B` inside and a field of that
type. -/
def Tree.nestedReference : List Tree :=
  [node .messageDef
    [token .kwMessage "message".toList, blank [' '], token .ident ['A'],
     node .messageBody
      [mark [Scan.openBrace],
       node .field
        [token .label "optional".toList, blank [' '], token .typeName ['B'], blank [' '],
         token .ident ['b'], mark ['='], token .intLit ['1'], mark [';']],
       node .messageDef
        [token .kwMessage "message".toList, blank [' '], token .ident ['B'],
         node .messageBody [mark [Scan.openBrace], mark [Scan.closeBrace]]],
       mark [Scan.closeBrace]]],
   token .endOfInput []]

/-- The declarations of that text. -/
def FileDecl.ofNestedReference : FileDecl :=
  { FileDecl.empty "a.proto" with
    messages := [⟨"A", [⟨"b", 1, .optional, .named "B"⟩], [⟨"B", [], [], []⟩], []⟩] }

/-- Its schema. -/
def Schema.ofNestedReference : Schema where
  name := "a.proto"
  dialect := .proto2
  package := none
  imports := []
  messages := [("A", ⟨"A", "A", [⟨"b", 1, .optional, .message ⟨"B", "A.B"⟩⟩],
    [("B", .flat "B" "A.B" [])], [], by simp⟩)]
  enums := []
  services := []

/-- A text is moved into a package that has the name of one of its messages. -/
theorem Schema.parse_inPackage_own_name :
    Dotted "A".toList
      ∧ Proto.parse Proto.file "message A{optional B b=1;message B{}}".toList
        = .ok [node .proto nestedReference]
      ∧ FileDecl.parse "a.proto" "message A{optional B b=1;message B{}}"
        = .ok FileDecl.ofNestedReference
      ∧ FileDecl.ofNestedReference.Relative
      ∧ Schema.parse "a.proto" "message A{optional B b=1;message B{}}"
        = .ok ofNestedReference
      ∧ Schema.parse "a.proto" "package A;message A{optional B b=1;message B{}}"
        = .ok (ofNestedReference.inPackage "A") := by
  have hpackage : Dotted "A".toList := .name rfl
  have hparse : Proto.parse Proto.file "message A{optional B b=1;message B{}}".toList
      = .ok [node .proto nestedReference] := by decide +kernel
  have hfile : FileDecl.parse "a.proto" "message A{optional B b=1;message B{}}"
      = .ok FileDecl.ofNestedReference := by decide +kernel
  have hrelative : FileDecl.ofNestedReference.Relative := by
    refine ⟨⟨⟨?_, ⟨by simp, trivial⟩, trivial⟩, trivial⟩, by simp [FileDecl.ofNestedReference, FileDecl.empty]⟩
    intro field hfield
    obtain rfl := List.mem_singleton.1 hfield
    rintro fullName ⟨⟩
  have hschema : Schema.parse "a.proto" "message A{optional B b=1;message B{}}"
      = .ok ofNestedReference := by decide +kernel
  have hslot : Slot [] nestedReference :=
    ⟨by simp [EndsSolid], by simp [nestedReference, opensBlock], by simp [nestedReference]⟩
  have hpackaging : Packaging "A" .proto [] (packageLine "A") [] := ⟨rfl, rfl, by simp, by simp⟩
  have hedit : Within (Inserted (Packaging "A")) [node .proto nestedReference]
      [node .proto (packageLine "A" :: nestedReference)] :=
    .here [] [] ⟨[], _, _, _, _, hslot, hpackaging, rfl, rfl⟩
  have hmoved := Schema.parse_inPackage "a.proto" hpackage hparse hfile rfl rfl hrelative hschema hedit
  have htext : String.ofList (textAll [node .proto (packageLine "A" :: nestedReference)])
      = "package A;message A{optional B b=1;message B{}}" := by decide +kernel
  rw [htext] at hmoved
  exact ⟨hpackage, hparse, hfile, hrelative, hschema, hmoved⟩

end MettaSchema
