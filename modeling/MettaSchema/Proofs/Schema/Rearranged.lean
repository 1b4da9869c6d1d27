import Mathlib.Logic.Relation
import MettaSchema.Proofs.Grammar.Rearranged
import MettaSchema.Proofs.Schema.Reordered
import MettaSchema.Schema.Parse

/-!
# Rearranged texts

The statements of a file and of each message body can stand in any order, and fields and groups can
be members of a choice or stand on their own.  The schema is the same, with its parts listed in
another order.

* `Tree.mapM_flatten_statements` — what is made from trees is made from the statements among them.
* `Tree.restates_rearranged` — rearranged statements declare the same in another order.
* `Proto.Rearranged` — a text with some statements rearranged.
* `Schema.parse_rearranged` — the schema is the same up to the order in which its parts are listed.
-/

namespace MettaSchema

open MettaSchema.Tree

namespace Tree

/-! ## Statements among trees -/

theorem statements_append (ts us : List Tree) :
    statements (ts ++ us) = statements ts ++ statements us :=
  List.filter_append ..

theorem statements_ofBlanks (g : List Char) : statements (ofBlanks g) = [] := by
  cases g <;> rfl

theorem statements_spread {rows : List (List Char × Tree)} (g : List Char)
    (h : ∀ row ∈ rows, row.2.isStatement = true) : statements (spread rows g) = rows.map (·.2) := by
  induction rows with
  | nil => exact statements_ofBlanks g
  | cons row rows ih =>
    have hrest := ih fun row hrow => h row (by simp [hrow])
    rw [spread, statements_append, statements_ofBlanks, List.nil_append, statements,
      List.filter_cons_of_pos (h row (by simp)), ← statements, hrest, List.map_cons]

section

variable {α : Type} {f : Tree → Option (List α)}

theorem mapM_flatten_cons {t : Tree} {ts : List Tree} {xs : List α} :
    ((t :: ts).mapM f).map List.flatten = some xs
      ↔ ∃ a b, f t = some a ∧ (ts.mapM f).map List.flatten = some b ∧ xs = a ++ b := by
  rw [List.mapM_cons]
  cases f t <;> cases ts.mapM f <;> simp [eq_comm]

/-- What is made from trees is made from the statements among them. -/
theorem mapM_flatten_statements (hf : ∀ t, t.isStatement = false → f t = some []) (ts : List Tree) :
    ((statements ts).mapM f).map List.flatten = (ts.mapM f).map List.flatten := by
  induction ts with
  | nil => rfl
  | cons t ts ih =>
    refine Option.ext fun xs => ?_
    cases ht : t.isStatement with
    | false =>
      rw [statements, List.filter_cons_of_neg (by simp [ht]), ← statements, ih, mapM_flatten_cons,
        hf t ht]
      simp [eq_comm]
    | true =>
      rw [statements, List.filter_cons_of_pos ht, ← statements, mapM_flatten_cons,
        mapM_flatten_cons, ih]

/-- Trees in another order make the same in another order. -/
theorem mapM_flatten_of_perm {ts ts' : List Tree} (hperm : ts.Perm ts') :
    ∀ {xs : List α}, (ts.mapM f).map List.flatten = some xs →
      ∃ xs', (ts'.mapM f).map List.flatten = some xs' ∧ xs.Perm xs' := by
  induction hperm with
  | nil => exact fun {xs} h => ⟨xs, h, .refl xs⟩
  | cons t _ ih =>
    intro xs h
    obtain ⟨a, b, ha, hb, rfl⟩ := mapM_flatten_cons.1 h
    obtain ⟨b', hb', hperm⟩ := ih hb
    exact ⟨a ++ b', mapM_flatten_cons.2 ⟨a, b', ha, hb', rfl⟩, hperm.append_left a⟩
  | swap t t' ts =>
    intro xs h
    obtain ⟨a', _, ha', hts, rfl⟩ := mapM_flatten_cons.1 h
    obtain ⟨a, b, ha, hb, rfl⟩ := mapM_flatten_cons.1 hts
    have hmore := mapM_flatten_cons.2 ⟨a', b, ha', hb, rfl⟩
    refine ⟨_, mapM_flatten_cons.2 ⟨a, a' ++ b, ha, hmore, rfl⟩, ?_⟩
    rw [← List.append_assoc, ← List.append_assoc]
    exact List.perm_append_comm.append_right b
  | trans _ _ ih₁ ih₂ =>
    intro xs h
    obtain ⟨xs₂, h₂, hperm⟩ := ih₁ h
    obtain ⟨xs₃, h₃, hperm'⟩ := ih₂ h₂
    exact ⟨xs₃, h₃, hperm.trans hperm'⟩

end

end Tree

namespace Statement

theorem ofTrees?_eq_mapM (ts : List Tree) :
    ofTrees? ts = (ts.mapM ofTree?).map List.flatten := by
  induction ts with
  | nil => rfl
  | cons t ts ih =>
    refine Option.ext fun xs => ?_
    rw [mapM_flatten_cons, ← ih, ofTrees?]
    cases ofTree? t <;> cases ofTrees? ts <;> simp [eq_comm]

theorem ofTrees?_statements (ts : List Tree) : ofTrees? (statements ts) = ofTrees? ts := by
  rw [ofTrees?_eq_mapM, ofTrees?_eq_mapM, mapM_flatten_statements]
  intro t ht
  cases t <;> first | rfl | cases ht

theorem ofTrees?_cons_idle {t : Tree} (ht : ofTree? t = some []) (ts : List Tree) :
    ofTrees? (t :: ts) = ofTrees? ts := by
  rw [ofTrees?, ht]
  cases ofTrees? ts <;> rfl

theorem ofTrees?_ofBlanks_append (g : List Char) (ts : List Tree) :
    ofTrees? (ofBlanks g ++ ts) = ofTrees? ts := by
  cases g with
  | nil => rfl
  | cons c g => exact ofTrees?_cons_idle rfl ts

/-- A choice stands for one statement with those of its members inside. -/
theorem ofTrees?_choice (gap name gap' : List Char) (members : List Tree) :
    ofTrees? [choice gap name gap' members] = (ofTrees? members).map fun ms => [.oneof ms] := by
  have hclose : ofTrees? (members ++ [mark [Scan.closeBrace]]) = ofTrees? members := by
    rw [ofTrees?_append]
    cases ofTrees? members <;> simp [ofTrees?, ofTree?]
  rw [ofTrees?_singleton, choice, ofTree?, ofTrees?_cons_idle rfl, ofTrees?_ofBlanks_append,
    ofTrees?_cons_idle rfl, ofTrees?_ofBlanks_append, ofTrees?_cons_idle rfl, hclose]
  cases ofTrees? members <;> rfl

end Statement

namespace Tree

/-- Statements of a block stay statements behind other blanks. -/
theorem isStatement_of_perm {rows : List (List Char × Tree)} {old : List Tree}
    (h : (rows.map (·.2)).Perm (statements old)) : ∀ row ∈ rows, row.2.isStatement = true :=
  fun _ hrow => (List.mem_filter.1 (h.subset (List.mem_map_of_mem hrow))).2

/-- What the trees of a message body stand for is what its statements stand for. -/
theorem ofTrees?_spread {rows : List (List Char × Tree)} (g : List Char)
    (h : ∀ row ∈ rows, row.2.isStatement = true) :
    Statement.ofTrees? (spread rows g) = Statement.ofTrees? (rows.map (·.2)) := by
  rw [← statements_spread g h, Statement.ofTrees?_statements]

/-- Rearranged trees are blanks and statements. -/
theorem Rearranged.isStatement {tame : Prop} {rule : Rule} {old new : List Tree}
    (h : Rearranged tame rule old new) : ∃ rows g, new = spread rows g
      ∧ ∀ row ∈ rows, row.2.isStatement = true := by
  cases h with
  | permuted _ hrows _ => exact ⟨_, _, rfl, isStatement_of_perm hrows⟩
  | wrapped => exact ⟨_, _, rfl, by simp [choice, Tree.isStatement]⟩
  | dissolved _ hrows _ => exact ⟨_, _, rfl, isStatement_of_perm (.of_eq hrows)⟩

/-- Rearranged statements of a message body declare the same in another order. -/
theorem Rearranged.reordered {tame : Prop} {rule : Rule} {old new : List Tree}
    (h : Rearranged tame rule old new) {ss : List Statement}
    (hss : Statement.ofTrees? old = some ss) :
    ∃ ss', Statement.ofTrees? new = some ss' ∧ Statement.Reordered ss ss' := by
  rw [← Statement.ofTrees?_statements] at hss
  cases h with
  | @permuted _ _ rows g _ hrows _ =>
    rw [Statement.ofTrees?_eq_mapM] at hss
    obtain ⟨ss', hss', hperm⟩ := mapM_flatten_of_perm hrows.symm hss
    rw [← Statement.ofTrees?_eq_mapM, ← ofTrees?_spread g (isStatement_of_perm hrows)] at hss'
    exact ⟨ss', hss', .of_perm hperm⟩
  | @wrapped _ rows before gap name gap' g behind _ hrows =>
    have hinside : Statement.ofTrees? (spread rows g) = some ss := by
      rw [ofTrees?_spread g (isStatement_of_perm (.of_eq hrows)), hrows, hss]
    refine ⟨[.oneof ss], ?_, .members_oneof ss⟩
    rw [ofTrees?_spread behind (by simp [choice, Tree.isStatement]), List.map_singleton,
      Statement.ofTrees?_choice, hinside, Option.map_some]
  | @dissolved _ members rows gap name gap' g hold hrows =>
    rw [hold, Statement.ofTrees?_choice] at hss
    obtain ⟨ms, hms, rfl⟩ := Option.map_eq_some_iff.1 hss
    refine ⟨ms, ?_, .oneof_members ms⟩
    rw [ofTrees?_spread g (isStatement_of_perm (.of_eq hrows)), hrows,
      Statement.ofTrees?_statements, hms]

theorem tokens_eq_nil {ts : List Tree} (h : ∀ rule text, token rule text ∉ ts) (r : Rule) :
    tokens r ts = [] := by
  rw [tokens, List.filterMap_eq_nil_iff]
  intro t ht
  cases t with
  | token rule text => exact absurd ht (h rule text)
  | _ => rfl

/-- There are no tokens among blanks and statements. -/
theorem token_not_mem_spread {rows : List (List Char × Tree)} (g : List Char)
    (h : ∀ row ∈ rows, row.2.isStatement = true) (rule : Rule) (text : List Char) :
    token rule text ∉ spread rows g := by
  have hblanks (g : List Char) : token rule text ∉ ofBlanks g := by
    cases g <;> simp [ofBlanks]
  induction rows with
  | nil => exact hblanks g
  | cons row rows ih =>
    rw [spread, List.mem_append, List.mem_cons]
    rintro (hmem | heq | hmem)
    · exact hblanks _ hmem
    · have hrow := h row (by simp)
      rw [← heq] at hrow
      cases hrow
    · exact ih (fun row hrow => h row (by simp [hrow])) hmem

/-- Rearranged statements declare the same in another order. -/
theorem restates_rearranged {tame : Prop} :
    Restates (Replaced (Rearranged tame)) Statement.Reordered where
  congruence := Statement.congruence_reordered
  isBlock := Proto.edits_rearranged.isBlock
  tokens_eq := by
    rintro rule parts parts' ⟨front, old, new, back, hstretch, hnew, rfl, rfl⟩ r
    obtain ⟨rows, g, rfl, hrows⟩ := hnew.isStatement
    rw [tokens_append, tokens_append, tokens_append, tokens_append,
      tokens_eq_nil (token_not_mem_spread g hrows), tokens_eq_nil hstretch.plain]
  statements := by
    rintro rule parts parts' ⟨front, old, new, back, -, hnew, rfl, rfl⟩ - ss hss
    obtain ⟨a, bc, ha, hbc, rfl⟩ := Statement.ofTrees?_append_eq_some.1 hss
    obtain ⟨b, c, hb, hc, rfl⟩ := Statement.ofTrees?_append_eq_some.1 hbc
    obtain ⟨b', hb', hreordered⟩ := hnew.reordered hb
    exact ⟨a ++ (b' ++ c), Statement.ofTrees?_append_eq_some.2 ⟨a, _, ha,
      Statement.ofTrees?_append_eq_some.2 ⟨b', c, hb', hc, rfl⟩, rfl⟩, hreordered.append a c⟩
  values := by
    rintro parts parts' ⟨_, _, _, _, -, hnew, -⟩
    cases hnew with | permuted hrule => simp at hrule
  methods := by
    rintro parts parts' ⟨_, _, _, _, -, hnew, -⟩
    cases hnew with | permuted hrule => simp at hrule

end Tree

namespace FileStatement

/-- Statements of a file with some of them in another order, or with another body of a message. -/
inductive Rearranged : List FileStatement → List FileStatement → Prop
  /-- The body of a message is changed. -/
  | restated {xs xs' : List FileStatement} (h : Restated Statement.Reordered xs xs') :
      Rearranged xs xs'
  /-- Some statements stand in another order.  None of them names the dialect. -/
  | permuted (front back : List FileStatement) {xs xs' : List FileStatement} (h : xs.Perm xs')
      (hplain : ∀ s ∈ xs, s.isDialect = false) :
      Rearranged (front ++ (xs ++ back)) (front ++ (xs' ++ back))

/-- There are as many packages as before. -/
theorem Rearranged.countP_eq {xs xs' : List FileStatement} (h : Rearranged xs xs') :
    xs'.countP isPackage = xs.countP isPackage := by
  cases h with
  | restated h =>
    cases h with
    | refl => rfl
    | message => simp [isPackage]
  | permuted front back h => simp [h.countP_eq]

/-- With one package at most, the file declares the same in another order. -/
theorem Rearranged.reordered {xs xs' : List FileStatement} (h : Rearranged xs xs')
    (hpackage : xs.countP isPackage ≤ 1) : Reordered xs xs' := by
  cases h with
  | restated h => exact .of_restated h
  | @permuted front back xs xs' h hplain =>
    refine (Reordered.of_perm h hplain ?_).append front back
    simp only [List.countP_append] at hpackage
    omega

/-- What does not open a file does not name the dialect. -/
theorem isDialect_eq_false {t : Tree} (ht : t.opensBlock = false) {xs : List FileStatement}
    (h : ofTree? t = some xs) : ∀ s ∈ xs, s.isDialect = false := by
  cases t with
  | node rule parts =>
    cases ofTree?_eq_some.1 h with
    | dialect => cases ht
    | other => nofun
    | _ => exact List.forall_mem_singleton.2 rfl
  | _ =>
    cases h
    nofun

/-- The statements of a file after some of its trees are rearranged. -/
theorem mapM_ofTree?_replaced {tame : Prop} {parts parts' : List Tree}
    (h : Replaced (Tree.Rearranged tame) .proto parts parts') {xs : List FileStatement}
    (hxs : (parts.mapM ofTree?).map List.flatten = some xs) :
    ∃ xs', (parts'.mapM ofTree?).map List.flatten = some xs' ∧ Rearranged xs xs' := by
  obtain ⟨front, old, new, back, hstretch, hnew, rfl, rfl⟩ := h
  cases hnew with | @permuted _ _ rows g _ hrows _ =>
  have hidle : ∀ t, t.isStatement = false → ofTree? t = some [] := by
    intro t ht
    cases t <;> first | rfl | cases ht
  obtain ⟨a, bc, ha, hbc, rfl⟩ := mapM_ofTree?_append.1 hxs
  obtain ⟨b, c, hb, hc, rfl⟩ := mapM_ofTree?_append.1 hbc
  have hplain : ∀ s ∈ b, s.isDialect = false := by
    obtain ⟨bs, hbs, rfl⟩ := Option.map_eq_some_iff.1 hb
    intro s hs
    obtain ⟨t, ht, ss, hss, hs⟩ := mem_flatten_of_mapM_eq_some hbs hs
    exact isDialect_eq_false (hstretch.before.opened t (by simp [ht])) hss s hs
  rw [← mapM_flatten_statements hidle] at hb
  obtain ⟨b', hb', hperm⟩ := mapM_flatten_of_perm hrows.symm hb
  rw [← statements_spread g (isStatement_of_perm hrows), mapM_flatten_statements hidle] at hb'
  exact ⟨a ++ (b' ++ c), mapM_ofTree?_append.2 ⟨a, _, ha,
    mapM_ofTree?_append.2 ⟨b', c, hb', hc, rfl⟩, rfl⟩, .permuted a c hperm hplain⟩

end FileStatement

/-! ## Texts -/

/-- No quote is left open in an option value in braces. -/
def Tree.Tame (trees : List Tree) : Prop :=
  ∀ v ∈ valuesAll trees, Scan.Braced v

/-- The second text is the first with some statements of a file or of a message body rearranged.  A
line ends between any two of these, unless the trees of the first text are such that other blanks
will do. -/
def Proto.Rearranged (free : List Tree → Prop) (source source' : String) : Prop :=
  ∃ trees trees', Proto.parse Proto.file source.toList = .ok trees
    ∧ Within (Replaced (Tree.Rearranged (free trees))) trees trees'
    ∧ source' = String.ofList (textAll trees')

/-- The statements of a rearranged text. -/
theorem FileStatement.ofText?_rearranged {source source' : String}
    (h : Proto.Rearranged Tree.Tame source source') {xs : List FileStatement}
    (hxs : ofText? source = some xs) :
    ∃ xs', ofText? source' = some xs' ∧ Rearranged xs xs' := by
  obtain ⟨trees, trees', htrees, hedit, rfl⟩ := h
  rw [ofText?_edited Proto.edits_rearranged.toRereads htrees id hedit]
  rw [ofText?_of_parse htrees] at hxs
  obtain ⟨parts, rfl⟩ := Proto.parse_file_eq_node htrees
  obtain ⟨parts', rfl, hparts⟩ := hedit.node_inv
  rw [ofTrees?_node] at hxs ⊢
  rcases hparts with hreplaced | hwithin
  · exact mapM_ofTree?_replaced hreplaced hxs
  · obtain ⟨xss, hxss, rfl⟩ := Option.map_eq_some_iff.1 hxs
    have hfits : FitsAll .file parts := (Proto.parse_file_fits htrees).1.2
    obtain ⟨xss', hxss', hrestated⟩ := mapM_ofTree?_within restates_rearranged hwithin hfits hxss
    exact ⟨xss'.flatten, by rw [hxss', Option.map_some], .restated hrestated⟩

/-- What a text declares, after any number of rearrangements. -/
theorem FileDecl.parse_permuted {name source source' : String} {xs : List FileStatement}
    (h : Relation.ReflTransGen (Proto.Rearranged Tree.Tame) source source')
    (hxs : FileStatement.ofText? source = some xs)
    (hpackage : xs.countP FileStatement.isPackage ≤ 1) {file : FileDecl}
    (hfile : FileDecl.parse name source = .ok file) :
    ∃ file', FileDecl.parse name source' = .ok file' ∧ file.Permuted file' := by
  suffices h : ∃ xs', FileStatement.ofText? source' = some xs'
      ∧ xs'.countP FileStatement.isPackage ≤ 1 ∧ FileStatement.Reordered xs xs' by
    obtain ⟨xs', hxs', -, hreordered⟩ := h
    obtain ⟨_, hxs₁, hstatements⟩ := FileDecl.parse_eq_ok.1 hfile
    obtain rfl := Option.some.inj (hxs₁.symm.trans hxs)
    obtain ⟨file', hfile', hpermuted⟩ := hreordered _ _ hstatements
    exact ⟨file', FileDecl.parse_eq_ok.2 ⟨xs', hxs', hfile'⟩, hpermuted⟩
  induction h with
  | refl => exact ⟨xs, hxs, hpackage, .refl xs⟩
  | tail _ hstep ih =>
    obtain ⟨xs₁, hxs₁, hpackage₁, hreordered⟩ := ih
    obtain ⟨xs₂, hxs₂, hrearranged⟩ := FileStatement.ofText?_rearranged hstep hxs₁
    exact ⟨xs₂, hxs₂, hrearranged.countP_eq ▸ hpackage₁,
      hreordered.trans (hrearranged.reordered hpackage₁)⟩

/-- The order of statements and the grouping of fields in choices do not matter.  Provided that no
two siblings have the same name and that at most one package is named, a text that stands for a
schema still stands for it after any number of rearrangements, up to the order in which messages,
enums, services and imports are listed: statements of the file or of a message body may be brought
into any other order, fields and groups may become members of a choice, and a choice may be
dissolved. -/
theorem Schema.parse_rearranged {name source source' : String} {file : FileDecl} {schema : Schema}
    (hfile : FileDecl.parse name source = .ok file) (hunrepeated : file.Unrepeated)
    (hpackage : ∀ xs, FileStatement.ofText? source = some xs →
      xs.countP FileStatement.isPackage ≤ 1)
    (hschema : Schema.parse name source = .ok schema)
    (h : Relation.ReflTransGen (Proto.Rearranged Tree.Tame) source source') :
    ∃ schema', Schema.parse name source' = .ok schema' ∧ schema.Permuted schema' := by
  obtain ⟨_, hfile₁, hbuild⟩ := bind_eq_ok.1 hschema
  obtain rfl := Except.ok.inj (hfile₁.symm.trans hfile)
  obtain ⟨xs, hxs, -⟩ := FileDecl.parse_eq_ok.1 hfile
  obtain ⟨file', hfile', hpermuted⟩ := FileDecl.parse_permuted h hxs (hpackage xs hxs) hfile
  obtain ⟨schema', hbuild', hsame⟩ := hpermuted.build hunrepeated hbuild
  have hfind := hpermuted.find?_ofFiles hunrepeated (FileDecl.parse_identified hfile)
    (FileDecl.parse_identified hfile')
  rw [← FileDecl.build_congr hfind] at hbuild'
  exact ⟨schema', bind_eq_ok.2 ⟨file', hfile', hbuild'⟩, hsame⟩

/-- A field of type `B`. -/
def Tree.fieldOfB (name number : Char) : Tree :=
  node .field [token .typeName ['B'], blank [' '], token .ident [name], mark ['='],
    token .intLit [number], mark [';']]

/-- A message with the given body. -/
def Tree.messageNamed (name : Char) (body : List Tree) : Tree :=
  node .messageDef [token .kwMessage "message".toList, blank [' '], token .ident [name],
    node .messageBody (mark [Scan.openBrace] :: (body ++ [mark [Scan.closeBrace]]))]

/-- A file with the given statements. -/
def Tree.fileOf (statements : List Tree) : List Tree :=
  [node .proto (statements ++ [token .endOfInput []])]

/-- A text with two messages. -/
def Schema.pairSource : String :=
  "message A\x7bB b=2;B a=1;\x7dmessage B\x7b\x7d"

/-- The text with the messages in the other order. -/
def Schema.pairSwapped : String :=
  "\nmessage B\x7b\x7d\nmessage A\x7bB b=2;B a=1;\x7d\n"

/-- The second text with the fields in a choice. -/
def Schema.pairWrapped : String :=
  "\nmessage B\x7b\x7d\nmessage A\x7b\noneof o\x7b\nB b=2;\nB a=1;\n\x7d\n\x7d\n"

/-- What the first text declares. -/
def FileDecl.pair : FileDecl :=
  { FileDecl.empty "a.proto" with
    messages := [⟨"A", [⟨"b", 2, .optional, .named "B"⟩, ⟨"a", 1, .optional, .named "B"⟩], [], []⟩,
      ⟨"B", [], [], []⟩] }

/-- The schema of the first text. -/
def Schema.pair : Schema where
  name := "a.proto"
  dialect := .proto2
  package := none
  imports := []
  messages :=
    [("A", .flat "A" "A" [⟨"a", 1, .optional, .message ⟨"B", "B"⟩⟩,
      ⟨"b", 2, .optional, .message ⟨"B", "B"⟩⟩]),
    ("B", .flat "B" "B" [])]
  enums := []
  services := []

theorem Scan.endsLine_newline : EndsLine ['\n'] :=
  ⟨.one (.blank rfl), [], '\n', [], rfl, by simp, rfl⟩

theorem Tree.parted_lines {tame : Prop} (t t' : Tree) :
    Parted tame [(['\n'], t), (['\n'], t')] ['\n'] :=
  ⟨by simp [Scan.Parts, Scan.endsLine_newline], .inl Scan.endsLine_newline⟩

theorem Proto.parse_pairSource : parse file Schema.pairSource.toList
    = .ok (fileOf [messageNamed 'A' [fieldOfB 'b' '2', fieldOfB 'a' '1'],
      messageNamed 'B' []]) := by
  decide +kernel

theorem Proto.parse_pairSwapped : parse file Schema.pairSwapped.toList
    = .ok (fileOf [blank ['\n'], messageNamed 'B' [], blank ['\n'],
      messageNamed 'A' [fieldOfB 'b' '2', fieldOfB 'a' '1'], blank ['\n']]) := by
  decide +kernel

theorem Proto.rearranged_pairSwapped :
    Proto.Rearranged Tree.Tame Schema.pairSource Schema.pairSwapped := by
  have hstretch : Stretch [] [messageNamed 'A' [fieldOfB 'b' '2', fieldOfB 'a' '1'],
      messageNamed 'B' []] [token .endOfInput []] := by
    refine ⟨⟨?_, ?_, ?_⟩, ⟨?_, ?_, ?_⟩, ?_⟩ <;>
      simp [EndsSolid, messageNamed, opensBlock, isBlank]
  have hrearranged {tame : Prop} : Tree.Rearranged tame .proto
      [messageNamed 'A' [fieldOfB 'b' '2', fieldOfB 'a' '1'], messageNamed 'B' []]
      (spread [(['\n'], messageNamed 'B' []),
        (['\n'], messageNamed 'A' [fieldOfB 'b' '2', fieldOfB 'a' '1'])] ['\n']) :=
    .permuted (by simp) (.swap _ _ []) (parted_lines _ _)
  exact ⟨_, _, parse_pairSource, .here [] [] ⟨_, _, _, _, hstretch, hrearranged, rfl, rfl⟩,
    by decide +kernel⟩

theorem Proto.rearranged_pairWrapped :
    Proto.Rearranged Tree.Tame Schema.pairSwapped Schema.pairWrapped := by
  have hstretch : Stretch [mark [Scan.openBrace]] [fieldOfB 'b' '2', fieldOfB 'a' '1']
      [mark [Scan.closeBrace]] := by
    refine ⟨⟨?_, ?_, ?_⟩, ⟨?_, ?_, ?_⟩, ?_⟩ <;>
      simp [EndsSolid, fieldOfB, opensBlock, isBlank, Scan.openBrace, Scan.closeBrace]
  have hmembers : ∀ t ∈ statements [fieldOfB 'b' '2', fieldOfB 'a' '1'], t.isMember = true := by
    simp [fieldOfB, statements, Tree.isStatement, isMember]
  have hrearranged {tame : Prop} : Tree.Rearranged tame .messageBody
      [fieldOfB 'b' '2', fieldOfB 'a' '1'] (spread [(['\n'], choice [' '] ['o'] []
        (spread [(['\n'], fieldOfB 'b' '2'), (['\n'], fieldOfB 'a' '1')] ['\n']))] ['\n']) :=
    .wrapped hmembers rfl (parted_lines _ _) (.one (.blank rfl)) rfl (.inl rfl)
      (.inl Scan.endsLine_newline) (.inl Scan.endsLine_newline)
  -- the fields stand in the body of the second message
  exact ⟨_, _, parse_pairSwapped, .inside .proto [] [] (.inside .messageDef [_, _, _] [_, _]
    (.here [_, _, _] [] ⟨_, _, _, _, hstretch, hrearranged, rfl, rfl⟩)), by decide +kernel⟩

/-- The messages of a file change places, and then the fields of one become members of a choice. -/
theorem Schema.parse_rearranged_pair :
    FileDecl.parse "a.proto" pairSource = .ok FileDecl.pair ∧ FileDecl.pair.Unrepeated ∧
      Schema.parse "a.proto" pairSource = .ok pair ∧
      ∃ schema, Schema.parse "a.proto" pairWrapped = .ok schema ∧ pair.Permuted schema := by
  have hfile : FileDecl.parse "a.proto" pairSource = .ok FileDecl.pair := by
    rw [FileDecl.parse, Proto.parse_pairSource]
    decide +kernel
  have hschema : Schema.parse "a.proto" pairSource = .ok pair := by
    rw [Schema.parse, hfile]
    decide +kernel
  have hunrepeated : FileDecl.pair.Unrepeated := by
    refine ⟨by decide, ?_, ?_, ?_⟩ <;>
      simp [FileDecl.pair, FileDecl.empty, MessageDecl.UnrepeatedInside, MessageDecl.Unrepeated,
        EnumDecl.Unrepeated, ServiceDecl.Unrepeated]
  have hpackage : ∀ xs, FileStatement.ofText? pairSource = some xs →
      xs.countP FileStatement.isPackage ≤ 1 := by
    intro xs hxs
    rw [FileStatement.ofText?_of_parse Proto.parse_pairSource] at hxs
    cases hxs
    decide
  exact ⟨hfile, hunrepeated, hschema, Schema.parse_rearranged hfile hunrepeated hpackage hschema
    (.tail (.single Proto.rearranged_pairSwapped) Proto.rearranged_pairWrapped)⟩

/-- An option of a file. -/
def Tree.optionOf (name : Char) (value : Tree) : Tree :=
  node .optionStatement [token .kwOption "option".toList, blank [' '], token .optionName [name],
    blank [' '], mark ['='], blank [' '], node .constant [value], mark [';']]

/-- A string behind which a quote is left open. -/
def Schema.openQuote : String := "option b = 'x'; option a = \x7b'\x7d;"

/-- The same with the quote in front of the string. -/
def Schema.closedQuote : String := "option a = \x7b'\x7d; option b = 'x';"

/-- Two options cannot change places on one line if a quote is left open in the value of one: in
front of another quote it begins a string literal. -/
theorem Schema.parse_rearranged_quote :
    FileDecl.parse "test.proto" openQuote = .ok (FileDecl.empty "test.proto") ∧
      (FileDecl.empty "test.proto").Unrepeated ∧ FileStatement.ofText? openQuote = some [] ∧
      (∃ schema, Schema.parse "test.proto" openQuote = .ok schema) ∧
      Proto.Rearranged (fun _ => True) openQuote closedQuote ∧
      ∀ schema, Schema.parse "test.proto" closedQuote ≠ .ok schema := by
  have hparse : Proto.parse Proto.file openQuote.toList
      = .ok (fileOf [optionOf 'b' (token .strLit "'x'".toList), blank [' '],
        optionOf 'a' (token .aggregate "\x7b'\x7d".toList)]) := by
    decide +kernel
  have hfile : FileDecl.parse "test.proto" openQuote = .ok (FileDecl.empty "test.proto") := by
    rw [FileDecl.parse, hparse]
    decide +kernel
  have hnone : FileStatement.ofText? openQuote = some [] := by
    rw [FileStatement.ofText?_of_parse hparse]
    rfl
  have hunrepeated : (FileDecl.empty "test.proto").Unrepeated := by
    refine ⟨.nil, trivial, ?_, ?_⟩ <;>
      simp [FileDecl.empty, EnumDecl.Unrepeated, ServiceDecl.Unrepeated]
  have hswapped : Proto.Rearranged (fun _ => True) openQuote closedQuote := by
    have hstretch : Stretch [] [optionOf 'b' (token .strLit "'x'".toList), blank [' '],
        optionOf 'a' (token .aggregate "\x7b'\x7d".toList)] [token .endOfInput []] := by
      refine ⟨⟨?_, ?_, ?_⟩, ⟨?_, ?_, ?_⟩, ?_⟩ <;> simp [EndsSolid, optionOf, opensBlock, isBlank]
    have hspace : Scan.Gap [' '] := .one (.blank rfl)
    have hrearranged : Tree.Rearranged True .proto
        [optionOf 'b' (token .strLit "'x'".toList), blank [' '],
          optionOf 'a' (token .aggregate "\x7b'\x7d".toList)]
        (spread [([], optionOf 'a' (token .aggregate "\x7b'\x7d".toList)),
          ([' '], optionOf 'b' (token .strLit "'x'".toList))] []) :=
      .permuted (by simp) (.swap _ _ []) ⟨by simp [Scan.Parts, hspace], .inr ⟨trivial, .inl rfl⟩⟩
    exact ⟨_, _, hparse, .here [] [] ⟨_, _, _, _, hstretch, hrearranged, rfl, rfl⟩,
      by decide +kernel⟩
  have hrejected : (Schema.parse "test.proto" closedQuote).toOption = none := by decide +kernel
  refine ⟨hfile, hunrepeated, hnone, ⟨_, bind_eq_ok.2 ⟨_, hfile, rfl⟩⟩, hswapped, ?_⟩
  intro schema hschema
  rw [hschema] at hrejected
  cases hrejected

end MettaSchema
