import MettaSchema.Proofs.Grammar.Levels
import MettaSchema.Proofs.Schema.Constants
import MettaSchema.Proofs.Schema.Ordinary
import MettaSchema.Proofs.Schema.Rearranged

/-!
# Comments inside the values of options

Comments between two tokens are skipped, but not in a value in braces: there the characters of a
comment are characters of the value.  So it matters what a comment says.

* `Scan.Inert` — a text that leaves the braces around it as they are.
* `Tree.Commented`, `Proto.Commented` — a comment is put between two tokens of a value.
* `Proto.rereads_commented` — the grammar reads the value with an inert comment in it.
* `Proto.exists_refused` — every other comment makes some accepted text unreadable.
* `Schema.parse_commented` — the schema stays the same in the first case.
-/

namespace MettaSchema

open MettaSchema.Tree

namespace Scan

variable {tame : Prop} {s s' a c : List Char}

/-- The text leaves the braces around it as they are, whatever stands behind it: its own braces
match, those in its complete string literals aside, and every other quote stands on a line that ends
before the quote comes back. -/
def Inert (c : List Char) : Prop := Leads 0 0 c

/-- No literal that begins in front of a text goes on into it: a line ends in front of the text, or
there are neither quotes nor backslashes that it could change. -/
def Sheltered (c a : List Char) : Prop :=
  (∃ x n y, a = x ++ n :: y ∧ isLineEnd n = true ∧ ∀ z, x ≠ z ++ ['\\'])
    ∨ (∀ d ∈ c, d ∉ ['\\', doubleQuote, singleQuote]) ∧ ∀ z, a ≠ z ++ ['\\']

theorem Calm.behind (h : Calm tame s s') (ha : ∀ z, a ≠ z ++ ['\\']) :
    Calm tame (a ++ s) (a ++ s') := by
  rcases List.eq_nil_or_concat' a with rfl | ⟨x, d, rfl⟩
  · exact h
  · have hd : d ≠ '\\' := by
      rintro rfl
      exact ha x rfl
    simpa using h.append hd x

theorem Sheltered.calm (h : Sheltered c a) (m : List Char) :
    Calm tame (a ++ m) (a ++ (c ++ m)) := by
  rcases h with ⟨x, n, y, rfl, hn, hx⟩ | ⟨hc, ha⟩
  · have hends : startsWith isLineEnd (n :: (y ++ (c ++ m))) = true := hn
    have hline : Calm tame (n :: (y ++ m)) (n :: (y ++ (c ++ m))) := .of_lineEnd hends _
    simpa using hline.behind hx
  · exact ((Calm.refl m).skip hc).behind ha

/-- The last character of blanks is a blank character or a slash. -/
theorem Gap.exists_concat {g : List Char} (h : Gap g) :
    ∃ x d, g = x ++ [d] ∧ beginsBlank d = true := by
  induction h with
  | one hp =>
    cases hp with
    | blank hc => exact ⟨[], _, rfl, by simp [beginsBlank, hc]⟩
    | @block body hb => exact ⟨'/' :: '*' :: (body ++ ['*']), '/', by simp, rfl⟩
    | @line body d hb hd =>
      exact ⟨'/' :: '/' :: body, d, rfl, by simp [beginsBlank, isBlank_of_isLineEnd hd]⟩
  | more hp hg ih =>
    obtain ⟨x, d, rfl, hd⟩ := ih
    exact ⟨_, d, (List.append_assoc _ x [d]).symm, hd⟩

theorem Gap.ne_append {g : List Char} (h : Gap g) {d : Char} (hd : beginsBlank d = false)
    (z : List Char) : g ≠ z ++ [d] := by
  rintro rfl
  obtain ⟨x, e, heq, he⟩ := h.exists_concat
  obtain ⟨-, hlast⟩ := List.append_inj' heq rfl
  obtain ⟨rfl, -⟩ := List.cons.inj hlast
  rw [hd] at he
  cases he

/-- If there is a semicolon behind the blanks, then not behind the brace. -/
theorem exists_semicolon {y t r : List Char}
    (h : exactly [';'] (blanks (y ++ [closeBrace, ';'])).2 = some (t, r)) (m : List Char) :
    ∃ z, (blanks (y ++ closeBrace :: m)).2 = ';' :: z := by
  obtain ⟨g, hg⟩ : ∃ g, blanks (y ++ [closeBrace, ';']) = (g, ';' :: r) :=
    ⟨_, Prod.ext rfl (exactly_eq_some h).2⟩
  have hsplit : g ++ ';' :: r = y ++ [closeBrace, ';'] := by
    simpa [hg] using blanks_append (y ++ [closeBrace, ';'])
  have hsemicolon : beginsBlank ';' = false := rfl
  have hgap := gap_of_blanks hsemicolon g (by rw [hsplit, hg])
  have hne : closeBrace ≠ ';' := by decide
  rcases List.append_eq_append_iff.1 hsplit with ⟨mid, rfl, hmid⟩ | ⟨mid, rfl, hmid⟩
  · cases mid with
    | nil => exact absurd (List.cons.inj hmid).1 hne.symm
    | cons d mid =>
      obtain ⟨rfl, -⟩ := List.cons.inj hmid
      refine ⟨mid ++ closeBrace :: m, ?_⟩
      rw [List.append_assoc, List.cons_append, blanks_gap_or_nil hgap rfl]
  · -- the blanks would have to go on over the brace, and to end in it
    cases mid with
    | nil => exact absurd (List.cons.inj hmid).1 hne
    | cons d mid =>
      obtain ⟨rfl, hmid⟩ := List.cons.inj hmid
      have hlength : mid.length + (r.length + 1) = 1 := by simpa using congrArg List.length hmid
      obtain rfl := List.length_eq_zero_iff.1 (by omega : mid.length = 0)
      rcases hgap with hnil | hgap
      · simp at hnil
      · exact absurd rfl (hgap.ne_append (by rfl : beginsBlank closeBrace = false) y)

end Scan

open Scan

/-! ## Inert comments -/

/-- A text is put between two tokens of a value in braces.  Literals in front of the place do not go
on into the text, unless the values in the file are such that none is left open. -/
inductive Tree.Commented (tame : Prop) (c : List Char) : Rule → List Tree → List Tree → Prop
  /-- The value and the value with the text in it. -/
  | value {a b : List Char} (h : Between a b) (hc : tame ∨ Sheltered c a) :
      Commented tame c .constant [token .aggregate (openBrace :: (a ++ (b ++ [closeBrace])))]
        [token .aggregate (openBrace :: (a ++ (c ++ (b ++ [closeBrace]))))]

/-- The second text is the first one with a text put between two tokens of the value of an
option. -/
def Proto.Commented (c : List Char) (source source' : String) : Prop :=
  ∃ trees trees', Proto.parse Proto.file source.toList = .ok trees
    ∧ Within (Tree.Commented (Tame trees) c) trees trees'
    ∧ source' = String.ofList (textAll trees')

theorem Tree.Commented.eq_constant {tame : Prop} {c : List Char} {rule : Rule}
    {parts parts' : List Tree} (h : Tree.Commented tame c rule parts parts') :
    rule = .constant := by
  cases h
  rfl

/-- A value is read with an inert text in it, up to the same brace. -/
theorem Proto.rereads_commented {tame : Prop} {c : List Char} (hc : Inert c) :
    Rereads tame (Tree.Commented tame c) where
  rule_not_mem h := by
    rw [h.eq_constant]
    decide
  reads := by
    rintro rule p parts parts' s r ⟨hbetween, hsheltered⟩ hrule hreads -
    cases hrule
    rename_i a b
    have hsplit := (hreads.text sound_messageElement.1.1.2.2.2.1 _ _ rfl).1
    have hs : s = Scan.openBrace :: (a ++ (b ++ Scan.closeBrace :: r)) := by
      simpa [textAll, text] using hsplit.symm
    have htext : textAll [token .aggregate (Scan.openBrace :: (a ++ (c ++ (b ++ [Scan.closeBrace]))))]
        ++ r = Scan.openBrace :: (a ++ (c ++ (b ++ Scan.closeBrace :: r))) := by
      simp [textAll, text]
    have hcalm (m : List Char) : Calm tame (a ++ m) (a ++ (c ++ m)) :=
      hsheltered.elim .inl fun h => h.calm m
    rw [htext, hs]
    exact ⟨_, .alt_first (.token_some (hbetween.aggregate_insert hc r)), rfl,
      fun _ => .inr (.of_calm (hcalm _) rfl [])⟩

/-- An inert text in a value makes no difference. -/
theorem Schema.parse_of_inert {c : List Char} (hc : Inert c) (name : String)
    {source source' : String} (h : Proto.Commented c source source') :
    Schema.parse name source' = Schema.parse name source := by
  obtain ⟨trees, trees', hparse, hedit, rfl⟩ := h
  obtain ⟨trees'', hparse', hskeleton⟩ :=
    Proto.parse_file_edited (Proto.rereads_commented hc) hparse id hedit
  have hstatements : FileStatement.ofTrees? trees'' = FileStatement.ofTrees? trees := by
    rw [← FileStatement.ofTrees?_skeletonAll, hskeleton, FileStatement.ofTrees?_skeletonAll]
    exact FileStatement.ofTrees?_constant (fun _ _ _ h => h.eq_constant) hedit
  have hfile : FileDecl.parse name (String.ofList (textAll trees'))
      = FileDecl.parse name source := by
    simp only [FileDecl.parse, String.toList_ofList, hparse', hparse, hstatements]
  rw [Schema.parse, hfile, Schema.parse]

/-! ## Other comments -/

/-- An enum with one value, which has one option. -/
def Tree.enumOf (value : Tree) : Tree :=
  node .enumDef
    [token .kwEnum "enum".toList, blank [' '], token .ident ['E'], mark [openBrace],
      node .enumValue
        [token .ident ['V'], mark ['='], token .intLit ['0'],
          node .fieldOptions
            [mark ['['],
              node .fieldOption [token .optionName ['o'], mark ['='], node .constant [value]],
              mark [']']],
          mark [';']],
      mark [closeBrace]]

namespace Proto

open Phrase

/-- A text is refused if its first statement cannot be read. -/
theorem reads_file_none {s : List Char} (hs : blanks s = ([], s)) (hne : s ≠ [])
    (hdialect : dialectLine.blocked s = true) (h : Reads false topLevel s none) :
    Reads false file s none := by
  have hend : Reads false (token .endOfInput Scan.endOfInput) s none := by
    cases s with
    | nil => exact absurd rfl hne
    | cons => exact .token_none rfl
  have htail : Reads false fileTail s none := .seq_second (.star_none h) (by rwa [hs])
  have hmore : Reads false (seq (opt dialectLine) fileTail) s none :=
    .seq_second (.opt_none (reads_none_of_blocked hs hdialect)) (by rwa [hs])
  have hbody : Reads false fileBody s none := .seq_second (.nothing s) (by rwa [hs])
  exact .node_none hbody

/-- One phrase behind another one that is there, be the second one there or not. -/
theorem Reads.seq_gap_map {p q : Phrase} {s g s' : List Char} {trees : List Tree}
    {o : Option (List Tree × List Char)} (h₁ : Reads false p s (some (trees, g ++ s')))
    (hg : blanks (g ++ s') = (g, s')) (h₂ : Reads false q s' o) :
    Reads false (.seq p q) s
      (o.map fun taken => (trees ++ Tree.ofBlanks g ++ taken.1, taken.2)) := by
  cases o with
  | none => exact .seq_second h₁ (by rwa [hg])
  | some taken => exact h₁.seq_gap hg h₂

/-- In front of a brace, the value of an option is the one in braces. -/
theorem reads_constant (x : List Char) : Reads false constant (Scan.openBrace :: x)
    ((Scan.aggregate (Scan.openBrace :: x)).map fun taken =>
      ([.node .constant [.token .aggregate taken.1]], taken.2)) := by
  cases h : Scan.aggregate (Scan.openBrace :: x) with
  | some taken => exact .node_some (.alt_first (.token_some h))
  | none =>
    have hplain : Reads false (choice plainConstants) (Scan.openBrace :: x) none :=
      reads_none_of_blocked (blanks_of_head rfl) rfl
    exact .node_none (.alt_second (.token_none h) hplain)

/-- The text of an option up to its value, which is in braces and begins the given text. -/
def optionText (x : List Char) : List Char :=
  "option".toList ++ ([' '] ++ 'o' :: ([' '] ++ '=' :: ([' '] ++ Scan.openBrace :: x)))

/-- An option with a value in braces, be it there or not. -/
theorem reads_optionText {x : List Char} {o : Option (List Tree × List Char)}
    (h : Reads false (seq constant (punct ";")) (Scan.openBrace :: x) o) :
    Reads false topLevel (optionText x) (o.map fun taken => ([.node .optionStatement
      ([.token .kwOption "option".toList, .blank [' '], .token .optionName ['o'], .blank [' '],
        .mark ['='], .blank [' ']] ++ taken.1)], taken.2)) := by
  have hblank {c : Char} (hc : beginsBlank c = false) (y : List Char) :
      blanks ([' '] ++ c :: y) = ([' '], c :: y) := blanks_gap PlainField.gap_blank hc
  have hequals : Reads false (punct "=") ('=' :: ([' '] ++ Scan.openBrace :: x))
      (some ([.mark ['=']], [' '] ++ Scan.openBrace :: x)) := .mark_some rfl
  have hname : Reads false optionName ('o' :: ([' '] ++ '=' :: ([' '] ++ Scan.openBrace :: x)))
      (some ([.token .optionName ['o']], [' '] ++ '=' :: ([' '] ++ Scan.openBrace :: x))) :=
    .token_some rfl
  have hword : Reads false (keyword .kwOption "option") (optionText x)
      (some ([.token .kwOption "option".toList], _)) := .token_some (word_eq_some.2 ⟨rfl, rfl, rfl⟩)
  have hall := hword.seq_gap_map (hblank rfl _) (hname.seq_gap_map (hblank rfl _)
    (hequals.seq_gap_map (hblank rfl _) h))
  -- the text begins with no other keyword
  have hother {p : Phrase} (hp : p.blocked (optionText x) = true) :
      Reads false p (optionText x) none := reads_none_of_blocked (blanks_of_head rfl) hp
  refine .alt_second (hother rfl) (.alt_second (hother rfl) ?_)
  cases o with
  | none => exact .alt_second (.node_none hall) (hother rfl)
  | some taken => exact .alt_first (.node_some hall)

/-- A file with one option whose value is in braces. -/
theorem parse_optionText {b : List Char} (hb : BraceContent b) :
    parse file (optionText (b ++ [Scan.closeBrace, ';'])) = .ok (fileOf [optionOf 'o'
      (.token .aggregate (Scan.openBrace :: (b ++ [Scan.closeBrace])))]) := by
  have hvalue : Scan.aggregate (Scan.openBrace :: (b ++ [Scan.closeBrace, ';']))
      = some (Scan.openBrace :: (b ++ [Scan.closeBrace]), [';']) := by
    simpa using aggregate_append ⟨b, hb, rfl⟩ [';']
  have hconstant := reads_constant (b ++ [Scan.closeBrace, ';'])
  rw [hvalue] at hconstant
  have hend : Reads false (punct ";") [';'] (some ([.mark [';']], [])) := .mark_some rfl
  have hoption := reads_optionText (hconstant.seq_gap (g := []) (blanks_of_head rfl) hend)
  have hfile := PlainField.reads_file (blanks_of_head rfl) rfl hoption
  rw [parse, (read_eq_iff sound_file).2 hfile]
  rfl

/-- Behind an opening brace, the text is no value that ends in front of the given character. -/
def Lacks (d : Char) (x : List Char) : Prop :=
  ∀ t r, Scan.aggregate (Scan.openBrace :: x) = some (t, r) → exactly [d] (blanks r).2 = none

/-- An option is refused if its value does not end in front of a semicolon. -/
theorem reads_optionText_none {x : List Char} (h : Lacks ';' x) :
    Reads false file (optionText x) none := by
  have hconstant := reads_constant x
  have hvalue : Reads false (seq constant (punct ";")) (Scan.openBrace :: x) none := by
    cases hx : Scan.aggregate (Scan.openBrace :: x) with
    | none =>
      rw [hx] at hconstant
      exact .seq_first hconstant
    | some taken =>
      rw [hx] at hconstant
      exact .seq_second hconstant (.mark_none (h _ _ hx))
  exact reads_file_none (blanks_of_head rfl) (List.cons_ne_nil _ _) rfl (reads_optionText hvalue)

/-- The text of an enum up to the value of an option in it, which is in braces and begins the given
text. -/
def enumText (x : List Char) : List Char :=
  "enum".toList ++ ([' '] ++ 'E' :: Scan.openBrace :: 'V' :: '=' :: '0' :: '[' :: 'o' :: '='
    :: Scan.openBrace :: x)

/-- One phrase without the other one, which would have to stand directly behind it. -/
theorem Reads.seq_none {p q : Phrase} {s r : List Char} {trees : List Tree}
    (h₁ : Reads false p s (some (trees, r))) (hr : startsWith beginsBlank r = false)
    (h₂ : Reads false q r none) : Reads false (.seq p q) s none :=
  .seq_second h₁ (by rwa [blanks_of_head hr])

/-- Options of a field are not there if the value of the first one, which is in braces, ends neither
in front of a comma nor in front of a bracket. -/
theorem reads_fieldOptions_none {x : List Char} (hcomma : Lacks ',' x) (hbracket : Lacks ']' x) :
    Reads false fieldOptions ('[' :: 'o' :: '=' :: Scan.openBrace :: x) none := by
  have hblanks {c : Char} (hc : beginsBlank c = false) (y : List Char) :
      blanks ([] ++ c :: y) = ([], c :: y) := blanks_of_head hc
  have hequals : Reads false (punct "=") ('=' :: Scan.openBrace :: x)
      (some ([.mark ['=']], [] ++ Scan.openBrace :: x)) := .mark_some rfl
  have hname : Reads false optionName ('o' :: '=' :: Scan.openBrace :: x)
      (some ([.token .optionName ['o']], [] ++ '=' :: Scan.openBrace :: x)) := .token_some rfl
  have hoption := hname.seq_gap_map (hblanks rfl _)
    (hequals.seq_gap_map (hblanks rfl _) (reads_constant x))
  refine .node_none (.seq_none (.mark_some rfl) rfl ?_)
  cases hx : Scan.aggregate (Scan.openBrace :: x) with
  | none =>
    rw [hx] at hoption
    exact .seq_first (.node_none hoption)
  | some taken =>
    rw [hx] at hoption
    refine .seq_second (.node_some hoption)
      (.seq_second (.star_none (.seq_first (.mark_none (hcomma _ _ hx)))) ?_)
    rw [blanks_snd]
    exact .mark_none (hbracket _ _ hx)

/-- An enum is refused if the value of an option in it ends neither in front of a comma nor in front
of a bracket. -/
theorem reads_enumText_none {x : List Char} (hcomma : Lacks ',' x) (hbracket : Lacks ']' x) :
    Reads false file (enumText x) none := by
  have hvalue : Reads false enumValue
      ('V' :: '=' :: '0' :: '[' :: 'o' :: '=' :: Scan.openBrace :: x) none := by
    -- without its options the value would have to end in front of the bracket
    have hoptions := (Reads.opt_none (reads_fieldOptions_none hcomma hbracket)).seq_none rfl
      (q := punct ";") (.mark_none rfl)
    exact .node_none (.seq_none (.token_some rfl) rfl (.seq_none (.mark_some rfl) rfl
      (.seq_none (.token_some rfl) rfl hoptions)))
  have hbody : Reads false
      (seq (star (choice [optionStatement, reserved, enumValue, emptyStatement])) closeBrace)
      ('V' :: '=' :: '0' :: '[' :: 'o' :: '=' :: Scan.openBrace :: x) none := by
    have hother {p : Phrase} (hp : p.blocked _ = true) : Reads false p
      ('V' :: '=' :: '0' :: '[' :: 'o' :: '=' :: Scan.openBrace :: x) none :=
        reads_none_of_blocked (blanks_of_head rfl) hp
    exact .seq_none (.star_none (.alt_second (hother rfl) (.alt_second (hother rfl)
      (.alt_second hvalue (hother rfl))))) rfl (.mark_none rfl)
  have hword : Reads false (keyword .kwEnum "enum") (enumText x)
      (some ([.token .kwEnum "enum".toList], _)) := .token_some (word_eq_some.2 ⟨rfl, rfl, rfl⟩)
  have henum : Reads false enumDef (enumText x) none := by
    refine .node_none (hword.seq_gap_map (o := none) (blanks_gap PlainField.gap_blank rfl) ?_)
    exact .seq_none (.token_some rfl) rfl (.seq_none (.mark_some rfl) rfl hbody)
  have hother {p : Phrase} (hp : p.blocked (enumText x) = true) : Reads false p (enumText x) none :=
    reads_none_of_blocked (blanks_of_head rfl) hp
  refine reads_file_none (blanks_of_head rfl) (List.cons_ne_nil _ _) rfl ?_
  exact .alt_second (hother rfl) (.alt_second (hother rfl) (.alt_second (hother rfl)
    (.alt_second (hother rfl) (.alt_second henum (hother rfl)))))

theorem parse_enumText : parse file (enumText [Scan.closeBrace, ']', ';', Scan.closeBrace])
    = .ok (fileOf [enumOf (.token .aggregate [Scan.openBrace, Scan.closeBrace])]) := by
  decide +kernel

variable {b c : List Char}

/-- A text is put into the option of a file. -/
theorem commented_option (hb : BraceContent b) (c : List Char) :
    Commented c (String.ofList (optionText (b ++ [Scan.closeBrace, ';'])))
      (String.ofList (optionText (c ++ (b ++ [Scan.closeBrace, ';'])))) := by
  have htame : Tame (fileOf [optionOf 'o'
      (.token .aggregate (Scan.openBrace :: (b ++ [Scan.closeBrace])))]) := by
    rintro v hv
    obtain rfl : v = Scan.openBrace :: (b ++ [Scan.closeBrace]) := by
      simpa [valuesAll, values, fileOf, optionOf] using hv
    exact ⟨b, hb, rfl⟩
  have hedit : Within (Tree.Commented (Tame _) c) _ (fileOf [optionOf 'o'
      (.token .aggregate (Scan.openBrace :: (c ++ (b ++ [Scan.closeBrace]))))]) :=
    .inside .proto [] [] (.inside .optionStatement [] [_]
      (.here [_, _, _, _, _, _] [_] (Tree.Commented.value (.here hb) (.inl htame))))
  refine ⟨_, _, by rw [String.toList_ofList, parse_optionText hb], hedit, congrArg String.ofList ?_⟩
  delta optionText fileOf optionOf
  simp only [List.cons_append, textAll, text, List.append_assoc, List.nil_append, List.append_nil]

/-- A text is put into the option of an enum. -/
theorem commented_enum (c : List Char) :
    Commented c (String.ofList (enumText [Scan.closeBrace, ']', ';', Scan.closeBrace]))
      (String.ofList (enumText (c ++ [Scan.closeBrace, ']', ';', Scan.closeBrace]))) := by
  have htame : Tame (fileOf [enumOf (.token .aggregate [Scan.openBrace, Scan.closeBrace])]) := by
    rintro v hv
    obtain rfl : v = [Scan.openBrace, Scan.closeBrace] := by
      simpa [valuesAll, values, fileOf, enumOf] using hv
    exact ⟨[], .nil, rfl⟩
  have hedit : Within (Tree.Commented (Tame _) c) _ (fileOf [enumOf
      (.token .aggregate (Scan.openBrace :: (c ++ [Scan.closeBrace])))]) :=
    .inside .proto [] [] (.inside .enumDef [] [_] (.inside .enumValue [_, _, _, _] [_]
      (.inside .fieldOptions [_, _, _] [_] (.inside .fieldOption [_] [_]
        (.here [_, _] [] (Tree.Commented.value (.here .nil) (.inl htame)))))))
  refine ⟨_, _, by rw [String.toList_ofList, parse_enumText], hedit, congrArg String.ofList ?_⟩
  delta enumText fileOf enumOf
  simp only [List.cons_append, textAll, text, List.append_assoc, List.nil_append, List.append_nil]

/-- The first text stands for a schema, and the second one is no file. -/
def Spoilt (source source' : String) : Prop :=
  (∀ name, ∃ schema, Schema.parse name source = .ok schema)
    ∧ Reads false file source'.toList none

/-- The option of a file is refused with a text in its value. -/
theorem exists_refused_option (hb : BraceContent b)
    (h : Lacks ';' (c ++ (b ++ [Scan.closeBrace, ';']))) :
    ∃ source source', Commented c source source' ∧ Spoilt source source' := by
  refine ⟨_, _, commented_option hb c, fun name => ?_, by
    rw [String.toList_ofList]
    exact reads_optionText_none h⟩
  have hfile : FileDecl.parse name (String.ofList (optionText (b ++ [Scan.closeBrace, ';'])))
      = .ok (FileDecl.empty name) := by
    rw [FileDecl.parse, String.toList_ofList, parse_optionText hb]
    rfl
  exact ⟨_, bind_eq_ok.2 ⟨_, hfile, rfl⟩⟩

/-- The option of an enum is refused with a text in its value. -/
theorem exists_refused_enum (hcomma : Lacks ',' (c ++ [Scan.closeBrace, ']', ';', Scan.closeBrace]))
    (hbracket : Lacks ']' (c ++ [Scan.closeBrace, ']', ';', Scan.closeBrace])) :
    ∃ source source', Commented c source source' ∧ Spoilt source source' := by
  refine ⟨_, _, commented_enum c, fun name => ?_, by
    rw [String.toList_ofList]
    exact reads_enumText_none hcomma hbracket⟩
  have hfile : FileDecl.parse name
      (String.ofList (enumText [Scan.closeBrace, ']', ';', Scan.closeBrace]))
        = .ok { FileDecl.empty name with enums := [⟨"E", [⟨"V", 0⟩]⟩] } := by
    rw [FileDecl.parse, String.toList_ofList, parse_enumText]
    rfl
  exact ⟨_, bind_eq_ok.2 ⟨_, hfile, rfl⟩⟩

/-- Where braces are left open, one more is closed and the text ends. -/
theorem braceTail_open (d : Nat) : braceTail (d + 1) 0 [Scan.closeBrace, ';'] = none := rfl

/-- A comment that is not inert makes some text unreadable. -/
theorem exists_refused (hc : Gap c) (h : ¬ Inert c) :
    ∃ source source', Commented c source source' ∧ Spoilt source source' := by
  cases effect 0 c (hc.ne_append rfl) with
  | @leads e hleads =>
    cases e with
    | zero => exact absurd hleads h
    | succ d =>
      refine exists_refused_option .nil fun t r ht => ?_
      rw [List.nil_append, aggregate_openBrace, braceTail_leads hleads, braceTail_open] at ht
      cases ht
  | @closes x y _ hcloses =>
    -- the value ends inside the comment, and nothing can stand both behind it and inside brackets
    cases hsemicolon : exactly [';'] (blanks (y ++ [Scan.closeBrace, ';'])).2 with
    | none =>
      refine exists_refused_option .nil fun t r ht => ?_
      rw [List.nil_append, aggregate_openBrace, hcloses] at ht
      cases ht
      exact hsemicolon
    | some taken =>
      obtain ⟨z, hz⟩ := exists_semicolon hsemicolon [']', ';', Scan.closeBrace]
      have hlacks {d : Char} (hd : ';' ≠ d) :
          Lacks d (c ++ [Scan.closeBrace, ']', ';', Scan.closeBrace]) := by
        intro t r ht
        rw [aggregate_openBrace, hcloses] at ht
        cases ht
        rw [hz, exactly_eq_none hd]
      exact exists_refused_enum (hlacks (by decide)) (hlacks (by decide))
  | @reaches e x u quote hquote hu hreaches =>
    cases e with
    | zero =>
      -- the literal ends at the first quote of the value, and the value in front of the second one
      have hliteral : Literal [quote, Scan.closeBrace, quote] := by
        refine ⟨quote, _, hquote, rfl, .char (by decide) ?_ rfl .close⟩
        rcases hquote with rfl | rfl <;> decide
      have hb : BraceContent [quote, Scan.closeBrace, quote] := .literal hliteral .nil
      refine exists_refused_option hb fun t r ht => ?_
      have hend := hu.braceTail_eq hquote 0 ([Scan.closeBrace, quote] ++ [Scan.closeBrace, ';'])
      rw [aggregate_openBrace, hreaches, List.cons_append, hend] at ht
      cases ht
      rcases hquote with rfl | rfl <;> rfl
    | succ d =>
      have hliteral : Literal [quote, quote] := ⟨quote, _, hquote, rfl, .close⟩
      have hb : BraceContent [quote, quote] := .literal hliteral .nil
      refine exists_refused_option hb fun t r ht => ?_
      have hend := hu.braceTail_eq hquote (d + 1) [quote, Scan.closeBrace, ';']
      have hnone : braceTail (d + 1) 0 [quote, Scan.closeBrace, ';'] = none := by
        rcases hquote with rfl | rfl <;> rfl
      rw [aggregate_openBrace, hreaches, List.cons_append, List.singleton_append, hend, hnone] at ht
      cases ht

end Proto

/-- Inside the value of an option, a comment counts by its characters.  If its braces match, those in
its string literals aside, then it can be put between any two tokens of a value in braces, whatever
has the option, and the schema stays the same.  For every other comment there is a text that stands
for a schema and is refused with the comment in it. -/
theorem Schema.parse_commented {c : List Char} (hc : Gap c) :
    (Inert c → ∀ name source source', Proto.Commented c source source' →
      Schema.parse name source' = Schema.parse name source)
    ∧ (¬ Inert c → ∃ source source', Proto.Commented c source source'
      ∧ ∀ name, (∃ schema, Schema.parse name source = .ok schema)
        ∧ ∃ e, Schema.parse name source' = .error (.badSyntax e)) := by
  refine ⟨fun hinert name _ _ h => parse_of_inert hinert name h, fun hinert => ?_⟩
  obtain ⟨source, source', hcommented, haccepted, hrefused⟩ := Proto.exists_refused hc hinert
  refine ⟨source, source', hcommented, fun name => ⟨haccepted name, ?_⟩⟩
  have hnone : Proto.read Proto.file source'.toList = none :=
    (Proto.read_eq_iff Proto.sound_file).2 hrefused
  refine ⟨.ofFurthest source'.toList (Proto.furthest Proto.file source'.toList), ?_⟩
  simp only [Schema.parse, FileDecl.parse, Proto.parse, hnone]
  rfl

/-- A comment with braces that match, one of them in a literal, is put into a value, and a comment
with one brace. -/
theorem Schema.parse_commented_braces :
    Gap "/*\x7b'\x7b'\x7d*/".toList ∧ Inert "/*\x7b'\x7b'\x7d*/".toList ∧
      Schema.parse "o.proto" "option o = \x7b/*\x7b'\x7b'\x7d*/a:1\x7d;"
        = Schema.parse "o.proto" "option o = \x7ba:1\x7d;" ∧
      Gap "/*\x7d*/".toList ∧ ¬ Inert "/*\x7d*/".toList ∧
      ∃ source source', Proto.Commented "/*\x7d*/".toList source source'
        ∧ ∀ name, (∃ schema, Schema.parse name source = .ok schema)
          ∧ ∃ e, Schema.parse name source' = .error (.badSyntax e) := by
  have hgap : Gap "/*\x7b'\x7b'\x7d*/".toList :=
    .one (@Spacing.block "\x7b'\x7b'\x7d".toList (by decide))
  have hgap' : Gap "/*\x7d*/".toList := .one (@Spacing.block "\x7d".toList (by decide))
  have hliteral : Literal "'\x7b'".toList :=
    ⟨singleQuote, _, .inr rfl, rfl, .char (by decide) (by decide) rfl .close⟩
  have hinert : Inert "/*\x7b'\x7b'\x7d*/".toList :=
    .char (by decide) (.char (by decide) (.opens (.literal hliteral
      (.closes (.char (by decide) (.char (by decide) (.nil 0)))))))
  have hinert' : ¬ Inert "/*\x7d*/".toList := by
    intro h
    cases braceTail_leads h [closeBrace]
  have hvalue : BraceContent "a:1".toList := .chars (t := "a:1".toList) rfl .nil
  have hcommented := Proto.commented_option hvalue "/*\x7b'\x7b'\x7d*/".toList
  exact ⟨hgap, hinert, (parse_commented hgap).1 hinert "o.proto" _ _ hcommented, hgap', hinert',
    (parse_commented hgap').2 hinert'⟩

end MettaSchema
