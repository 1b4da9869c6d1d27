import MettaSchema.Proofs.Schema.Ordinary

/-!
# String literals and their texts

A text is written as a string literal with a backslash in front of each character that would end the
literal or the line, and of each backslash.  The grammar and the decoder agree on what such a
backslash is.

* `Literal.Unescaped` — the text that stands between two quotes, said without the decoder.
* `Literal.exists_body` — a literal is decoded to the text between its quotes.
* `Literal.read_enclose` — every text can be written in quotes of either kind and is read back,
  for instance as the path of an import.
-/

namespace MettaSchema

open Scan

namespace Literal

/-! ## Decoding -/

/-- The second text is the first without the backslashes that escape.  Each of them escapes the
character behind it. -/
inductive Unescaped : List Char → List Char → Prop
  /-- Nothing. -/
  | nil : Unescaped [] []
  /-- A backslash and the character that it escapes. -/
  | escape (d : Char) {s u : List Char} (h : Unescaped s u) : Unescaped ('\\' :: d :: s) (d :: u)
  /-- A character that is not escaped. -/
  | char {c : Char} {s u : List Char} (hc : c ≠ '\\') (h : Unescaped s u) :
      Unescaped (c :: s) (c :: u)

/-- What follows the opening quote of a literal is decoded up to the closing quote. -/
theorem exists_of_quoted {quote : Char} {s : List Char} (h : Quoted quote s) :
    ∃ body, s = body ++ [quote] ∧ Unescaped body (unescape body) := by
  induction h with
  | close => exact ⟨[], rfl, .nil⟩
  | escape d _ ih =>
    obtain ⟨body, rfl, hbody⟩ := ih
    refine ⟨'\\' :: d :: body, rfl, ?_⟩
    rw [unescape, if_pos rfl]
    exact .escape d hbody
  | @char c _ hb _ _ _ ih =>
    obtain ⟨body, rfl, hbody⟩ := ih
    refine ⟨c :: body, rfl, ?_⟩
    rw [unescape_cons hb]
    exact .char hb hbody

/-- A literal is decoded to the text between its quotes. -/
theorem exists_body {t : List Char} (h : Scan.Literal t) :
    ∃ quote body, t = quote :: (body ++ [quote])
      ∧ Unescaped body (unquote (String.ofList t)).toList := by
  obtain ⟨quote, s, -, rfl, hs⟩ := h
  obtain ⟨body, rfl, hbody⟩ := exists_of_quoted hs
  refine ⟨quote, body, rfl, ?_⟩
  simpa [unquote] using hbody

/-! ## Reading -/

theorem read_strLit_eq_some_iff {s t r : List Char} :
    Proto.read (Proto.phrase .strLit) s = some ([.token .strLit t], r)
      ↔ Scan.Literal t ∧ t ++ r = s := by
  rw [← strLit_eq_some_iff]
  simp [Proto.phrase, Proto.strLit, Proto.read_token]

/-- The tree of an import with the given literal as its path, and with blanks around it. -/
def importTree (gap t gap' : List Char) : Tree :=
  .node .importLine (.token .kwImport "import".toList :: (Tree.ofBlanks gap
    ++ .token .strLit t :: (Tree.ofBlanks gap' ++ [.mark [';']])))

theorem ofTree?_importTree (gap t gap' : List Char) :
    FileStatement.ofTree? (importTree gap t gap') = some [.imports (String.ofList t)] := by
  rw [importTree, ← FileStatement.ofTree?_skeletonAll]
  simp [Tree.skeletonAll, Tree.skeleton, FileStatement.ofTree?, Tree.token?, Tree.tokens]

/-- An import with a string literal as its path. -/
theorem reads_importLine {t : List Char} (ht : Scan.Literal t) {gap gap' : List Char}
    (hgap : gap = [] ∨ Gap gap) (hgap' : gap' = [] ∨ Gap gap') (r : List Char) :
    Proto.Reads false Proto.importLine ("import".toList ++ (gap ++ (t ++ (gap' ++ ';' :: r))))
      (some ([importTree gap t gap'], r)) := by
  have hstring : Proto.Reads false Proto.strLit (t ++ (gap' ++ ';' :: r))
      (some ([.token .strLit t], gap' ++ ';' :: r)) := .token_some (strLit_append ht _)
  have hend : Proto.Reads false (Phrase.punct ";") (';' :: r) (some ([.mark [';']], r)) :=
    .mark_some rfl
  have hpath := hstring.seq_gap (blanks_gap_or_nil hgap' rfl) hend
  obtain ⟨quote, u, hquote, rfl, -⟩ := ht
  have hfirst : blanks (quote :: u ++ (gap' ++ ';' :: r)) = ([], _) :=
    blanks_of_head (beginsBlank_of_quote hquote)
  -- a quote begins neither of the words that may qualify an import, and no name goes on with it
  have hmodifier : Proto.Reads false Proto.importModifier (quote :: u ++ (gap' ++ ';' :: r)) none :=
    Phrase.reads_none_of_blocked hfirst (by rcases hquote with rfl | rfl <;> rfl)
  have hhalts : startsWith isNameChar (gap ++ (quote :: u ++ (gap' ++ ';' :: r))) = false := by
    rcases hgap with rfl | hgap
    · rcases hquote with rfl | rfl <;> rfl
    · exact Proto.startsWith_gap inner_isNameChar hgap _
  have hword : Proto.Reads false (Proto.keyword .kwImport "import")
      ("import".toList ++ (gap ++ (quote :: u ++ (gap' ++ ';' :: r))))
      (some ([.token .kwImport "import".toList], _)) :=
    .token_some (word_eq_some.2 ⟨rfl, rfl, hhalts⟩)
  have hrest := (Proto.Reads.opt_none hmodifier).seq_gap (g := []) hfirst hpath
  exact .node_some (hword.seq_gap (blanks_gap_or_nil hgap (beginsBlank_of_quote hquote)) hrest)

/-- What a file with one import and nothing else declares. -/
theorem parse_import {t : List Char} (ht : Scan.Literal t) {gap gap' : List Char}
    (hgap : gap = [] ∨ Gap gap) (hgap' : gap' = [] ∨ Gap gap') (file : String) :
    FileDecl.parse file (String.ofList ("import".toList ++ (gap ++ (t ++ (gap' ++ [';'])))))
      = .ok { FileDecl.empty file with imports := [unquote (String.ofList t)] } := by
  have hfirst : blanks ("import".toList ++ (gap ++ (t ++ (gap' ++ [';'])))) = ([], _) :=
    blanks_of_head rfl
  have hfile := PlainField.reads_file hfirst rfl (.alt_first (reads_importLine ht hgap hgap' []))
  have hparse := (Proto.read_eq_iff Proto.sound_file).2 hfile
  have htrees : FileStatement.ofTrees?
      [.node .proto [importTree gap t gap', .token .endOfInput []]]
        = some [.imports (String.ofList t)] := by
    have hend : FileStatement.ofTree? (.token .endOfInput []) = some [] := rfl
    simp [FileStatement.ofTrees?, Tree.parts?, ofTree?_importTree, hend]
  simp only [FileDecl.parse, String.toList_ofList, Proto.parse, hparse, htrees,
    FileDecl.ofStatements, List.foldlM, FileDecl.add]
  rfl

/-- Every text can be written in quotes of either kind, with a backslash in front of each of these
quotes, each backslash and each character that ends a line.  Whatever follows, this is read as a
literal up to its closing quote, which stands for the text.  Behind `import` it is the path of an
import, also where nothing else is in the file.  Conversely all that is read as a literal stands for
what is between its quotes, without the backslashes that escape and with all other characters. -/
theorem read_enclose {quote : Char} (hquote : quote = doubleQuote ∨ quote = singleQuote)
    (text : String) :
    (∀ r, Proto.read (Proto.phrase .strLit) ((enclose quote text).toList ++ r)
        = some ([.token .strLit (enclose quote text).toList], r))
    ∧ unquote (enclose quote text) = text
    ∧ (∀ gap gap', (gap = [] ∨ Gap gap) → (gap' = [] ∨ Gap gap') →
        (∀ r, ∃ tree, Proto.read Proto.importLine ("import".toList
              ++ (gap ++ ((enclose quote text).toList ++ (gap' ++ ';' :: r)))) = some ([tree], r)
            ∧ FileStatement.ofTree? tree = some [.imports (enclose quote text)])
        ∧ ∀ name, FileDecl.parse name (String.ofList ("import".toList
              ++ (gap ++ ((enclose quote text).toList ++ (gap' ++ [';'])))))
            = .ok { FileDecl.empty name with imports := [text] })
    ∧ (∀ file : FileDecl, file.add (.imports (enclose quote text))
        = .ok { file with imports := file.imports ++ [text] })
    ∧ ∀ s t r, Proto.read (Proto.phrase .strLit) s = some ([.token .strLit t], r) →
        t ++ r = s ∧ ∃ quote' body, t = quote' :: (body ++ [quote'])
          ∧ Unescaped body (unquote (String.ofList t)).toList := by
  have hliteral := literal_enclose hquote text
  have hunquote := unquote_enclose quote text
  refine ⟨fun r => read_strLit_eq_some_iff.2 ⟨hliteral, rfl⟩, hunquote, ?_, fun file => ?_, ?_⟩
  · intro gap gap' hgap hgap'
    refine ⟨fun r => ⟨importTree gap (enclose quote text).toList gap', ?_, ?_⟩, fun name => ?_⟩
    · have hsound : Proto.importLine.Sound := Proto.sound_topLevel.1.1
      exact (Proto.read_eq_iff hsound).2 (reads_importLine hliteral hgap hgap' r)
    · rw [ofTree?_importTree, String.ofList_toList]
    · rw [parse_import hliteral hgap hgap', String.ofList_toList, hunquote]
  · rw [FileDecl.add, hunquote]
  · intro s t r h
    obtain ⟨ht, happ⟩ := read_strLit_eq_some_iff.1 h
    exact ⟨happ, exists_body ht⟩

/-- A text of both quotes, a backslash and two ends of lines, in single quotes. -/
theorem read_enclose_quotes :
    enclose singleQuote "a'\"\\\r\n" = "'a\\'\"\\\\\\\r\\\n'"
    ∧ (∀ r, Proto.read (Proto.phrase .strLit) ((enclose singleQuote "a'\"\\\r\n").toList ++ r)
        = some ([.token .strLit (enclose singleQuote "a'\"\\\r\n").toList], r))
    ∧ FileDecl.parse "f" (String.ofList ("import".toList
          ++ ([] ++ ((enclose singleQuote "a'\"\\\r\n").toList ++ ([] ++ [';'])))))
        = .ok { FileDecl.empty "f" with imports := ["a'\"\\\r\n"] } := by
  obtain ⟨hread, -, himport, -⟩ := read_enclose (.inr rfl) "a'\"\\\r\n"
  exact ⟨by decide, hread, (himport [] [] (.inl rfl) (.inl rfl)).2 "f"⟩

end Literal

end MettaSchema
