import Mathlib.Data.String.Basic
import MettaSchema.Import.Search
import MettaSchema.Proofs.File.Following
import MettaSchema.Proofs.Grammar.Leaves
import MettaSchema.Proofs.Schema.Stages

/-!
# Imports as they are written

An import changes nothing of what a file declares besides, and it takes at least one character
to write.  So the files of a tree name fewer imports than they have bytes.

* `FileStatement.ofText?` — the statements of a text.
* `FileDecl.ofStatements_others` — the imports of a file are those among its statements, and the
  rest of the file is what the other statements declare.
* `FileTree.imports` — the imports that are written in the files of a tree.
* `FileTree.length_imports_le` — there are no more of them than bytes.
-/

namespace MettaSchema

/-! ## Statements that import -/

namespace FileStatement

/-- The path that a statement imports, if it does. -/
def importPath? : FileStatement → Option String
  | imports literal => some (Literal.unquote literal)
  | _ => none

/-- The paths that some statements import. -/
def importPaths (statements : List FileStatement) : List String :=
  statements.filterMap importPath?

/-- The statements that do not import. -/
def others (statements : List FileStatement) : List FileStatement :=
  statements.filter (·.importPath? == none)

/-- The statements of a text. -/
def ofText? (source : String) : Option (List FileStatement) :=
  match Proto.parse Proto.file source.toList with
  | .error _ => none
  | .ok trees => ofTrees? trees

end FileStatement

namespace FileDecl

open FileStatement

/-- The declarations of a file with other imports. -/
def withImports (imports : List String) (file : FileDecl) : FileDecl :=
  { file with imports }

theorem parse_eq_ok {name source : String} {file : FileDecl} :
    parse name source = .ok file ↔
      ∃ statements, ofText? source = some statements ∧ ofStatements name statements = .ok file := by
  unfold parse ofText?
  cases Proto.parse Proto.file source.toList with
  | error e => simp
  | ok trees =>
    dsimp only
    cases ofTrees? trees <;> simp

/-- A file that is read goes by the name that it is given. -/
theorem name_parse {name source : String} {file : FileDecl} (h : parse name source = .ok file) :
    file.name = name := by
  obtain ⟨statements, -, hstatements⟩ := parse_eq_ok.1 h
  refine foldlM_invariant (P := fun file => file.name = name) ?_ rfl hstatements
  intro file s file' _ hfile hadd
  cases added_of_add hadd <;> exact hfile

/-- A statement adds the same to a file whatever the file imports. -/
theorem add_withImports (imports : List String) (file : FileDecl) (s : FileStatement) :
    (file.withImports imports).add s
      = (file.add s).map (withImports (imports ++ s.importPath?.toList)) := by
  cases s with
  | dialect literal =>
    simp only [add]
    split <;> simp [Except.map, withImports, importPath?]
  | edition literal => rfl
  | imports literal => rfl
  | package name => simp [add, Except.map, withImports, importPath?]
  | message name body =>
    simp only [add]
    cases Statement.declareAll body <;> simp [bind, Except.bind, pure, Except.pure, Except.map,
      withImports, importPath?]
  | enum name values =>
    simp only [add]
    cases EnumDecl.ofStatement name values <;> simp [bind, Except.bind, pure, Except.pure,
      Except.map, withImports, importPath?]
  | service service => simp [add, Except.map, withImports, importPath?]

theorem foldlM_withImports (statements : List FileStatement) :
    ∀ (imports : List String) (file : FileDecl),
      statements.foldlM add (file.withImports imports)
        = (statements.foldlM add file).map (withImports (imports ++ importPaths statements)) := by
  induction statements with
  | nil => simp [importPaths, pure, Except.pure, Except.map]
  | cons s rest ih =>
    intro imports file
    rw [List.foldlM_cons, List.foldlM_cons, add_withImports]
    cases file.add s with
    | error e => rfl
    | ok file' =>
      have hpaths : importPaths (s :: rest) = s.importPath?.toList ++ importPaths rest := by
        cases h : s.importPath? <;> simp [importPaths, h]
      rw [hpaths, ← List.append_assoc]
      exact ih _ file'

/-- A statement that does not import leaves the imports as they are. -/
theorem imports_add {file file' : FileDecl} {s : FileStatement} (hs : s.importPath? = none)
    (h : file.add s = .ok file') : file'.imports = file.imports := by
  have hadd := add_withImports file.imports file s
  rw [show file.withImports file.imports = file from rfl, h, hs] at hadd
  have himports := congrArg FileDecl.imports (Except.ok.inj hadd)
  simpa [withImports] using himports

theorem foldlM_others (statements : List FileStatement) :
    ∀ file : FileDecl, statements.foldlM add file
      = ((others statements).foldlM add file).map
          (withImports (file.imports ++ importPaths statements)) := by
  induction statements with
  | nil => simp [others, importPaths, withImports, pure, Except.pure, Except.map]
  | cons s rest ih =>
    intro file
    cases hs : s.importPath? with
    | none =>
      have hothers : others (s :: rest) = s :: others rest := by simp [others, hs]
      have hpaths : importPaths (s :: rest) = importPaths rest := by simp [importPaths, hs]
      rw [hothers, hpaths, List.foldlM_cons, List.foldlM_cons]
      cases hadd : file.add s with
      | error e => rfl
      | ok file' =>
        rw [← imports_add hs hadd]
        exact ih file'
    | some path =>
      have hothers : others (s :: rest) = others rest := by simp [others, hs]
      have hpaths : importPaths (s :: rest) = path :: importPaths rest := by
        simp [importPaths, hs]
      have hadd : file.add s = .ok (file.withImports (file.imports ++ [path])) := by
        cases s <;> cases hs
        rfl
      rw [hothers, hpaths, List.foldlM_cons, hadd]
      refine (ih _).trans ?_
      rw [foldlM_withImports]
      cases (others rest).foldlM add file <;> simp [Except.map, withImports]

/-- The imports of a file are those among its statements, and the rest of the file is what the
other statements declare. -/
theorem ofStatements_others (name : String) (statements : List FileStatement) :
    ofStatements name statements
      = (ofStatements name (others statements)).map (withImports (importPaths statements)) :=
  foldlM_others statements (empty name)

/-- Other imports change nothing but the imports. -/
theorem ofStatements_withImports {name : String} {statements statements' : List FileStatement}
    {file : FileDecl} (hothers : others statements' = others statements)
    (h : ofStatements name statements = .ok file) :
    ofStatements name statements' = .ok (file.withImports (importPaths statements')) := by
  rw [ofStatements_others] at h ⊢
  rw [hothers]
  cases hfile : ofStatements name (others statements) with
  | error e =>
    rw [hfile] at h
    cases h
  | ok file' =>
    rw [hfile] at h
    cases h
    rfl

theorem imports_ofStatements {name : String} {statements : List FileStatement} {file : FileDecl}
    (h : ofStatements name statements = .ok file) : file.imports = importPaths statements := by
  have hsame := ofStatements_withImports rfl h
  rw [h] at hsame
  exact congrArg FileDecl.imports (Except.ok.inj hsame)

end FileDecl

/-! ## How many imports there are -/

theorem Tree.length_text_le {t : Tree} {ts : List Tree} (h : t ∈ ts) :
    t.text.length ≤ (textAll ts).length := by
  induction ts with
  | nil => cases h
  | cons t' ts ih =>
    rw [textAll, List.length_append]
    rcases List.mem_cons.1 h with rfl | h
    · omega
    · have hle := ih h
      omega

namespace FileStatement

theorem importPaths_append (ss ts : List FileStatement) :
    importPaths (ss ++ ts) = importPaths ss ++ importPaths ts :=
  List.filterMap_append

/-- What imports is an import line with its path. -/
theorem importLine_of_ofTree? {t : Tree} {statements : List FileStatement}
    (h : ofTree? t = some statements) (hpaths : importPaths statements ≠ []) :
    ∃ parts path, t = .node .importLine parts ∧ Tree.token? .strLit parts = some path
      ∧ statements = [imports path] := by
  cases t with
  | node rule parts =>
    cases ofTree?_eq_some.1 h with
    | imports hpath => exact ⟨parts, _, rfl, hpath, rfl⟩
    | _ => exact absurd rfl hpaths
  | _ =>
    cases h
    exact absurd rfl hpaths

/-- To write an import takes at least one character. -/
theorem length_importPaths_ofTree? {t : Tree} {statements : List FileStatement}
    (h : ofTree? t = some statements) (hspelt : ∀ leaf ∈ t.leaves, leaf.1.Spelt leaf.2) :
    (importPaths statements).length ≤ t.text.length := by
  by_cases hpaths : importPaths statements = []
  · rw [hpaths]
    exact Nat.zero_le _
  · obtain ⟨parts, path, rfl, hpath, rfl⟩ := importLine_of_ofTree? h hpaths
    have hleaf := Tree.mem_leavesAll_of_token? hpath
    have hne : path.toList ≠ [] := (hspelt _ hleaf).ne_nil nofun
    have htext := Tree.textAll_ne_nil hne parts hleaf
    exact List.length_pos_iff.2 htext

theorem length_importPaths_mapM {ts : List Tree} :
    ∀ {statements : List (List FileStatement)}, ts.mapM ofTree? = some statements →
      (∀ leaf ∈ Tree.leavesAll ts, leaf.1.Spelt leaf.2) →
        (importPaths statements.flatten).length ≤ (Tree.textAll ts).length := by
  induction ts with
  | nil =>
    intro statements h _
    cases h
    exact Nat.zero_le _
  | cons t ts ih =>
    intro statements h hspelt
    obtain ⟨first, rest, hfirst, hrest, rfl⟩ := mapM_cons_eq_some.1 h
    obtain ⟨hleaves, hleavesAll⟩ := List.forall_mem_append.1 hspelt
    have hle := length_importPaths_ofTree? hfirst hleaves
    have hles := ih hrest hleavesAll
    rw [List.flatten_cons, importPaths_append, Tree.textAll, List.length_append,
      List.length_append]
    omega

/-- The statements of a text are made from the parts of a file.  Their tokens are spelt as tokens
of their rules are, and they take no more than the text. -/
theorem exists_parts_of_ofText? {source : String} {statements : List FileStatement}
    (h : ofText? source = some statements) :
    ∃ parts lists, parts.mapM ofTree? = some lists ∧ statements = lists.flatten
      ∧ (∀ leaf ∈ Tree.leavesAll parts, leaf.1.Spelt leaf.2)
      ∧ (Tree.textAll parts).length ≤ source.toList.length := by
  unfold ofText? at h
  split at h
  · cases h
  · rename_i trees hparse
    obtain ⟨hlength, hspelt⟩ := Proto.parse_file_spelt hparse
    simp only [ofTrees?, Option.bind_eq_bind, Option.bind_eq_some_iff, Option.pure_def,
      Option.some.injEq] at h
    obtain ⟨parts, hparts, lists, hlists, rfl⟩ := h
    have hmem := Tree.mem_of_parts? hparts
    have htext : (Tree.textAll parts).length ≤ (Tree.textAll trees).length :=
      Tree.length_text_le hmem
    refine ⟨parts, lists, hlists, rfl, fun leaf hleaf => hspelt leaf ?_, by omega⟩
    exact Tree.mem_leavesAll.2 ⟨_, hmem, hleaf⟩

/-- A text has no more imports than characters. -/
theorem length_importPaths_ofText? {source : String}
    {statements : List FileStatement} (h : ofText? source = some statements) :
    (importPaths statements).length ≤ source.toList.length := by
  obtain ⟨parts, lists, hlists, rfl, hspelt, hlength⟩ := exists_parts_of_ofText? h
  exact (length_importPaths_mapM hlists hspelt).trans hlength

end FileStatement

/-! ## Imports in a tree -/

/-- A text has no more characters than bytes. -/
theorem length_le_size_toUTF8 (text : String) : text.toList.length ≤ text.toUTF8.size := by
  have hchars : ∀ cs : List Char, cs.length ≤ String.utf8Len cs := by
    intro cs
    induction cs with
    | nil => simp
    | cons c cs ih =>
      have hpos := c.utf8Size_pos
      rw [List.length_cons, String.utf8Len_cons]
      omega
  have hsize : String.utf8Len text.toList = text.toUTF8.size := by
    rw [← String.utf8ByteSize_ofList, String.ofList_toList]
    rfl
  exact hsize ▸ hchars text.toList

/-- The imports that are written at a place. -/
def Node.imports : Node → List String
  | file content =>
    match (String.fromUTF8? content).bind FileStatement.ofText? with
    | none => []
    | some statements => FileStatement.importPaths statements
  | directory => []

theorem Node.length_imports_le (node : Node) : node.imports.length ≤ node.size := by
  unfold imports
  split
  · split
    · exact Nat.zero_le _
    · rename_i content statements h
      obtain ⟨text, htext, hstatements⟩ := Option.bind_eq_some_iff.1 h
      have hpaths := FileStatement.length_importPaths_ofText? hstatements
      have hsize := length_le_size_toUTF8 text
      rw [toUTF8_of_fromUTF8? htext] at hsize
      exact hpaths.trans hsize
  · exact Nat.zero_le _

namespace FileTree

/-- The imports that are written in the files of a tree. -/
def imports (tree : FileTree) : List String :=
  tree.entries.flatMap (·.2.imports)

/-- A tree has no more imports than bytes. -/
theorem length_imports_le (tree : FileTree) : tree.imports.length ≤ tree.size := by
  obtain ⟨_, entries⟩ := tree
  induction entries with
  | nil => exact Nat.zero_le _
  | cons entry entries ih =>
    have hentry := entry.2.length_imports_le
    simp only [imports, size, List.flatMap_cons, List.length_append, List.foldr_cons] at ih ⊢
    omega

theorem length_text_le_size {tree : FileTree} {way : Way} {text : String}
    (h : (way, Node.file text.toUTF8) ∈ tree.entries) : text.toList.length ≤ tree.size := by
  have hbytes := length_le_size_toUTF8 text
  obtain ⟨_, entries⟩ := tree
  induction entries with
  | nil => cases h
  | cons entry entries ih =>
    simp only [size, List.foldr_cons] at ih ⊢
    rcases List.mem_cons.1 h with rfl | h
    · exact hbytes.trans (Nat.le_add_right ..)
    · exact (ih h).trans (Nat.le_add_left ..)

end FileTree

/-- Whatever a file imports is written in some file of the tree. -/
theorem FileDecl.mem_imports_of_ofText {tree : FileTree} {path path' target : String}
    {file : FileDecl} (h : ofText path' (tree.readText path) = .ok file)
    (htarget : target ∈ file.imports) : target ∈ tree.imports := by
  unfold ofText at h
  split at h
  · cases h
  · rename_i text htext
    obtain ⟨statements, hstatements, hfile⟩ := parse_eq_ok.1 h
    rw [imports_ofStatements hfile] at htarget
    obtain ⟨way, -, hnode⟩ := FileTree.readText_eq_ok.1 htext
    refine List.mem_flatMap.2 ⟨_, FileTree.mem_entries_of_node? hnode, ?_⟩
    rw [Node.imports, fromUTF8?_toUTF8, Option.bind_some, hstatements]
    exact htarget

end MettaSchema
