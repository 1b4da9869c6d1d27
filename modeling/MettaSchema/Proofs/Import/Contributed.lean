import Mathlib.Data.List.Forall2
import MettaSchema.Proofs.Import.Corresponding
import MettaSchema.Proofs.Import.Turns
import MettaSchema.Proofs.Schema.Lookup

/-!
# What imported files contribute

Of an imported file only the full names of its types count, and what it imports itself.  Whatever
else it declares, and even if it could not be used on its own, the schema of the file that imports
it stays the same.

* `FileDecl.Redeclares` — two files that declare the same types and have the same imports.
* `FileTree.Redeclared` — trees whose files differ only in this way.
* `FileDecl.Agrees` — two files that contribute the same; `SymbolTable.find?_ofFiles_congr` —
  tables of such files find the same.
* `Search.fetch_redeclared`, `Search.Runs.redeclared` — files that agree are looked up one by one.
* `Search.load_redeclared` — the schema of a file depends on nothing else of its imports.
-/

namespace MettaSchema

/-! ## Files that declare the same types -/

/-- Two files have the same imports and declare the same types, none of them both as a message and
as an enum. -/
structure FileDecl.Redeclares (file file' : FileDecl) : Prop where
  /-- They have the same imports. -/
  imports : file'.imports = file.imports
  /-- They declare the same full names with the same kinds. -/
  symbols : ∀ symbol, symbol ∈ file'.symbols ↔ symbol ∈ file.symbols
  /-- No full name has two kinds. -/
  kinds : ∀ fullName kind kind', (fullName, kind) ∈ file.symbols →
    (fullName, kind') ∈ file.symbols → kind' = kind

/-- Two files contribute the same to the files that import them. -/
structure FileDecl.Agrees (file file' : FileDecl) : Prop where
  /-- They have the same imports. -/
  imports : file'.imports = file.imports
  /-- The same is found in them. -/
  find : (SymbolTable.ofFiles [file']).find? = (SymbolTable.ofFiles [file]).find?

theorem FileDecl.Agrees.refl (file : FileDecl) : file.Agrees file :=
  ⟨rfl, rfl⟩

theorem FileDecl.Redeclares.agrees {file file' : FileDecl} (h : file.Redeclares file') :
    file.Agrees file' := by
  have hentries : ∀ (f : FileDecl) (symbol : String × SymbolKind),
      symbol ∈ (SymbolTable.ofFiles [f]).entries ↔ symbol ∈ f.symbols := by
    simp [SymbolTable.mem_ofFiles]
  refine ⟨h.imports, SymbolTable.lookup_congr ?_ ?_⟩
  · intro symbol
    rw [hentries, hentries, h.symbols]
  · simpa only [hentries] using h.kinds

/-- Tables of files that contribute the same one by one find the same. -/
theorem SymbolTable.find?_ofFiles_congr {files files' : List FileDecl}
    (h : List.Forall₂ FileDecl.Agrees files files') :
    (ofFiles files').find? = (ofFiles files).find? := by
  induction h with
  | nil => rfl
  | @cons file file' files files' hfile _ ih =>
    funext fullName
    rw [find?_ofFiles_cons file' files', find?_ofFiles_cons file files, ih, hfile.find]

/-! ## Other names of files -/

/-- The same file under another name. -/
def FileDecl.named (name : String) (file : FileDecl) : FileDecl :=
  { file with name }

theorem FileDecl.add_named (name : String) (file : FileDecl) (s : FileStatement) :
    (file.named name).add s = (file.add s).map (named name) := by
  cases s with
  | dialect literal =>
    simp only [add]
    split <;> rfl
  | message messageName body =>
    simp only [add]
    cases Statement.declareAll body <;> rfl
  | enum enumName values =>
    simp only [add]
    cases EnumDecl.ofStatement enumName values <;> rfl
  | _ => rfl

/-- The name of a file has no influence on what it declares. -/
theorem FileDecl.parse_named {name source : String} {file : FileDecl}
    (h : parse name source = .ok file) (name' : String) :
    parse name' source = .ok (file.named name') := by
  have hfold : ∀ (statements : List FileStatement) (start : FileDecl),
      statements.foldlM add (start.named name')
        = (statements.foldlM add start).map (named name') := by
    intro statements
    induction statements with
    | nil => exact fun _ => rfl
    | cons s rest ih =>
      intro start
      rw [List.foldlM_cons, List.foldlM_cons, add_named]
      cases start.add s with
      | error e => rfl
      | ok next => exact ih next
  obtain ⟨statements, hstatements, hfile⟩ := parse_eq_ok.1 h
  refine parse_eq_ok.2 ⟨statements, hstatements, ?_⟩
  have hnamed := hfold statements (empty name)
  rw [show statements.foldlM add (empty name) = .ok file from hfile] at hnamed
  exact hnamed

theorem FileDecl.Redeclares.named {file file' : FileDecl} (h : file.Redeclares file')
    (name : String) : (file.named name).Redeclares (file'.named name) :=
  ⟨h.imports, h.symbols, h.kinds⟩

/-! ## Trees -/

/-- The same stands at a place, or two files that declare the same types and have the same
imports. -/
inductive Node.Redeclared : Node → Node → Prop
  /-- The same. -/
  | same (node : Node) : Redeclared node node
  /-- Two files, both of which can be read. -/
  | file {name text text' : String} {file file' : FileDecl}
      (h : FileDecl.parse name text = .ok file) (h' : FileDecl.parse name text' = .ok file')
      (hredeclares : file.Redeclares file') :
      Redeclared (.file text.toUTF8) (.file text'.toUTF8)

/-- The trees have the same directories and files, and files differ only in what else they declare
besides their types. -/
def FileTree.Redeclared (tree tree' : FileTree) : Prop :=
  tree.Corresponds Node.Redeclared tree'

namespace FileTree.Redeclared

variable {tree tree' : FileTree}

theorem sameSort (h : tree.Redeclared tree') : tree.Corresponds Node.SameSort tree' := by
  refine Corresponds.mono h fun node node' hnode => ?_
  cases hnode with
  | same => cases node <;> constructor
  | file => constructor

/-- What a path leads to is the same text, or two texts that declare the same types. -/
theorem readText (h : tree.Redeclared tree') (path : String) :
    tree'.readText path = tree.readText path
      ∨ ∃ name text text' file file', tree.readText path = .ok text
        ∧ tree'.readText path = .ok text' ∧ FileDecl.parse name text = .ok file
        ∧ FileDecl.parse name text' = .ok file' ∧ file.Redeclares file' := by
  unfold FileTree.readText FileTree.read
  rw [h.sameSort.follow path]
  cases tree.follow path with
  | error e => exact .inl rfl
  | ok way =>
    have hway := Corresponds.node? (.same _) h way
    dsimp only
    generalize tree.node? way = node, tree'.node? way = node' at hway
    cases hway with
    | none => exact .inl rfl
    | some hnode =>
      cases hnode with
      | same => exact .inl rfl
      | @file name text text' file file' hfile hfile' hredeclares =>
        exact .inr ⟨name, text, text', file, file', by simp only [fromUTF8?_toUTF8],
          by simp only [fromUTF8?_toUTF8], hfile, hfile', hredeclares⟩

end FileTree.Redeclared

namespace Search

/-- Two results of looking up an import: the same error, or files that contribute the same. -/
inductive Agrees :
    Except SchemaError (FileDecl × Option String) → Except SchemaError (FileDecl × Option String) →
      Prop
  /-- The same error. -/
  | error (e : SchemaError) : Agrees (.error e) (.error e)
  /-- Two files in one directory. -/
  | ok {file file' : FileDecl} (directory : Option String) (h : file.Agrees file') :
      Agrees (.ok (file, directory)) (.ok (file', directory))

theorem Agrees.refl (result : Except SchemaError (FileDecl × Option String)) :
    Agrees result result := by
  cases result with
  | error e => exact .error e
  | ok found => exact .ok found.2 (.refl found.1)

variable {tree tree' : FileTree}

/-- An import is looked up with the same result, but for what else the file declares. -/
theorem fetch_redeclared (search : Search) (rootDirectory : String)
    (htree : tree.Redeclared tree') (wanted : Wanted) :
    Agrees (search.fetch tree rootDirectory wanted) (search.fetch tree' rootDirectory wanted) := by
  rw [fetch_eq, fetch_eq, htree.sameSort.isFile]
  cases (search.candidates rootDirectory wanted).find? tree.isFile with
  | none => exact .refl _
  | some place =>
    rw [Option.map_some, Option.map_some]
    obtain hsame | ⟨name, text, text', file, file', htext, htext', hfile, hfile', hredeclares⟩ :=
      htree.readText place
    · rw [hsame]
      exact .refl _
    · have hnamed := FileDecl.parse_named hfile ((Path.fileName? place).getD place)
      have hnamed' := FileDecl.parse_named hfile' ((Path.fileName? place).getD place)
      simp only [choose, FileDecl.ofText, htext, htext', hnamed, hnamed', bind, Except.bind]
      exact .ok _ (hredeclares.named _).agrees

end Search

/-! ## Loading -/

/-- Two states of loading that differ only in what else the files declare. -/
structure Worklist.Agrees (work work' : Worklist) : Prop where
  /-- The same imports are to be looked up. -/
  queue : work'.queue = work.queue
  /-- The same paths have been looked up. -/
  seen : work'.seen = work.seen
  /-- The files contribute the same one by one. -/
  files : List.Forall₂ FileDecl.Agrees work.files work'.files

/-- Files that contribute the same are added in the same way. -/
theorem Worklist.Agrees.add {work work' : Worklist} (h : work.Agrees work') (path : String)
    (queue : List Wanted) (wanted : Wanted) {file file' : FileDecl} (hfile : file.Agrees file')
    (directory : Option String) :
    ((work.taken path queue).add wanted file directory).Agrees
      ((work'.taken path queue).add wanted file' directory) := by
  refine ⟨?_, ?_, ?_⟩
  · simp [Worklist.add, taken, wantedBy, hfile.imports]
  · simp [Worklist.add, taken, h.seen]
  · exact List.rel_append h.files (.cons hfile .nil)

namespace Search

variable {search : Search} {tree tree' : FileTree} {path rootDirectory : String}

/-- From states that agree, loading takes the same turns, and what is loaded builds the same
schemas. -/
theorem Runs.redeclared {work : Worklist} {turns : List Turn}
    {outcome : Except SchemaError (List FileDecl)} (htree : tree.Redeclared tree')
    (h : search.Runs tree rootDirectory work turns outcome) :
    ∀ {work' : Worklist}, work.Agrees work' →
      ∃ turns' outcome', search.Runs tree' rootDirectory work' turns' outcome'
        ∧ ∀ root : FileDecl, (outcome' >>= fun files => root.build (.ofFiles files))
          = outcome >>= fun files => root.build (.ofFiles files) := by
  induction h with
  | done hqueue =>
    intro work' hwork
    refine ⟨_, _, .done (hwork.queue.trans hqueue), fun root => ?_⟩
    exact FileDecl.build_congr (SymbolTable.find?_ofFiles_congr hwork.files) root
  | @skip work wanted queue _ _ hqueue hseen _ ih =>
    intro work' hwork
    have hskipped : Worklist.Agrees { work with queue } { work' with queue } :=
      ⟨rfl, hwork.seen, hwork.files⟩
    obtain ⟨turns', outcome', hruns, hbuild⟩ := ih hskipped
    rw [← hwork.seen] at hseen
    exact ⟨_, _, .skip (hwork.queue.trans hqueue) hseen hruns, hbuild⟩
  | @load work wanted queue file directory _ _ hqueue hnew hfetch _ ih =>
    intro work' hwork
    have hagrees := search.fetch_redeclared rootDirectory htree wanted
    rw [hfetch] at hagrees
    generalize hfetch' : search.fetch tree' rootDirectory wanted = result at hagrees
    cases hagrees with
    | ok _ hfile =>
      obtain ⟨turns', outcome', hruns, hbuild⟩ :=
        ih (hwork.add wanted.path queue wanted hfile directory)
      rw [← hwork.seen] at hnew
      exact ⟨_, _, .load (hwork.queue.trans hqueue) hnew hfetch' hruns, hbuild⟩
  | @fail work wanted queue e hqueue hnew hfetch =>
    intro work' hwork
    have hagrees := search.fetch_redeclared rootDirectory htree wanted
    rw [hfetch] at hagrees
    generalize hfetch' : search.fetch tree' rootDirectory wanted = result at hagrees
    cases hagrees with
    | error _ =>
      rw [← hwork.seen] at hnew
      exact ⟨_, _, .fail (hwork.queue.trans hqueue) hnew hfetch', fun _ => rfl⟩

/-- The schema of a file, or the error, does not depend on what the files around it declare besides
their types, wherever they are imported. -/
theorem load_redeclared (search : Search) (htree : tree.Redeclared tree')
    (hpath : tree'.readText path = tree.readText path) :
    search.load tree' path = search.load tree path := by
  cases hroot : FileDecl.ofText path (tree.readText path) with
  | error e => simp only [load_eq, hpath, hroot, bind, Except.bind]
  | ok root =>
    obtain ⟨turns, outcome, hruns⟩ : ∃ turns outcome, search.Runs tree (directoryOf path) _ turns
        outcome := exists_runs _ (Written.start hroot (directoryOf path))
    obtain ⟨turns', outcome', hruns', hbuild⟩ :=
      hruns.redeclared htree ⟨rfl, rfl, .cons (.refl root) .nil⟩
    rw [hruns.load_eq hroot, hruns'.load_eq (hpath ▸ hroot), hbuild root]

/-! ## Two files that import each other -/

/-- A file that uses a type of another one, and that other one. -/
def mutualTree (other : String) : FileTree :=
  ⟨["work".toList],
    [(["work".toList, "m.proto".toList],
        .file "import\"a.proto\";message M\x7boptional A a=1;\x7d".toUTF8),
      (["work".toList, "a.proto".toList], .file other.toUTF8)]⟩

/-- A text that declares the type and imports the file. -/
def mutualText : String :=
  "import\"m.proto\";message A\x7b\x7d"

/-- A text that does so too, but uses a type that there is not, and one number twice. -/
def brokenText : String :=
  "import\"m.proto\";message A\x7boptional X x=1;optional A y=1;\x7d"

/-- What the file declares. -/
def mutualRoot : FileDecl :=
  { FileDecl.empty "m.proto" with
    imports := ["a.proto"]
    messages := [⟨"M", [⟨"a", 1, .optional, .named "A"⟩], [], []⟩] }

/-- What the other one declares, with the given fields. -/
def mutualOther (fields : List FieldDecl) : FileDecl :=
  { FileDecl.empty "a.proto" with
    imports := ["m.proto"]
    messages := [⟨"A", fields, [], []⟩] }

/-- The schema of the file. -/
def mutualSchema : Schema where
  name := "m.proto"
  dialect := .proto2
  package := none
  imports := ["a.proto"]
  messages := [("M", .flat "M" "M" [⟨"a", 1, .optional, .message ⟨"A", "A"⟩⟩])]
  enums := []
  services := []

theorem load_mutualTree :
    (⟨[]⟩ : Search).load (mutualTree mutualText) "../work/m.proto" = .ok mutualSchema := by
  have hroot : FileDecl.ofText "../work/m.proto" ((mutualTree mutualText).readText "../work/m.proto")
      = .ok mutualRoot := by
    rw [FileTree.readText_eq_ok.2 ⟨["work".toList, "m.proto".toList], rfl, rfl⟩]
    decide +kernel
  have hother : FileDecl.ofText "../work/a.proto" ((mutualTree mutualText).readText "../work/a.proto")
      = .ok (mutualOther []) := by
    rw [FileTree.readText_eq_ok.2 ⟨["work".toList, "a.proto".toList], rfl, rfl⟩]
    decide +kernel
  have hfirst : (⟨[]⟩ : Search).firstDirectory? (mutualTree mutualText) "../work"
      ⟨"a.proto", "m.proto", some "../work"⟩ = some "../work" := rfl
  have hback : (⟨[]⟩ : Search).firstDirectory? (mutualTree mutualText) "../work"
      ⟨"m.proto", "a.proto", some "../work"⟩ = some "../work" := rfl
  -- the file is loaded a second time, because the other one imports it
  have hruns : (⟨[]⟩ : Search).Runs (mutualTree mutualText) "../work" (.start mutualRoot "../work") _
      (.ok [mutualRoot, mutualOther [], mutualRoot]) :=
    .load rfl (by decide) (fetch_eq_ok_iff.2 ((finds_onDisk_iff hfirst).2 ⟨_, hother, rfl⟩))
      (.load rfl (by decide) (fetch_eq_ok_iff.2 ((finds_onDisk_iff hback).2 ⟨_, hroot, rfl⟩))
        (.skip rfl (by decide) (.done rfl)))
  rw [hruns.load_eq hroot]
  decide +kernel

/-- The other file could not be used on its own, but the schema of the file stays the same. -/
theorem load_redeclared_mutualTree :
    (mutualTree mutualText).Redeclared (mutualTree brokenText)
      ∧ Schema.parse "a.proto" brokenText = .error (.unresolvedType "X" "A")
      ∧ (⟨[]⟩ : Search).load (mutualTree brokenText) "../work/m.proto" = .ok mutualSchema := by
  have htree : (mutualTree mutualText).Redeclared (mutualTree brokenText) := by
    have hfile : FileDecl.parse "a.proto" mutualText = .ok (mutualOther []) := by decide +kernel
    have hfile' : FileDecl.parse "a.proto" brokenText = .ok (mutualOther
        [⟨"x", 1, .optional, .named "X"⟩, ⟨"y", 1, .optional, .named "A"⟩]) := by decide +kernel
    refine ⟨rfl, .cons ⟨rfl, .same _⟩
      (.cons ⟨rfl, .file hfile hfile' ⟨rfl, fun _ => Iff.rfl, ?_⟩⟩ .nil)⟩
    intro fullName kind kind' hkind hkind'
    have hmessage : ∀ symbol ∈ (mutualOther []).symbols, symbol.2 = .message := by decide
    rw [show kind = .message from hmessage _ hkind]
    exact hmessage _ hkind'
  have hpath : (mutualTree brokenText).readText "../work/m.proto"
      = (mutualTree mutualText).readText "../work/m.proto" := by
    rw [FileTree.readText_eq_ok.2 ⟨["work".toList, "m.proto".toList], rfl, rfl⟩,
      FileTree.readText_eq_ok.2 ⟨["work".toList, "m.proto".toList], rfl, rfl⟩]
  have hbroken : Schema.parse "a.proto" brokenText = .error (.unresolvedType "X" "A") := by
    decide +kernel
  exact ⟨htree, hbroken, (load_redeclared _ htree hpath).trans load_mutualTree⟩

end Search

end MettaSchema
