import MettaSchema.Proofs.Import.Corresponding
import MettaSchema.Proofs.Import.Reached
import MettaSchema.Proofs.Schema.Lookup

/-!
# The order of imports

Where the imports of a file stand, in which order, and how often, matters only because a path is
looked up for the first file that imports it.  If each path is found in an include path, then all
files that import it find the same, and the order does not matter.

* `FileTree.Reimported` — trees whose files differ only in how they place and repeat imports.
* `Search.Finds.reimported`, `Search.Reaches.reimported` — the same files are found and reached.
* `Search.Includes` — everything that is imported is found in an include path.
* `Search.Includes.mem_table_iff` — then the types in reach are those of all files that are reached.
* `Search.load_reimported` — and the schema stays the same.
-/

namespace MettaSchema

/-! ## Texts and trees that differ in their imports -/

/-- The statements differ only in how they place and repeat imports. -/
def FileStatement.Reimported (statements statements' : List FileStatement) : Prop :=
  others statements' = others statements
    ∧ ∀ path, path ∈ importPaths statements' ↔ path ∈ importPaths statements

theorem FileStatement.Reimported.symm {statements statements' : List FileStatement}
    (h : Reimported statements statements') : Reimported statements' statements :=
  ⟨h.1.symm, fun path => (h.2 path).symm⟩

/-- The same stands at a place, or two files whose texts differ only in their imports. -/
inductive Node.Reimported : Node → Node → Prop
  /-- The same. -/
  | same (node : Node) : Reimported node node
  /-- Two files. -/
  | file {text text' : String} {statements statements' : List FileStatement}
      (h : FileStatement.ofText? text = some statements)
      (h' : FileStatement.ofText? text' = some statements')
      (hstatements : FileStatement.Reimported statements statements') :
      Reimported (.file text.toUTF8) (.file text'.toUTF8)

theorem Node.Reimported.symm {node node' : Node} (h : node.Reimported node') :
    node'.Reimported node := by
  cases h with
  | same => exact .same _
  | file h h' hstatements => exact .file h' h hstatements.symm

/-- The trees have the same directories and files, and the files differ only in how they place and
repeat imports. -/
def FileTree.Reimported (tree tree' : FileTree) : Prop :=
  tree.Corresponds Node.Reimported tree'

namespace FileTree.Reimported

variable {tree tree' : FileTree}

theorem symm (h : tree.Reimported tree') : tree'.Reimported tree where
  workingDirectory := h.workingDirectory.symm
  entries := h.entries.flip.imp fun _ _ hentry => ⟨hentry.1.symm, hentry.2.symm⟩

theorem sameSort (h : tree.Reimported tree') : tree.Corresponds Node.SameSort tree' := by
  refine Corresponds.mono h fun node node' hnode => ?_
  cases hnode with
  | same => cases node <;> constructor
  | file => constructor

theorem readText (h : tree.Reimported tree') {path text : String}
    (htext : tree.readText path = .ok text) :
    ∃ text', tree'.readText path = .ok text' ∧ (text' = text ∨ ∃ statements statements',
      FileStatement.ofText? text = some statements ∧ FileStatement.ofText? text' = some statements'
        ∧ FileStatement.Reimported statements statements') := by
  obtain ⟨way, hfollow, hnode⟩ := readText_eq_ok.1 htext
  have hway := Corresponds.node? (.same _) h way
  rw [hnode] at hway
  generalize hnode' : tree'.node? way = node' at hway
  rw [← h.sameSort.follow path] at hfollow
  generalize hcontent : Node.file text.toUTF8 = node at hway
  cases hway with
  | some hsame =>
    cases hsame with
    | same =>
      subst hcontent
      exact ⟨text, readText_eq_ok.2 ⟨way, hfollow, hnode'⟩, .inl rfl⟩
    | @file text₁ text₂ _ _ hstatements hstatements' hreimported =>
      have htext : some text = some text₁ := by
        rw [← fromUTF8?_toUTF8 text, ← fromUTF8?_toUTF8 text₁, Node.file.inj hcontent]
      cases htext
      exact ⟨text₂, readText_eq_ok.2 ⟨way, hfollow, hnode'⟩,
        .inr ⟨_, _, hstatements, hstatements', hreimported⟩⟩

/-- What is read from a path declares the same, apart from the imports. -/
theorem ofText (h : tree.Reimported tree') {name path : String} {file : FileDecl}
    (hfile : FileDecl.ofText name (tree.readText path) = .ok file) :
    ∃ imports, FileDecl.ofText name (tree'.readText path) = .ok (file.withImports imports)
      ∧ ∀ target, target ∈ imports ↔ target ∈ file.imports := by
  cases htext : tree.readText path with
  | error e =>
    rw [htext] at hfile
    cases hfile
  | ok text =>
    rw [htext] at hfile
    obtain ⟨text', htext', hsame | hother⟩ := h.readText htext
    · subst hsame
      rw [htext']
      exact ⟨file.imports, hfile, fun _ => Iff.rfl⟩
    · obtain ⟨statements, statements', hstatements, hstatements', hothers, hpaths⟩ := hother
      obtain ⟨_, hstatements₁, hdecl⟩ := FileDecl.parse_eq_ok.1 hfile
      cases hstatements.symm.trans hstatements₁
      rw [htext']
      have hdecl' := FileDecl.ofStatements_withImports hothers hdecl
      refine ⟨_, FileDecl.parse_eq_ok.2 ⟨_, hstatements', hdecl'⟩, ?_⟩
      rw [FileDecl.imports_ofStatements hdecl]
      exact hpaths

end FileTree.Reimported

/-! ## Files that are found and reached -/

/-- The same file, but for how imports are placed and repeated. -/
def Located.Reimported (found found' : Located) : Prop :=
  ∃ imports, found' = { found with file := found.file.withImports imports }
    ∧ ∀ target, target ∈ imports ↔ target ∈ found.file.imports

namespace Located.Reimported

variable {found found' : Located}

theorem mem_imports (h : found.Reimported found') {wanted : Wanted} :
    wanted ∈ found'.imports ↔ wanted ∈ found.imports := by
  obtain ⟨imports, rfl, himports⟩ := h
  simp only [Located.mem_imports, FileDecl.withImports, himports]

theorem symbols (h : found.Reimported found') : found'.file.symbols = found.file.symbols := by
  obtain ⟨imports, rfl, -⟩ := h
  rfl

end Located.Reimported

namespace Search

variable {search : Search} {tree tree' : FileTree} {path : String}

theorem Finds.reimported {rootDirectory : String} {wanted : Wanted} {found : Located}
    (htree : tree.Reimported tree') (h : search.Finds tree rootDirectory wanted found) :
    ∃ found', search.Finds tree' rootDirectory wanted found' ∧ found.Reimported found' := by
  cases h with
  | onDisk hdirectories hbefore hfile htext =>
    obtain ⟨imports, htext', himports⟩ := htree.ofText htext
    rw [← htree.sameSort.isFile] at hfile
    refine ⟨_, .onDisk hdirectories ?_ hfile htext', imports, rfl, himports⟩
    intro d hd
    rw [htree.sameSort.isFile]
    exact hbefore d hd
  | bundled hnone hbundled =>
    refine ⟨_, .bundled ?_ hbundled, _, rfl, fun _ => Iff.rfl⟩
    intro d hd
    rw [htree.sameSort.isFile]
    exact hnone d hd

/-- The same files are reached. -/
theorem Reaches.reimported {found : Located} (htree : tree.Reimported tree')
    (h : search.Reaches tree path found) :
    ∃ found', search.Reaches tree' path found' ∧ found.Reimported found' := by
  induction h with
  | root h =>
    obtain ⟨imports, h', himports⟩ := htree.ofText h
    exact ⟨_, .root h', imports, rfl, himports⟩
  | imported _ hwanted hfinds ih =>
    obtain ⟨importer', hreaches', himporter⟩ := ih
    obtain ⟨found', hfinds', hfound⟩ := hfinds.reimported htree
    exact ⟨found', .imported hreaches' (himporter.mem_imports.2 hwanted) hfinds', hfound⟩

/-! ## Imports that are found in an include path -/

/-- Everything that is imported, by the file at a path and the files that are reached from it, is
found in an include path. -/
def Includes (search : Search) (tree : FileTree) (path : String) : Prop :=
  ∀ l, search.Reaches tree path l → ∀ target ∈ l.file.imports,
    ∃ d ∈ search.includePaths, tree.isFile (Path.join d target) = true

/-- No full name is given to a message and to an enum by the file at a path and the files that are
reached from it. -/
def KindsAgree (search : Search) (tree : FileTree) (path : String) : Prop :=
  ∀ l l', search.Reaches tree path l → search.Reaches tree path l' → ∀ n kind kind',
    (n, kind) ∈ l.file.symbols → (n, kind') ∈ l'.file.symbols → kind' = kind

/-- What is found in an include path does not depend on the file that imports it. -/
theorem Finds.of_included {rootDirectory : String} {wanted wanted' : Wanted} {found : Located}
    (hincluded : ∃ d ∈ search.includePaths, tree.isFile (Path.join d wanted.path) = true)
    (hpath : wanted'.path = wanted.path) (h : search.Finds tree rootDirectory wanted found) :
    search.Finds tree rootDirectory wanted' found := by
  have hsome : (search.includePaths.find? fun d => tree.isFile (Path.join d wanted.path)).isSome := by
    rw [List.find?_isSome]
    exact hincluded
  obtain ⟨directory, hdirectory⟩ := Option.isSome_iff_exists.1 hsome
  have hfirst : ∀ w : Wanted, w.path = wanted.path →
      search.firstDirectory? tree rootDirectory w = some directory := by
    intro w hw
    simp only [firstDirectory?, directories, hw, List.find?_append, hdirectory, Option.some_or]
  rw [finds_onDisk_iff (hfirst wanted rfl)] at h
  rw [finds_onDisk_iff (hfirst wanted' hpath), hpath]
  exact h

theorem Includes.mem_includePaths (h : search.Includes tree path) {l : Located}
    (hl : search.Reaches tree path l) {wanted : Wanted} (hwanted : wanted ∈ l.imports) :
    ∃ d ∈ search.includePaths, tree.isFile (Path.join d wanted.path) = true := by
  obtain ⟨target, htarget, hwanted⟩ := Located.mem_imports.1 hwanted
  have hincluded := h l hl target htarget
  rw [hwanted]
  exact hincluded

theorem Includes.reimported (h : search.Includes tree path) (htree : tree.Reimported tree') :
    search.Includes tree' path := by
  intro l' hl' target htarget
  obtain ⟨l, hl, hsame⟩ := hl'.reimported htree.symm
  rw [htree.sameSort.isFile]
  obtain ⟨imports, rfl, himports⟩ := hsame
  exact h _ hl target ((himports target).2 htarget)

section

variable {root : FileDecl} {imported : List Located} {work : Worklist}

/-- Where everything is found in an include path, all files that are reached are loaded. -/
theorem Includes.mem_loaded (h : search.Includes tree path)
    (hroot : FileDecl.ofText path (tree.readText path) = .ok root)
    (htracks : Worklist.Tracks search tree path (.root path root) imported work)
    (hnext : work.next? = none) {l : Located} (hl : search.Reaches tree path l) :
    l ∈ Located.root path root :: imported := by
  induction hl with
  | root h =>
    cases h.symm.trans hroot
    exact List.mem_cons_self
  | @imported importer found wanted hreaches hwanted hfinds ih =>
    refine List.mem_cons_of_mem _ ?_
    have hmem := List.mem_flatMap.2 ⟨importer, ih, hwanted⟩
    rw [mem_imported_iff htracks hnext hmem hfinds]
    rintro ⟨first, found', hfirst, hfinds', hother⟩
    have hpath : first.path = wanted.path := by
      simpa using List.find?_some hfirst
    exact hother (hfinds'.of_included (h.mem_includePaths hreaches hwanted) hpath)

/-- Then the types in reach are those of all files that are reached. -/
theorem Includes.mem_table_iff (h : search.Includes tree path)
    (hroot : FileDecl.ofText path (tree.readText path) = .ok root)
    (htracks : Worklist.Tracks search tree path (.root path root) imported work)
    (hnext : work.next? = none) (symbol : String × SymbolKind) :
    symbol ∈ (SymbolTable.ofFiles work.files).entries ↔
      ∃ l, search.Reaches tree path l ∧ symbol ∈ l.file.symbols := by
  rw [SymbolTable.mem_ofFiles, htracks.files]
  constructor
  · rintro ⟨file, hfile, hsymbol⟩
    obtain ⟨l, hl, rfl⟩ := List.mem_map.1 hfile
    exact ⟨l, htracks.reached l hl, hsymbol⟩
  · rintro ⟨l, hl, hsymbol⟩
    exact ⟨l.file, List.mem_map_of_mem (h.mem_loaded hroot htracks hnext hl), hsymbol⟩

/-- Then something is found for every import of every file that is reached. -/
theorem Includes.exists_finds (h : search.Includes tree path)
    (hroot : FileDecl.ofText path (tree.readText path) = .ok root)
    (htracks : Worklist.Tracks search tree path (.root path root) imported work)
    (hnext : work.next? = none) {l : Located} (hl : search.Reaches tree path l) {wanted : Wanted}
    (hwanted : wanted ∈ l.imports) :
    ∃ found, search.Finds tree (directoryOf path) wanted found := by
  have hloaded := h.mem_loaded hroot htracks hnext hl
  obtain ⟨found, hfound, hname⟩ :=
    htracks.exists_imported hnext (List.mem_flatMap.2 ⟨l, hloaded, hwanted⟩)
  obtain ⟨first, hfirst, hfinds⟩ := htracks.found found hfound
  have hpath : first.path = found.name := by
    simpa using List.find?_some hfirst
  obtain ⟨importer, himporter, hwanted'⟩ := List.mem_flatMap.1 (List.mem_of_find?_eq_some hfirst)
  have hincluded := h.mem_includePaths (htracks.reached importer himporter) hwanted'
  exact ⟨found, hfinds.of_included hincluded (hname.symm.trans hpath.symm)⟩

end

/-- If everything is found in an include path and no full name is given to types of two kinds, then
the schema of a file does not depend on how the file, or those that are reached from it, place and
repeat their imports. -/
theorem load_reimported {schema : Schema} (htree : tree.Reimported tree')
    (hincludes : search.Includes tree path) (hkinds : search.KindsAgree tree path)
    (h : search.load tree path = .ok schema) :
    ∃ imports, search.load tree' path = .ok { schema with imports }
      ∧ ∀ target, target ∈ imports ↔ target ∈ schema.imports := by
  simp only [load_eq, bind_eq_ok] at h
  obtain ⟨root, hroot, work, hwork, hbuild⟩ := h
  obtain ⟨imported, htracks, hnext⟩ := collect_done hroot hwork
  obtain ⟨imports, hroot', himports⟩ := htree.ofText hroot
  -- in the other tree the same files are reached, so loading does not fail there
  have hfound : ∀ l', search.Reaches tree' path l' → ∀ wanted ∈ l'.imports,
      ∃ found', search.Finds tree' (directoryOf path) wanted found' := by
    intro l' hl' wanted hwanted
    obtain ⟨l, hl, hsame⟩ := hl'.reimported htree.symm
    obtain ⟨found, hfinds⟩ :=
      hincludes.exists_finds hroot htracks hnext hl (hsame.mem_imports.2 hwanted)
    obtain ⟨found', hfinds', -⟩ := hfinds.reimported htree
    exact ⟨found', hfinds'⟩
  obtain ⟨work', hwork'⟩ := collect_succeeds hfound tree'.size (.start hroot')
  obtain ⟨imported', htracks', hnext'⟩ := collect_done hroot' hwork'
  -- and the types in reach are the same
  have hsymbols : ∀ symbol, symbol ∈ (SymbolTable.ofFiles work'.files).entries ↔
      symbol ∈ (SymbolTable.ofFiles work.files).entries := by
    intro symbol
    rw [(hincludes.reimported htree).mem_table_iff hroot' htracks' hnext',
      hincludes.mem_table_iff hroot htracks hnext]
    constructor
    · rintro ⟨l', hl', hsymbol⟩
      obtain ⟨l, hl, hsame⟩ := hl'.reimported htree.symm
      exact ⟨l, hl, hsame.symbols ▸ hsymbol⟩
    · rintro ⟨l, hl, hsymbol⟩
      obtain ⟨l', hl', hsame⟩ := hl.reimported htree
      exact ⟨l', hl', hsame.symbols ▸ hsymbol⟩
  have htable : (SymbolTable.ofFiles work'.files).find? = (SymbolTable.ofFiles work.files).find? := by
    refine SymbolTable.lookup_congr hsymbols ?_
    intro n kind kind' hkind hkind'
    obtain ⟨l, hl, hmem⟩ := (hincludes.mem_table_iff hroot htracks hnext _).1 hkind
    obtain ⟨l', hl', hmem'⟩ := (hincludes.mem_table_iff hroot htracks hnext _).1 hkind'
    exact hkinds l l' hl hl' n kind kind' hmem hmem'
  have hbuild' : (root.withImports imports).build (.ofFiles work'.files)
      = .ok { schema with imports } := by
    rw [FileDecl.build_congr htable]
    exact FileDecl.build_withImports imports hbuild
  refine ⟨imports, ?_, ?_⟩
  · simp only [load_eq, hroot', hwork', bind, Except.bind]
    exact hbuild'
  · intro target
    rw [himports, FileDecl.imports_build hbuild]

/-! ## Two files that import each other -/

/-- A file in the working directory, and a directory beside that one with two more. -/
def includeTree (main first second : String) : FileTree :=
  ⟨["work".toList],
    [(["work".toList, "main.proto".toList], .file main.toUTF8), (["inc".toList], .directory),
      (["inc".toList, "a.proto".toList], .file first.toUTF8),
      (["inc".toList, "b.proto".toList], .file second.toUTF8)]⟩

/-- The file imports both others, which import each other. -/
def cyclicTree : FileTree :=
  includeTree "import \"a.proto\"; import \"b.proto\"; message M \x7b optional A a = 1; \x7d"
    "import \"b.proto\"; message A \x7b\x7d" "import \"a.proto\";"

/-- The same, but the file imports the others in the other order, and one of them twice. -/
def cyclicTree' : FileTree :=
  includeTree ("import \"b.proto\"; message M \x7b optional A a = 1; \x7d import \"a.proto\"; "
    ++ "import \"b.proto\";") "import \"b.proto\"; message A \x7b\x7d" "import \"a.proto\";"

/-- What the file declares. -/
def cyclicRoot : FileDecl :=
  { FileDecl.empty "main.proto" with
    imports := ["a.proto", "b.proto"]
    messages := [⟨"M", [⟨"a", 1, .optional, .named "A"⟩], [], []⟩] }

/-- What the first of the two others declares. -/
def cyclicFirst : FileDecl :=
  { FileDecl.empty "a.proto" with
    imports := ["b.proto"]
    messages := [⟨"A", [], [], []⟩] }

/-- What the second one declares. -/
def cyclicSecond : FileDecl :=
  { FileDecl.empty "b.proto" with imports := ["a.proto"] }

/-- The file and the two others. -/
def cyclicReached : List Located :=
  [.root "main.proto" cyclicRoot, ⟨cyclicFirst, "a.proto", some "/inc"⟩,
    ⟨cyclicSecond, "b.proto", some "/inc"⟩]

/-- The schema of the file. -/
def cyclicSchema : Schema where
  name := "main.proto"
  dialect := .proto2
  package := none
  imports := ["a.proto", "b.proto"]
  messages := [("M", .flat "M" "M" [⟨"a", 1, .optional, .message ⟨"A", "A"⟩⟩])]
  enums := []
  services := []

theorem reimported_cyclicTree : cyclicTree.Reimported cyclicTree' := by
  have htext : FileStatement.ofText?
      "import \"a.proto\"; import \"b.proto\"; message M \x7b optional A a = 1; \x7d"
        = some [.imports "\"a.proto\"", .imports "\"b.proto\"",
          .message "M" [.field .optional "A" "a" "1"]] := by decide +kernel
  have htext' : FileStatement.ofText?
      ("import \"b.proto\"; message M \x7b optional A a = 1; \x7d import \"a.proto\"; "
        ++ "import \"b.proto\";")
        = some [.imports "\"b.proto\"", .message "M" [.field .optional "A" "a" "1"],
          .imports "\"a.proto\"", .imports "\"b.proto\""] := by decide +kernel
  refine ⟨rfl, .cons ⟨rfl, .file htext htext' ⟨rfl, ?_⟩⟩ (.cons ⟨rfl, .same _⟩
    (.cons ⟨rfl, .same _⟩ (.cons ⟨rfl, .same _⟩ .nil)))⟩
  have hpaths : FileStatement.importPaths [.imports "\"a.proto\"", .imports "\"b.proto\"",
    .message "M" [.field .optional "A" "a" "1"]] = ["a.proto", "b.proto"] := by decide +kernel
  have hpaths' : FileStatement.importPaths [.imports "\"b.proto\"",
    .message "M" [.field .optional "A" "a" "1"], .imports "\"a.proto\"", .imports "\"b.proto\""]
      = ["b.proto", "a.proto", "b.proto"] := by decide +kernel
  intro path
  rw [hpaths, hpaths']
  grind

/-- The file is read, and the others are found in the directory, whichever file imports them. -/
theorem finds_cyclicTree :
    FileDecl.ofText "main.proto" (cyclicTree.readText "main.proto") = .ok cyclicRoot
      ∧ (∀ w : Wanted, w.path = "a.proto" →
        (⟨["/inc"]⟩ : Search).Finds cyclicTree "" w ⟨cyclicFirst, "a.proto", some "/inc"⟩)
      ∧ ∀ w : Wanted, w.path = "b.proto" →
        (⟨["/inc"]⟩ : Search).Finds cyclicTree "" w ⟨cyclicSecond, "b.proto", some "/inc"⟩ := by
  have hmain : cyclicTree.readText "main.proto" = .ok _ :=
    FileTree.readText_eq_ok.2 ⟨["work".toList, "main.proto".toList], rfl, rfl⟩
  have hfirst : cyclicTree.readText "/inc/a.proto" = .ok _ :=
    FileTree.readText_eq_ok.2 ⟨["inc".toList, "a.proto".toList], rfl, rfl⟩
  have hsecond : cyclicTree.readText "/inc/b.proto" = .ok _ :=
    FileTree.readText_eq_ok.2 ⟨["inc".toList, "b.proto".toList], rfl, rfl⟩
  have hjoin : Path.join "/inc" "a.proto" = "/inc/a.proto" := by simp [Path.join, Path.isAbsolute]
  have hjoin' : Path.join "/inc" "b.proto" = "/inc/b.proto" := by simp [Path.join, Path.isAbsolute]
  refine ⟨?_, ?_, ?_⟩
  · rw [hmain]
    decide +kernel
  · intro w hw
    refine finds_included rfl (hjoin.symm ▸ hfirst) ?_ hw
    rw [hjoin]
    decide +kernel
  · intro w hw
    refine finds_included rfl (hjoin'.symm ▸ hsecond) ?_ hw
    rw [hjoin']
    decide +kernel

/-- Nothing else is reached. -/
theorem reaches_cyclicTree {l : Located}
    (h : (⟨["/inc"]⟩ : Search).Reaches cyclicTree "main.proto" l) : l ∈ cyclicReached := by
  obtain ⟨hroot, hfirst, hsecond⟩ := finds_cyclicTree
  induction h with
  | root h =>
    cases h.symm.trans hroot
    exact List.mem_cons_self
  | @imported importer found wanted _ hwanted hfinds ih =>
    have hpath : wanted.path = "a.proto" ∨ wanted.path = "b.proto" := by
      obtain ⟨target, htarget, hwanted⟩ := Located.mem_imports.1 hwanted
      have himports : ∀ l ∈ cyclicReached, ∀ target ∈ l.file.imports,
          target = "a.proto" ∨ target = "b.proto" := by
        decide
      rw [hwanted]
      exact himports importer ih target htarget
    rcases hpath with hpath | hpath
    · rw [hfinds.unique (hfirst wanted hpath)]
      exact List.mem_cons_of_mem _ List.mem_cons_self
    · rw [hfinds.unique (hsecond wanted hpath)]
      exact List.mem_cons_of_mem _ (List.mem_cons_of_mem _ List.mem_cons_self)

theorem load_cyclicTree :
    (⟨["/inc"]⟩ : Search).load cyclicTree "main.proto" = .ok cyclicSchema := by
  obtain ⟨hroot, hfirst, hsecond⟩ := finds_cyclicTree
  have hsize : 2 ≤ cyclicTree.size := by
    refine le_trans ?_ (FileTree.length_text_le_size List.mem_cons_self)
    decide
  obtain ⟨bound, hbound⟩ : ∃ bound, cyclicTree.size = bound + 2 :=
    ⟨_, (Nat.sub_add_cancel hsize).symm⟩
  have hnext : (Worklist.start cyclicRoot "").next?
      = some (⟨"a.proto", "main.proto", some ""⟩,
        ⟨[⟨"b.proto", "main.proto", some ""⟩], ["a.proto"], [cyclicRoot]⟩) := rfl
  have hnext' : (Worklist.mk [⟨"b.proto", "main.proto", some ""⟩, ⟨"b.proto", "a.proto", some "/inc"⟩]
        ["a.proto"] [cyclicRoot, cyclicFirst]).next?
      = some (⟨"b.proto", "main.proto", some ""⟩, ⟨[⟨"b.proto", "a.proto", some "/inc"⟩],
        ["b.proto", "a.proto"], [cyclicRoot, cyclicFirst]⟩) := rfl
  have hlast : (Worklist.mk [⟨"b.proto", "a.proto", some "/inc"⟩, ⟨"a.proto", "b.proto", some "/inc"⟩]
      ["b.proto", "a.proto"] [cyclicRoot, cyclicFirst, cyclicSecond]).next? = none := rfl
  have hcollect : (⟨["/inc"]⟩ : Search).collect cyclicTree "" cyclicTree.size
      (.start cyclicRoot "") = .ok ⟨[⟨"b.proto", "a.proto", some "/inc"⟩,
        ⟨"a.proto", "b.proto", some "/inc"⟩], ["b.proto", "a.proto"],
        [cyclicRoot, cyclicFirst, cyclicSecond]⟩ := by
    rw [hbound, collect_of_finds hnext (hfirst _ rfl)]
    exact (collect_of_finds hnext' (hsecond _ rfl) bound).trans (collect_of_next?_eq_none hlast bound)
  have hbuild : cyclicRoot.build (.ofFiles [cyclicRoot, cyclicFirst, cyclicSecond])
      = .ok cyclicSchema := by decide +kernel
  have hdirectory : directoryOf "main.proto" = "" := rfl
  simp only [load_eq, hroot, hdirectory, hcollect, bind, Except.bind]
  exact hbuild

/-- The schema stays the same when the file imports the others in the other order, and one of them
twice. -/
theorem load_reimported_cyclicTree :
    cyclicTree.Reimported cyclicTree'
      ∧ (⟨["/inc"]⟩ : Search).Includes cyclicTree "main.proto"
      ∧ (⟨["/inc"]⟩ : Search).KindsAgree cyclicTree "main.proto"
      ∧ (⟨["/inc"]⟩ : Search).load cyclicTree "main.proto" = .ok cyclicSchema
      ∧ ∃ imports, (⟨["/inc"]⟩ : Search).load cyclicTree' "main.proto"
          = .ok { cyclicSchema with imports } := by
  have hincludes : (⟨["/inc"]⟩ : Search).Includes cyclicTree "main.proto" := by
    intro l hl target htarget
    have himports : ∀ l ∈ cyclicReached, ∀ target ∈ l.file.imports,
        target = "a.proto" ∨ target = "b.proto" := by
      decide
    refine ⟨"/inc", List.mem_singleton.2 rfl, ?_⟩
    rcases himports l (reaches_cyclicTree hl) target htarget with rfl | rfl <;> rfl
  have hkinds : (⟨["/inc"]⟩ : Search).KindsAgree cyclicTree "main.proto" := by
    intro l l' hl hl' n kind kind' hkind hkind'
    have hmessages : ∀ l ∈ cyclicReached, ∀ symbol ∈ l.file.symbols, symbol.2 = .message := by
      decide
    rw [show kind = .message from hmessages l (reaches_cyclicTree hl) _ hkind]
    exact hmessages l' (reaches_cyclicTree hl') _ hkind'
  obtain ⟨imports, hload, -⟩ :=
    load_reimported reimported_cyclicTree hincludes hkinds load_cyclicTree
  exact ⟨reimported_cyclicTree, hincludes, hkinds, load_cyclicTree, imports, hload⟩

end Search

end MettaSchema
