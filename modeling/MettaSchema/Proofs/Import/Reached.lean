import Mathlib.Data.List.Nodup
import MettaSchema.Proofs.Import.Worklist
import MettaSchema.Proofs.Schema.References

/-!
# Types of imported files

The types that are in reach of a file on the disk are those of the files that were loaded for it.
A path is looked up only once, for the first file that imports it.  Where a later file imports the
same path and there is another file next to it, that one is not loaded.

* `FileDecl.DeclaredIn` — everything that a file declares is in a table.
* `Search.Shadowed` — an import whose path was taken for another file before.
* `Search.reached_declared` — which files are loaded, and that their types can be used.
* `Search.reached_declared_shadowed` — a file that is reached and not loaded.
-/

namespace MettaSchema

/-! ## Declared types -/

/-- Everything that a file declares is found in the table under its full name, and a field that
names it in full has it as its type, wherever the field stands. -/
def FileDecl.DeclaredIn (table : SymbolTable) (file : FileDecl) : Prop :=
  ∀ symbol ∈ file.symbols, ∃ kind, table.find? symbol.1 = some kind ∧
    ∀ scope, ∃ type, TypeExpr.resolve table scope (.named ("." ++ symbol.1)) = .ok type
      ∧ type.reference? = some (symbol.1, kind)

theorem SymbolTable.resolve_absolute {table : SymbolTable} {fullName : String} {kind : SymbolKind}
    (h : table.find? fullName = some kind) (scope : String) :
    table.resolve anySymbol scope ("." ++ fullName) = some (fullName, kind) := by
  rw [resolve_absolute_eq]
  exact accepted?_of_offers ⟨h, rfl⟩

theorem TypeExpr.resolve_absolute {table : SymbolTable} {fullName : String} {kind : SymbolKind}
    (h : table.find? fullName = some kind) (scope : String) :
    ∃ type, TypeExpr.resolve table scope (.named ("." ++ fullName)) = .ok type
      ∧ type.reference? = some (fullName, kind) := by
  have hresolve := SymbolTable.resolve_absolute h scope
  cases kind with
  | message => exact ⟨.message (.ofFullName fullName), by simp [resolve, hresolve], rfl⟩
  | enum => exact ⟨.enum (.ofFullName fullName), by simp [resolve, hresolve], rfl⟩

/-- Everything that some files declare is in their table. -/
theorem FileDecl.declaredIn_ofFiles {files : List FileDecl} {file : FileDecl} (h : file ∈ files) :
    file.DeclaredIn (.ofFiles files) := by
  intro symbol hsymbol
  have hmem : symbol ∈ (SymbolTable.ofFiles files).entries :=
    SymbolTable.mem_ofFiles.2 ⟨file, h, hsymbol⟩
  cases hfind : (SymbolTable.ofFiles files).find? symbol.1 with
  | some kind => exact ⟨kind, rfl, TypeExpr.resolve_absolute hfind⟩
  | none =>
    have hother := List.lookup_eq_none_iff.1 hfind symbol hmem
    simp at hother

/-! ## Files that are reached -/

namespace Search

variable {search : Search} {tree : FileTree} {path : String} {root : FileDecl} {work : Worklist}

/-- The first import of the path was taken for another file than the one to be found. -/
def Shadowed (search : Search) (tree : FileTree) (path : String) (loaded : List Located)
    (wanted : Wanted) : Prop :=
  ∃ first found, (loaded.flatMap (·.imports)).find? (·.path == wanted.path) = some first
    ∧ search.Finds tree (directoryOf path) wanted found
    ∧ ¬ search.Finds tree (directoryOf path) first found

/-- The file that is to be found for an import is among those that were imported exactly if it is
not shadowed. -/
theorem mem_imported_iff {imported : List Located} {wanted : Wanted} {found : Located}
    (h : Worklist.Tracks search tree path (.root path root) imported work)
    (hnext : work.next? = none)
    (hwanted : wanted ∈ (Located.root path root :: imported).flatMap (·.imports))
    (hfinds : search.Finds tree (directoryOf path) wanted found) :
    found ∈ imported ↔
      ¬ search.Shadowed tree path (Located.root path root :: imported) wanted := by
  obtain ⟨l, hl, hname⟩ := h.exists_imported hnext hwanted
  obtain ⟨first, hfirst, hfound⟩ := h.found l hl
  rw [hname] at hfirst
  constructor
  · rintro hmem ⟨first', found', hfirst', hfinds', hother⟩
    cases hfirst.symm.trans hfirst'
    have hsame : l = found :=
      List.inj_on_of_nodup_map h.distinct hl hmem (hname.trans hfinds.name_eq.symm)
    rw [← hfinds.unique hfinds', ← hsame] at hother
    exact hother hfound
  · intro hnot
    by_cases hsame : search.Finds tree (directoryOf path) first found
    · rw [hsame.unique hfound]
      exact hl
    · exact absurd ⟨first, found, hfirst, hfinds, hsame⟩ hnot

/-- The types in reach of a file on the disk are those that the file declares, and those of the
files that were imported.  They all are reached by the imports, and the file that is to be found
for an import is among them exactly if no earlier import of the same path was taken for another
file.  If no import is shadowed in this way, all types of all files that are reached can be used. -/
theorem reached_declared (hroot : FileDecl.ofText path (tree.readText path) = .ok root)
    (hwork : search.collect tree (directoryOf path) tree.size (.start root (directoryOf path))
      = .ok work) :
    ∃ imported : List Located,
      let loaded := Located.root path root :: imported
      work.files = loaded.map (·.file)
        ∧ (∀ l ∈ loaded, search.Reaches tree path l ∧ l.file.DeclaredIn (.ofFiles work.files))
        ∧ (∀ l ∈ loaded, ∀ wanted ∈ l.imports, ∀ found,
            search.Finds tree (directoryOf path) wanted found →
              (found ∈ imported ↔ ¬ search.Shadowed tree path loaded wanted))
        ∧ ((∀ l ∈ loaded, ∀ wanted ∈ l.imports, ¬ search.Shadowed tree path loaded wanted) →
            ∀ l, search.Reaches tree path l → l.file.DeclaredIn (.ofFiles work.files)) := by
  obtain ⟨imported, htracks, hnext⟩ := collect_done hroot hwork
  have hdeclared : ∀ l ∈ Located.root path root :: imported,
      l.file.DeclaredIn (.ofFiles work.files) := by
    intro l hl
    apply FileDecl.declaredIn_ofFiles
    rw [htracks.files]
    exact List.mem_map_of_mem hl
  have hfound : ∀ l ∈ Located.root path root :: imported, ∀ wanted ∈ l.imports, ∀ found,
      search.Finds tree (directoryOf path) wanted found → (found ∈ imported ↔
        ¬ search.Shadowed tree path (Located.root path root :: imported) wanted) :=
    fun l hl wanted hwanted found hfinds =>
      mem_imported_iff htracks hnext (List.mem_flatMap.2 ⟨l, hl, hwanted⟩) hfinds
  refine ⟨imported, htracks.files, fun l hl => ⟨htracks.reached l hl, hdeclared l hl⟩, hfound, ?_⟩
  intro hclear l hl
  apply hdeclared
  induction hl with
  | root h =>
    cases h.symm.trans hroot
    exact List.mem_cons_self
  | imported _ hwanted hfinds ih =>
    exact List.mem_cons_of_mem _ ((hfound _ ih _ hwanted _ hfinds).2 (hclear _ ih _ hwanted))

/-! ## A file that is not loaded -/

/-- A file, another one next to it, and a directory with two more, one of which has the name of the
second. -/
def besideTree (main beside inner innerBeside : String) : FileTree :=
  ⟨["work".toList],
    [(["work".toList, "main.proto".toList], .file main.toUTF8),
      (["work".toList, "c.proto".toList], .file beside.toUTF8),
      (["work".toList, "a".toList], .directory),
      (["work".toList, "a".toList, "x.proto".toList], .file inner.toUTF8),
      (["work".toList, "a".toList, "c.proto".toList], .file innerBeside.toUTF8)]⟩

/-- Both the root and the file in the directory import a file next to them, under the same path.
The root uses a type of the latter one. -/
def shadowingTree : FileTree :=
  besideTree "import \"c.proto\"; import \"a/x.proto\"; message M \x7b optional .T t = 1; \x7d"
    "" "import \"c.proto\";" "message T \x7b\x7d"

/-- What the root declares. -/
def shadowingRoot : FileDecl :=
  { FileDecl.empty "main.proto" with
    imports := ["c.proto", "a/x.proto"]
    messages := [⟨"M", [⟨"t", 1, .optional, .named ".T"⟩], [], []⟩] }

/-- What the file in the directory declares: an import. -/
def shadowingInner : FileDecl :=
  { FileDecl.empty "x.proto" with imports := ["c.proto"] }

/-- What the file next to that one declares: a message. -/
def shadowedFile : FileDecl :=
  { FileDecl.empty "c.proto" with messages := [⟨"T", [], [], []⟩] }

/-- The state of loading at its end. -/
def shadowingWork : Worklist where
  queue := [⟨"c.proto", "a/x.proto", some "a"⟩]
  seen := ["a/x.proto", "c.proto"]
  files := [shadowingRoot, FileDecl.empty "c.proto", shadowingInner]

theorem readText_besideTree (main beside inner innerBeside : String) :
    let tree := besideTree main beside inner innerBeside
    tree.readText "main.proto" = .ok main ∧ tree.readText "c.proto" = .ok beside
      ∧ tree.readText "a/x.proto" = .ok inner ∧ tree.readText "a/c.proto" = .ok innerBeside :=
  ⟨FileTree.readText_eq_ok.2 ⟨["work".toList, "main.proto".toList], rfl, rfl⟩,
    FileTree.readText_eq_ok.2 ⟨["work".toList, "c.proto".toList], rfl, rfl⟩,
    FileTree.readText_eq_ok.2 ⟨["work".toList, "a".toList, "x.proto".toList], rfl, rfl⟩,
    FileTree.readText_eq_ok.2 ⟨["work".toList, "a".toList, "c.proto".toList], rfl, rfl⟩⟩

theorem ofText_shadowingTree :
    FileDecl.ofText "main.proto" (shadowingTree.readText "main.proto") = .ok shadowingRoot
      ∧ FileDecl.ofText "c.proto" (shadowingTree.readText "c.proto")
        = .ok (FileDecl.empty "c.proto")
      ∧ FileDecl.ofText "a/x.proto" (shadowingTree.readText "a/x.proto") = .ok shadowingInner
      ∧ FileDecl.ofText "a/c.proto" (shadowingTree.readText "a/c.proto") = .ok shadowedFile := by
  obtain ⟨hmain, hbeside, hinner, hinnerBeside⟩ := readText_besideTree
    "import \"c.proto\"; import \"a/x.proto\"; message M \x7b optional .T t = 1; \x7d"
    "" "import \"c.proto\";" "message T \x7b\x7d"
  rw [shadowingTree, hmain, hbeside, hinner, hinnerBeside]
  refine ⟨?_, ?_, ?_, ?_⟩ <;> decide +kernel

/-- Both imports of the root are found next to it, and the import of the file in the directory is
found next to that file. -/
theorem finds_shadowingTree :
    (⟨[]⟩ : Search).Finds shadowingTree "" ⟨"c.proto", "main.proto", some ""⟩
        ⟨FileDecl.empty "c.proto", "c.proto", some ""⟩
      ∧ (⟨[]⟩ : Search).Finds shadowingTree "" ⟨"a/x.proto", "main.proto", some ""⟩
        ⟨shadowingInner, "a/x.proto", some "a"⟩
      ∧ (⟨[]⟩ : Search).Finds shadowingTree "" ⟨"c.proto", "a/x.proto", some "a"⟩
        ⟨shadowedFile, "c.proto", some "a"⟩ := by
  obtain ⟨-, hbeside, hinner, hinnerBeside⟩ := ofText_shadowingTree
  refine ⟨?_, ?_, ?_⟩
  · have hfirst : (⟨[]⟩ : Search).firstDirectory? shadowingTree ""
        ⟨"c.proto", "main.proto", some ""⟩ = some "" := rfl
    exact (finds_onDisk_iff hfirst).2 ⟨_, hbeside, rfl⟩
  · have hfirst : (⟨[]⟩ : Search).firstDirectory? shadowingTree ""
        ⟨"a/x.proto", "main.proto", some ""⟩ = some "" := rfl
    exact (finds_onDisk_iff hfirst).2 ⟨_, hinner, rfl⟩
  · have hfirst : (⟨[]⟩ : Search).firstDirectory? shadowingTree ""
        ⟨"c.proto", "a/x.proto", some "a"⟩ = some "a" := rfl
    have hjoin : Path.join "a" "c.proto" = "a/c.proto" := by simp [Path.join, Path.isAbsolute]
    refine (finds_onDisk_iff hfirst).2 ⟨shadowedFile, ?_, ?_⟩
    · rw [hjoin]
      exact hinnerBeside
    · rw [hjoin]
      rfl

/-- The import of the file in the directory is not looked up. -/
theorem collect_shadowingTree :
    (⟨[]⟩ : Search).collect shadowingTree "" shadowingTree.size (.start shadowingRoot "")
      = .ok shadowingWork := by
  obtain ⟨hbeside, hinner, -⟩ := finds_shadowingTree
  have hsize : 2 ≤ shadowingTree.size := by
    refine le_trans ?_ (FileTree.length_text_le_size List.mem_cons_self)
    decide
  obtain ⟨bound, hbound⟩ : ∃ bound, shadowingTree.size = bound + 2 :=
    ⟨_, (Nat.sub_add_cancel hsize).symm⟩
  have hnext : (Worklist.start shadowingRoot "").next?
      = some (⟨"c.proto", "main.proto", some ""⟩,
        ⟨[⟨"a/x.proto", "main.proto", some ""⟩], ["c.proto"], [shadowingRoot]⟩) := rfl
  have hnext' : (Worklist.mk [⟨"a/x.proto", "main.proto", some ""⟩] ["c.proto"]
        [shadowingRoot, FileDecl.empty "c.proto"]).next?
      = some (⟨"a/x.proto", "main.proto", some ""⟩,
        ⟨[], ["a/x.proto", "c.proto"], [shadowingRoot, FileDecl.empty "c.proto"]⟩) := rfl
  have hlast : shadowingWork.next? = none := rfl
  rw [hbound, collect_of_finds hnext hbeside]
  exact (collect_of_finds hnext' hinner bound).trans (collect_of_next?_eq_none hlast bound)

/-- The type that the root uses is declared by a file that is reached.  Because that file is not
loaded, the root has no schema. -/
theorem reached_declared_shadowed :
    ∃ loaded : List Located,
      shadowingWork.files = loaded.map (·.file)
        ∧ (∃ l ∈ loaded, ∃ wanted ∈ l.imports,
            (⟨[]⟩ : Search).Shadowed shadowingTree "main.proto" loaded wanted)
        ∧ (⟨[]⟩ : Search).Reaches shadowingTree "main.proto" ⟨shadowedFile, "c.proto", some "a"⟩
        ∧ ¬ shadowedFile.DeclaredIn (.ofFiles shadowingWork.files)
        ∧ (⟨[]⟩ : Search).load shadowingTree "main.proto" = .error (.unresolvedType ".T" "M") := by
  obtain ⟨hroot, -⟩ := ofText_shadowingTree
  obtain ⟨imported, hfiles, hloaded, -, hdeclared⟩ := reached_declared hroot collect_shadowingTree
  have hbuild : shadowingRoot.build (.ofFiles shadowingWork.files)
      = .error (.unresolvedType ".T" "M") := by decide +kernel
  have hreaches : (⟨[]⟩ : Search).Reaches shadowingTree "main.proto"
      ⟨shadowedFile, "c.proto", some "a"⟩ := by
    obtain ⟨-, hinner, hinnerBeside⟩ := finds_shadowingTree
    refine .imported (.imported (.root hroot) ?_ hinner) ?_ hinnerBeside
    · exact Located.mem_imports.2 ⟨"a/x.proto", by decide, rfl⟩
    · exact Located.mem_imports.2 ⟨"c.proto", by decide, rfl⟩
  have hmissing : ¬ shadowedFile.DeclaredIn (.ofFiles shadowingWork.files) := by
    intro h
    obtain ⟨kind, hkind, -⟩ := h ("T", .message) (by decide)
    exact absurd hkind (by cases kind <;> decide)
  refine ⟨Located.root "main.proto" shadowingRoot :: imported, hfiles, ?_, hreaches, hmissing, ?_⟩
  · by_contra hclear
    refine hmissing (hdeclared ?_ _ hreaches)
    intro l hl wanted hwanted hshadowed
    exact hclear ⟨l, hl, wanted, hwanted, hshadowed⟩
  · have hdirectory : directoryOf "main.proto" = "" := rfl
    simp only [load_eq, hroot, hdirectory, collect_shadowingTree, bind, Except.bind]
    exact hbuild

end Search

end MettaSchema
