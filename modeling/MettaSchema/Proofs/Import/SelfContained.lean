import MettaSchema.Proofs.Import.Turns
import MettaSchema.Proofs.Schema.Lookup
import MettaSchema.Schema.Parse

/-!
# Files that import bundled files only

A file on the disk whose imports are all bundled has the schema of its text.  The two are made in
different ways: a text takes what its imports bring one after another, and passes over those that
are not bundled; a file takes each path once, and fails where nothing is found for it.

* `Search.Missing` — no directory has the file of an import.
* `Search.exists_runs_bundled` — loading brings exactly the bundled files.
* `Search.exists_runs_missing` — loading fails with the first import that is missing.
* `Search.load_eq_parse` — what both mean for the schema of the file.
-/

namespace MettaSchema

/-! ## What is looked up -/

namespace Search

variable {search : Search} {tree : FileTree} {path directory : String}

/-- No directory has the file of an import: neither the include paths nor the given directory. -/
def Missing (search : Search) (tree : FileTree) (directory target : String) : Prop :=
  ∀ d ∈ search.includePaths ++ [directory], tree.isFile (Path.join d target) = false

/-- An import of a file in a directory. -/
def wantedIn (directory importer target : String) : Wanted :=
  ⟨target, importer, some directory⟩

theorem Missing.firstDirectory? {importer target : String}
    (h : search.Missing tree directory target) :
    search.firstDirectory? tree directory (wantedIn directory importer target) = none := by
  refine List.find?_eq_none.2 fun d hd => ?_
  have hmem : d ∈ search.includePaths ++ [directory] := by
    simpa [directories, wantedIn] using hd
  simp [wantedIn, h d hmem]

theorem Missing.fetch_bundled {importer target : String} {file : FileDecl}
    (h : search.Missing tree directory target) (hbundled : Bundled.file? target = some file) :
    search.fetch tree directory (wantedIn directory importer target) = .ok (file, none) :=
  fetch_eq_ok_iff.2 ((finds_bundled_iff h.firstDirectory?).2 ⟨file, hbundled, rfl⟩)

theorem Missing.fetch_error {importer target : String} (h : search.Missing tree directory target)
    (hbundled : Bundled.file? target = none) :
    search.fetch tree directory (wantedIn directory importer target)
      = .error (.importNotFound target importer) := by
  rw [fetch_eq, find?_candidates, h.firstDirectory?]
  simp [choose, wantedIn, hbundled]

theorem Missing.not_finds {importer target : String} (h : search.Missing tree directory target)
    (hbundled : Bundled.file? target = none) (found : Located) :
    ¬ search.Finds tree directory (wantedIn directory importer target) found := by
  rw [finds_bundled_iff h.firstDirectory?]
  rintro ⟨file, hfile, -⟩
  cases hbundled.symm.trans hfile

/-- If all imports are bundled, exactly the files that they stand for are loaded: an import is
passed over if its path was looked up before, and bundled files import nothing. -/
theorem exists_runs_bundled {importer : String} (targets : List String) :
    ∀ {work : Worklist}, work.queue = targets.map (wantedIn directory importer) →
      (∀ t ∈ targets, (Bundled.file? t).isSome ∧ search.Missing tree directory t) →
      ∃ turns more, search.Runs tree directory work turns (.ok (work.files ++ more))
        ∧ (∀ f ∈ more, ∃ t ∈ targets, Bundled.file? t = some f)
        ∧ ∀ t ∈ targets, t ∉ work.seen → ∀ f, Bundled.file? t = some f → f ∈ more := by
  induction targets with
  | nil =>
    intro work hqueue _
    refine ⟨[], [], ?_, nofun, nofun⟩
    rw [List.append_nil]
    exact .done hqueue
  | cons target rest ih =>
    intro work hqueue hall
    obtain ⟨⟨hsome, hmissing⟩, hrest⟩ := List.forall_mem_cons.1 hall
    by_cases hseen : target ∈ work.seen
    · obtain ⟨turns, more, hruns, hfrom, hmore⟩ := @ih { work with queue := _ } rfl hrest
      refine ⟨_, more, .skip hqueue hseen hruns, fun f hf => ?_, ?_⟩
      · obtain ⟨t, ht, hfile⟩ := hfrom f hf
        exact ⟨t, List.mem_cons_of_mem _ ht, hfile⟩
      · exact List.forall_mem_cons.2 ⟨fun hnew => absurd hseen hnew, hmore⟩
    · obtain ⟨file, hfile⟩ := Option.isSome_iff_exists.1 hsome
      have hqueue' : ((work.taken target (rest.map (wantedIn directory importer))).add
          (wantedIn directory importer target) file none).queue
            = rest.map (wantedIn directory importer) := by
        simp [Worklist.add, Worklist.taken, Worklist.wantedBy, Bundled.imports_eq_nil hfile]
      obtain ⟨turns, more, hruns, hfrom, hmore⟩ := ih hqueue' hrest
      have hload := Runs.load hqueue hseen (hmissing.fetch_bundled hfile) hruns
      refine ⟨_, file :: more, by simpa [Worklist.add, Worklist.taken] using hload, ?_, ?_⟩
      · refine List.forall_mem_cons.2 ⟨⟨target, List.mem_cons_self, hfile⟩, fun f hf => ?_⟩
        obtain ⟨t, ht, hfile'⟩ := hfrom f hf
        exact ⟨t, List.mem_cons_of_mem _ ht, hfile'⟩
      · intro t ht hnew f hf
        by_cases htarget : t = target
        · subst htarget
          cases hfile.symm.trans hf
          exact List.mem_cons_self
        · refine List.mem_cons_of_mem _ (hmore t (List.mem_of_ne_of_mem htarget ht) ?_ f hf)
          simp [Worklist.add, Worklist.taken, htarget, hnew]

/-- Loading fails with an import that is missing and not bundled, if all imports before it are
found. -/
theorem exists_runs_missing {importer target : String} (hbundled : Bundled.file? target = none)
    (hmissing : search.Missing tree directory target) (before : List String) :
    ∀ {work : Worklist} {rest : List Wanted},
      work.queue = before.map (wantedIn directory importer)
        ++ wantedIn directory importer target :: rest →
      (∀ t ∈ before, ∃ found, search.Finds tree directory (wantedIn directory importer t) found) →
      target ∉ work.seen →
      ∃ turns, search.Runs tree directory work turns (.error (.importNotFound target importer)) := by
  induction before with
  | nil =>
    intro work rest hqueue _ hnew
    exact ⟨_, .fail hqueue hnew (hmissing.fetch_error hbundled)⟩
  | cons t before ih =>
    intro work rest hqueue hfound hnew
    obtain ⟨⟨found, hfinds⟩, hbefore⟩ := List.forall_mem_cons.1 hfound
    have hne : target ≠ t := by
      rintro rfl
      exact hmissing.not_finds hbundled found hfinds
    by_cases hseen : t ∈ work.seen
    · obtain ⟨turns, hruns⟩ := @ih { work with queue := _ } rest rfl hbefore hnew
      exact ⟨_, .skip hqueue hseen hruns⟩
    · obtain ⟨file, name, parent⟩ := found
      cases hfinds.name_eq
      have hqueue' : ((work.taken t (before.map (wantedIn directory importer)
          ++ wantedIn directory importer target :: rest)).add
            (wantedIn directory importer t) file parent).queue
          = before.map (wantedIn directory importer) ++ wantedIn directory importer target
            :: (rest ++ Worklist.wantedBy file t parent) := by
        simp [Worklist.add, Worklist.taken, wantedIn]
      have hnew' : target ∉ t :: work.seen := fun hmem => (List.mem_cons.1 hmem).elim hne hnew
      obtain ⟨turns, hruns⟩ := ih hqueue' hbefore hnew'
      exact ⟨_, .load hqueue hseen (fetch_eq_ok_iff.2 hfinds) hruns⟩

end Search

/-! ## The schema -/

namespace Search

variable {search : Search} {tree : FileTree} {path : String}

theorem start_queue (directory : String) {root : FileDecl} {name : String}
    (hname : root.name = name) :
    (Worklist.start root directory).queue = root.imports.map (wantedIn directory name) := by
  simp [Worklist.start, Worklist.wantedBy, wantedIn, hname]

/-- If all imports of a file are bundled and missing, the schema of the file is that of its text. -/
theorem load_of_bundled {name text : String} {root : FileDecl}
    (hread : FileDecl.ofText path (tree.readText path) = FileDecl.parse name text)
    (hroot : FileDecl.parse name text = .ok root)
    (hall : ∀ t ∈ root.imports, (Bundled.file? t).isSome
      ∧ search.Missing tree (directoryOf path) t) :
    search.load tree path = Schema.parse name text := by
  have hqueue := start_queue (directoryOf path) (FileDecl.name_parse hroot)
  obtain ⟨turns, more, hruns, hfrom, hmore⟩ := exists_runs_bundled root.imports hqueue hall
  have hsame : ∀ file, file ∈ more ↔ file ∈ root.imports.filterMap Bundled.file? := by
    intro file
    rw [List.mem_filterMap]
    constructor
    · exact hfrom file
    · rintro ⟨t, ht, hfile⟩
      exact hmore t ht List.not_mem_nil file hfile
  have hbundled : ∀ file ∈ root.imports.filterMap Bundled.file?, file ∈ Bundled.files := by
    intro file hfile
    obtain ⟨t, -, hfound⟩ := List.mem_filterMap.1 hfile
    exact List.mem_of_find?_eq_some hfound
  have htable : (SymbolTable.ofFiles (root :: more)).find?
      = (SymbolTable.ofFiles (root :: root.imports.filterMap Bundled.file?)).find? := by
    funext fullName
    rw [SymbolTable.find?_ofFiles_cons root more,
      SymbolTable.find?_ofFiles_cons root (root.imports.filterMap _),
      SymbolTable.find?_bundled_congr hsame hbundled]
  rw [hruns.load_eq (hread.trans hroot)]
  simp only [Schema.parse, hroot, bind, Except.bind]
  exact FileDecl.build_congr htable root

/-- If an import is missing and not bundled, and all before it are found, loading fails with it. -/
theorem load_of_missing {name text target : String} {root : FileDecl} {before after : List String}
    (hread : FileDecl.ofText path (tree.readText path) = FileDecl.parse name text)
    (hroot : FileDecl.parse name text = .ok root)
    (himports : root.imports = before ++ target :: after)
    (hfound : ∀ t ∈ before, ∃ found,
      search.Finds tree (directoryOf path) (wantedIn (directoryOf path) name t) found)
    (hbundled : Bundled.file? target = none)
    (hmissing : search.Missing tree (directoryOf path) target) :
    search.load tree path = .error (.importNotFound target name) := by
  have hqueue := start_queue (directoryOf path) (FileDecl.name_parse hroot)
  rw [himports, List.map_append, List.map_cons] at hqueue
  obtain ⟨turns, hruns⟩ :=
    exists_runs_missing hbundled hmissing before hqueue hfound List.not_mem_nil
  rw [hruns.load_eq (hread.trans hroot)]
  rfl

/-- A file on the disk and its text.  If all imports are bundled and no directory has a file for
one of them, both have the same schema, or both the same error.  If some import is neither bundled
nor found, and all before it are found, there is no schema of the file, and the schema of the text
is made without that import. -/
theorem load_eq_parse (search : Search) {text : String} (hread : tree.readText path = .ok text) :
    ∃ name, Path.fileName? path = some name
      ∧ ((∀ root, FileDecl.parse name text = .ok root → ∀ target ∈ root.imports,
            (Bundled.file? target).isSome ∧ search.Missing tree (directoryOf path) target) →
          search.load tree path = Schema.parse name text)
      ∧ ∀ root before target after, FileDecl.parse name text = .ok root →
          root.imports = before ++ target :: after →
          (∀ t ∈ before, ∃ found,
            search.Finds tree (directoryOf path) (wantedIn (directoryOf path) name t) found) →
          Bundled.file? target = none → search.Missing tree (directoryOf path) target →
          search.load tree path = .error (.importNotFound target name)
            ∧ Schema.parse name text
              = root.build (.ofFiles (root :: (before ++ after).filterMap Bundled.file?)) := by
  obtain ⟨name, hname⟩ := FileTree.fileName?_of_readText hread
  have hoftext : FileDecl.ofText path (tree.readText path) = FileDecl.parse name text := by
    rw [hread, FileDecl.ofText, hname, Option.getD_some]
  refine ⟨name, hname, fun hall => ?_, ?_⟩
  · cases hroot : FileDecl.parse name text with
    | error e => simp only [load_eq, Schema.parse, hoftext, hroot, bind, Except.bind]
    | ok root => exact load_of_bundled hoftext hroot (hall root hroot)
  · intro root before target after hroot himports hfound hbundled hmissing
    refine ⟨load_of_missing hoftext hroot himports hfound hbundled hmissing, ?_⟩
    have hpassed : root.imports.filterMap Bundled.file?
        = (before ++ after).filterMap Bundled.file? := by
      rw [himports, List.filterMap_append, List.filterMap_append,
        List.filterMap_cons_none hbundled]
    simp only [Schema.parse, hroot, hpassed, bind, Except.bind]

/-- A single file, in the working directory. -/
def singleTree (text : String) : FileTree :=
  ⟨["work".toList], [(["work".toList, "a.proto".toList], .file text.toUTF8)]⟩

/-- A text that imports a bundled file twice and uses its type. -/
def bundledText : String :=
  "import\"google/protobuf/empty.proto\";import\"google/protobuf/empty.proto\";"
    ++ "message M\x7boptional google.protobuf.Empty e=1;\x7d"

/-- A text that imports a bundled file and one that there is not. -/
def missingText : String :=
  "import\"google/protobuf/empty.proto\";import\"x.proto\";"

/-- What the first text declares. -/
def bundledRoot : FileDecl :=
  { FileDecl.empty "a.proto" with
    imports := ["google/protobuf/empty.proto", "google/protobuf/empty.proto"]
    messages := [⟨"M", [⟨"e", 1, .optional, .named "google.protobuf.Empty"⟩], [], []⟩] }

/-- What the second text declares. -/
def missingRoot : FileDecl :=
  { FileDecl.empty "a.proto" with imports := ["google/protobuf/empty.proto", "x.proto"] }

/-- The file is read along its name, and along its path from the root. -/
theorem readText_singleTree (text : String) : (singleTree text).readText "a.proto" = .ok text
    ∧ (singleTree text).readText "/work/a.proto" = .ok text :=
  ⟨FileTree.readText_eq_ok.2 ⟨["work".toList, "a.proto".toList], rfl, rfl⟩,
    FileTree.readText_eq_ok.2 ⟨["work".toList, "a.proto".toList], rfl, rfl⟩⟩

theorem missing_singleTree (text : String) :
    (⟨["../inc"]⟩ : Search).Missing (singleTree text) "/work" "google/protobuf/empty.proto"
      ∧ (⟨["../inc"]⟩ : Search).Missing (singleTree text) "/work" "x.proto" :=
  ⟨List.forall_mem_cons.2 ⟨rfl, List.forall_mem_singleton.2 rfl⟩,
    List.forall_mem_cons.2 ⟨rfl, List.forall_mem_singleton.2 rfl⟩⟩

/-- Of the first text and of its file the schema is the same.  The second text has a schema, and
its file has none. -/
theorem load_eq_parse_single :
    (⟨["../inc"]⟩ : Search).load (singleTree bundledText) "/work/a.proto"
        = Schema.parse "a.proto" bundledText
      ∧ (Schema.parse "a.proto" bundledText).map (·.messages.map (·.2.fields))
        = .ok [[⟨"e", 1, .optional, .message ⟨"Empty", "google.protobuf.Empty"⟩⟩]]
      ∧ (⟨["../inc"]⟩ : Search).load (singleTree missingText) "/work/a.proto"
        = .error (.importNotFound "x.proto" "a.proto")
      ∧ (Schema.parse "a.proto" missingText).map (·.imports)
        = .ok ["google/protobuf/empty.proto", "x.proto"] := by
  have hroot : FileDecl.parse "a.proto" bundledText = .ok bundledRoot := by decide +kernel
  have hroot' : FileDecl.parse "a.proto" missingText = .ok missingRoot := by decide +kernel
  have hfile : Path.fileName? "/work/a.proto" = some "a.proto" := by decide
  obtain ⟨_, hname, hsame, -⟩ := load_eq_parse ⟨["../inc"]⟩ (readText_singleTree bundledText).2
  obtain ⟨_, hname', -, hfails⟩ := load_eq_parse ⟨["../inc"]⟩ (readText_singleTree missingText).2
  cases hfile.symm.trans hname
  cases hfile.symm.trans hname'
  obtain ⟨hbundled, -⟩ := missing_singleTree bundledText
  obtain ⟨hbundled', hmissing⟩ := missing_singleTree missingText
  have hempty : ∃ found, (⟨["../inc"]⟩ : Search).Finds (singleTree missingText) "/work"
      (wantedIn "/work" "a.proto" "google/protobuf/empty.proto") found :=
    ⟨_, (finds_bundled_iff hbundled'.firstDirectory?).2 ⟨_, rfl, rfl⟩⟩
  obtain ⟨hload, hparse⟩ := hfails missingRoot ["google/protobuf/empty.proto"] "x.proto" [] hroot'
    rfl (List.forall_mem_singleton.2 hempty) rfl hmissing
  refine ⟨hsame ?_, ?_, hload, ?_⟩
  · intro root h target htarget
    cases hroot.symm.trans h
    have hname : target = "google/protobuf/empty.proto" := by
      simpa [bundledRoot] using htarget
    rw [hname]
    exact ⟨rfl, hbundled⟩
  · rw [Schema.parse, hroot]
    decide +kernel
  · rw [hparse]
    decide +kernel

end Search

end MettaSchema
