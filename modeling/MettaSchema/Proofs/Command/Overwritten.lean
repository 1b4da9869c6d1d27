import MettaSchema.Proofs.Command.Translating
import MettaSchema.Proofs.File.Extension
import MettaSchema.Proofs.Grammar.Skipped

/-!
# Files that are overwritten

If no output is named, the document is written beside the input, under the name of the input with
the extension `metta`.  Nothing keeps it from being written over a file that was read: the input
itself, if that has this extension, or a file that was imported.  Since no document is a schema,
what was there is lost in these cases, and only in these.

* `Proto.Stuck` — texts that are read up to some place and no further.
* `FileDecl.parse_toMetta_ne` — no document is a schema.
* `Search.ReadAt` — the paths at which files are read.
* `Outcome.keeps_iff` — which of the files that were read keep their contents.
-/

namespace MettaSchema

open Scan

/-! ## Documents are no schemas -/

namespace Proto

open Phrase

/-- However many statements are read from the text, something is left behind them. -/
def Stuck (s : List Char) : Prop :=
  ∀ ts r, Series topLevel s ts r → (blanks r).2 ≠ []

variable {s s' : List Char}

/-- Where no statement can begin, none is read. -/
theorem stuck_of_blocked (hne : (blanks s).2 ≠ []) (hb : topLevel.blocked (blanks s).2 = true) :
    Stuck s := by
  intro ts r h
  cases h with
  | nil => exact hne
  | cons _ hreads _ => cases (reads_none_of_blocked (blanks_snd s) hb).unique hreads

/-- A semicolon is a statement of its own. -/
theorem Stuck.semicolon (h : Stuck s') (hs : (blanks s).2 = ';' :: s') : Stuck s := by
  have hmark : Reads false emptyStatement (';' :: s') (some ([.mark [';']], s')) := .mark_some rfl
  have hone : Reads false topLevel (';' :: s') (some ([.mark [';']], s')) :=
    hmark.choice_of_semicolon [importLine, packageLine, optionStatement, messageDef, enumDef,
      serviceDef, extendDef] (fun _ => rfl) (blanks_of_head rfl)
  intro ts r hseries
  cases hseries with
  | nil => simp [hs]
  | cons _ hreads hmore =>
    rw [hs] at hreads
    cases hone.unique hreads
    exact h _ _ hmore

theorem Stuck.semicolons (h : Stuck s) (n : Nat) : Stuck (List.replicate n ';' ++ s) := by
  induction n with
  | zero => exact h
  | succ n ih =>
    refine ih.semicolon (s := List.replicate (n + 1) ';' ++ s) ?_
    rw [List.replicate_succ, List.cons_append, blanks_of_head rfl]

/-- A file ends where its statements do. -/
theorem Stuck.read_eq_none (h : Stuck s) (hdialect : dialectLine.blocked (blanks s).2 = true) :
    Proto.read file s = none := by
  have hreads := read_reads sound_file s
  cases hread : Proto.read file s with
  | none => rfl
  | some taken =>
    rw [hread] at hreads
    cases hreads with | node_some hreads =>
    cases hreads with | seq_both h₁ hreads =>
    cases h₁ with | nothing =>
    cases hreads with | seq_both h₁ hreads =>
    cases h₁ with
    | opt_some hsome => cases (reads_none_of_blocked (blanks_snd s) hdialect).unique hsome
    | opt_none =>
      have hsingle := (element_of_isBlock (rfl : Rule.isBlock .proto = true)).single
      rw [blanks_snd] at hreads
      obtain ⟨ts, r, _, hseries, -, hend, -⟩ := Series.of_star hsingle hreads
      exact absurd (endOfInput_inv hend).1 (h ts r hseries)

end Proto

/-- A document begins with a line of semicolons and a title. -/
theorem Schema.toMetta_eq (schema : Schema) (options : Options) : ∃ rest,
    (schema.toMetta options).toList
      = List.replicate 61 ';' ++ '\n' :: ';' :: ';' :: ' ' :: 'M' :: 'e' :: rest := by
  have htitle : ";; " ++ "MeTTa representation, generated by protobuf-metta" ++ "\n"
      = String.ofList [';', ';', ' ', 'M', 'e']
        ++ "TTa representation, generated by protobuf-metta\n" := by
    decide
  obtain ⟨more, hmore⟩ : ∃ more, schema.toMetta options
      = (String.ofList (List.replicate 61 ';') ++ "\n")
        ++ ((";; " ++ "MeTTa representation, generated by protobuf-metta" ++ "\n") ++ more) :=
    ⟨_, rfl⟩
  rw [hmore, htitle, String.toList_append, String.toList_append, String.toList_append,
    String.toList_append, String.toList_ofList, String.toList_ofList, List.append_assoc,
    List.append_assoc]
  exact ⟨_, rfl⟩

/-- No document is a schema: behind the semicolons of its first lines there is no statement. -/
theorem FileDecl.parse_toMetta_ne (name : String) (schema : Schema) (options : Options)
    (file : FileDecl) : FileDecl.parse name (schema.toMetta options) ≠ .ok file := by
  obtain ⟨rest, htext⟩ := schema.toMetta_eq options
  have htitle : Proto.Stuck (' ' :: 'M' :: 'e' :: rest) :=
    Proto.stuck_of_blocked (List.cons_ne_nil 'M' _) rfl
  have hline : Proto.Stuck ('\n' :: ';' :: ';' :: ' ' :: 'M' :: 'e' :: rest) :=
    Proto.Stuck.semicolon (htitle.semicolon rfl) rfl
  have hnone := (hline.semicolons 61).read_eq_none rfl
  intro hparse
  simp only [FileDecl.parse, htext, Proto.parse, hnone] at hparse
  cases hparse

/-! ## The files that are read -/

theorem FileDecl.exists_parse_of_ofText {path : String} {result : Except FileError String}
    {file : FileDecl} (h : FileDecl.ofText path result = .ok file) :
    ∃ text name, result = .ok text ∧ FileDecl.parse name text = .ok file := by
  cases result with
  | error e => cases h
  | ok text => exact ⟨text, _, rfl, h⟩

namespace Search

variable {search : Search} {tree : FileTree} {path rootDirectory : String}

/-- The paths at which files are read when the schema of a file is loaded. -/
inductive ReadAt (search : Search) (tree : FileTree) (path : String) : String → Prop
  /-- The file that was asked for. -/
  | input : ReadAt search tree path path
  /-- A file that is loaded for an import, from the first directory that has it. -/
  | imported {root file : FileDecl} {turns : List Turn}
      {outcome : Except SchemaError (List FileDecl)} {wanted : Wanted} {directory : String}
      (hroot : FileDecl.ofText path (tree.readText path) = .ok root)
      (hruns : search.Runs tree (directoryOf path) (.start root (directoryOf path)) turns outcome)
      (hloaded : .loaded wanted file ∈ turns)
      (hdirectory : search.firstDirectory? tree (directoryOf path) wanted = some directory) :
      ReadAt search tree path (Path.join directory wanted.path)

/-- What is loaded was fetched. -/
theorem Runs.fetch_of_loaded {work : Worklist} {turns : List Turn}
    {outcome : Except SchemaError (List FileDecl)} {wanted : Wanted} {file : FileDecl}
    (h : search.Runs tree rootDirectory work turns outcome)
    (hloaded : .loaded wanted file ∈ turns) :
    ∃ directory, search.fetch tree rootDirectory wanted = .ok (file, directory) := by
  induction h with
  | done => cases hloaded
  | skip _ _ _ ih => exact ih ((List.mem_cons.1 hloaded).resolve_left nofun)
  | load _ _ hfetch _ ih =>
    rcases List.mem_cons.1 hloaded with heq | hloaded
    · cases heq
      exact ⟨_, hfetch⟩
    · exact ih hloaded
  | fail => cases (List.mem_singleton.1 hloaded)

/-- What is read while a schema is loaded is a schema file. -/
theorem ReadAt.exists_parse {schema : Schema} {path' : String}
    (hload : search.load tree path = .ok schema) (h : search.ReadAt tree path path') :
    ∃ text name file, tree.readText path' = .ok text ∧ FileDecl.parse name text = .ok file := by
  cases h with
  | input =>
    rw [load_eq, bind_eq_ok] at hload
    obtain ⟨root, hroot, -⟩ := hload
    obtain ⟨text, name, htext, hparse⟩ := FileDecl.exists_parse_of_ofText hroot
    exact ⟨text, name, root, htext, hparse⟩
  | @imported root file turns outcome wanted directory hroot hruns hloaded hdirectory =>
    obtain ⟨_, hfetch⟩ := hruns.fetch_of_loaded hloaded
    obtain ⟨file, hfile, -⟩ := (finds_onDisk_iff hdirectory).1 (fetch_eq_ok_iff.1 hfetch)
    obtain ⟨text, name, htext, hparse⟩ := FileDecl.exists_parse_of_ofText hfile
    exact ⟨text, name, file, htext, hparse⟩

end Search

/-! ## The files that are kept -/

namespace Outcome

variable {words : List String} {arguments : Arguments} {tree : FileTree}

/-- A translation that ends with exit code zero has written the document of its input. -/
theorem writeText_of_exitCode (hread : Request.read words = .ok (.translate arguments))
    (hzero : (ofWords words tree).exitCode = 0) :
    ∃ schema, arguments.search.load tree arguments.input = .ok schema
      ∧ tree.writeText arguments.outputPath (schema.toMetta arguments.options)
        = .ok (ofWords words tree).files := by
  rw [ofWords_translate hread, ofArguments_eq] at hzero ⊢
  cases hload : arguments.search.load tree arguments.input with
  | error e => simp [hload, failed, Answer.failure] at hzero
  | ok schema =>
    cases hwrite : tree.writeText arguments.outputPath (schema.toMetta arguments.options) with
    | error e => simp [hload, hwrite, failed, Answer.failure] at hzero
    | ok files => exact ⟨schema, rfl, by simp only [hwrite]⟩

/-- A file that was read keeps its content exactly if the output path does not lead to it: what is
written there is no schema. -/
theorem nodeOf?_eq_iff_of_readAt (hread : Request.read words = .ok (.translate arguments))
    (hzero : (ofWords words tree).exitCode = 0) {path : String}
    (hpath : arguments.search.ReadAt tree arguments.input path) :
    (ofWords words tree).files.nodeOf? path = tree.nodeOf? path
      ↔ tree.follow path ≠ tree.follow arguments.outputPath := by
  obtain ⟨schema, hload, hwrite⟩ := writeText_of_exitCode hread hzero
  obtain ⟨text, name, file, htext, hparse⟩ := hpath.exists_parse hload
  refine FileTree.nodeOf?_eq_iff_of_writeText htext ?_ hwrite
  rintro rfl
  exact FileDecl.parse_toMetta_ne name schema arguments.options file hparse

/-! ## A file that imports one with the extension of documents -/

/-- Two files in the working directory: the first imports the second, which has the extension of
documents, by its path from the root. -/
def importingTree : FileTree :=
  ⟨["work".toList],
    [(["work".toList, "a.proto".toList], .file "import '/work/a.metta';".toUTF8),
      (["work".toList, "a.metta".toList], .file "message A \x7b\x7d".toUTF8)]⟩

/-- What the first file declares: an import. -/
def importingFile : FileDecl :=
  { FileDecl.empty "a.proto" with imports := ["/work/a.metta"] }

/-- What the second file declares. -/
def importedFile : FileDecl :=
  { FileDecl.empty "a.metta" with messages := [⟨"A", [], [], []⟩] }

/-- The schemas of both files. -/
def importingSchema (name : String) (imports : List String) (messages : List (String × Message)) :
    Schema :=
  { name, imports, messages, dialect := .proto2, package := none, enums := [], services := [] }

theorem readText_importingTree : importingTree.readText "a.proto" = .ok "import '/work/a.metta';"
    ∧ importingTree.readText "a.metta" = .ok "message A \x7b\x7d"
    ∧ importingTree.readText "/work/a.metta" = .ok "message A \x7b\x7d" :=
  ⟨FileTree.readText_eq_ok.2 ⟨["work".toList, "a.proto".toList], rfl, rfl⟩,
    FileTree.readText_eq_ok.2 ⟨["work".toList, "a.metta".toList], rfl, rfl⟩,
    FileTree.readText_eq_ok.2 ⟨["work".toList, "a.metta".toList], rfl, rfl⟩⟩

theorem ofText_importingTree :
    FileDecl.ofText "a.proto" (importingTree.readText "a.proto") = .ok importingFile
    ∧ FileDecl.ofText "a.metta" (importingTree.readText "a.metta") = .ok importedFile
    ∧ FileDecl.ofText "/work/a.metta" (importingTree.readText "/work/a.metta")
      = .ok importedFile := by
  obtain ⟨hroot, himported, himported'⟩ := readText_importingTree
  rw [hroot, himported, himported']
  exact ⟨by decide +kernel, by decide +kernel, by decide +kernel⟩

/-- The second file is found for the import. -/
theorem runs_importingTree :
    (⟨[]⟩ : Search).firstDirectory? importingTree "" ⟨"/work/a.metta", "a.proto", some ""⟩ = some ""
    ∧ (⟨[]⟩ : Search).Runs importingTree "" (.start importingFile "")
      [.loaded ⟨"/work/a.metta", "a.proto", some ""⟩ importedFile]
      (.ok [importingFile, importedFile]) := by
  have hfirst : (⟨[]⟩ : Search).firstDirectory? importingTree ""
      ⟨"/work/a.metta", "a.proto", some ""⟩ = some "" := rfl
  have hfetch : (⟨[]⟩ : Search).fetch importingTree "" ⟨"/work/a.metta", "a.proto", some ""⟩
      = .ok (importedFile, Path.parent? "/work/a.metta") :=
    Search.fetch_eq_ok_iff.2 ((Search.finds_onDisk_iff hfirst).2
      ⟨importedFile, ofText_importingTree.2.2, rfl⟩)
  exact ⟨hfirst, .load rfl (by decide) hfetch (.done rfl)⟩

/-- Both files have schemas, and the document of either takes the place of the second. -/
theorem exitCode_importingTree : (ofWords ["a.proto"] importingTree).exitCode = 0
    ∧ (ofWords ["a.metta"] importingTree).exitCode = 0 := by
  have hexit {path : String} {schema : Schema} (hread : Request.read [path]
      = .ok (.translate ⟨path, none, "", false, [], 0⟩))
      (hload : (⟨[]⟩ : Search).load importingTree path = .ok schema)
      (houtput : Path.withExtension path "metta" = "a.metta") :
      (ofWords [path] importingTree).exitCode = 0 := by
    have hwrite (text : String) : importingTree.writeText "a.metta" text
        = .ok (importingTree.set ["work".toList, "a.metta".toList] (.file text.toUTF8)) := rfl
    rw [ofWords_translate hread, ofArguments_eq]
    simp only [Arguments.search, hload, Arguments.outputPath, Option.getD_none, houtput, hwrite,
      Answer.success]
  have hfirst : (⟨[]⟩ : Search).load importingTree "a.proto"
      = .ok (importingSchema "a.proto" ["/work/a.metta"] []) := by
    rw [runs_importingTree.2.load_eq ofText_importingTree.1]
    rfl
  have hruns : (⟨[]⟩ : Search).Runs importingTree "" (.start importedFile "") _
      (.ok [importedFile]) := .done rfl
  have hsecond : (⟨[]⟩ : Search).load importingTree "a.metta"
      = .ok (importingSchema "a.metta" [] [("A", ⟨"A", "A", [], [], [], .nil⟩)]) := by
    rw [hruns.load_eq ofText_importingTree.2.1]
    rfl
  exact ⟨hexit (by decide) hfirst (by decide), hexit (by decide) hsecond (by decide)⟩

/-- If no output is named and the exit code is zero, a file that was read keeps its content exactly
if the path of the input with the extension `metta` does not lead to it.  So the input keeps its
content exactly if it does not have this extension. -/
theorem keeps_iff (hread : Request.read words = .ok (.translate arguments))
    (houtput : arguments.output = none) (hzero : (ofWords words tree).exitCode = 0) :
    (∀ path, arguments.search.ReadAt tree arguments.input path →
      ((ofWords words tree).files.nodeOf? path = tree.nodeOf? path
        ↔ tree.follow path ≠ tree.follow (Path.withExtension arguments.input "metta")))
    ∧ ∃ name, Path.fileName? arguments.input = some name
      ∧ ((ofWords words tree).files.nodeOf? arguments.input = tree.nodeOf? arguments.input
        ↔ ¬ Path.HasExtension name.toList "metta".toList) := by
  have hpath : arguments.outputPath = Path.withExtension arguments.input "metta" := by
    rw [Arguments.outputPath, houtput, Option.getD_none]
  have hkeeps {path : String} (h : arguments.search.ReadAt tree arguments.input path) :=
    hpath ▸ nodeOf?_eq_iff_of_readAt hread hzero h
  obtain ⟨schema, hload, -⟩ := writeText_of_exitCode hread hzero
  have hinput : arguments.search.ReadAt tree arguments.input arguments.input := .input
  obtain ⟨text, _, _, htext, -⟩ := hinput.exists_parse hload
  have hslash : '/' ∉ "metta".toList := by decide
  obtain ⟨name, hname, hsame⟩ :=
    FileTree.follow_withExtension_eq_iff htext hslash (by decide) (by decide)
  refine ⟨fun path h => hkeeps h, name, hname, ?_⟩
  rw [hkeeps hinput, Ne, hsame]

/-- The file that imports the other one is kept, and the other one is not: the path from the root
under which it was read and the path beside the input lead to one file. -/
theorem keeps_iff_importing :
    Request.read ["a.proto"] = .ok (.translate ⟨"a.proto", none, "", false, [], 0⟩)
      ∧ (ofWords ["a.proto"] importingTree).exitCode = 0
      ∧ (⟨[]⟩ : Search).ReadAt importingTree "a.proto" "/work/a.metta"
      ∧ (ofWords ["a.proto"] importingTree).files.nodeOf? "a.proto"
        = importingTree.nodeOf? "a.proto"
      ∧ (ofWords ["a.proto"] importingTree).files.nodeOf? "/work/a.metta"
        ≠ importingTree.nodeOf? "/work/a.metta" := by
  have hread : Request.read ["a.proto"] = .ok (.translate ⟨"a.proto", none, "", false, [], 0⟩) := by
    decide
  obtain ⟨hfirst, hruns⟩ := runs_importingTree
  have hpath : (⟨[]⟩ : Search).ReadAt importingTree "a.proto" "/work/a.metta" :=
    .imported ofText_importingTree.1 hruns List.mem_cons_self hfirst
  obtain ⟨hkeeps, -⟩ := keeps_iff hread rfl exitCode_importingTree.1
  refine ⟨hread, exitCode_importingTree.1, hpath, (hkeeps _ .input).2 (by decide), fun heq => ?_⟩
  exact (hkeeps _ hpath).1 heq (by decide)

/-- A run without a named output can destroy its input. -/
theorem not_keeps_input : ¬ ∀ (words : List String) (arguments : Arguments) (tree : FileTree),
    Request.read words = .ok (.translate arguments) → arguments.output = none →
      (ofWords words tree).exitCode = 0 →
        ∀ path, arguments.search.ReadAt tree arguments.input path →
          (ofWords words tree).files.nodeOf? path = tree.nodeOf? path := by
  intro h
  have hread : Request.read ["a.metta"] = .ok (.translate ⟨"a.metta", none, "", false, [], 0⟩) := by
    decide
  have hsame := h _ _ importingTree hread rfl exitCode_importingTree.2 "a.metta" .input
  exact (nodeOf?_eq_iff_of_readAt hread exitCode_importingTree.2 .input).1 hsame (by decide)

end Outcome

end MettaSchema
