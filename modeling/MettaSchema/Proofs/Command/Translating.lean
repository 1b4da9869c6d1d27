import MettaSchema.Command.Run
import MettaSchema.Proofs.Command.Given
import MettaSchema.Proofs.File.Writing
import MettaSchema.Proofs.Import.SelfContained

/-!
# Runs of the command

A run that asks for a translation writes the document of one file to one path, or it changes no
file.  Its exit code tells which of the two: it is zero exactly if nothing fails.

* `Outcome.Fails` — how a run can fail.
* `Outcome.failed_of_fails` — then its exit code is not zero and the files are as they were.
* `Outcome.fails_or_written` — otherwise the document is written.
* `Outcome.written_or_unchanged` — both together.
-/

namespace MettaSchema

namespace Outcome

/-- A run fails: its words are refused, the input has no schema, or the document cannot be
written. -/
inductive Fails (words : List String) (tree : FileTree) : Prop where
  /-- The words are refused. -/
  | usage {error : UsageError} (h : Request.read words = .error error)
  /-- The input, or what it imports, has no schema. -/
  | loading {arguments : Arguments} {error : SchemaError}
      (h : Request.read words = .ok (.translate arguments))
      (hload : arguments.search.load tree arguments.input = .error error)
  /-- The document cannot be written. -/
  | writing {arguments : Arguments} {schema : Schema} {error : FileError}
      (h : Request.read words = .ok (.translate arguments))
      (hload : arguments.search.load tree arguments.input = .ok schema)
      (hwrite : tree.writeText arguments.outputPath (schema.toMetta arguments.options)
        = .error error)

theorem ofWords_translate {words : List String} {arguments : Arguments}
    (h : Request.read words = .ok (.translate arguments)) (tree : FileTree) :
    ofWords words tree = ofArguments arguments tree := by
  rw [ofWords, ofArguments, Answer.ofWords, h]

/-- A run that fails tells so by its exit code and leaves the files as they were. -/
theorem failed_of_fails {words : List String} {tree : FileTree} (h : Fails words tree) :
    ∃ code text, code ≠ 0 ∧ ofWords words tree = failed tree code text := by
  cases h with
  | @usage error h =>
    refine ⟨2, error.report, by decide, ?_⟩
    rw [ofWords, Answer.ofWords, h]
    rfl
  | @loading arguments error h hload =>
    refine ⟨1, (Report.loading arguments.input error).text, by decide, ?_⟩
    rw [ofWords_translate h, ofArguments_eq, hload]
  | @writing arguments schema error h hload hwrite =>
    refine ⟨1, (Report.writing arguments.outputPath error).text, by decide, ?_⟩
    rw [ofWords_translate h, ofArguments_eq, hload]
    simp only [hwrite]

/-- A run fails or writes the document of its input, unless it is asked for the help or the
version. -/
theorem fails_or_written {words : List String} (hhelp : .flag .help ∉ Mark.ofWords words)
    (hversion : .flag .version ∉ Mark.ofWords words) (tree : FileTree) :
    Fails words tree ∨ ∃ arguments schema files, Request.read words = .ok (.translate arguments)
      ∧ arguments.search.load tree arguments.input = .ok schema
      ∧ tree.writeText arguments.outputPath (schema.toMetta arguments.options) = .ok files
      ∧ ofWords words tree = { Answer.success "" with files } := by
  cases hread : Request.read words with
  | error error => exact .inl (.usage hread)
  | ok request =>
    obtain ⟨arguments, rfl⟩ := Request.exists_translate_of_read hhelp hversion hread
    cases hload : arguments.search.load tree arguments.input with
    | error error => exact .inl (.loading hread hload)
    | ok schema =>
      cases hwrite : tree.writeText arguments.outputPath (schema.toMetta arguments.options) with
      | error error => exact .inl (.writing hread hload hwrite)
      | ok files =>
        refine .inr ⟨arguments, schema, files, rfl, hload, hwrite, ?_⟩
        rw [ofWords_translate hread, ofArguments_eq, hload]
        simp only [hwrite]

/-- A run that is not asked for the help or the version ends with exit code zero exactly if nothing
fails.  Then the document of the schema that was loaded, with what was chosen in the words, is the
content of the output path, and no other path leads to something new or changed; otherwise all files
are as they were. -/
theorem written_or_unchanged (words : List String) (tree : FileTree)
    (hhelp : .flag .help ∉ Mark.ofWords words) (hversion : .flag .version ∉ Mark.ofWords words) :
    let outcome := ofWords words tree
    (outcome.exitCode = 0 → ∃ arguments schema, Request.read words = .ok (.translate arguments)
        ∧ arguments.Given (Mark.ofWords words)
        ∧ arguments.search.load tree arguments.input = .ok schema
        ∧ tree.Wrote outcome.files arguments.outputPath (schema.toMetta arguments.options))
    ∧ (Fails words tree → outcome.exitCode ≠ 0 ∧ outcome.files = tree)
    ∧ (outcome.exitCode ≠ 0 → Fails words tree) := by
  intro outcome
  have hfails (h : Fails words tree) : outcome.exitCode ≠ 0 ∧ outcome.files = tree := by
    obtain ⟨code, text, hcode, houtcome⟩ := failed_of_fails h
    rw [show outcome = failed tree code text from houtcome]
    exact ⟨hcode, rfl⟩
  refine ⟨fun hzero => ?_, hfails, fun hne => ?_⟩
  · obtain h | ⟨arguments, schema, files, hread, hload, hwrite, houtcome⟩ :=
      fails_or_written hhelp hversion tree
    · exact absurd hzero (hfails h).1
    · refine ⟨arguments, schema, hread, Request.given_of_read hread, hload, ?_⟩
      rw [show outcome.files = files from congrArg Outcome.files houtcome]
      exact FileTree.wrote_writeText hwrite
  · obtain h | ⟨_, _, _, _, _, _, houtcome⟩ := fails_or_written hhelp hversion tree
    · exact h
    · exact absurd (congrArg (·.exitCode) houtcome) hne

/-! ## A file with a message -/

/-- A tree with one file, which declares one message. -/
def messageTree : FileTree := Search.singleTree "message A \x7b\x7d"

/-- What the file declares. -/
def messageFile : FileDecl :=
  { FileDecl.empty "a.proto" with messages := [⟨"A", [], [], []⟩] }

/-- The schema of the file. -/
def messageSchema : Schema where
  name := "a.proto"
  dialect := .proto2
  package := none
  imports := []
  messages := [("A", .flat "A" "A" [])]
  enums := []
  services := []

theorem load_messageTree : (⟨[]⟩ : Search).load messageTree "a.proto" = .ok messageSchema := by
  have hroot : FileDecl.ofText "a.proto" (messageTree.readText "a.proto") = .ok messageFile := by
    rw [messageTree, (Search.readText_singleTree _).1]
    decide +kernel
  have hruns : (⟨[]⟩ : Search).Runs messageTree "" (.start messageFile "") _ (.ok [messageFile]) :=
    .done rfl
  rw [hruns.load_eq hroot]
  decide +kernel

/-- There is no directory `x` in the tree. -/
theorem writeText_messageTree (text : String) :
    messageTree.writeText "/a.metta" text
        = .ok (messageTree.set ["a.metta".toList] (.file text.toUTF8))
      ∧ messageTree.writeText "x/a.metta" text = .error .notFound :=
  ⟨rfl, rfl⟩

/-- The document of the file can be written to a file below the root, but not in a directory that is
not there. -/
theorem written_or_unchanged_message :
    (.flag .help ∉ Mark.ofWords ["-c", "a.proto", "-o/a.metta"]
      ∧ .flag .version ∉ Mark.ofWords ["-c", "a.proto", "-o/a.metta"]
      ∧ (ofWords ["-c", "a.proto", "-o/a.metta"] messageTree).exitCode = 0
      ∧ ∃ arguments schema, Request.read ["-c", "a.proto", "-o/a.metta"] = .ok (.translate arguments)
        ∧ arguments.Given (Mark.ofWords ["-c", "a.proto", "-o/a.metta"])
        ∧ arguments.search.load messageTree arguments.input = .ok schema
        ∧ messageTree.Wrote (ofWords ["-c", "a.proto", "-o/a.metta"] messageTree).files
          arguments.outputPath (schema.toMetta arguments.options))
    ∧ .flag .help ∉ Mark.ofWords ["a.proto", "-ox/a.metta"]
      ∧ .flag .version ∉ Mark.ofWords ["a.proto", "-ox/a.metta"]
      ∧ (ofWords ["a.proto", "-ox/a.metta"] messageTree).exitCode ≠ 0
      ∧ (ofWords ["a.proto", "-ox/a.metta"] messageTree).files = messageTree := by
  have hread : Request.read ["-c", "a.proto", "-o/a.metta"]
      = .ok (.translate ⟨"a.proto", some "/a.metta", "", true, [], 0⟩) := by decide
  have hread' : Request.read ["a.proto", "-ox/a.metta"]
      = .ok (.translate ⟨"a.proto", some "x/a.metta", "", false, [], 0⟩) := by decide
  have hzero : (ofWords ["-c", "a.proto", "-o/a.metta"] messageTree).exitCode = 0 := by
    rw [ofWords_translate hread, ofArguments_eq]
    simp only [Arguments.search, Arguments.outputPath, Option.getD_some, load_messageTree,
      (writeText_messageTree _).1, Answer.success]
  have hfails : Fails ["a.proto", "-ox/a.metta"] messageTree :=
    .writing hread' load_messageTree (writeText_messageTree _).2
  obtain ⟨hwritten, -, -⟩ :=
    written_or_unchanged ["-c", "a.proto", "-o/a.metta"] messageTree (by decide) (by decide)
  obtain ⟨-, hunchanged, -⟩ :=
    written_or_unchanged ["a.proto", "-ox/a.metta"] messageTree (by decide) (by decide)
  exact ⟨⟨by decide, by decide, hzero, hwritten hzero⟩, by decide, by decide, hunchanged hfails⟩

end Outcome

end MettaSchema
