import MettaSchema.Import.Bundled
import MettaSchema.Proofs.Success

/-!
# What the bundled files declare

The declarations of a bundled file are kept beside its text.  They are what the text reads as, so
it makes no difference which of the two stands for an import.

* `Bundled.parse_source` — the text at an import path reads as the declarations at that path, and
  there is a text exactly if there are declarations.
* `Bundled.imports_eq_nil` — a bundled file imports nothing.
-/

namespace MettaSchema

namespace Bundled

/-- The characters of a text, line by line: as a whole it is too long to be taken apart. -/
theorem toList_text (lines : List String) :
    (text lines).toList = (header ++ lines).flatMap fun line => line.toList ++ ['\n'] := by
  simp [text, List.flatMap_def, Function.comp_def]

/-- The texts read as the declarations, one by one. -/
theorem parse_sources :
    sources.map (fun source => (source.1, FileDecl.parse source.1 (text source.2)))
      = files.map fun file => (file.name, .ok file) := by
  simp only [FileDecl.parse, toList_text]
  decide +kernel

/-- The text of a bundled file reads as its declarations, whatever the import path. -/
theorem parse_source (path : String) :
    (source? path).map (FileDecl.parse path) = (file? path).map .ok := by
  have hfound := congrArg (fun read => (read.find? (·.1 == path)).map (·.2)) parse_sources
  simp only [List.find?_map, Option.map_map, Function.comp_def] at hfound
  calc (source? path).map (FileDecl.parse path)
      = (sources.find? (·.1 == path)).map fun source => FileDecl.parse path (text source.2) := by
        rw [source?, Option.map_map]
        rfl
    _ = (sources.find? (·.1 == path)).map fun source =>
          FileDecl.parse source.1 (text source.2) := by
        cases hsource : sources.find? (·.1 == path) with
        | none => rfl
        | some source =>
          have hpath := List.find?_some hsource
          rw [Option.map_some, Option.map_some, eq_of_beq hpath]
    _ = (file? path).map .ok := hfound

/-- A bundled file imports nothing. -/
theorem imports_eq_nil {target : String} {file : FileDecl} (h : file? target = some file) :
    file.imports = [] := by
  have hall : ∀ file ∈ files, file.imports = [] := by decide
  exact hall file (List.mem_of_find?_eq_some h)

end Bundled

end MettaSchema
