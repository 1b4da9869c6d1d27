import MettaSchema.Schema.Build
import MettaSchema.Import.Bundled

/-!
# Schemas from text

The schema of a text that stands on its own: besides its own types it can use those
of the bundled files that it imports.  Other imports are not looked for.

* `Schema.parse` — the schema of a text.
-/

namespace MettaSchema

/-- The schema of a text under the given file name. -/
def Schema.parse (name source : String) : Except SchemaError Schema := do
  let file ← FileDecl.parse name source
  let bundled := file.imports.filterMap Bundled.file?
  file.build (.ofFiles (file :: bundled))

end MettaSchema
