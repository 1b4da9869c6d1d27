import MettaSchema.Import.Search
import MettaSchema.Metta.Document

/-!
# Translating files

From a file on the disk straight to its MeTTa document.

* `TranslateError` — why there is no document.
* `Search.translate` — the document of a file.
-/

namespace MettaSchema

/-- Why a file has no document. -/
inductive TranslateError where
  /-- The file has no schema. -/
  | noSchema (cause : SchemaError)
  deriving DecidableEq, Repr

/-- The message of an error. -/
def TranslateError.message : TranslateError → String
  | noSchema cause => "parse error: " ++ cause.message

/-- The MeTTa document of a file. -/
def Search.translate (search : Search) (tree : FileTree) (path : String) (options : Options) :
    Except TranslateError String :=
  match search.load tree path with
  | .ok schema => .ok (schema.toMetta options)
  | .error cause => .error (.noSchema cause)

end MettaSchema
