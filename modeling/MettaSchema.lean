import MettaSchema.Grammar.Span
import MettaSchema.Schema.Parse
import MettaSchema.Schema.Nested
import MettaSchema.Import.Translate
import MettaSchema.Command.Run
import MettaSchema.Main
import MettaSchema.Proofs.Grammar.Layout
import MettaSchema.Proofs.Schema.RoundTrip
import MettaSchema.Proofs.Schema.Violations
import MettaSchema.Proofs.Schema.Counted
import MettaSchema.Proofs.Schema.Synthesized
import MettaSchema.Proofs.Schema.Inserted
import MettaSchema.Proofs.Schema.Packaged
import MettaSchema.Proofs.Schema.Rearranged
import MettaSchema.Proofs.Schema.WellFormed
import MettaSchema.Proofs.Schema.Malformed
import MettaSchema.Proofs.Schema.Ordinary
import MettaSchema.Proofs.Schema.Numerals
import MettaSchema.Proofs.Schema.Quoting
import MettaSchema.Proofs.Schema.Commented
import MettaSchema.Proofs.Import.Reordered
import MettaSchema.Proofs.Import.Contributed
import MettaSchema.Proofs.Import.SelfContained
import MettaSchema.Proofs.Metta.Accessors
import MettaSchema.Proofs.Metta.Curried
import MettaSchema.Proofs.Metta.Symbols
import MettaSchema.Proofs.Metta.Shown
import MettaSchema.Proofs.Metta.Rendered
import MettaSchema.Proofs.Command.Translating
import MettaSchema.Proofs.Command.Overwritten
