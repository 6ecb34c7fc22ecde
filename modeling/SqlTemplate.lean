import SqlTemplate.Statement
import SqlTemplate.Proofs.Comments
import SqlTemplate.Proofs.Parts
import SqlTemplate.Proofs.Filters
import SqlTemplate.Proofs.ReadBack
import SqlTemplate.Proofs.Concatenation
import SqlTemplate.Proofs.BareWords
import SqlTemplate.Proofs.Idempotence
import SqlTemplate.Proofs.Externalization
import SqlTemplate.Proofs.Requalification
import SqlTemplate.Proofs.Fusion
import SqlTemplate.Proofs.Definitions
import SqlTemplate.Proofs.Calls
import SqlTemplate.Proofs.Policy
import SqlTemplate.Proofs.Selects
import SqlTemplate.Proofs.Joining
import SqlTemplate.Proofs.Enclosures
import SqlTemplate.Proofs.Aliases
import SqlTemplate.Proofs.Acceptance
import SqlTemplate.Proofs.Bounds
import SqlTemplate.Proofs.RowSets
import SqlTemplate.Proofs.LiteralTexts
import SqlTemplate.Proofs.Lookups
import SqlTemplate.Proofs.NameReading
import SqlTemplate.Proofs.Upserts
import SqlTemplate.Proofs.NestedLists
import SqlTemplate.Proofs.Integers
import SqlTemplate.Proofs.SizeHints
import SqlTemplate.Proofs.Chronology
import SqlTemplate.Proofs.Decoding
import SqlTemplate.Proofs.Growth
