import DocSchema.Traced
import DocSchema.Assoc
import DocSchema.Word
import DocSchema.Digits
import DocSchema.Binary64.Basic
import DocSchema.Binary64.Decimal
import DocSchema.Json.Basic
import DocSchema.Json.Text
import DocSchema.Json.Tree
import DocSchema.Json.Token
import DocSchema.Json.Reader
import DocSchema.Json.Form
import DocSchema.Path.Step
import DocSchema.Path.Basic
import DocSchema.Path.Render
import DocSchema.Event
import DocSchema.FixedPoint
import DocSchema.Coercion
import DocSchema.Config
import DocSchema.Schema.Basic
import DocSchema.Schema.KeyName
import DocSchema.Schema.Error
import DocSchema.Schema.Descriptor
import DocSchema.Schema.Walk
import DocSchema.Path.Form
import DocSchema.Schema.Form
import DocSchema.Schema.Compiler
import DocSchema.Validation.Mismatch
import DocSchema.Validation.Validator
import DocSchema.Store.Basic
import DocSchema.Store.Memory
import DocSchema.Store.Journal
import DocSchema.Table.Error
import DocSchema.Table.Request
import DocSchema.Table.Basic
import DocSchema.Table.Read
import DocSchema.Table.Write
import DocSchema.FileTree
import DocSchema.Schema.Loader
import DocSchema.Proofs.Schema.Places
import DocSchema.Proofs.Schema.Step
import DocSchema.Proofs.Schema.Coverage
import DocSchema.Proofs.Schema.Registry
import DocSchema.Proofs.Digits
import DocSchema.Proofs.Schema.KeyName
import DocSchema.Proofs.Validation.Check
import DocSchema.Proofs.Validation.Conformance
import DocSchema.Proofs.Validation.Pruning
import DocSchema.Proofs.Validation.Violation
import DocSchema.Proofs.Table.Atomicity
import DocSchema.Proofs.Store.Records
import DocSchema.Proofs.Table.Effect
import DocSchema.Proofs.Schema.TopLevel
import DocSchema.Proofs.Path.Rendering
import DocSchema.Proofs.Store.Steps
import DocSchema.Proofs.Table.Resolution
import DocSchema.Proofs.Table.KeyCoherence
import DocSchema.Proofs.Schema.Typing
import DocSchema.Proofs.Validation.Fitting
import DocSchema.Proofs.Store.Fitting
import DocSchema.Proofs.Table.CleanReads
import DocSchema.Proofs.Binary64.ReadBack
import DocSchema.Proofs.Json.NumberText
import DocSchema.Proofs.Json.StringText
import DocSchema.Proofs.Table.Deletion
import DocSchema.Proofs.Schema.Strictness
import DocSchema.Proofs.Schema.Declarations
import DocSchema.Proofs.Table.Batches
import DocSchema.Proofs.Table.Reports
import DocSchema.Proofs.Table.RecordRoundTrip
import DocSchema.Proofs.Validation.Idempotence
import DocSchema.Proofs.Table.FieldRoundTrip
import DocSchema.Proofs.Schema.Agreement
import DocSchema.Proofs.Validation.Lacking
import DocSchema.Proofs.Schema.Descent
import DocSchema.Proofs.Store.Lacking
import DocSchema.Proofs.Table.Readability
import DocSchema.Proofs.FixedPoint
import DocSchema.Proofs.Store.Coerced
import DocSchema.Proofs.Table.StoredNumbers
import DocSchema.Proofs.Validation.Fieldwise
import DocSchema.Proofs.Table.FieldPlacement
import DocSchema.Proofs.Json.Written
import DocSchema.Proofs.Schema.Rebasing
import DocSchema.Proofs.Path.Form
import DocSchema.Proofs.Schema.Form
import DocSchema.Proofs.Table.Form
import DocSchema.Proofs.Schema.Loading
import DocSchema.Proofs.Json.Tokens
import DocSchema.Proofs.Json.Reading
import DocSchema.Proofs.FileTree
import DocSchema.Proofs.Schema.Saving
import DocSchema.Proofs.Schema.Entries
import DocSchema.Proofs.Table.Locations
import DocSchema.Proofs.Table.Calls
import DocSchema.Proofs.Store.FieldWrites
import DocSchema.Proofs.Store.FieldRemovals
import DocSchema.Proofs.Path.Choice
import DocSchema.Proofs.Schema.Variables
import DocSchema.Proofs.Table.Rows
import DocSchema.Proofs.Table.Isolation
import DocSchema.Proofs.TextOrder
import DocSchema.Proofs.Table.Queries
import DocSchema.Proofs.Schema.Texts
import DocSchema.Proofs.Schema.Levels
import DocSchema.Proofs.Schema.Spine
import DocSchema.Proofs.Validation.Log
import DocSchema.Proofs.Validation.FieldTexts
import DocSchema.Proofs.Schema.Unrolling
import DocSchema.Proofs.Schema.Reordering
import DocSchema.Proofs.Table.Accesses
