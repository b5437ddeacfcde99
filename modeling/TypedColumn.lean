import TypedColumn.Text.Blank
import TypedColumn.Number.Order
import TypedColumn.Value.Text
import TypedColumn.Value.Hash
import TypedColumn.Report
import TypedColumn.Uuid.Parser
import TypedColumn.CountPrefix
import TypedColumn.Descriptor.Parser
import TypedColumn.Session
import TypedColumn.Proofs.CountPrefix
import TypedColumn.Proofs.FixedForm
import TypedColumn.Proofs.Row.Grammar
import TypedColumn.Proofs.Pairs
import TypedColumn.Proofs.Row.RoundTrip
import TypedColumn.Proofs.Row.Canonical
import TypedColumn.Proofs.Row.Writing
import TypedColumn.Proofs.Column.Agreement
import TypedColumn.Proofs.Column.Grammar
import TypedColumn.Proofs.Truncation
import TypedColumn.Proofs.Column.Soundness
import TypedColumn.Proofs.Rendering
import TypedColumn.Proofs.Registry.Settings
import TypedColumn.Proofs.Registry.Coherence
import TypedColumn.Proofs.Failure
import TypedColumn.Proofs.Construction
import TypedColumn.Proofs.Registry.Nesting
import TypedColumn.Proofs.Descriptor.Parameters
import TypedColumn.Proofs.Registry.Language
import TypedColumn.Proofs.Registry.TypeNames
import TypedColumn.Proofs.Descriptor.Grammar
import TypedColumn.Proofs.Descriptor.Printing
import TypedColumn.Proofs.CountPrefix.Limits
import TypedColumn.Proofs.Row.Width
import TypedColumn.Proofs.Successive
import TypedColumn.Proofs.Column.Scalar
import TypedColumn.Proofs.Column.Flattened
import TypedColumn.Proofs.Sameness
import TypedColumn.Proofs.Row.Repeats
import TypedColumn.Proofs.Row.Conforming
import TypedColumn.Proofs.Row.Erasure
import TypedColumn.Proofs.Sameness.Keys
import TypedColumn.Proofs.Descriptor.Pieces
import TypedColumn.Proofs.Registry.Bounds
import TypedColumn.Proofs.Words.Reader
import TypedColumn.Proofs.Words.CountPrefix
import TypedColumn.Proofs.Words.Layout
import TypedColumn.Proofs.Number.Magnitude
import TypedColumn.Proofs.Number.Order
import TypedColumn.Proofs.Merging
import TypedColumn.Proofs.Row.Content
