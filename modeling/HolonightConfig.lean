import HolonightConfig.Text.Bytes
import HolonightConfig.Text.Utf8
import HolonightConfig.Text.Scalars
import HolonightConfig.Text.Transducer
import HolonightConfig.Text.Lexer
import HolonightConfig.Number.Binary64
import HolonightConfig.Toml.Node
import HolonightConfig.Toml.Lexical
import HolonightConfig.Toml.Syntax
import HolonightConfig.Toml.Tables
import HolonightConfig.Toml.Expression
import HolonightConfig.Toml.Locality
import HolonightConfig.Toml.Sections
import HolonightConfig.Toml.Library
import HolonightConfig.Toml.Reference
import HolonightConfig.Posix.Path
import HolonightConfig.Posix.Tree
import HolonightConfig.Posix.Stable
import HolonightConfig.Diagnostic
import HolonightConfig.Appearance
import HolonightConfig.Codec
import HolonightConfig.Codec.Validation
import HolonightConfig.Appearance.Identifiers
import HolonightConfig.Codec.Acceptance
import HolonightConfig.Number.Decimal
import HolonightConfig.Codec.RoundTrip
import HolonightConfig.Document.Scan
import HolonightConfig.Document
import HolonightConfig.Document.Substitution
import HolonightConfig.Document.Planning
import HolonightConfig.Toml.Assignments
import HolonightConfig.Document.Merge
import HolonightConfig.Document.Literals
import HolonightConfig.Document.Spans
import HolonightConfig.Toml.Distinct
import HolonightConfig.Toml.Placed
import HolonightConfig.Toml.Revised
import HolonightConfig.AppearanceDocument
import HolonightConfig.Document.Overrides
import HolonightConfig.AppearanceDocument.Overlay
import HolonightConfig.AppearanceDocument.Sparse
import HolonightConfig.AppearanceDocument.Projection
import HolonightConfig.AppearanceDocument.Unknown
import HolonightConfig.AppearanceDocument.Decoding
import HolonightConfig.AppearanceDocument.Effective
import HolonightConfig.Store
import HolonightConfig.AppearanceStore
import HolonightConfig.AppearanceStore.Loadable
import HolonightConfig.DocumentStore.Resolve
import HolonightConfig.DocumentStore.Stability
import HolonightConfig.DocumentStore.Faultless
import HolonightConfig.DocumentStore.Retry
import HolonightConfig.DocumentStore.Rollback
import HolonightConfig.Program
import HolonightConfig.Storage
import HolonightConfig.DocumentStore
import HolonightConfig.DocumentStore.WellFormed
import HolonightConfig.DocumentStore.Replacing
import HolonightConfig.DocumentStore.Outcome
import HolonightConfig.Store.Atomic
import HolonightConfig.Store.Concurrent
import HolonightConfig.Store.Faultless
import HolonightConfig.Store.Truthful
import HolonightConfig.DocumentStore.Rivals
import HolonightConfig.AppearanceStore.Reserved
import HolonightConfig.Store.Writing
import HolonightConfig.AppearanceStore.Readers
import HolonightConfig.AppearancePath
import HolonightConfig.AppearanceStore.Written
import HolonightConfig.AppearanceStore.Racing
import HolonightConfig.Document.Comments
import HolonightConfig.Document.Keys
import HolonightConfig.Document.Editable
import HolonightConfig.DocumentStore.Walk
import HolonightConfig.AppearanceDocument.Upgrade
import HolonightConfig.AppearanceDocument.Guard
import HolonightConfig.AppearanceStore.Upgrade
import HolonightConfig.Program.Concurrent
import HolonightConfig.Program.Simulation
import HolonightConfig.DocumentStore.Concurrent
import HolonightConfig.DocumentStore.Serializable
import HolonightConfig.DocumentStore.Refinement
import HolonightConfig.AppearanceStore.Concurrent
import HolonightConfig.AppearanceStore.Refinement
import HolonightConfig.Document.Weaving
import HolonightConfig.AppearanceStore.Overtaken
