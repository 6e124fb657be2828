import BimEditor.Analysis.Basic
import BimEditor.Analysis.Decoration
import BimEditor.Analysis.Diagnostic
import BimEditor.Analysis.Folding
import BimEditor.Analysis.Hover
import BimEditor.Analysis.Symbol
import BimEditor.Analysis.Token
import BimEditor.Calendar.Date
import BimEditor.Calendar.Spelling
import BimEditor.Document.Basic
import BimEditor.Document.Problem
import BimEditor.Document.Reader
import BimEditor.Document.Wire
import BimEditor.Graph.Basic
import BimEditor.Graph.Report
import BimEditor.Json.Fault
import BimEditor.Json.Literal
import BimEditor.Json.Number
import BimEditor.Json.Numeral
import BimEditor.Json.Reader
import BimEditor.Json.Record
import BimEditor.Json.StringList
import BimEditor.Json.Tree
import BimEditor.Json.Value
import BimEditor.Json.Writer
import BimEditor.Numeric.Binary64
import BimEditor.Numeric.Decimal
import BimEditor.Numeric.Scaling
import BimEditor.Numeric.Shortest
import BimEditor.Scan.Delimiter
import BimEditor.Scan.Region
import BimEditor.Schema.Basic
import BimEditor.Schema.Catalog
import BimEditor.Schema.Conformance
import BimEditor.Schema.Tooltip
import BimEditor.Schema.Wire
import BimEditor.Text.Blank
import BimEditor.Text.Cursor
import BimEditor.Text.LineColumn
import BimEditor.Text.Measure
import BimEditor.Text.Position
import BimEditor.Text.SipHash
import BimEditor.Text.Span
import BimEditor.Workspace.Command
import BimEditor.Workspace.Session
import BimEditor.Workspace.Settings
import BimEditor.Workspace.Store
import BimEditor.Workspace.Watcher
import BimEditor.Workspace.Wire
import BimEditor.Proofs.Json.Grammar
import BimEditor.Proofs.Json.TreeView
import BimEditor.Proofs.Text.Passage
import BimEditor.Proofs.Json.Located
import BimEditor.Proofs.Json.Outcome
import BimEditor.Proofs.Json.StringText
import BimEditor.Proofs.Json.NumberText
import BimEditor.Proofs.Json.Reading
import BimEditor.Proofs.Json.Acceptance
import BimEditor.Proofs.Json.SpanExact
import BimEditor.Proofs.Numeric.Nearest
import BimEditor.Proofs.Numeric.ShortestDecimal
import BimEditor.Proofs.Json.NumberWriting
import BimEditor.Proofs.Json.Writing
import BimEditor.Proofs.Json.RecordFields
import BimEditor.Proofs.Schema.RoundTrip
import BimEditor.Proofs.Document.RoundTrip
import BimEditor.Proofs.Workspace.Contents
import BimEditor.Proofs.Workspace.Steps
import BimEditor.Proofs.Workspace.Effects
import BimEditor.Proofs.Workspace.Publication
import BimEditor.Proofs.Workspace.Operations
import BimEditor.Proofs.Workspace.Recency
import BimEditor.Proofs.Workspace.Styles
import BimEditor.Proofs.Workspace.Attention
import BimEditor.Proofs.Workspace.Capacity
import BimEditor.Proofs.Workspace.Accounting
import BimEditor.Proofs.Text.Beginning
import BimEditor.Proofs.Scan.Steps
import BimEditor.Proofs.Scan.Stability
import BimEditor.Proofs.Scan.Balance
import BimEditor.Proofs.Scan.ArrayFolding
import BimEditor.Proofs.Json.SpanOrder
import BimEditor.Proofs.Document.Entries
import BimEditor.Proofs.Analysis.InvalidAttributes
import BimEditor.Proofs.Graph.Profile
import BimEditor.Proofs.Json.StringOrder
import BimEditor.Proofs.Analysis.MarkedTokens
import BimEditor.Proofs.Analysis.AttributeVerdicts
import BimEditor.Proofs.Analysis.Actionable
import BimEditor.Proofs.Text.PositionOrder
import BimEditor.Proofs.Analysis.TokenOrder
import BimEditor.Proofs.Json.Layouts
import BimEditor.Proofs.Document.Acceptance
import BimEditor.Proofs.Scan.Openings
import BimEditor.Proofs.Json.FaultPlace
import BimEditor.Proofs.Json.DepthLimit
import BimEditor.Proofs.Bytes.Access
import BimEditor.Proofs.Bytes.Scanners
import BimEditor.Proofs.Bytes.PlainScan
import BimEditor.Proofs.Bytes.Position
import BimEditor.Proofs.Bytes.Tokens
import BimEditor.Proofs.Bytes.Reading
import BimEditor.Proofs.Document.Views
import BimEditor.Proofs.Json.SpanLayout
import BimEditor.Proofs.Text.PositionRoundTrip
import BimEditor.Proofs.Json.Lookahead
import BimEditor.Proofs.Json.SyntaxFaults
import BimEditor.Proofs.Json.ValueFaults
import BimEditor.Proofs.Text.LineClamping
import BimEditor.Proofs.Analysis.ProblemLines
import BimEditor.Proofs.Analysis.TokenEncoding
import BimEditor.Proofs.Scan.Containers
import BimEditor.Proofs.Scan.SchemasFolding
import BimEditor.Proofs.Scan.Nesting
import BimEditor.Proofs.Schema.Invariance
import BimEditor.Proofs.Graph.EntryOrder
import BimEditor.Proofs.Graph.Lookups
import BimEditor.Proofs.Text.LineColumnOrder
import BimEditor.Proofs.Schema.Labels
import BimEditor.Proofs.Schema.Bounds
