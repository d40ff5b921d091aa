import FlowDesugar.CommandLine
import FlowDesugar.Declaration
import FlowDesugar.Definition
import FlowDesugar.Desugar
import FlowDesugar.Diagnostic.Basic
import FlowDesugar.Diagnostic.Render
import FlowDesugar.Files.Path
import FlowDesugar.Files.Store
import FlowDesugar.Host
import FlowDesugar.Interchange.Error
import FlowDesugar.Interchange.Export
import FlowDesugar.Interchange.Import
import FlowDesugar.Interchange.Kind
import FlowDesugar.Json.Path
import FlowDesugar.Json.Reader
import FlowDesugar.Json.Value
import FlowDesugar.Json.Writer
import FlowDesugar.Keywords
import FlowDesugar.Layout.Doc
import FlowDesugar.Main
import FlowDesugar.Number.Basic
import FlowDesugar.Number.Binary64
import FlowDesugar.Number.Shortest
import FlowDesugar.Options
import FlowDesugar.OutputFormat
import FlowDesugar.Proofs.Arenas
import FlowDesugar.Proofs.Body
import FlowDesugar.Proofs.Canonical
import FlowDesugar.Proofs.Children
import FlowDesugar.Proofs.Definitions
import FlowDesugar.Proofs.Desugaring
import FlowDesugar.Proofs.Everywhere
import FlowDesugar.Proofs.Pass
import FlowDesugar.Proofs.Reading
import FlowDesugar.Proofs.Relocation
import FlowDesugar.Proofs.Sections
import FlowDesugar.Run
import FlowDesugar.RunError
import FlowDesugar.Scope
import FlowDesugar.Script
import FlowDesugar.Section
import FlowDesugar.Settings
import FlowDesugar.SourceMap
import FlowDesugar.SourceText
import FlowDesugar.Statistics
import FlowDesugar.Text.Blank
import FlowDesugar.Text.Cluster
import FlowDesugar.Text.Cluster.Table
import FlowDesugar.Text.CodePoints
import FlowDesugar.Text.Escape
import FlowDesugar.Text.Lines
import FlowDesugar.Text.Width
import FlowDesugar.Text.Width.Table
import FlowDesugar.Toml.Date
import FlowDesugar.Toml.Document
import FlowDesugar.Toml.Number
import FlowDesugar.Toml.Reader
import FlowDesugar.Toml.Scan
import FlowDesugar.Toml.Value
import FlowDesugar.Tree.Basic
import FlowDesugar.Tree.Operator
import FlowDesugar.Tree.Same
import FlowDesugar.Tree.Surface
import FlowDesugar.Tree.Walk
import FlowDesugar.Proofs.RoundTrip
import FlowDesugar.Proofs.Arguments
import FlowDesugar.Proofs.Chains
import FlowDesugar.Proofs.Blocks
import FlowDesugar.Proofs.Numbering
import FlowDesugar.Proofs.Scripts
import FlowDesugar.Proofs.Failure
import FlowDesugar.Proofs.Occupancy
import FlowDesugar.Proofs.Nesting
import FlowDesugar.Proofs.Parts
import FlowDesugar.Proofs.Rereading
import FlowDesugar.Proofs.Grammar
import FlowDesugar.Proofs.Faults
import FlowDesugar.Proofs.Depth
import FlowDesugar.Proofs.JsonTokens
import FlowDesugar.Proofs.JsonText
import FlowDesugar.Proofs.JsonKeys
import FlowDesugar.Proofs.Origins
import FlowDesugar.Proofs.Levels
import FlowDesugar.Proofs.Growth
import FlowDesugar.Proofs.Exchange
import FlowDesugar.Proofs.Preorder
import FlowDesugar.Proofs.Locations
import FlowDesugar.Proofs.Relocated
import FlowDesugar.Proofs.ClosedForm
import FlowDesugar.Proofs.Provenance
import FlowDesugar.Proofs.Presentation
import FlowDesugar.Proofs.Stripping
import FlowDesugar.Proofs.Parallel
import FlowDesugar.Proofs.PositionIndependence
import FlowDesugar.Proofs.Statements
import FlowDesugar.Proofs.Independence
import FlowDesugar.Proofs.Minting
import FlowDesugar.Proofs.ScopeTree
import FlowDesugar.Proofs.SecondPass
import FlowDesugar.Proofs.Stores
import FlowDesugar.Proofs.Worlds
import FlowDesugar.Proofs.Runs
import FlowDesugar.Proofs.Outcomes
import FlowDesugar.Proofs.Links
import FlowDesugar.Proofs.Stability
import FlowDesugar.Proofs.Restoring
import FlowDesugar.Proofs.Formulas
import FlowDesugar.Proofs.Quoting
import FlowDesugar.Proofs.Braces
import FlowDesugar.Proofs.Spans
import FlowDesugar.Proofs.Ancestors
import FlowDesugar.Proofs.Lookup
import FlowDesugar.Proofs.Escapes
import FlowDesugar.Proofs.Walks
