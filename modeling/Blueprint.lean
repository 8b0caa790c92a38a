import Blueprint.CommandLine.Directory
import Blueprint.Main
import Blueprint.Proofs.Graph.Placement
import Blueprint.Proofs.Graph.LeftOut
import Blueprint.Proofs.Extraction.Steps
import Blueprint.Proofs.Extraction.Walked
import Blueprint.Proofs.Extraction.Resolution
import Blueprint.Proofs.Extraction.Accounts
import Blueprint.Proofs.Extraction.Agreement
import Blueprint.Proofs.Program.Targets
import Blueprint.Proofs.Document.Marker
import Blueprint.Proofs.Extraction.ReadBack
import Blueprint.Proofs.Extraction.Nodes
import Blueprint.Proofs.Extraction.FlatWalk
import Blueprint.Proofs.Extraction.RoundTrip
import Blueprint.Proofs.Json.Distinct
import Blueprint.Proofs.Document.Visits
import Blueprint.Proofs.Graph.Views
import Blueprint.Proofs.Extraction.Fields
import Blueprint.Proofs.Extraction.Contributions
import Blueprint.Proofs.Extraction.Parts
import Blueprint.Proofs.Extraction.Recorded
import Blueprint.Proofs.Extraction.Inventory
import Blueprint.Proofs.Extraction.Progress
import Blueprint.Proofs.Extraction.Acceptance
import Blueprint.Proofs.Program.Bindings
import Blueprint.Proofs.Program.PlainText
import Blueprint.Proofs.Extraction.Aliases
import Blueprint.Proofs.Graph.Reordered
import Blueprint.Proofs.Extraction.EdgeOrder
import Blueprint.Proofs.Program.Flattened
import Blueprint.Proofs.Graph.Cycles
import Blueprint.Proofs.Text.Literal
import Blueprint.Proofs.Text.Delimited
import Blueprint.Proofs.Value.Unambiguous
import Blueprint.Proofs.Graph.Shuffled
import Blueprint.Proofs.Extraction.FieldOrder
import Blueprint.Proofs.Document.Groups
import Blueprint.Proofs.Value.Indentation
import Blueprint.Proofs.Graph.Preorder
import Blueprint.Proofs.Extraction.Related
import Blueprint.Proofs.Extraction.Drawn
import Blueprint.Proofs.Extraction.Tokens
import Blueprint.Proofs.Text.SnakeCase
import Blueprint.Proofs.Graph.Operations
