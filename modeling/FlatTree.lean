import FlatTree.Interval
import FlatTree.Dict
import FlatTree.Text.Quoted
import FlatTree.Text.WhiteSpace
import FlatTree.Text.Alphabetic
import FlatTree.Text.Numeric
import FlatTree.Binary64.Shortest
import FlatTree.Instant.Lenient
import FlatTree.Uuid
import FlatTree.Edn.Order
import FlatTree.Edn.Printer
import FlatTree.Edn.Reader
import FlatTree.Attribute.Edn
import FlatTree.Table
import FlatTree.Hierarchy.Change
import FlatTree.Hierarchy.Import
import FlatTree.Settings
import FlatTree.External.Edn
import FlatTree.Hierarchy.View
import FlatTree.Json.Reader
import FlatTree.External.Json
import FlatTree.Session
import FlatTree.Report
import FlatTree.Main
import FlatTree.Proofs.Grove
import FlatTree.Proofs.Tour
import FlatTree.Proofs.Check
import FlatTree.Proofs.Violations
import FlatTree.Proofs.Drawing
import FlatTree.Proofs.Changes
import FlatTree.Proofs.Simulation
import FlatTree.Proofs.Kinship
import FlatTree.Proofs.SortOrder
import FlatTree.Proofs.Queries
import FlatTree.Proofs.Soundness
import FlatTree.Proofs.Placements
import FlatTree.Proofs.Traversal
import FlatTree.Proofs.Grafting
import FlatTree.Proofs.Atomicity
import FlatTree.Proofs.Entries
import FlatTree.Proofs.KeywordMaps
import FlatTree.Proofs.RoundTrip
import FlatTree.Proofs.Strictness
import FlatTree.Proofs.Interleaving
import FlatTree.Proofs.Lifetimes
import FlatTree.Proofs.Transplant
import FlatTree.Proofs.Reports
import FlatTree.Proofs.Displacement
import FlatTree.Proofs.Levels
import FlatTree.Proofs.Rearrangement
import FlatTree.Proofs.Commutation
import FlatTree.Proofs.Undoing
import FlatTree.Proofs.Digits
import FlatTree.Proofs.Rounding
import FlatTree.Proofs.Shortest
import FlatTree.Proofs.Atoms
import FlatTree.Proofs.Legibility
import FlatTree.Proofs.Documents
import FlatTree.Proofs.Words
import FlatTree.Proofs.Scans
import FlatTree.Proofs.Saving
import FlatTree.Proofs.Printing
import FlatTree.Proofs.HeldNodes
import FlatTree.Proofs.KeyTexts
import FlatTree.Proofs.KeyVectors
import FlatTree.Proofs.FoldedNames
import FlatTree.Proofs.Schema
import FlatTree.Proofs.JsonDocuments
import FlatTree.Proofs.JsonForests
import FlatTree.Proofs.Bounds
import FlatTree.Proofs.Headroom
import FlatTree.Proofs.ImportLoop
import FlatTree.Proofs.OpenRows
