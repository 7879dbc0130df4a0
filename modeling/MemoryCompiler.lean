import MemoryCompiler.CommandLine.Options
import MemoryCompiler.CommandLine.Run
import MemoryCompiler.Complaint
import MemoryCompiler.Config
import MemoryCompiler.Config.Check
import MemoryCompiler.Config.Label
import MemoryCompiler.Decimal.Binary64
import MemoryCompiler.Decimal.Fixed
import MemoryCompiler.Decimal.Numeral
import MemoryCompiler.Decimal.Order
import MemoryCompiler.Decimal.Shortest
import MemoryCompiler.Diagram.Block
import MemoryCompiler.Diagram.Connectivity
import MemoryCompiler.Diagram.Graph
import MemoryCompiler.Diagram.Markup
import MemoryCompiler.Diagram.Placement
import MemoryCompiler.Diagram.Route
import MemoryCompiler.Diagram.Row
import MemoryCompiler.Diagram.Sizing
import MemoryCompiler.Diagram.StyleSheet
import MemoryCompiler.Diagram.Svg
import MemoryCompiler.Document
import MemoryCompiler.Document.Json
import MemoryCompiler.Document.Text
import MemoryCompiler.Document.Yaml.Cursor
import MemoryCompiler.Document.Yaml.Node
import MemoryCompiler.Document.Yaml.Scalar
import MemoryCompiler.Document.Yaml.Stream
import MemoryCompiler.Ecc.Bits
import MemoryCompiler.Ecc.Layout
import MemoryCompiler.Ecc.Word
import MemoryCompiler.Estimate.Area
import MemoryCompiler.Estimate.Power
import MemoryCompiler.Estimate.Scalar
import MemoryCompiler.Estimate.Timing
import MemoryCompiler.Files.Host
import MemoryCompiler.Files.Path
import MemoryCompiler.Files.Program
import MemoryCompiler.Files.Tree
import MemoryCompiler.Log
import MemoryCompiler.Main
import MemoryCompiler.Process.Node
import MemoryCompiler.Process.Override
import MemoryCompiler.Process.Table
import MemoryCompiler.Report.Comparison
import MemoryCompiler.Report.Design
import MemoryCompiler.Report.Summary
import MemoryCompiler.Report.Table
import MemoryCompiler.Rtl.Design
import MemoryCompiler.Rtl.Equation
import MemoryCompiler.Rtl.Netlist
import MemoryCompiler.Rtl.Publication
import MemoryCompiler.Rtl.Verilog
import MemoryCompiler.Search
import MemoryCompiler.Template
import MemoryCompiler.Template.Reference
import MemoryCompiler.Text.Blank
import MemoryCompiler.Text.Collation
import MemoryCompiler.Text.Quoted
import MemoryCompiler.Text.Sha256
import MemoryCompiler.Text.Width
import MemoryCompiler.Proofs.Ecc.CheckBits
import MemoryCompiler.Proofs.Ecc.Positions
import MemoryCompiler.Proofs.Ecc.Words
import MemoryCompiler.Proofs.Ecc.Syndrome
import MemoryCompiler.Proofs.Ecc.Correction
import MemoryCompiler.Proofs.Verilog.Token
import MemoryCompiler.Proofs.Verilog.Syntax
import MemoryCompiler.Proofs.Verilog.Semantics
import MemoryCompiler.Proofs.Rtl.Equations
import MemoryCompiler.Proofs.Verilog.Reading
import MemoryCompiler.Proofs.Config.Names
import MemoryCompiler.Proofs.Verilog.Parsing
import MemoryCompiler.Proofs.Rtl.EccText
import MemoryCompiler.Proofs.Ecc.BitLists
import MemoryCompiler.Proofs.Rtl.EncoderCircuit
import MemoryCompiler.Proofs.Rtl.DecoderCircuit
import MemoryCompiler.Proofs.Rtl.EccRefinement
import MemoryCompiler.Proofs.Files.Places
import MemoryCompiler.Proofs.Files.Trees
import MemoryCompiler.Proofs.Files.Operations
import MemoryCompiler.Proofs.Files.Directories
import MemoryCompiler.Proofs.Files.FreshNames
import MemoryCompiler.Proofs.Files.Hosts
import MemoryCompiler.Proofs.Rtl.Publishing
import MemoryCompiler.Proofs.Rtl.FailedPublication
import MemoryCompiler.Proofs.Rtl.CompleteOrClean
import MemoryCompiler.Proofs.Files.Interleaving
import MemoryCompiler.Proofs.Rtl.Ledger
import MemoryCompiler.Proofs.Rtl.Protocol
import MemoryCompiler.Proofs.Rtl.Turns
import MemoryCompiler.Proofs.Rtl.Writers
import MemoryCompiler.Proofs.Rtl.LostUpdates
import MemoryCompiler.Proofs.Rtl.TwoWriters
import MemoryCompiler.Proofs.Rtl.CompleteSets
import MemoryCompiler.Proofs.Rtl.WellFormed
import MemoryCompiler.Proofs.Rtl.Wiring
import MemoryCompiler.Proofs.Rtl.ModuleNames
import MemoryCompiler.Proofs.Decimal.Doubles
import MemoryCompiler.Proofs.Decimal.Rounding
import MemoryCompiler.Proofs.Decimal.WholeDoubles
import MemoryCompiler.Proofs.Decimal.Order
import MemoryCompiler.Proofs.Process.Sessions
import MemoryCompiler.Proofs.Config.Fields
import MemoryCompiler.Proofs.Config.Acceptance
import MemoryCompiler.Proofs.Decimal.Reals
import MemoryCompiler.Proofs.Ecc.Distance
import MemoryCompiler.Proofs.Estimate.Formulas
import MemoryCompiler.Proofs.Estimate.Verdicts
import MemoryCompiler.Proofs.Decimal.WholeText
import MemoryCompiler.Proofs.Diagram.Connectivity
import MemoryCompiler.Proofs.Xml.Printing
import MemoryCompiler.Proofs.Diagram.Drawing
import MemoryCompiler.Proofs.Diagram.Elements
import MemoryCompiler.Proofs.Diagram.Outline
import MemoryCompiler.Proofs.Rtl.StructuralText
import MemoryCompiler.Proofs.CommandLine.Outcome
import MemoryCompiler.Proofs.Ecc.Coverage
import MemoryCompiler.Proofs.Decimal.Sums
import MemoryCompiler.Proofs.Ecc.LeastCheckBits
import MemoryCompiler.Proofs.Verilog.Arithmetic
import MemoryCompiler.Proofs.Rtl.AddressDecoding
import MemoryCompiler.Proofs.Process.Overrides
import MemoryCompiler.Proofs.Diagram.DriverSearch
import MemoryCompiler.Proofs.Estimate.Dependence
import MemoryCompiler.Proofs.Estimate.Comparisons
import MemoryCompiler.Proofs.CommandLine.OptionGroups
import MemoryCompiler.Proofs.Template.Listing
import MemoryCompiler.Proofs.Decimal.RealRounding
import MemoryCompiler.Proofs.Decimal.Accuracy
import MemoryCompiler.Proofs.Decimal.Values
import MemoryCompiler.Proofs.Decimal.RoundedOperations
import MemoryCompiler.Proofs.Decimal.NearestWhole
import MemoryCompiler.Proofs.Diagram.BoxSizes
import MemoryCompiler.Proofs.Diagram.Canvas
import MemoryCompiler.Proofs.Decimal.MonotoneOperations
import MemoryCompiler.Proofs.Diagram.BoxGrowth
import MemoryCompiler.Proofs.Diagram.LayoutAnswers
import MemoryCompiler.Proofs.Text.AlphabeticalOrder
import MemoryCompiler.Proofs.Diagram.HintedOrder
import MemoryCompiler.Proofs.Report.MarkdownTables
import MemoryCompiler.Proofs.Report.ComparisonTables
import MemoryCompiler.Proofs.Diagram.Routes
import MemoryCompiler.Proofs.Xml.Escaping
import MemoryCompiler.Proofs.Text.Words
import MemoryCompiler.Proofs.Rtl.EquationLines
import MemoryCompiler.Proofs.Decimal.RoundingIntervals
import MemoryCompiler.Proofs.Decimal.TextValues
import MemoryCompiler.Proofs.Config.Labels
