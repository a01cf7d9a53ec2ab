import DagSelect.Selector.Expr
import DagSelect.Selector.Text
import DagSelect.Walk.Focus
import DagSelect.Command.Select
import DagSelect.Fixture.Report
import DagSelect.Main
import DagSelect.Proofs.Text.Decimal
import DagSelect.Proofs.Node.Everywhere
import DagSelect.Proofs.Node.Document
import DagSelect.Proofs.Selector.Interests
import DagSelect.Proofs.Walk.Steps
import DagSelect.Proofs.Walk.Run
import DagSelect.Proofs.Walk.Undisturbed
import DagSelect.Proofs.Walk.Union
import DagSelect.Proofs.Walk.LinkGraph
import DagSelect.Proofs.Walk.Ensures
import DagSelect.Proofs.Walk.Spending
import DagSelect.Proofs.Walk.Locate
import DagSelect.Proofs.Walk.Addresses
import DagSelect.Proofs.Walk.Alike
import DagSelect.Proofs.Walk.AlongPath
import DagSelect.Proofs.Selector.OfPath
import DagSelect.Proofs.Walk.Transparency
import DagSelect.Proofs.Walk.Pruning
import DagSelect.Proofs.Except
import DagSelect.Proofs.DagJson.Image
import DagSelect.Proofs.Selector.RoundTrip
import DagSelect.Proofs.Selector.Text
import DagSelect.Proofs.Command.Reading
import DagSelect.Proofs.Command.Check
import DagSelect.Proofs.Selector.Along
import DagSelect.Proofs.Selector.Tagged
import DagSelect.Proofs.Selector.EdgeOwner
import DagSelect.Proofs.Json.Literal
import DagSelect.Proofs.Json.Scan
import DagSelect.Proofs.Json.Tokens
import DagSelect.Proofs.Json.Spread
import DagSelect.Proofs.Json.OneLine
import DagSelect.Proofs.Json.Build
import DagSelect.Proofs.Base64
import DagSelect.Proofs.DagJson.Outcome
import DagSelect.Proofs.DagJson.RoundTrip
import DagSelect.Proofs.Selector.Step
import DagSelect.Proofs.Selector.Weight
import DagSelect.Proofs.Walk.Bounded
import DagSelect.Proofs.Selector.EdgeDistance
import DagSelect.Proofs.Selector.Outcome
import DagSelect.Proofs.Selector.Graft
import DagSelect.Proofs.Selector.Unrolling
import DagSelect.Proofs.Selector.UnderWay
import DagSelect.Proofs.Binary64.Value
import DagSelect.Proofs.Binary64.Rounding
import DagSelect.Proofs.Binary64.Shortest
import DagSelect.Proofs.Binary64.Numeral
import DagSelect.Proofs.Binary64.Text
import DagSelect.Proofs.Json.Numeral
import DagSelect.Proofs.Json.Floats
import DagSelect.Proofs.DagJson.Floats
import DagSelect.Proofs.Walk.Maintains
import DagSelect.Proofs.Walk.Hops
import DagSelect.Proofs.Walk.SideBySide
import DagSelect.Proofs.Walk.Truncation
import DagSelect.Proofs.Walk.Budgets
import DagSelect.Proofs.Walk.LinkChains
import DagSelect.Proofs.Walk.LinkBlocks
import DagSelect.Proofs.Walk.Once
import DagSelect.Proofs.Walk.Termination
import DagSelect.Proofs.Walk.Interruption
import DagSelect.Proofs.Walk.Visited
import DagSelect.Proofs.Command.Lines
import DagSelect.Proofs.Selector.Limits
import DagSelect.Proofs.Command.Confinement
import DagSelect.Proofs.Selector.Rearranged
import DagSelect.Proofs.Walk.Bisimulation
import DagSelect.Proofs.DagJson.PlainText
import DagSelect.Proofs.Fixture.Agreement
import DagSelect.Proofs.Walk.WholeDocument
import DagSelect.Proofs.Walk.Composition
import DagSelect.Proofs.Walk.LinkTwice
import DagSelect.Proofs.Json.SpreadFloats
import DagSelect.Proofs.Selector.Expressions
import DagSelect.Proofs.DagJson.Layouts
import DagSelect.Proofs.DagJson.Gather
import DagSelect.Proofs.Json.Parts
import DagSelect.Proofs.Json.Slices
import DagSelect.Proofs.DagJson.Faults
import DagSelect.Proofs.Path.Text
import DagSelect.Proofs.Walk.Spelling
import DagSelect.Proofs.Population
import DagSelect.Proofs.Selector.Flat
import DagSelect.Proofs.Selector.FiniteState
import DagSelect.Proofs.Selector.Laps
import DagSelect.Proofs.Selector.PilingUp
import DagSelect.Proofs.Selector.Live
import DagSelect.Proofs.Selector.Members
import DagSelect.Proofs.Selector.EdgeCounts
import DagSelect.Proofs.Walk.Lookup
import DagSelect.Proofs.Walk.Roaming
import DagSelect.Proofs.Command.Printing
