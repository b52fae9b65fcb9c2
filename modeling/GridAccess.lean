import GridAccess.Access.Handle
import GridAccess.Access.Provenance
import GridAccess.Access.Site
import GridAccess.Access.Summary
import GridAccess.Access.Trail
import GridAccess.CommandLine
import GridAccess.Evolution.Basic
import GridAccess.Evolution.Context
import GridAccess.Evolution.Fold
import GridAccess.Evolution.OfValue
import GridAccess.Evolution.Stride
import GridAccess.Evolution.TripCount
import GridAccess.Fault
import GridAccess.Flow.Cfg
import GridAccess.Flow.Dominance
import GridAccess.Flow.Loops
import GridAccess.Flow.Walk
import GridAccess.Formula.Marked
import GridAccess.Formula.OfEvolution
import GridAccess.Formula.OfValue
import GridAccess.Formula.Sheet
import GridAccess.Grid.Axis
import GridAccess.Grid.Builtins
import GridAccess.Grid.Register
import GridAccess.IR.Decode
import GridAccess.IR.Draft
import GridAccess.IR.Function
import GridAccess.IR.Layout
import GridAccess.IR.Module
import GridAccess.IR.Opcode
import GridAccess.IR.Ty
import GridAccess.IR.Value
import GridAccess.Json.Basic
import GridAccess.Json.Printer
import GridAccess.Json.Reader
import GridAccess.Kernel.Analysis
import GridAccess.Kernel.Event
import GridAccess.Kernel.Name
import GridAccess.Kernel.Run
import GridAccess.Main
import GridAccess.Proofs.Walk
import GridAccess.Report.Error
import GridAccess.Report.Remark
import GridAccess.Sorted
import GridAccess.Text.Binary64
import GridAccess.Text.Find
import GridAccess.Proofs.Paths
import GridAccess.Proofs.Analysis
import GridAccess.Proofs.Dominance
import GridAccess.Proofs.NaturalLoops
import GridAccess.Proofs.Operands
import GridAccess.Proofs.Folding
import GridAccess.Proofs.FoldingValue
import GridAccess.Proofs.Execution
import GridAccess.Proofs.Grouping
import GridAccess.Proofs.Loading
import GridAccess.Proofs.Lowering
import GridAccess.Proofs.Recurrence
import GridAccess.Proofs.Runs
import GridAccess.Proofs.EvolutionSoundness
import GridAccess.Proofs.Usage
import GridAccess.Proofs.AccessAxes
import GridAccess.Proofs.Arguments
import GridAccess.Proofs.LoopNesting
import GridAccess.Proofs.Mirroring
import GridAccess.Proofs.LatchBound
import GridAccess.Proofs.References
import GridAccess.Proofs.EvolutionReferences
import GridAccess.Proofs.FormulaReferences
import GridAccess.Proofs.AnalysisReferences
import GridAccess.Proofs.EvolutionShape
import GridAccess.Proofs.TripCount
import GridAccess.Proofs.RelatedFormulas
import GridAccess.Proofs.SideBySide
import GridAccess.Proofs.StructLayout
import GridAccess.Proofs.EvolutionEquations
import GridAccess.Proofs.Addresses
import GridAccess.Proofs.Stride
import GridAccess.Access.Succession
import GridAccess.Proofs.AffineEvolutions
import GridAccess.Proofs.CanonicalProducts
import GridAccess.Proofs.PartialEvolutions
import GridAccess.Proofs.AccessHistory
import GridAccess.Proofs.Descent
import GridAccess.Proofs.Aggregation
import GridAccess.Proofs.HandleWalks
import GridAccess.Proofs.Refusals
import GridAccess.Proofs.Reports
import GridAccess.Proofs.BoundNesting
import GridAccess.Proofs.LoopEntry
import GridAccess.Proofs.FoldingDescent
import GridAccess.Proofs.StackWalk
import GridAccess.Proofs.Edges
import GridAccess.Proofs.LoopDiscovery
import GridAccess.Proofs.LoopFilling
import GridAccess.Proofs.SurveyedLoops
