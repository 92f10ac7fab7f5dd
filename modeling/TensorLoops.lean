import TensorLoops.Main
import TensorLoops.Code.Builder
import TensorLoops.Lanes.Partition
import TensorLoops.Matmul.Schedule
import TensorLoops.Proofs.Code.Layout
import TensorLoops.Proofs.Compute.Unfolding
import TensorLoops.Proofs.Compute.Updates
import TensorLoops.Proofs.Lanes.Partition
import TensorLoops.Proofs.Source.Reading
import TensorLoops.Proofs.Source.WellScoped
import TensorLoops.Proofs.Compute.Expands
import TensorLoops.Proofs.Compute.Supply
import TensorLoops.Proofs.Code.Scoping
import TensorLoops.Proofs.Compute.Drafts
import TensorLoops.Proofs.Compute.Closed
import TensorLoops.Proofs.Code.Running
import TensorLoops.Proofs.Compute.Loops
import TensorLoops.Proofs.Compute.Denotation
import TensorLoops.Proofs.Compute.Storage
import TensorLoops.Proofs.Compute.Preservation
import TensorLoops.Proofs.Compute.Execution
import TensorLoops.Proofs.Compute.Meaning
import TensorLoops.Proofs.Copy.Conservation
import TensorLoops.Proofs.Source.Taking
import TensorLoops.Proofs.Source.Phrases
import TensorLoops.Proofs.Source.Allowance
import TensorLoops.Proofs.Source.Grammar
import TensorLoops.Proofs.Source.Growth
import TensorLoops.Proofs.Source.Declarations
import TensorLoops.Proofs.Source.WellFormed
import TensorLoops.Proofs.Compute.Identifiers
import TensorLoops.Proofs.Compute.Names
import TensorLoops.Proofs.Compute.Reached
import TensorLoops.Proofs.Code.Naming
import TensorLoops.Proofs.Compute.Parameters
import TensorLoops.Proofs.Code.Accesses
import TensorLoops.Proofs.Code.NormalForm
import TensorLoops.Proofs.Code.Idempotence
import TensorLoops.Proofs.Code.Outlines
import TensorLoops.Proofs.Source.Spending
import TensorLoops.Proofs.Compute.Types
import TensorLoops.Proofs.Compute.Ranks
import TensorLoops.Proofs.Compute.Demand
import TensorLoops.Proofs.Compute.Progress
import TensorLoops.Proofs.Compute.Limits
import TensorLoops.Proofs.Source.Failure
import TensorLoops.Proofs.Compute.FrontEnd
import TensorLoops.Proofs.Copy.Trace
import TensorLoops.Proofs.Device.Entries
import TensorLoops.Proofs.Device.Protocol
import TensorLoops.Proofs.Lanes.Associativity
import TensorLoops.Proofs.Compute.Completion
import TensorLoops.Proofs.Matmul.Outcome
import TensorLoops.Proofs.Source.Tokens
import TensorLoops.Proofs.Source.Formatting
import TensorLoops.Proofs.Compute.Calls
import TensorLoops.Proofs.Compute.Values
import TensorLoops.Proofs.Compute.Order
import TensorLoops.Proofs.Compute.ResultTypes
import TensorLoops.Proofs.Compute.Accounting
import TensorLoops.Proofs.Code.Renaming
import TensorLoops.Proofs.Compute.Lockstep
import TensorLoops.Proofs.Compute.Repetition
import TensorLoops.Proofs.Code.Effects
import TensorLoops.Proofs.Compute.Coverage
import TensorLoops.Proofs.Compute.Extrema
import TensorLoops.Proofs.Matmul.Fragments
import TensorLoops.Proofs.Copy.Draining
import TensorLoops.Proofs.Lanes.Decision
import TensorLoops.Proofs.Compute.Ranges
import TensorLoops.Proofs.Matmul.Tiling
import TensorLoops.Proofs.Source.Spelling
import TensorLoops.Proofs.Source.RoundTrip
import TensorLoops.Proofs.Source.Series
import TensorLoops.Proofs.Compute.Emission
import TensorLoops.Proofs.Compute.MissingAxes
import TensorLoops.Proofs.Source.Script
import TensorLoops.Proofs.Source.Position
import TensorLoops.Proofs.Source.Spans
import TensorLoops.Proofs.Source.Lookahead
import TensorLoops.Proofs.Device.SourceSizes
