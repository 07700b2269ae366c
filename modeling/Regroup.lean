import Regroup.Decimal.Shortest
import Regroup.Decimal.Layout
import Regroup.Text.Blank
import Regroup.Op
import Regroup.Const
import Regroup.Scalar
import Regroup.Inst
import Regroup.Func
import Regroup.Trap
import Regroup.Func.Renumber
import Regroup.Func.Draft
import Regroup.Saturate
import Regroup.Func.Flow
import Regroup.Func.Dominators
import Regroup.Func.Liveness
import Regroup.Func.Uniformity
import Regroup.Func.WellFormed
import Regroup.Func.Exec
import Regroup.Sorting
import Regroup.Lex
import Regroup.Tree
import Regroup.Func.Facts
import Regroup.Chain.Growth
import Regroup.Chain.PairTable
import Regroup.Log
import Regroup.Chain.Survey
import Regroup.Chain.Arrangement
import Regroup.Chain.Grouping
import Regroup.Func.Patch
import Regroup.Chain.Attempt
import Regroup.Pass.Report
import Regroup.Pass.Disabled
import Regroup.Proofs.Paths
import Regroup.Proofs.Walk
import Regroup.Proofs.DominatorTree
import Regroup.Proofs.Dominators
import Regroup.Proofs.Dominance
import Regroup.Proofs.WellFormedness
import Regroup.Proofs.Sorting
import Regroup.Proofs.Weaving
import Regroup.Proofs.Growth
import Regroup.Proofs.Plans
import Regroup.Proofs.Pinning
import Regroup.Proofs.Grouping
import Regroup.Proofs.Rebuilding
import Regroup.Proofs.Renaming
import Regroup.Proofs.Regrouping
import Regroup.Proofs.Recasting
import Regroup.Proofs.Expansion
import Regroup.Proofs.Frame
import Regroup.Proofs.Progress
import Regroup.Proofs.Associativity
import Regroup.Proofs.Outcomes
import Regroup.Proofs.Running
import Regroup.Proofs.Synchrony
import Regroup.Proofs.Preservation
import Regroup.Proofs.Liveness
import Regroup.Proofs.Partition
import Regroup.Proofs.Uniformity
import Regroup.Proofs.Regrowth
import Regroup.Proofs.Discovery
import Regroup.Proofs.Economy
import Regroup.Proofs.Stopping
import Regroup.Proofs.Supply
import Regroup.Proofs.Noninterference
import Regroup.Proofs.Recognition
import Regroup.Proofs.Rediscovery
import Regroup.Proofs.Persistence
import Regroup.Proofs.Equivariance
import Regroup.Proofs.Restrictions
import Regroup.Proofs.Pairing
import Regroup.Proofs.Rearrangement
import Regroup.Proofs.Resurvey
import Regroup.Proofs.Idempotence
import Regroup.Proofs.Rereading
import Regroup.Proofs.Tallying
import Regroup.Proofs.Hoisting
import Regroup.Proofs.SharedPairs
import Regroup.Proofs.Absorption
import Regroup.Proofs.Renumbering
import Regroup.Proofs.Lifelines
import Regroup.Proofs.Atomicity
import Regroup.Proofs.Splicing
import Regroup.Proofs.Halting
import Regroup.Proofs.Lanes
