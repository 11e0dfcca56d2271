import MayTaint.Text.Characters
import MayTaint.Text.Quoted
import MayTaint.Decimal.Binary64
import MayTaint.Decimal.Shortest
import MayTaint.Machine
import MayTaint.Datum
import MayTaint.Sorted
import MayTaint.Program.Location
import MayTaint.Report
import MayTaint.Fault
import MayTaint.Report.Arguments
import MayTaint.LocalSet
import MayTaint.Program.Instruction
import MayTaint.Program.Terminator
import MayTaint.Program.Body
import MayTaint.Program.Node
import MayTaint.Accumulator
import MayTaint.Audit
import MayTaint.Log
import MayTaint.Effect
import MayTaint.Table
import MayTaint.Settings
import MayTaint.Analysis
import MayTaint.Results
import MayTaint.Cursor
import MayTaint.Fixpoint
import MayTaint.Taint.Rules
import MayTaint.Taint.Analysis
import MayTaint.Taint.Archive
import MayTaint.Script
import MayTaint.Dump
import MayTaint.Dot
import MayTaint.Catalogue
import MayTaint.Proofs.Lattice
import MayTaint.Proofs.Stateless
import MayTaint.Proofs.Replay
import MayTaint.Proofs.Graph
import MayTaint.Proofs.Worklist
import MayTaint.Proofs.FixedPoint
import MayTaint.Proofs.Least
import MayTaint.Proofs.Taint.Rules
import MayTaint.Proofs.Growth
import MayTaint.Proofs.Bound
import MayTaint.Proofs.WellFormed
import MayTaint.Proofs.Taint.Transfer
import MayTaint.Proofs.Cursor
import MayTaint.Proofs.Taint.Paths
import MayTaint.Proofs.Taint.Audit
import MayTaint.Proofs.Taint.Noninterference
import MayTaint.Proofs.Contract
import MayTaint.Proofs.Failure
import MayTaint.Proofs.Limit
import MayTaint.Proofs.History
import MayTaint.Proofs.Taint.ReturnEdges
import MayTaint.Proofs.Postorder
import MayTaint.Proofs.Visited
import MayTaint.Proofs.Cause
import MayTaint.Proofs.Taint.Outcomes
import MayTaint.Proofs.Taint.Linear
import MayTaint.Proofs.Taint.Refusal
import MayTaint.Proofs.Seeks
import MayTaint.Proofs.Unreachable
import MayTaint.Proofs.Coupling
import MayTaint.Proofs.Taint.Reuse
import MayTaint.Proofs.Renaming
import MayTaint.Proofs.Taint.Equivariance
import MayTaint.Proofs.Requests
import MayTaint.Proofs.Explanation
import MayTaint.Proofs.FailedSeeks
import MayTaint.Proofs.Queries
import MayTaint.Proofs.Taint.Quiet
import MayTaint.Proofs.Labels
import MayTaint.Proofs.BlockOrder
import MayTaint.Proofs.Taint.Capped
import MayTaint.Proofs.Taint.Detection
import MayTaint.Proofs.Predecessors
import MayTaint.Proofs.Taint.Segments
import MayTaint.Proofs.FiniteSets
import MayTaint.Proofs.Listing
import MayTaint.Proofs.Taint.FirstRecords
