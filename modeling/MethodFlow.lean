import MethodFlow.Batch
import MethodFlow.Escape.Sink
import MethodFlow.Graph.Digraph
import MethodFlow.Program.Encoding
import MethodFlow.Splitting
import MethodFlow.Proofs.DisjointSet.Classes
import MethodFlow.Proofs.Graph.Adjacency
import MethodFlow.Proofs.Graph.Reach
import MethodFlow.Proofs.Graph.Cycle
import MethodFlow.Proofs.Escape.Classes
import MethodFlow.Proofs.Verification.Operands
import MethodFlow.Proofs.Escape.Exactness
import MethodFlow.Proofs.Escape.Heap
import MethodFlow.Proofs.ControlFlow
import MethodFlow.Proofs.Splitting.Renaming
import MethodFlow.Proofs.Splitting.Copies
import MethodFlow.Proofs.Splitting.Exits
import MethodFlow.Proofs.Splitting.Effect
import MethodFlow.Proofs.Splitting.Refusal
import MethodFlow.Proofs.Splitting.FallThrough
import MethodFlow.Proofs.Splitting.Paths
import MethodFlow.Proofs.ControlFlow.Reachability
import MethodFlow.Proofs.ControlFlow.Predecessors
import MethodFlow.Proofs.Verification.Instructions
import MethodFlow.Proofs.Verification.WellFormed
import MethodFlow.Proofs.Splitting.Verified
import MethodFlow.Proofs.NullCheck.Insertion
import MethodFlow.Proofs.NullCheck.Rewriting
import MethodFlow.Proofs.NullCheck.EscapeFacts
import MethodFlow.Proofs.Method.DanglingOperands
import MethodFlow.Proofs.Method.Stages
import MethodFlow.Proofs.Method.HandedBack
import MethodFlow.Proofs.NullCheck.Verification
import MethodFlow.Proofs.Escape.FactOrder
import MethodFlow.Proofs.Method.VerifiedRun
import MethodFlow.Proofs.Strict.Graph
import MethodFlow.Proofs.Strict.DisjointSet
import MethodFlow.Proofs.Strict.Verification
import MethodFlow.Proofs.Strict.Analysis
import MethodFlow.Proofs.DisjointSet.Calls
import MethodFlow.Proofs.Graph.Digraph
import MethodFlow.Proofs.Encoding.Program
import MethodFlow.Proofs.Splitting.Frame
import MethodFlow.Proofs.Splitting.DataFacts
import MethodFlow.Proofs.DisjointSet.Numbering
import MethodFlow.Proofs.Escape.CopyClasses
import MethodFlow.Proofs.Escape.Growth
import MethodFlow.Proofs.Graph.Agreement
import MethodFlow.Proofs.Instruction.Fields
import MethodFlow.Proofs.Instruction.Renaming
import MethodFlow.Proofs.Escape.Sinks
import MethodFlow.Proofs.Escape.Summary
import MethodFlow.Proofs.Graph.Copying
import MethodFlow.Proofs.Graph.Export
import MethodFlow.Proofs.Program.Growth
import MethodFlow.Proofs.Program.Operations
import MethodFlow.Proofs.DisjointSet.Balance
import MethodFlow.Proofs.Graph.CycleCut
import MethodFlow.Proofs.Config.RoundTrip
