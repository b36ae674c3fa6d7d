import Octagon.Conflict.Check
import Octagon.Digraph.Frames
import Octagon.Digraph.Queue
import Octagon.Graph.History
import Octagon.Graph.Log
import Octagon.Graph.Update
import Octagon.Links.Marked
import Octagon.Proofs.Accepted
import Octagon.Proofs.BreadthFirst
import Octagon.Proofs.Certificate
import Octagon.Proofs.Check
import Octagon.Proofs.Circuits
import Octagon.Proofs.Completeness
import Octagon.Proofs.Component
import Octagon.Proofs.Contradiction
import Octagon.Proofs.Decision
import Octagon.Proofs.Distance
import Octagon.Proofs.EarlyExit
import Octagon.Proofs.Embedding
import Octagon.Proofs.Explanation
import Octagon.Proofs.Faults
import Octagon.Proofs.FewestArcs
import Octagon.Proofs.Frames
import Octagon.Proofs.Graph.Embedding
import Octagon.Proofs.Graph.Fresh
import Octagon.Proofs.Graph.History
import Octagon.Proofs.Graph.Lowering
import Octagon.Proofs.Graph.Network
import Octagon.Proofs.Graph.Parallel
import Octagon.Proofs.Graph.Refusal
import Octagon.Proofs.Graph.Tables
import Octagon.Proofs.Growth
import Octagon.Proofs.Lines
import Octagon.Proofs.Marked
import Octagon.Proofs.Mirrored
import Octagon.Proofs.Miscount
import Octagon.Proofs.Moment
import Octagon.Proofs.Monotonicity
import Octagon.Proofs.Outcome
import Octagon.Proofs.Partition
import Octagon.Proofs.Queue
import Octagon.Proofs.Redundancy
import Octagon.Proofs.Rotation
import Octagon.Proofs.Rounding
import Octagon.Proofs.ShortestPath
import Octagon.Proofs.Smallest
import Octagon.Proofs.Statistics
import Octagon.Proofs.Sum
import Octagon.Proofs.TightSubgraph
import Octagon.Proofs.Tightens
import Octagon.Proofs.Trichotomy
import Octagon.Proofs.Widening
import Octagon.ShortestPath.Moment
import Octagon.Statistic.Basic
import Octagon.TightSubgraph.Growth
