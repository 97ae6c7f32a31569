import TemporalMonitor.Acceptance
import TemporalMonitor.Automaton.CountingProduct
import TemporalMonitor.Automaton.Dot
import TemporalMonitor.Automaton.Finite
import TemporalMonitor.Automaton.Omega
import TemporalMonitor.Automaton.PowerSet
import TemporalMonitor.Formula.Basic
import TemporalMonitor.Formula.Closure
import TemporalMonitor.Formula.Json
import TemporalMonitor.Formula.NormalForm
import TemporalMonitor.Formula.Order
import TemporalMonitor.Formula.Printer
import TemporalMonitor.Formula.Semantics
import TemporalMonitor.Graph.Basic
import TemporalMonitor.Graph.Components
import TemporalMonitor.Graph.Discovery
import TemporalMonitor.Graph.Dot
import TemporalMonitor.Graph.Unfolding
import TemporalMonitor.Guard.Basic
import TemporalMonitor.Guard.Partition
import TemporalMonitor.Json.Basic
import TemporalMonitor.Json.Reader
import TemporalMonitor.Json.Writer
import TemporalMonitor.Literal
import TemporalMonitor.Monitor.Basic
import TemporalMonitor.Monitor.Replay
import TemporalMonitor.Monitor.Status
import TemporalMonitor.Observation
import TemporalMonitor.Proofs.Acceptance
import TemporalMonitor.Proofs.Automaton.Acceptance
import TemporalMonitor.Proofs.Automaton.CountedNodes
import TemporalMonitor.Proofs.Automaton.CountingProduct
import TemporalMonitor.Proofs.Automaton.DeadGuards
import TemporalMonitor.Proofs.Automaton.Deterministic
import TemporalMonitor.Proofs.Automaton.Determinization
import TemporalMonitor.Proofs.Automaton.Dot
import TemporalMonitor.Proofs.Automaton.Lasso
import TemporalMonitor.Proofs.Automaton.PowerSet
import TemporalMonitor.Proofs.Automaton.Projection
import TemporalMonitor.Proofs.Formula.Closure
import TemporalMonitor.Proofs.Formula.Json
import TemporalMonitor.Proofs.Formula.NormalForm
import TemporalMonitor.Proofs.Formula.Printer
import TemporalMonitor.Proofs.Formula.Semantics
import TemporalMonitor.Proofs.Graph.CallStack
import TemporalMonitor.Proofs.Graph.Components
import TemporalMonitor.Proofs.Graph.Condensation
import TemporalMonitor.Proofs.Graph.Discovery
import TemporalMonitor.Proofs.Graph.Dot
import TemporalMonitor.Proofs.Graph.Propositions
import TemporalMonitor.Proofs.Graph.Reachability
import TemporalMonitor.Proofs.Graph.Simplification
import TemporalMonitor.Proofs.Graph.Unfolding
import TemporalMonitor.Proofs.Guard.Cube
import TemporalMonitor.Proofs.Guard.Partition
import TemporalMonitor.Proofs.Json.RoundTrip
import TemporalMonitor.Proofs.Monitor
import TemporalMonitor.Proofs.Monitor.Calls
import TemporalMonitor.Proofs.Monitor.Construction
import TemporalMonitor.Proofs.Monitor.Negation
import TemporalMonitor.Proofs.Monitor.Relevance
import TemporalMonitor.Proofs.Monitor.Replay
import TemporalMonitor.Proofs.Monitor.Runs
import TemporalMonitor.Proofs.SortedSet
import TemporalMonitor.Proofs.Synthesis
import TemporalMonitor.Proofs.Synthesis.Propositions
import TemporalMonitor.Proofs.Tableau.Accounting
import TemporalMonitor.Proofs.Tableau.Automaton
import TemporalMonitor.Proofs.Tableau.Completion
import TemporalMonitor.Proofs.Tableau.Invariants
import TemporalMonitor.Proofs.Tableau.NormalForm
import TemporalMonitor.Proofs.Tableau.Refusal
import TemporalMonitor.Proofs.Tableau.Saturation
import TemporalMonitor.Proofs.Tableau.Search
import TemporalMonitor.Proofs.Tableau.Termination
import TemporalMonitor.Proofs.Trace
import TemporalMonitor.Proofs.UniqueReading
import TemporalMonitor.SortedSet
import TemporalMonitor.Synthesis.Basic
import TemporalMonitor.Synthesis.Error
import TemporalMonitor.Synthesis.Json
import TemporalMonitor.Tableau.Automaton
import TemporalMonitor.Tableau.Basic
import TemporalMonitor.Tableau.Rule
import TemporalMonitor.Trace
import TemporalMonitor.Valuation
