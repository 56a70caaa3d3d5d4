import PerpetuaCore.Discovery
import PerpetuaCore.Gossip
import PerpetuaCore.Graph.Adapters.LangChain
import PerpetuaCore.Graph.Adapters.LangGraph
import PerpetuaCore.Graph.Adapters.Snapshots
import PerpetuaCore.Graph.Admission
import PerpetuaCore.Graph.Announcement
import PerpetuaCore.Graph.Batches
import PerpetuaCore.Graph.Binding
import PerpetuaCore.Graph.Budget
import PerpetuaCore.Graph.Builder
import PerpetuaCore.Graph.Calls
import PerpetuaCore.Graph.Cascade
import PerpetuaCore.Graph.Commit
import PerpetuaCore.Graph.Confluence
import PerpetuaCore.Graph.Conformance
import PerpetuaCore.Graph.Course
import PerpetuaCore.Graph.Describe
import PerpetuaCore.Graph.Digest
import PerpetuaCore.Graph.Engine
import PerpetuaCore.Graph.Equivalence
import PerpetuaCore.Graph.Exhaustion
import PerpetuaCore.Graph.Finality
import PerpetuaCore.Graph.FoldLaws
import PerpetuaCore.Graph.Folding
import PerpetuaCore.Graph.Frame
import PerpetuaCore.Graph.Frontier
import PerpetuaCore.Graph.Gate
import PerpetuaCore.Graph.Guard
import PerpetuaCore.Graph.Interface
import PerpetuaCore.Graph.Isolation
import PerpetuaCore.Graph.Ledger
import PerpetuaCore.Graph.Lineage
import PerpetuaCore.Graph.Lint
import PerpetuaCore.Graph.Normalisation
import PerpetuaCore.Graph.Origin
import PerpetuaCore.Graph.Plugins.Checkpointer
import PerpetuaCore.Graph.Plugins.InterruptGuard
import PerpetuaCore.Graph.Plugins.Observer
import PerpetuaCore.Graph.Plugins.Parallel
import PerpetuaCore.Graph.Plugins.Routing
import PerpetuaCore.Graph.Plugins.StructuredOutput
import PerpetuaCore.Graph.Plugins.Validator
import PerpetuaCore.Graph.Protocol
import PerpetuaCore.Graph.Publication
import PerpetuaCore.Graph.Reachability
import PerpetuaCore.Graph.Reducers
import PerpetuaCore.Graph.Region
import PerpetuaCore.Graph.Requests
import PerpetuaCore.Graph.Returns
import PerpetuaCore.Graph.Rules
import PerpetuaCore.Graph.Safety
import PerpetuaCore.Graph.Sanitised
import PerpetuaCore.Graph.Schedule
import PerpetuaCore.Graph.Spec.Authoring
import PerpetuaCore.Graph.Spec.Coercions
import PerpetuaCore.Graph.Spec.Decode
import PerpetuaCore.Graph.Spec.Frozen
import PerpetuaCore.Graph.Spec.GraphSpec
import PerpetuaCore.Graph.Spec.Identity
import PerpetuaCore.Graph.Spec.Records
import PerpetuaCore.Graph.Spec.RoundTrip
import PerpetuaCore.Graph.Spec.Text
import PerpetuaCore.Graph.Spec.Typed
import PerpetuaCore.Graph.Subgraphs
import PerpetuaCore.Graph.Topology
import PerpetuaCore.Graph.Transparency
import PerpetuaCore.Graph.Truncation
import PerpetuaCore.Graph.Unbatched
import PerpetuaCore.Graph.Visits
import PerpetuaCore.Interaction.Consumer
import PerpetuaCore.Interaction.Erasure
import PerpetuaCore.Interaction.Eval
import PerpetuaCore.Interaction.Exec
import PerpetuaCore.Interaction.Generator
import PerpetuaCore.Interaction.Ghost
import PerpetuaCore.Interaction.History
import PerpetuaCore.Interaction.Indifference
import PerpetuaCore.Interaction.Interleave
import PerpetuaCore.Interaction.Pool
import PerpetuaCore.Interaction.Program
import PerpetuaCore.Interaction.Relational
import PerpetuaCore.Interaction.Retry
import PerpetuaCore.Interaction.Truncation
import PerpetuaCore.Json.Dumps
import PerpetuaCore.Json.Escape
import PerpetuaCore.Json.Grammar
import PerpetuaCore.Json.Loads
import PerpetuaCore.Json.Loose
import PerpetuaCore.Json.Numerals
import PerpetuaCore.Json.Plain
import PerpetuaCore.Json.Reading
import PerpetuaCore.Json.Scan
import PerpetuaCore.Json.Text
import PerpetuaCore.Json.Unescape
import PerpetuaCore.Json.Writes
import PerpetuaCore.Policy
import PerpetuaCore.Python.Dict
import PerpetuaCore.Python.Journal
import PerpetuaCore.Python.Order
import PerpetuaCore.Python.OrderedSet
import PerpetuaCore.Python.Raising
import PerpetuaCore.Python.Sorted
import PerpetuaCore.Python.Value
import PerpetuaCore.Python.Worklist
import PerpetuaCore.State
