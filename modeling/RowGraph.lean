import RowGraph.Json.Parser
import RowGraph.Query.Describe
import RowGraph.Query.ToMany
import RowGraph.Schema.Declaration
import RowGraph.Session
import RowGraph.Wire.Encode
import RowGraph.Wire.Pool
import RowGraph.Proofs.Keyed
import RowGraph.Proofs.Schema
import RowGraph.Proofs.Walk
import RowGraph.Proofs.Scope
import RowGraph.Proofs.Reached
import RowGraph.Proofs.Resolution
import RowGraph.Proofs.Columns
import RowGraph.Proofs.Scopes
import RowGraph.Proofs.Alias
import RowGraph.Proofs.Joins
import RowGraph.Proofs.Alignment
import RowGraph.Proofs.Mapping
import RowGraph.Proofs.Plans
import RowGraph.Proofs.Depiction
import RowGraph.Proofs.Same
import RowGraph.Proofs.Grouping
import RowGraph.Proofs.Fetching
import RowGraph.Proofs.Members
import RowGraph.Proofs.Moves
import RowGraph.Proofs.Memo
import RowGraph.Proofs.Trace
import RowGraph.Proofs.Fields
import RowGraph.Proofs.Levels
import RowGraph.Proofs.Alike
import RowGraph.Proofs.Labels
import RowGraph.Proofs.Settled
import RowGraph.Proofs.Rerun
import RowGraph.Proofs.Streaming
import RowGraph.Proofs.Unbuilt
import RowGraph.Proofs.Saving
import RowGraph.Proofs.Isolated
import RowGraph.Proofs.Compiled
import RowGraph.Proofs.Selection
import RowGraph.Proofs.Forwarding
import RowGraph.Proofs.Narrowing
import RowGraph.Proofs.Rearranged
import RowGraph.Proofs.Exclusion
import RowGraph.Proofs.Faults
import RowGraph.Proofs.Subqueries
import RowGraph.Proofs.References
import RowGraph.Proofs.Expressions
import RowGraph.Proofs.Decoding
import RowGraph.Proofs.Fallback
import RowGraph.Proofs.Halfway
import RowGraph.Proofs.Arranged
import RowGraph.Proofs.Shapes
import RowGraph.Proofs.Keeping
import RowGraph.Proofs.Trimming
import RowGraph.Proofs.Injected
import RowGraph.Proofs.Declared
import RowGraph.Proofs.Merging
import RowGraph.Proofs.Persisting
import RowGraph.Proofs.Validated
import RowGraph.Proofs.Indexed
import RowGraph.Proofs.Trees
import RowGraph.Proofs.Numbering
import RowGraph.Proofs.Quoting
import RowGraph.Proofs.Encoding
import RowGraph.Proofs.Depth
import RowGraph.Proofs.Termination
