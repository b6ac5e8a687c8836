import StreamPlan.Rows.Evaluate
import StreamPlan.Session.Compiler
import StreamPlan.Proofs.Columns.Position
import StreamPlan.Proofs.Columns.ColumnMap
import StreamPlan.Proofs.EventTime.Candidates
import StreamPlan.Proofs.Plan.Sound
import StreamPlan.Proofs.Plan.AggregateRule
import StreamPlan.Proofs.Catalog.Linked
import StreamPlan.Proofs.EventTime.Bound
import StreamPlan.Proofs.Query.Rel
import StreamPlan.Proofs.Safety.WellFormed
import StreamPlan.Proofs.Safety.Filter
import StreamPlan.Proofs.Catalog.Growth
import StreamPlan.Proofs.Catalog.Sane
import StreamPlan.Proofs.Catalog.Registrations
import StreamPlan.Proofs.Safety.Scan
import StreamPlan.Proofs.Plan.Project
import StreamPlan.Proofs.Plan.Columns
import StreamPlan.Proofs.Safety.Project
import StreamPlan.Proofs.Safety.Ranking
import StreamPlan.Proofs.Safety.Join
import StreamPlan.Proofs.Safety.IntervalJoin
import StreamPlan.Proofs.Lineage
import StreamPlan.Proofs.Safety.Aggregate
import StreamPlan.Proofs.Safety.Align
import StreamPlan.Proofs.Safety.Union
import StreamPlan.Proofs.Safety.Convert
import StreamPlan.Proofs.Rows.Sorting
import StreamPlan.Proofs.Rows.Expr
import StreamPlan.Proofs.Rows.Evaluate
import StreamPlan.Proofs.EventTime.Meaning
import StreamPlan.Proofs.Plan.Keeps
import StreamPlan.Proofs.Plan.Lineage
import StreamPlan.Proofs.Plan.LaterCatalog
import StreamPlan.Proofs.Rows.Restricted
import StreamPlan.Proofs.Rows.Shape
import StreamPlan.Proofs.Typing.Row
import StreamPlan.Proofs.Typing.Plan
import StreamPlan.Proofs.Typing.Project
import StreamPlan.Proofs.Typing.Scan
import StreamPlan.Proofs.Typing.Join
import StreamPlan.Proofs.Typing.Aggregate
import StreamPlan.Proofs.Typing.Convert
import StreamPlan.Proofs.Answers.Basic
import StreamPlan.Proofs.Answers.Pending
import StreamPlan.Proofs.Answers.Filter
import StreamPlan.Proofs.Answers.Project
import StreamPlan.Proofs.Answers.Repeats
import StreamPlan.Proofs.Rows.Equality
import StreamPlan.Proofs.Rows.Join
import StreamPlan.Proofs.Rows.JoinCondition
import StreamPlan.Proofs.Rows.Group
import StreamPlan.Proofs.EventTime.Leaders
import StreamPlan.Proofs.Answers.Aligned
import StreamPlan.Proofs.Answers.Materialized
import StreamPlan.Proofs.Answers.Aggregate
import StreamPlan.Proofs.Answers.Union
import StreamPlan.Proofs.Answers.JoinCondition
import StreamPlan.Proofs.Answers.Join
import StreamPlan.Proofs.Entities.Unrolling
import StreamPlan.Proofs.Entities.Lineage
import StreamPlan.Proofs.Entities.Parts
import StreamPlan.Proofs.Entities.Flatten
import StreamPlan.Proofs.Entities.Keyed
import StreamPlan.Proofs.Entities.Merged
import StreamPlan.Proofs.Entities.Drawn
import StreamPlan.Proofs.Entities.SelfJoin
import StreamPlan.Proofs.Entities.Paired
import StreamPlan.Proofs.Answers.Pairs
import StreamPlan.Proofs.Plan.Cheapest
import StreamPlan.Proofs.Session.Calls
import StreamPlan.Proofs.Rows.Moved
import StreamPlan.Proofs.Session.Pending
import StreamPlan.Proofs.Session.Publishing
import StreamPlan.Proofs.Session.Stages
import StreamPlan.Proofs.Schema.RowType
import StreamPlan.Proofs.Session.KeyLayout
import StreamPlan.Proofs.Session.Rankings
import StreamPlan.Proofs.Session.InPlace
import StreamPlan.Proofs.Session.Registry
import StreamPlan.Proofs.Session.Handoff
import StreamPlan.Proofs.Keys.Join
import StreamPlan.Proofs.Keys.Convert
import StreamPlan.Proofs.Query.Capabilities
import StreamPlan.Proofs.Stage.Requirements
import StreamPlan.Proofs.Plan.Ranking
import StreamPlan.Proofs.Plan.Requirements
import StreamPlan.Proofs.Plan.Coverage
import StreamPlan.Proofs.Plan.Supports
import StreamPlan.Proofs.Plan.Latest
import StreamPlan.Proofs.Rows.Window
import StreamPlan.Proofs.Answers.Window
import StreamPlan.Proofs.Schema.Names
import StreamPlan.Proofs.Schema.Queries
import StreamPlan.Proofs.Schema.Operators
import StreamPlan.Proofs.Schema.Join
import StreamPlan.Proofs.Schema.Convert
import StreamPlan.Proofs.Plan.Inline
import StreamPlan.Proofs.Plan.UnionTimes
import StreamPlan.Proofs.Rows.Permutation
import StreamPlan.Proofs.Rows.Distinct
import StreamPlan.Proofs.Answers.Distinct
import StreamPlan.Proofs.Answers.TimeWindow
import StreamPlan.Proofs.Answers.IntervalHint
import StreamPlan.Proofs.Entities.Matching
import StreamPlan.Proofs.Answers.Normalized
import StreamPlan.Proofs.Answers.Lookup
import StreamPlan.Proofs.Rows.Ranks
import StreamPlan.Proofs.Rows.Regroup
import StreamPlan.Proofs.Rows.Repeats
import StreamPlan.Proofs.Rows.Order
import StreamPlan.Proofs.Rows.Nulls
import StreamPlan.Proofs.Rows.Sortable
import StreamPlan.Proofs.Rows.Accumulate
import StreamPlan.Proofs.Rows.Running
import StreamPlan.Proofs.Rows.InRange
import StreamPlan.Proofs.Answers.Sliding
import StreamPlan.Proofs.EventTime.Bucket
import StreamPlan.Proofs.EventTime.Merge
import StreamPlan.Proofs.Plan.FilterChain
import StreamPlan.Proofs.Plan.Picked
import StreamPlan.Proofs.EventTime.Exact
import StreamPlan.Proofs.Safety.Overflow
import StreamPlan.Proofs.Plan.Intervals
import StreamPlan.Proofs.Safety.Arithmetic
import StreamPlan.Proofs.Rows.Logic
import StreamPlan.Proofs.Rows.Ties
import StreamPlan.Proofs.Plan.WindowHint
import StreamPlan.Proofs.Diagnostics.EditDistance
import StreamPlan.Proofs.Rows.OuterJoin
import StreamPlan.Proofs.Plan.Selected
import StreamPlan.Proofs.Diagnostics.Suggestions
import StreamPlan.Proofs.Rows.JoinedOrder
import StreamPlan.Proofs.Answers.ConditionParts
import StreamPlan.Proofs.EventTime.Branches
import StreamPlan.Proofs.Columns.Composition
