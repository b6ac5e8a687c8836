import StreamPlan.EventTime.NowFilter
import StreamPlan.Stage.Requirements

/-!
# Planning errors

Why a query cannot be planned on a stage. Every error is a cause; its wording
is `PlanError.message`.
-/

namespace StreamPlan

/-- An operator or modifier that cannot be planned. -/
inductive Unsupported where
  /-- An operator that only plans contain. -/
  | operator (kindName : String)
  /-- A union that removes duplicates. -/
  | distinctUnion
  | offset
  /-- Rows skipped below a ranking. -/
  | rankingOffset
  /-- A ranking of computed columns. -/
  | computedRanking
  /-- A ranking that gives one column two names. -/
  | renamedTwice
  /-- The latest row per key, without a key. -/
  | distinctWithoutKeys
  /-- The latest row per key of a table that is no stream. -/
  | distinctOver (kind : TableKind)
  /-- The latest row per key in an order other than latest first. -/
  | distinctOrder
  | groupingSets
  /-- An aggregate call with an order or a filter of its own. -/
  | modifiedCall (call : String)
  /-- The current time in a join condition. -/
  | nowInJoin
  /-- A nested table whose base table has open constraints. -/
  | pendingOnNested (base view : String)
  deriving DecidableEq, Repr

/-- What an unsupported operator says. -/
def Unsupported.message : Unsupported → String
  | operator kindName => s!"{kindName} in an input plan"
  | distinctUnion => "UNION without ALL"
  | offset => "OFFSET"
  | rankingOffset => "OFFSET in a ranking"
  | computedRanking => "ranking hint on a computed projection"
  | renamedTwice => "ranking projection names one column twice"
  | distinctWithoutKeys => "DISTINCT ON without keys"
  | distinctOver kind => "DISTINCT ON over a " ++ kind.display ++ " table"
  | distinctOrder => "DISTINCT ON must order by one timestamp descending"
  | groupingSets => "grouping sets"
  | modifiedCall call => s!"ordered or filtered aggregate call {call}"
  | nowInJoin => "now() in a join condition"
  | pendingOnNested base view => s!"pending constraints of '{base}' on nested table '{view}'"

/-- Why a window cannot be formed. -/
inductive WindowProblem where
  /-- A slide that does not split the window. -/
  | slide (step window : Int)
  /-- Several timestamps among the group keys. -/
  | severalTimestamps (columns : List Nat)
  deriving DecidableEq, Repr

/-- What a window problem says. -/
def WindowProblem.message : WindowProblem → String
  | slide step window => s!"slide of {step}ms for a window of {window}ms"
  | severalTimestamps columns =>
    "grouping by more than one timestamp: " ++ Text.positions columns

/-- Why a join is no join of a stream with the versions of a table. -/
inductive TemporalProblem where
  | kinds (left right : TableKind)
  /-- The condition does not equate exactly the key of the table. -/
  | key
  /-- The condition says more than equalities. -/
  | condition
  /-- The table has a pending now-filter. -/
  | nowFilter
  /-- An input without a timestamp. -/
  | timestamp
  deriving DecidableEq, Repr

/-- What a temporal problem says. -/
def TemporalProblem.message : TemporalProblem → String
  | kinds left right =>
    "expected a stream and a versioned state table, found " ++ left.display ++ " and "
      ++ right.display
  | key => "the condition must equate the full primary key of the versioned table"
  | condition => "the condition may only contain key equalities"
  | nowFilter => "the versioned table carries a now-filter"
  | timestamp => "both inputs need a timestamp"

/-- Why a join is no join of two streams within a bounded time. -/
inductive IntervalProblem where
  /-- An input that is no stream with a timestamp. -/
  | inputs
  | noBound
  /-- A bound that is not between two columns. -/
  | operands (bound : TimeBound)
  /-- Bounds on different columns. -/
  | columns
  /-- An equality beside another bound. -/
  | equality
  | secondUpper
  | secondLower
  | incomplete
  deriving DecidableEq, Repr

/-- What an interval problem says. -/
def IntervalProblem.message : IntervalProblem → String
  | inputs => "both inputs must be streams with a timestamp"
  | noBound => "no time bound between the inputs"
  | operands bound => "'" ++ bound.display ++ "' does not compare two timestamps"
  | columns => "bounds compare different timestamp columns"
  | equality => "equality bound combined with other bounds"
  | secondUpper => "more than one upper bound"
  | secondLower => "more than one lower bound"
  | incomplete => "incomplete time bounds"

/-- Why the branches of a union do not line up. -/
inductive UnionProblem where
  | noInputs
  /-- A branch that is no stream. -/
  | kind (branch : Nat) (found : TableKind)
  /-- A branch with another key or width than the first. -/
  | shape (branch : Nat) (key : List Nat) (width : Nat) (expectedKey : List Nat)
      (expectedWidth : Nat)
  | noTimestamp (branch : Nat)
  deriving DecidableEq, Repr

/-- What a union problem says. -/
def UnionProblem.message : UnionProblem → String
  | noInputs => "no inputs"
  | kind branch found => s!"branch {branch} is a " ++ found.display ++ " table"
  | shape branch key width expectedKey expectedWidth =>
    s!"branch {branch} has primary key " ++ Text.positions key ++ s!" over {width} columns, "
      ++ "expected " ++ Text.positions expectedKey ++ s!" over {expectedWidth}"
  | noTimestamp branch => s!"branch {branch} has no timestamp"

/-- Why a query cannot be planned on a stage. -/
inductive PlanError where
  | unsupported (what : Unsupported)
  | unsupportedJoin (kind : JoinKind)
  /-- Two now-filters that cannot hold together, above the given plan. -/
  | unsatisfiable (pending added : NowFilter) (rel : String)
  | invalidWindow (problem : WindowProblem)
  | invalidTemporalJoin (problem : TemporalProblem)
  | invalidIntervalJoin (problem : IntervalProblem)
  | incompatibleUnion (problem : UnionProblem)
  | capability (missing : MissingCapability)
  /-- The plan would leave its stage. -/
  | stageChange (source target : String)
  deriving DecidableEq, Repr

namespace PlanError

/-- What a planning error says. -/
def message : PlanError → String
  | unsupported what => "Unsupported: " ++ what.message
  | unsupportedJoin kind => "Unsupported join type: " ++ kind.display
  | unsatisfiable pending added rel =>
    "Unsatisfiable: now-filters '" ++ pending.display ++ "' and '" ++ added.display
      ++ "' conflict\n" ++ rel
  | invalidWindow problem => "Invalid window: " ++ problem.message
  | invalidTemporalJoin problem => "Invalid temporal join: " ++ problem.message
  | invalidIntervalJoin problem => "Invalid interval join: " ++ problem.message
  | incompatibleUnion problem => "Incompatible union: " ++ problem.message
  | capability missing => missing.message
  | stageChange source target => s!"Stage change from '{source}' to '{target}' is not allowed"

end PlanError

/-- Planning: a result, a planning error, or a fault. -/
abbrev Planning (α : Type) := Checked PlanError α

/-- A requirement on the stage; the missing capability is the planning error. -/
def needing {α : Type} : Except MissingCapability α → Planning α
  | .ok a => .ok a
  | .error missing => refuse (.capability missing)

end StreamPlan
