import StreamPlan.Plan.Aggregate
import StreamPlan.Plan.Filter
import StreamPlan.Plan.IntervalJoin
import StreamPlan.Plan.Ranking
import StreamPlan.Plan.Scan
import StreamPlan.Plan.SelfJoin
import StreamPlan.Plan.TemporalJoin
import StreamPlan.Plan.Union

/-!
# Plans of queries

`Converter.convert` gives the plan of a query on the converter's stage, from
the plans of its inputs. Pending constraints may be left; `Plan.align`
applies them.
-/

namespace StreamPlan.Converter

/-- A rule that is tried for joins of some kinds. -/
def attempt (j : JoinInputs) (kinds : List JoinKind) (rule : Planning (Option Plan)) :
    Planning (Option Plan) :=
  if j.kind ∈ kinds then rule else return none

/-- The plan of a join: of an entity with itself, of a stream with versions,
of two streams within a bounded time, or of current values, whichever fits
first. -/
def joined (c : Converter) (j : JoinInputs) : Planning Plan := do
  match ← attempt j [.auto, .inner, .left] (j.selfJoin? c) with
  | some plan => return plan
  | none =>
    match ← attempt j [.auto, .temporal, .left] j.temporalJoin? with
    | some plan => return plan
    | none =>
      match ← attempt j [.auto, .inner, .interval, .left] j.intervalJoin? with
      | some plan => return plan
      | none => j.statePlan

/-- The joins that cannot be planned at all. -/
def joinProblem? (kind : JoinKind) (condition : Expr) : Option PlanError :=
  if kind.keepsRight then some (.unsupportedJoin kind)
  else if condition.containsNow then some (.unsupported .nowInJoin)
  else none

/-- Refuses with a problem if there is one. -/
def rejecting : Option PlanError → Planning Unit
  | some problem => refuse problem
  | none => return ()

/-- The plan of a projection over the plan of its input, of which `bare` are
the columns it shows if it shows nothing else. -/
def projected (plan : Plan) (bare : Option (List Nat)) (outputs : List Output) : Planning Plan := do
  match bare with
  | none => plan.computed outputs
  | some columns =>
    match ← plan.picked? columns outputs with
    | some picked => return picked
    | none => plan.computed outputs

/-- The columns of a projection of nothing but columns of its input. -/
def bareOf (input : Rel) (outputs : List Output) : Planning (Option (List Nat)) := do
  return Plan.bareColumns (← input.fields).length outputs

/-- The columns of a ranking, which must not be computed. -/
def rankedColumns (input : Rel) (outputs : List Output) : Planning (List Nat) := do
  match ← bareOf input outputs with
  | some columns => return columns
  | none => refuse (.unsupported .computedRanking)

mutual

/-- The plan of a query. -/
def convert (c : Converter) : Rel → Planning Plan
  | .scan relation _ _ => do c.finish (← c.scanPlan relation)
  | .filter input predicate => do
    let plan ← convert c input
    c.finish (← plan.filtered predicate)
  | .project input outputs none => do
    let bare ← bareOf input outputs
    let plan ← convert c input
    c.finish (← projected plan bare outputs)
  | .project (.sort _ _ _ (some _)) _ (some _) => refuse (.unsupported .rankingOffset)
  | .project (.sort input order limit none) outputs (some hint) => do
    let columns ← rankedColumns input outputs
    let plan ← convert c input
    c.finish (← plan.ranked hint columns outputs order limit)
  | .project input outputs (some hint) => do
    let columns ← rankedColumns input outputs
    let plan ← convert c input
    c.finish (← plan.ranked hint columns outputs [] none)
  | .join left right kind condition _ => do
    rejecting (joinProblem? kind condition)
    let l ← convert c left
    let r ← convert c right
    let inputs ← JoinInputs.of l r kind condition
    c.finish (← c.joined inputs)
  | .aggregate input keys groupingSets calls _ => do
    rejecting ((Plan.aggregateProblem? groupingSets calls).map .unsupported)
    let plan ← convert c input
    c.finish (← plan.aggregated c keys calls)
  | .union inputs all => do
    rejecting (if all then none else some (.unsupported .distinctUnion))
    match inputs with
    | [] => refuse (.incompatibleUnion .noInputs)
    | [single] => c.finish (← convert c single)
    | first :: rest => do
      let plan ← convert c first
      let plan ← plan.asBranch 0
      let branches ← convertBranches c 1 rest
      c.finish (← plan.united branches)
  | .sort input order limit offset => do
    rejecting (if offset.isSome then some (.unsupported .offset) else none)
    let plan ← convert c input
    c.finish (← plan.sorted order limit)
  | rel@(.unnest ..) | rel@(.firstRows ..) => refuse (.unsupported (.operator rel.kindName))

/-- The branches of a union from a position on. -/
def convertBranches (c : Converter) (position : Nat) : List Rel → Planning (List Plan)
  | [] => return []
  | input :: inputs => do
    let plan ← convert c input
    let branch ← plan.asBranch position
    let branches ← convertBranches c (position + 1) inputs
    return branch :: branches

end

end StreamPlan.Converter
