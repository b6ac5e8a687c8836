import StreamPlan.Plan.Converter

/-!
# Plans of filters and of sorts

A condition that compares a timestamp with the current time becomes a
now-filter and fixes that timestamp. Several of them become one, or conflict.
All other conditions become a filter.

A sort without a limit is only remembered. With a limit it is a pending
ranking of all rows, which keeps their meaning.
-/

namespace StreamPlan.Plan

/-- The now-filter that a condition states about a timestamp candidate. -/
def statedNowFilter (time : EventTime) (condition : Expr) : Except Fault (Option NowFilter) := do
  if condition.containsNow then
    match ← TimeBound.ofExpr? time.isCandidate condition with
    | some bound => NowFilter.ofBound? bound
    | none => return none
  else return none

/-- A now-filter together with the pending one. -/
def mergedWith (plan : Plan) (filter : NowFilter) : Planning NowFilter :=
  match plan.nowFilter with
  | none => return filter
  | some pending =>
    match pending.merge? filter with
    | some merged => return merged
    | none => refuse (.unsatisfiable pending filter plan.rel.explain)

/-- The plan with one more now-filter pending. -/
def addNowFilter (plan : Plan) (filter : NowFilter) : Planning Plan := do
  let merged ← plan.mergedWith filter
  let time ← plan.time.fix filter.timestamp
  return { plan with time, nowFilter := some merged }

/-- Takes the now-filters out of some conditions. Gives the conditions that remain. -/
def extractNowFilters (plan : Plan) : List Expr → Planning (Plan × List Expr)
  | [] => return (plan, [])
  | condition :: conditions => do
    match ← statedNowFilter plan.time condition with
    | some filter =>
      let plan ← plan.addNowFilter filter
      plan.extractNowFilters conditions
    | none =>
      let (plan, remaining) ← plan.extractNowFilters conditions
      return (plan, condition :: remaining)

/-- The plan of a filter over a plan. -/
def filtered (plan : Plan) (predicate : Expr) : Planning Plan := do
  let plan ← plan.withoutTopN
  let predicate ← predicate.remap plan.select.apply
  let (plan, remaining) ← plan.extractNowFilters predicate.conjuncts
  if remaining.isEmpty then return plan
  else
    let needs ← needing (plan.needs.requireExprs remaining)
    return { plan with needs, rel := .filter plan.rel (.all remaining), lineage := none }

/-- The plan of a sort over a plan. -/
def sorted (plan : Plan) (order : SortOrder) (limit : Option Nat) : Planning Plan := do
  let order ← order.remap plan.select.apply
  match limit with
  | none => return { plan with sort := order }
  | some n =>
    let plan ← plan.withoutPending
    let topN : TopN := ⟨[], false, order, some n, plan.kind⟩
    let needs ← needing (plan.needs.require .sort)
    let kind := topN.resultKind
    return { plan with
      needs, kind, topN
      time := if kind = .state then .none else plan.time
      sort := []
      lineage := none }

end StreamPlan.Plan
