import StreamPlan.Plan.Project

/-!
# Plans of rankings

A projection with a ranking hint becomes a pending constraint. Its order and
limit come from a sort directly below the projection.

* `Plan.Ranking`: what a ranking turns into.
* `Plan.ranked`: the plan of a ranking.
-/

namespace StreamPlan.Plan

/-- The column of a single descending sort key, if it is a timestamp candidate. -/
def latestFirst (order : SortOrder) (time : EventTime) : Option Nat :=
  match order with
  | [⟨column, .descending⟩] => if time.isCandidate column then some column else none
  | _ => none

/-- What a ranking turns into. -/
structure Ranking where
  constraint : TopN
  /-- The key of the result, if the ranking makes one. -/
  key : Option (List Nat)
  /-- The timestamp of the result, if the ranking fixes one. -/
  timestamp : Option Nat

/-- The first rows of each partition. One row per partition makes the
partition a key; if it is the latest row, the result is a version. -/
def rankingTopN (plan : Plan) (partition : List Nat) (order : SortOrder) (limit : Option Nat) :
    Ranking :=
  let keyed := limit == some 1 && !partition.isEmpty
  let latest := if keyed && plan.kind ≠ .state then latestFirst order plan.time else none
  ⟨⟨partition, latest.isSome, order, limit, plan.kind⟩,
    if keyed then some partition else none, latest⟩

/-- One row per partition, the latest if there is a timestamp. Without a
partition, equal visible rows are one. -/
def rankingDistinct (plan : Plan) (partition visible : List Nat) : Ranking :=
  let partition := if partition.isEmpty then visible else partition
  let timestamp := plan.time.bestColumn?
  let order := timestamp.toList.map fun column => ⟨column, .descending⟩
  ⟨⟨partition, true, order, none, plan.kind⟩, some partition, timestamp⟩

/-- The latest row per key of a stream. -/
def rankingDistinctOn (plan : Plan) (partition : List Nat) (order : SortOrder) :
    Except Unsupported Ranking :=
  if partition.isEmpty then .error .distinctWithoutKeys
  else if plan.kind ≠ .stream then .error (.distinctOver plan.kind)
  else
    match latestFirst order plan.time with
    | none => .error .distinctOrder
    | some latest =>
      .ok ⟨⟨partition, true, order, some 1, plan.kind⟩, some partition, some latest⟩

/-- What a ranking of a kind turns into. -/
def ranking (plan : Plan) (kind : RankingKind) (partition visible : List Nat) (order : SortOrder)
    (limit : Option Nat) : Except Unsupported Ranking :=
  match kind with
  | .topN => .ok (plan.rankingTopN partition order limit)
  | .selectDistinct => .ok (plan.rankingDistinct partition visible)
  | .distinctOn => plan.rankingDistinctOn partition order

/-- The plan with a ranking pending. A ranking that does nothing is an order. -/
def withRanking (plan : Plan) (ranking : Ranking) : Plan :=
  if ranking.constraint.isEmpty then { plan with sort := ranking.constraint.order }
  else { plan with
    kind := ranking.constraint.resultKind
    topN := ranking.constraint
    sort := []
    lineage := none }

/-- The plan with the timestamp of a ranking. Current values have none. -/
def withTimestamp (plan : Plan) (timestamp : Option Nat) : Except Fault Plan := do
  if plan.kind = .state then return { plan with time := .none }
  else
    match timestamp with
    | some column => return { plan with time := ← plan.time.fix column }
    | none => return plan

/-- The key above a ranking. -/
def rankedKey (plan : Plan) (ranking : Ranking) : Except Fault ColumnMap :=
  match ranking.key with
  | some columns => ColumnMap.of columns plan.width
  | none => return plan.key

/-- The plan of a ranking of the given columns over a plan. -/
def ranked (plan : Plan) (hint : RankingHint) (columns : List Nat) (outputs : List Output)
    (order : SortOrder) (limit : Option Nat) : Planning Plan := do
  let plan ← plan.withoutPending
  let partition ← orFault (hint.partition.mapM plan.select.apply)
  let order ← order.remap plan.select.apply
  let visible ← orFault (columns.mapM plan.select.apply)
  match plan.ranking hint.kind partition visible order limit with
  | .error what => refuse (.unsupported what)
  | .ok ranking =>
    match ← renamed? plan.rel visible outputs with
    | none => refuse (.unsupported .renamedTwice)
    | some rel =>
      let plan := { plan with rel }
      let key ← plan.rankedKey ranking
      let plan ← ({ plan with key }.withRanking ranking).withTimestamp ranking.timestamp
      let select ← ColumnMap.of visible plan.width
      return { plan with select }

end StreamPlan.Plan
