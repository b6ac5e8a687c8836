import StreamPlan.Plan.Manifest

/-!
# Published plans

A plan that becomes a table lists its key first, then the visible columns,
then the hidden columns that its time and its pending constraints refer to.
The constraints stay pending; a scan of the table takes them up again.

* `Plan.published`: the plan with its columns in that order.
* `Plan.toTable`: the table of a published plan.
-/

namespace StreamPlan.Plan

/-- The pending constraints of a plan. -/
def pending (plan : Plan) : Pending := ⟨plan.nowFilter, plan.topN, plan.sort⟩

/-- The columns of a published plan. -/
def publishedColumns (plan : Plan) : List Nat :=
  Selection.append []
    (plan.key.targets ++ plan.select.targets ++ plan.time.bestColumn?.toList
      ++ (plan.nowFilter.map NowFilter.timestamp).toList ++ plan.topN.columns
      ++ SortOrder.columns plan.sort)

/-- The plan with its columns in the order of a table. -/
def published (plan : Plan) : Except Fault Plan := do
  let columns := plan.publishedColumns
  if columns = List.range plan.width then return { plan with lineage := none }
  else
    let position := Selection.position? columns
    let key ← movedKey plan.key columns.length position
    let select ← movedKey plan.select columns.length position
    let rel ← plan.rel.projectColumns columns none
    let pending := plan.pending.remap position
    return { plan with
      rel, key, select
      time := plan.time.remap position
      nowFilter := pending.nowFilter
      topN := pending.topN
      sort := pending.sort
      lineage := none }

/-- The table of a published plan that runs on a stage. -/
def toTable (plan : Plan) (name stage : String) : Except Fault BaseTable := do
  return {
    name
    fields := ← plan.rel.fields
    keys := plan.key.sources
    kind := plan.kind
    time := plan.time
    pending := plan.pending
    stage := some stage }

end StreamPlan.Plan
