import StreamPlan.Plan.Converter

/-!
# Plans of scans

A base table is scanned as it is, with its open constraints taken up again. A
view is scanned as such unless the stage can unroll nested collections; then
the base table is scanned and unrolled level by level, and the lineage says
which columns belong to which level.

* `Converter.scanPlan`: the plan of a scan.
* `Converter.unrolledPlan`: the plan of an unrolled view.
-/

namespace StreamPlan.Converter

/-- The stage a scan of a table runs on. A table computed by a read stage is
read there, if plans may change their stage. -/
def scanNeeds (c : Converter) (table : BaseTable) : Planning Requirements :=
  match table.stage.bind c.pipeline.find? with
  | none => return c.start
  | some stage =>
    if stage.name = c.stage.name ∨ !stage.isRead then return c.start
    else if c.settings.allowStageChange then return .start stage
    else refuse (.stageChange c.stage.name stage.name)

/-- Whether another stage writes the table row by row. -/
def writtenElsewhere (c : Converter) (table : BaseTable) : Bool :=
  match table.stage with
  | none => false
  | some name => name ≠ c.stage.name && (c.pipeline.find? name).any Stage.isWrite

/-- The open constraints of a table as they apply here. A table that another
stage writes by key keeps one row per key without further ado, and current
values have no time. -/
def openConstraints (c : Converter) (table : BaseTable) : Pending :=
  let enforced := c.writtenElsewhere table && table.pending.topN.isKeyDedup table.keys
  { table.pending with
    topN := if enforced then TopN.none else table.pending.topN
    nowFilter := if table.kind = .state then none else table.pending.nowFilter }

/-- The event time of a table; current values have none. -/
def timeOf (table : BaseTable) : EventTime := if table.kind = .state then .none else table.time

/-- A plan with constraints taken up again. -/
def withPending (plan : Plan) (pending : Pending) : Plan :=
  { plan with nowFilter := pending.nowFilter, topN := pending.topN, sort := pending.sort }

/-- The plan of a base table. -/
def basePlan (c : Converter) (id : Nat) : Planning Plan := do
  let table ← c.catalog.base id
  let needs ← c.scanNeeds table
  let plan ← Plan.ofRel (.scan (.base id) table.name table.fields) table.kind
    (List.range table.keys) needs
  return { withPending plan (c.openConstraints table) with
    time := timeOf table
    rootKeys := some table.keys }

/-- The plan of a view that is scanned as such. A nested one cannot take up
the constraints of its base table. -/
def viewPlan (c : Converter) (id : Nat) (view : View) (table : BaseTable) : Planning Plan := do
  let needs ← c.scanNeeds table
  let pending := c.openConstraints table
  let plan ← Plan.ofRel (.scan (.view id) view.name view.fields) table.kind
    (List.range view.keys) needs
  let root ← c.catalog.view (← c.catalog.rootOf id)
  let plan := { plan with rootKeys := some root.ownKeys }
  if view.isRoot then
    return { withPending plan (pending.remap view.ownPosition?) with
      time := (timeOf table).remap view.ownPosition? }
  else if pending.nowFilter.isSome || !pending.topN.isEmpty then
    refuse (.unsupported (.pendingOnNested table.name view.name))
  else return plan

/-- An entity unrolled so far; `offset` is where its last level starts. -/
structure Unrolled where
  rel : Rel
  lineage : Lineage
  offset : Nat

/-- Unrolls one more level below the last one. -/
def unrollLevel (c : Converter) (state : Unrolled) (id : Nat) : Except Fault Unrolled := do
  let view ← c.catalog.view id
  match view.place with
  | .root _ => .error .indexOutOfBounds
  | .child _ column =>
    let offset := state.rel.width
    let lineage ← Lineage.addLevel state.lineage (Lineage.leaf state.lineage) id .inner offset
      view.levelFields.length view.ownKeys
    return ⟨.unnest state.rel (state.offset + column) false view.levelFields, lineage, offset⟩

/-- The plan of a base table below the levels that are unrolled from it, if
any are. -/
def belowLevels (start : Plan) (path : List Nat) : Planning Plan := do
  if path.length ≤ 1 then return start
  else
    let needs ← needing (start.needs.require .denormalize)
    let start ← Plan.withoutTopN { start with needs }
    return { start with sort := [] }

/-- The plan of an unrolled view. The key is the keys of all levels, and the
query sees the keys of the ancestors and the columns of the view's own level
that are not nested. A ranking of the base table applies before its rows are
repeated. -/
def unrolledPlan (c : Converter) (id baseId : Nat) (table : BaseTable) : Planning Plan := do
  let needs ← c.scanNeeds table
  let pending := c.openConstraints table
  let path ← c.catalog.ancestry id
  let rootId ← itemAt path 0
  let root ← c.catalog.view rootId
  let start ← Plan.ofRel (.scan (.base baseId) table.name table.fields) table.kind [] needs
  let start ← belowLevels (withPending start pending) path
  let unrolled ← path.tail.foldlM (c.unrollLevel · ·)
    ⟨start.rel, Lineage.root rootId 0 table.fields.length root.ownKeys, 0⟩
  let lineage := unrolled.lineage
  let view ← c.catalog.view id
  let plan ← Plan.ofRel unrolled.rel table.kind (Lineage.keys lineage) start.needs
  let visible := Lineage.keys lineage.dropLast ++ view.ownColumns.map (unrolled.offset + ·)
  let select ← ColumnMap.of visible unrolled.rel.width
  return { plan with
    select
    time := timeOf table
    nowFilter := start.nowFilter
    topN := start.topN
    sort := start.sort
    rootKeys := some root.ownKeys
    lineage := some lineage }

/-- The plan of a scan. -/
def scanPlan (c : Converter) : RelationId → Planning Plan
  | .base id => c.basePlan id
  | .view id => do
    let view ← c.catalog.view id
    let baseId ← c.catalog.baseOf id
    let table ← c.catalog.base baseId
    if c.stage.supports .denormalize then c.unrolledPlan id baseId table
    else c.viewPlan id view table

end StreamPlan.Converter
