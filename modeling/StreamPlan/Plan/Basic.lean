import StreamPlan.Catalog.Basic
import StreamPlan.Columns.Lists
import StreamPlan.Lineage
import StreamPlan.Plan.Error
import StreamPlan.Query.Explain

/-!
# Plans

A plan is a relational tree for one stage with everything known about it. All
its columns are columns of the tree; `select` says which of them the query
sees, and the others are kept so that keys and times survive projections.

* `Plan.ofRel`: the plan of a tree that sees all its columns.
* `Plan.check`: the structure every plan has.
* `Plan.inlineNowFilter`, `inlineTopN`, `inlineAll`: pending constraints
  become operators. Where the stage cannot apply one, the plan is given as far
  as it came.
* `Plan.align`: visible columns first, hidden ones behind them.
-/

namespace StreamPlan

/-- A relational tree with everything known about it. -/
structure Plan where
  rel : Rel
  kind : TableKind
  /-- The primary key. -/
  key : ColumnMap
  time : EventTime
  /-- The columns the query sees. -/
  select : ColumnMap
  needs : Requirements
  /-- The levels of an unrolled entity, as long as the tree is nothing else. -/
  lineage : Option Lineage
  /-- The now-filter that is not applied yet. -/
  nowFilter : Option NowFilter
  /-- The ranking that is not applied yet. -/
  topN : TopN
  /-- The order that was asked for, which no operator produces. -/
  sort : SortOrder
  /-- How many leading key columns come from a root entity. -/
  rootKeys : Option Nat

namespace Plan

/-- The plan of a tree whose columns are all visible, with nothing pending. -/
def ofRel (rel : Rel) (kind : TableKind) (key : List Nat) (needs : Requirements) :
    Except Fault Plan := do
  return {
    rel, kind, needs
    key := ← ColumnMap.of key rel.width
    time := .none
    select := .identity rel.width
    lineage := none
    nowFilter := none
    topN := .none
    sort := []
    rootKeys := none }

/-- The number of columns. -/
def width (plan : Plan) : Nat := plan.rel.width

/-- The fields the query sees. -/
def visibleFields (plan : Plan) : Except Fault Fields := do
  let fields ← plan.rel.fields
  plan.select.targets.mapM (itemAt fields)

/-- Whether a constraint is pending. -/
def hasPending (plan : Plan) : Bool := plan.nowFilter.isSome || !plan.topN.isEmpty

/-- Whether key and visible columns together form a range that starts at zero. -/
def isContinuous (plan : Plan) : Bool := isDenseRange (plan.key.targets ++ plan.select.targets)

/-- Raises a fault unless a condition holds. -/
def expect (condition : Bool) (fault : Fault) : Except Fault Unit :=
  if condition then .ok () else .error fault

/-- The structure every plan has: its maps point into its tree, current values
carry no time, and every column is one of the tree. -/
def check (plan : Plan) : Except Fault Unit := do
  expect (plan.key.width == plan.width) .keyElsewhere
  expect (plan.select.width == plan.width) .selectElsewhere
  if plan.kind = .state then
    expect plan.time.isEmpty (.stateWithTime plan.time.display)
    expect plan.nowFilter.isNone .stateWithNowFilter
  expect (plan.time.columns.all (· < plan.width)) (.timeOutside plan.time.display plan.width)
  match plan.nowFilter with
  | some filter =>
    expect (plan.time.isCandidate filter.timestamp) (.nowFilterOffCandidate filter.timestamp)
  | none => pure ()
  expect ((SortOrder.columns plan.sort).all (· < plan.width)) (.sortOutside plan.width)
  expect (plan.topN.columns.all (· < plan.width)) (.topNOutside plan.width)

/-- Applies the pending now-filter. It is no longer pending even where the
stage does not know the current time. -/
def inlineNowFilter (plan : Plan) : Plan × Option MissingCapability :=
  match plan.nowFilter with
  | none => (plan, none)
  | some filter =>
    match plan.needs.require .nowFunction with
    | .ok needs => ({ plan with nowFilter := none, needs, rel := filter.onto plan.rel }, none)
    | .error missing => ({ plan with nowFilter := none }, some missing)

/-- Applies the pending ranking. It stays pending where the stage cannot sort. -/
def inlineTopN (plan : Plan) : Plan × Option MissingCapability :=
  if plan.topN.isEmpty then (plan, none)
  else
    match plan.needs.require .sort with
    | .ok needs => ({ plan with topN := .none, needs, rel := plan.topN.onto plan.rel }, none)
    | .error missing => (plan, some missing)

/-- Applies every pending constraint, the now-filter first. -/
def inlineAll (plan : Plan) : Plan × Option MissingCapability :=
  match plan.inlineNowFilter with
  | (plan, none) => plan.inlineTopN
  | (plan, some missing) => (plan, some missing)

/-- The plan with its now-filter applied. -/
def withoutNowFilter (plan : Plan) : Planning Plan :=
  needing (Requirements.complete plan.inlineNowFilter)

/-- The plan with its ranking applied. -/
def withoutTopN (plan : Plan) : Planning Plan :=
  needing (Requirements.complete plan.inlineTopN)

/-- The plan with every pending constraint applied. -/
def withoutPending (plan : Plan) : Planning Plan :=
  needing (Requirements.complete plan.inlineAll)

/-- The columns of an aligned plan: the visible ones as they are, then the
key, the sort columns and the best timestamp unless they are there already. -/
def alignedColumns (plan : Plan) : List Nat :=
  Selection.append plan.select.targets
    (plan.key.targets ++ SortOrder.columns plan.sort ++ plan.time.bestColumn?.toList)

/-- A key map after its columns moved. -/
def movedKey (key : ColumnMap) (width : Nat) (f : Nat → Option Nat) : Except Fault ColumnMap := do
  match ← key.tryRemap width f with
  | some moved => return moved
  | none => .error .lostColumn

/-- Keeps the given columns of a plan without pending constraints. The first
`visible` of them are what the query sees. -/
def keepColumns (plan : Plan) (columns : List Nat) (visible : Nat) : Except Fault Plan := do
  let position := Selection.position? columns
  let key ← movedKey plan.key columns.length position
  let rel ← plan.rel.projectColumns columns none
  let select ← ColumnMap.identityInto visible columns.length
  return { plan with
    rel, key, select
    time := plan.time.remap position
    sort := SortOrder.moved plan.sort position
    lineage := none }

/-- Visible columns first, hidden ones behind them; nothing is pending. -/
def align (plan : Plan) : Planning Plan := do
  let plan ← plan.withoutPending
  let columns := plan.alignedColumns
  if columns = List.range plan.width then return plan
  else plan.keepColumns columns plan.select.sources

/-- The plan as text: a summary, the pending constraints, and the tree. -/
def display (plan : Plan) : String :=
  plan.kind.display ++ " pk=" ++ Text.positions plan.key.targets ++ " ts=" ++ plan.time.display
    ++ " select=" ++ Text.positions plan.select.targets
    ++ " stage=" ++ plan.needs.stage.name ++ "\n"
    ++ (match plan.nowFilter with
      | some filter => "now-filter: " ++ filter.display ++ "\n"
      | none => "")
    ++ (if plan.topN.isEmpty then "" else "top-n: " ++ plan.topN.display ++ "\n")
    ++ plan.rel.explain

end Plan

end StreamPlan
