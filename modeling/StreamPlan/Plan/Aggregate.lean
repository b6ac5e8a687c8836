import StreamPlan.Plan.Converter

/-!
# Plans of aggregations

Which aggregation a plan gets, in order of preference:

1. grouping a stream by a timestamp candidate is a tumbling window;
2. a pending now-filter on recent rows of a stream is a sliding window;
3. grouping a stream by its root key keeps it a stream;
4. other rows with event time get a running aggregate per input row;
5. all else is a plain aggregation into current values.

The second to fourth take a write stage. An aggregation sorts its keys; the
query still sees them in the order it was written in.
-/

namespace StreamPlan.Plan

/-- Where the outputs of an aggregation are, whose operator sorts its keys. -/
structure GroupLayout where
  /-- The keys as the operator receives them, ascending. -/
  keys : List Nat
  /-- The positions of the keys that the query groups by. -/
  key : List Nat
  /-- The positions of these keys and of the calls. -/
  select : List Nat

namespace GroupLayout

/-- The layout of grouping by `keys`, with `hidden` keys carried along. -/
def of (keys hidden : List Nat) (calls : Nat) : GroupLayout :=
  let sorted := Ascending.ofList (keys ++ hidden)
  let key := keys.map sorted.idxOf
  ⟨sorted, key, key ++ List.range' sorted.length calls⟩

/-- The output position of an input column. -/
def position? (layout : GroupLayout) (column : Nat) : Option Nat :=
  Ascending.position? layout.keys column

end GroupLayout

/-- The hint for grouping by a timestamp: a bucket if the tree computes the
column as the bucket of a column right below. -/
def tumbleHint (rel : Rel) (timestamp : Nat) : AggregateHint :=
  match rel with
  | .project _ outputs _ =>
    match outputs[timestamp]?.map Output.expr with
    | some (.call function args) =>
      match function.bucket?, args.head?.bind Expr.column? with
      | some bucket, some source => .tumble timestamp source bucket
      | _, _ => .instant timestamp
    | _ => .instant timestamp
  | _ => .instant timestamp

/-- The now-filter above an aggregation that groups by `timestamp`, and the
plan below. A now-filter on another column applies below. -/
def carryOver (plan : Plan) (timestamp : Nat) : Planning (Plan × Option NowFilter) := do
  match plan.nowFilter with
  | none => return (plan, none)
  | some filter =>
    if filter.timestamp = timestamp then return ({ plan with nowFilter := none }, some filter)
    else return (← plan.withoutNowFilter, none)

/-- How the timestamp candidate on a column was derived. -/
def derivationAt (time : EventTime) (column : Nat) : Derivation :=
  ((time.find? column).map TimeCandidate.derivation).getD .source

/-- A grouped tree, with a hint if there is one. -/
def groupedRel (input : Rel) (keys : List Nat) (calls : List AggregateCall)
    (hint : Option AggregateHint) : Rel :=
  match hint with
  | some hint => (input.groupBy keys calls).withAggregateHint hint
  | none => input.groupBy keys calls

/-- The plan of an aggregation of a plan, with the columns of a layout. -/
def groupedAs (plan : Plan) (kind : TableKind) (layout : GroupLayout) (calls : List AggregateCall)
    (hint : Option AggregateHint) : Except Fault Plan := do
  let rel := groupedRel plan.rel layout.keys calls hint
  let grouped ← Plan.ofRel rel kind layout.key plan.needs
  let select ← ColumnMap.of layout.select (layout.keys.length + calls.length)
  return { grouped with select }

/-- A tumbling window on a timestamp among the keys. -/
def tumbling (plan : Plan) (keys : List Nat) (calls : List AggregateCall) (timestamp : Nat) :
    Planning Plan := do
  let needs ← needing (plan.needs.require .windowAggregate)
  let plan := { plan with needs }
  let derivation := derivationAt plan.time timestamp
  let (plan, nowFilter) ← plan.carryOver timestamp
  let layout := GroupLayout.of keys [] calls.length
  let grouped ← plan.groupedAs .stream layout calls (some (tumbleHint plan.rel timestamp))
  return { grouped with
    time := .single ((layout.position? timestamp).getD 0) derivation
    nowFilter := nowFilter.bind (·.remap layout.position?) }

/-- The slide of a window. It must split the window. -/
def slideOf (window : Int) (panes : Nat) : Planning Int := do
  let slide ← orFault (Millis.quotient window (max panes 1))
  if slide ≤ 0 ∨ window ≤ slide then refuse (.invalidWindow (.slide slide window))
  else return slide

/-- A sliding window from a now-filter on recent rows. Every pane gives a row
per key, of which the latest counts. -/
def sliding (plan : Plan) (keys : List Nat) (calls : List AggregateCall) (filter : NowFilter)
    (panes : Nat) : Planning Plan := do
  let slide ← slideOf filter.interval panes
  let needs ← needing (plan.needs.require .windowAggregate)
  let hint := AggregateHint.sliding filter.timestamp filter.interval slide
  let layout := GroupLayout.of keys [filter.timestamp] calls.length
  let timestamp := (layout.position? filter.timestamp).getD 0
  let grouped ← { plan with needs }.groupedAs .versioned layout calls (some hint)
  return { grouped with
    time := .single timestamp .bucketed
    topN := .latestPerKey layout.key timestamp }

/-- The timestamp of an aggregation that the query does not group by: the one
of the now-filter, or the best. -/
def leadingTime (plan : Plan) : Nat :=
  ((plan.nowFilter.map NowFilter.timestamp).or plan.time.bestColumn?).getD 0

/-- Grouping by the root key. The timestamp is carried along, so every
instant of an entity has a row, and the keys are the new root key. -/
def byRootKey (plan : Plan) (keys : List Nat) (calls : List AggregateCall) : Planning Plan := do
  let needs ← needing (plan.needs.require .directWrite)
  let plan := { plan with needs }
  let timestamp := plan.leadingTime
  let derivation := derivationAt plan.time timestamp
  let (plan, nowFilter) ← plan.carryOver timestamp
  let layout := GroupLayout.of keys [timestamp] calls.length
  let grouped ← plan.groupedAs .stream layout calls (some (.instant timestamp))
  return { grouped with
    time := .single ((layout.position? timestamp).getD 0) derivation
    nowFilter := nowFilter.bind (·.remap layout.position?)
    rootKeys := some keys.length }

/-- A running aggregate: a row per input row, with the value of each call over
the rows of its group up to then. Only rows that the now-filter keeps count. -/
def running (plan : Plan) (keys : List Nat) (calls : List AggregateCall) : Planning Plan := do
  let needs ← needing (plan.needs.require .windowAggregate)
  let plan := { plan with needs }
  let timestamp := plan.leadingTime
  let derivation := derivationAt plan.time timestamp
  let plan ← plan.withoutNowFilter
  let fields ← plan.rel.fields
  let shown ← orFault ((keys ++ [timestamp]).mapM (Output.column · fields))
  let order : SortOrder := [⟨timestamp, .ascending⟩]
  let windows := calls.map fun call => Output.named (.window call keys order) call.name fields
  let groups := keys.length
  let rel : Rel := .project plan.rel (shown ++ windows) none
  let windowed ← Plan.ofRel rel .versioned (List.range groups) plan.needs
  let select ← ColumnMap.of (List.range groups ++ List.range' (groups + 1) calls.length)
    (groups + 1 + calls.length)
  return { windowed with select, time := .single groups derivation }

/-- A plain aggregation into current values. -/
def plain (plan : Plan) (keys : List Nat) (calls : List AggregateCall) : Planning Plan := do
  let plan ← plan.withoutPending
  plan.groupedAs .state (.of keys [] calls.length) calls none

/-- Whether the keys begin with the root key of a stream that may be written by key. -/
def groupsByRootKey (plan : Plan) (stage : Stage) (keys : List Nat) : Bool :=
  match plan.rootKeys with
  | none => false
  | some n =>
    0 < n && stage.isWrite && stage.supports .directWrite && plan.time.hasCandidates
      && n ≤ keys.length && n ≤ plan.key.sources && keys.take n == plan.key.targets.take n

/-- Whether a running aggregate fits. -/
def mayRun (plan : Plan) (stage : Stage) : Bool :=
  plan.kind ≠ .state && plan.time.hasCandidates && stage.isWrite && stage.supports .windowAggregate

/-- The plan of a stream's aggregation if one of the first three fits. -/
def streamAggregate? (c : Converter) (plan : Plan) (keys : List Nat) (calls : List AggregateCall) :
    Planning (Option Plan) :=
  match keys.filter plan.time.isCandidate with
  | [timestamp] => some <$> plan.tumbling keys calls timestamp
  | [] =>
    match plan.nowFilter.filter fun f => f.isRecent && c.stage.isWrite with
    | some filter => some <$> plan.sliding keys calls filter c.settings.panes
    | none =>
      if plan.groupsByRootKey c.stage keys then some <$> plan.byRootKey keys calls
      else return none
  | several => refuse (.invalidWindow (.severalTimestamps several))

/-- The plan of an aggregation if one of the first three fits. -/
def special? (c : Converter) (plan : Plan) (keys : List Nat) (calls : List AggregateCall) :
    Planning (Option Plan) :=
  if plan.kind = .stream then streamAggregate? c plan keys calls else return none

/-- The plan of an aggregation over a plan. A ranking applies before rows are grouped. -/
def aggregated (c : Converter) (plan : Plan) (keys : List Nat) (calls : List AggregateCall) :
    Planning Plan := do
  let plan ← plan.withoutTopN
  let plan := { plan with sort := [] }
  let keys ← orFault (keys.mapM plan.select.apply)
  let calls ← orFault (calls.mapM (·.remap plan.select.apply))
  let needs ← needing (plan.needs.requireCalls calls)
  let plan := { plan with needs }
  match ← special? c plan keys calls with
  | some grouped => return grouped
  | none => if plan.mayRun c.stage then plan.running keys calls else plan.plain keys calls

/-- The query's aggregations that cannot be planned at all. -/
def aggregateProblem? (groupingSets : List (List Nat)) (calls : List AggregateCall) :
    Option Unsupported :=
  if !groupingSets.isEmpty then some .groupingSets
  else (calls.find? fun call => call.ordered || call.filter.isSome).map fun call =>
    .modifiedCall call.display

end StreamPlan.Plan
