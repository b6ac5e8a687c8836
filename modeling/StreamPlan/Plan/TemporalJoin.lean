import StreamPlan.Plan.Join

/-!
# Joins of a stream with the versions of a table

Every event is joined with the row of its key that is current at its time.
The condition must equate exactly the key of the table. The stream's columns
come first in the plan; the query sees them in the order it was written in.
-/

namespace StreamPlan.JoinInputs

/-- The two inputs by role, and the equalities of a stream with a table column. -/
structure TemporalSides where
  stream : Plan
  table : Plan
  equalities : List (Nat × Nat)
  /-- Whether the stream is the right input. -/
  swapped : Bool

/-- The inputs by role. The stream must be the left one of a left join. -/
def temporalSides (j : JoinInputs) : Except TemporalProblem TemporalSides :=
  match j.left.kind, j.right.kind with
  | .stream, .versioned => .ok ⟨j.left, j.right, j.parts.equalities, false⟩
  | .versioned, .stream =>
    if j.kind = .left then .error (.kinds .versioned .stream)
    else .ok ⟨j.right, j.left, j.parts.equalities.map Prod.swap, true⟩
  | left, right => .error (.kinds left right)

/-- Whether the equalities are about exactly the key of the table. -/
def TemporalSides.equatesKey (sides : TemporalSides) : Bool :=
  let key := sides.table.key.targets
  let equated := sides.equalities.map Prod.snd
  !key.isEmpty && key.all equated.contains && equated.all key.contains

/-- What keeps the inputs from being joined by time. -/
def temporalProblem? (j : JoinInputs) (sides : TemporalSides) : Option TemporalProblem :=
  if !sides.equatesKey then some .key
  else if !j.parts.isEquiJoin then some .condition
  else if sides.table.nowFilter.isSome then some .nowFilter
  else if !sides.table.time.hasCandidates || !sides.stream.time.hasCandidates then some .timestamp
  else none

/-- The inputs by role, if they can be joined by time. -/
def temporalShape (j : JoinInputs) : Except TemporalProblem TemporalSides := do
  let sides ← j.temporalSides
  match j.temporalProblem? sides with
  | some problem => throw problem
  | none => return sides

/-- The timestamp of a stream: the one its now-filter is about, or the best. -/
def streamTime (stream : Plan) : Except Fault EventTime :=
  match stream.nowFilter with
  | some filter =>
    if stream.time.isCandidate filter.timestamp then stream.time.fix filter.timestamp
    else stream.time.fixBest
  | none => stream.time.fixBest

/-- The stream as it is joined. Its now-filter stays pending; it cannot pass a
pending ranking, though, so then both apply. -/
def readyStream (stream : Plan) : Planning Plan :=
  if stream.topN.isEmpty then return stream else stream.withoutPending

/-- The visible columns of a join by time, in the order they were written in. -/
def temporalSelect (j : JoinInputs) (swapped : Bool) (stream table : Plan) :
    Except Fault ColumnMap :=
  if swapped then
    ColumnMap.of (table.select.targets.map (· + stream.width) ++ stream.select.targets) j.width
  else stream.select.joinAt table.select stream.width

/-- The plan of a join by time. -/
def temporalPlan (j : JoinInputs) (sides : TemporalSides) : Planning Plan := do
  let stream ← readyStream sides.stream
  let table ← sides.table.withoutPending
  let needs ← needing (j.needs.require .temporalJoin)
  let offset := stream.width
  let condition := Expr.all (sides.equalities.map fun (s, t) => Expr.equate s (t + offset))
  let time ← streamTime stream
  let hint := JoinHint.temporal (time.bestColumn?.getD 0) (table.time.bestColumn?.getD 0)
    table.key.targets
  let select ← j.temporalSelect sides.swapped stream table
  let sort :=
    if sides.swapped then (SortOrder.shift table.sort offset).join stream.sort
    else joinedSort stream.sort table.sort offset
  let plan ← Plan.ofRel (.join stream.rel table.rel j.plannedKind condition (some hint)) .stream
    stream.key.targets needs
  return { plan with
    time, select, sort
    nowFilter := stream.nowFilter
    rootKeys := stream.rootKeys }

/-- The plan of a join by time. Nothing if the inputs do not fit, unless the
query asks for such a join. -/
def temporalJoin? (j : JoinInputs) : Planning (Option Plan) :=
  match j.temporalShape with
  | .ok sides => some <$> j.temporalPlan sides
  | .error problem =>
    if j.kind = .temporal then refuse (.invalidTemporalJoin problem) else return none

end StreamPlan.JoinInputs
