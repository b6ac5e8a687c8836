import StreamPlan.Plan.Join

/-!
# Joins of two streams within a bounded time

The condition bounds the time of the right event relative to the left one. A
side without a bound is bounded by 999 years. Without any bound, events of one
root entity are joined at equal times if their root keys are equated.

* `TimeWindow.ofBounds`: the bounds on right time less left time.
* `JoinInputs.intervalJoin?`: the plan of such a join.
-/

namespace StreamPlan

/-- The bound of a side that has none: 999 years in milliseconds. -/
def unboundedMillis : Int := 999 * 365 * 24 * 3600 * 1000

/-- Bounds on right time less left time, with the time bounds they come from. -/
structure TimeWindow where
  /-- The left and the right timestamp, in columns of the joined row. -/
  columns : Option (Nat × Nat)
  lower : Option (TimeBound × Int)
  upper : Option (TimeBound × Int)
  equality : Bool

namespace TimeWindow

/-- No bounds. -/
def none : TimeWindow := ⟨.none, .none, .none, false⟩

/-- Takes in a bound of a side, given the value it sets. -/
def place (window : TimeWindow) (bound : TimeBound) (rightLarger : Bool) (value : Int) :
    Except IntervalProblem TimeWindow :=
  if bound.isEquality then
    if window.lower.isSome || window.upper.isSome then .error .equality
    else .ok { window with
      lower := some (bound, value), upper := some (bound, value), equality := true }
  else if rightLarger then
    if window.upper.isSome then .error .secondUpper
    else .ok { window with upper := some (bound, value) }
  else if window.lower.isSome then .error .secondLower
  else .ok { window with lower := some (bound, value) }

/-- The value that a bound sets on right time less left time. -/
def boundValue (bound : TimeBound) (rightLarger : Bool) : Except Fault Int :=
  if rightLarger then return bound.millis else Millis.neg bound.millis

/-- Takes in a time bound of a joined row whose left input has `leftWidth` columns. -/
def add (leftWidth : Nat) (window : TimeWindow) (bound : TimeBound) :
    Checked IntervalProblem TimeWindow := do
  match bound.larger.column?, bound.smaller.column? with
  | some a, some b =>
    let rightLarger := decide (leftWidth ≤ a)
    let columns := if rightLarger then (b, a) else (a, b)
    if window.columns.any (· ≠ columns) then refuse .columns
    else
      let value ← orFault (boundValue bound rightLarger)
      orRefuse (place { window with columns := some columns } bound rightLarger value)
  | _, _ => refuse (.operands bound)

/-- The window that time bounds set. -/
def ofBounds (bounds : List TimeBound) (leftWidth : Nat) : Checked IntervalProblem TimeWindow := do
  let window ← bounds.foldlM (add leftWidth) none
  if window.columns.isNone then refuse .noBound else return window

end TimeWindow

namespace JoinInputs

/-- Whether both inputs are streams with a timestamp. -/
def areTimedStreams (j : JoinInputs) : Bool :=
  j.left.kind = .stream && j.right.kind = .stream && j.left.time.hasCandidates
    && j.right.time.hasCandidates

/-- Whether the first `n` key columns of both inputs are equated. -/
def equatesRootKeys (j : JoinInputs) (n : Nat) : Except Fault Bool := do
  match n with
  | 0 => return true
  | n + 1 =>
    if ← equatesRootKeys j n then
      return j.parts.equalities.contains (← j.left.key.apply n, ← j.right.key.apply n)
    else return false

/-- The bound of events of one root entity, whose times are equal, with the
number of root keys. -/
def rootBound (j : JoinInputs) : Checked IntervalProblem (TimeBound × Nat) := do
  match j.left.rootKeys, j.right.rootKeys with
  | some n, some m =>
    if n = m ∧ 0 < n then
      if ← orFault (j.equatesRootKeys n) then
        match j.left.time.bestColumn?, j.right.time.bestColumn? with
        | some lt, some rt => return (⟨.column (rt + j.left.width), .column lt, .eq, 0⟩, n)
        | _, _ => refuse .noBound
      else refuse .noBound
    else refuse .noBound
  | _, _ => refuse .noBound

/-- The time bounds of a join, and the number of root keys if they come from
the root entity. -/
def writtenBounds (j : JoinInputs) : Checked IntervalProblem (List TimeBound × Option Nat) := do
  if !j.areTimedStreams then refuse .inputs
  else if !j.parts.timeBounds.isEmpty then return (j.parts.timeBounds, none)
  else do
    let (bound, n) ← j.rootBound
    return ([bound], some n)

/-- A window with both sides bounded. -/
structure ClosedWindow where
  bounds : List TimeBound
  leftTime : Nat
  rightTime : Nat
  lower : Int
  upper : Int
  /-- Whether the timestamp of the result is that of the right row. -/
  rightLeads : Bool
  rootKeys : Option Nat

/-- Bounds the side of a window that has no bound. -/
def close (bounds : List TimeBound) (window : TimeWindow) (rootKeys : Option Nat) :
    Checked IntervalProblem ClosedWindow :=
  match window.columns, window.lower, window.upper with
  | some (lt, rt), some (_, lower), some (_, upper) =>
    return ⟨bounds, lt, rt, lower, upper, !window.equality, rootKeys⟩
  | some (lt, rt), some (bound, lower), none =>
    return ⟨bounds ++ [bound.inverse unboundedMillis], lt, rt, lower, unboundedMillis, false,
      rootKeys⟩
  | some (lt, rt), none, some (bound, upper) =>
    return ⟨bounds ++ [bound.inverse unboundedMillis], lt, rt, -unboundedMillis, upper, true,
      rootKeys⟩
  | _, _, _ => refuse .incomplete

/-- The window of a join, if it is one within a bounded time. -/
def closedWindow (j : JoinInputs) : Checked IntervalProblem ClosedWindow := do
  let (bounds, rootKeys) ← j.writtenBounds
  close bounds (← TimeWindow.ofBounds bounds j.left.width) rootKeys

/-- The timestamp of the result: the later of the two events that a written
upper bound allows, the left one otherwise. -/
def intervalTime (j : JoinInputs) (window : ClosedWindow) : Except Fault EventTime :=
  let column :=
    if j.kind = .left || !window.rightLeads then window.leftTime else window.rightTime
  if column < j.left.width then j.left.time.fix column
  else (j.right.time.shift j.left.width).fix column

/-- The key of the result: both keys, with the root key once. -/
def intervalKey (j : JoinInputs) (rootKeys : Option Nat) : Except Fault ColumnMap :=
  match rootKeys with
  | some n =>
    if j.right.key.sources < n then .error .arithmeticOverflow
    else
      j.left.key.extend ((j.right.key.targets.drop n).map (· + j.left.width)) j.width
  | none => j.left.key.joinAt j.right.key j.left.width

/-- The plan of a join within a window. -/
def intervalPlan (j : JoinInputs) (window : ClosedWindow) : Planning Plan := do
  let left ← j.left.withoutPending
  let right ← j.right.withoutPending
  let needs ← needing (j.needs.require .intervalJoin)
  let offset := j.left.width
  let time ← j.intervalTime window
  let conditions := (j.parts.withoutTime offset).conjuncts ++ window.bounds.map TimeBound.expr
  let hint := JoinHint.interval window.leftTime window.rightTime window.lower window.upper
  let key ← j.intervalKey window.rootKeys
  let plan ← Plan.ofRel (.join left.rel right.rel j.plannedKind (.all conditions) (some hint))
    .stream [] needs
  let select ← left.select.joinAt right.select offset
  return { plan with
    key, time, select
    sort := joinedSort left.sort right.sort offset
    rootKeys := window.rootKeys }

/-- The plan of a join within a bounded time. Nothing if the inputs do not
fit, unless the query asks for such a join. -/
def intervalJoin? (j : JoinInputs) : Planning (Option Plan) :=
  match j.closedWindow with
  | .ok window => some <$> j.intervalPlan window
  | .error (.refused problem) =>
    if j.kind = .interval then refuse (.invalidIntervalJoin problem) else return none
  | .error (.fault fault) => fault.raise

end JoinInputs

end StreamPlan
