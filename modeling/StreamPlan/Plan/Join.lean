import StreamPlan.EventTime.Bound
import StreamPlan.Plan.Converter

/-!
# Inputs of a join

The converted inputs of a join with its condition over the joined row, and
the join of current values, which fits any two inputs.

A join condition is split into equalities of a left with a right column, time
bounds between a left and a right timestamp, and everything else. Columns are
those of the joined row; only the right column of an equality counts from the
right input.

* `JoinCondition.ofExpr`: the parts of a condition.
* `JoinCondition.withoutTime`: the condition without its time bounds.
-/

namespace StreamPlan

/-- The parts of a join condition. -/
structure JoinCondition where
  equalities : List (Nat × Nat)
  timeBounds : List TimeBound
  remaining : List Expr

namespace JoinCondition

/-- No condition at all. -/
def none : JoinCondition := ⟨[], [], []⟩

/-- Whether a bound is between a column of the left and one of the right input. -/
def crosses (leftWidth : Nat) (bound : TimeBound) : Bool :=
  match bound.columns with
  | [a, b] => decide (a < leftWidth) != decide (b < leftWidth)
  | _ => false

/-- The equality of a left with a right column that a condition is. -/
def equality? (leftWidth : Nat) : Expr → Option (Nat × Nat)
  | .binary .eq (.column a) (.column b) =>
    if a < leftWidth then if b < leftWidth then .none else some (a, b - leftWidth)
    else if b < leftWidth then some (b, a - leftWidth)
    else .none
  | _ => .none

/-- Adds one condition to its part. -/
def add (leftWidth : Nat) (isTimestamp : Nat → Bool) (parts : JoinCondition) (condition : Expr) :
    Except Fault JoinCondition := do
  let bound? := (← TimeBound.ofExpr? isTimestamp condition).filter (crosses leftWidth)
  match bound?, equality? leftWidth condition with
  | some bound, _ => return { parts with timeBounds := parts.timeBounds ++ [bound] }
  | .none, some pair => return { parts with equalities := parts.equalities ++ [pair] }
  | .none, .none => return { parts with remaining := parts.remaining ++ [condition] }

/-- The parts of a condition over a joined row whose left input has
`leftWidth` columns. -/
def ofExpr (condition : Expr) (leftWidth : Nat) (isTimestamp : Nat → Bool) :
    Except Fault JoinCondition :=
  condition.conjuncts.foldlM (add leftWidth isTimestamp) none

/-- Whether there are only equalities. -/
def isEquiJoin (parts : JoinCondition) : Bool :=
  parts.timeBounds.isEmpty && parts.remaining.isEmpty

/-- The equated columns of the left input. -/
def leftKeys (parts : JoinCondition) : List Nat := parts.equalities.map Prod.fst

/-- The equated columns of the right input, counted from it. -/
def rightKeys (parts : JoinCondition) : List Nat := parts.equalities.map Prod.snd

/-- The equalities and the remaining conditions. -/
def untimed (parts : JoinCondition) (leftWidth : Nat) : List Expr :=
  parts.equalities.map (fun (l, r) => Expr.equate l (r + leftWidth)) ++ parts.remaining

/-- The condition without its time bounds. -/
def withoutTime (parts : JoinCondition) (leftWidth : Nat) : Expr := .all (parts.untimed leftWidth)

end JoinCondition

/-- The converted inputs of a join. -/
structure JoinInputs where
  left : Plan
  right : Plan
  kind : JoinKind
  /-- The condition over the joined row of the two trees. -/
  condition : Expr
  parts : JoinCondition
  needs : Requirements

namespace JoinInputs

/-- The column of the joined row that a column of the query stands for. The
query sees the visible columns of the left plan, then those of the right. -/
def joinedColumn (left right : Plan) (column : Nat) : Except Fault Nat :=
  if column < left.select.sources then left.select.apply column
  else do return left.width + (← right.select.apply (column - left.select.sources))

/-- Whether a column of the joined row is a timestamp candidate of its side. -/
def isTimestamp (left right : Plan) (column : Nat) : Bool :=
  if column < left.width then left.time.isCandidate column
  else right.time.isCandidate (column - left.width)

/-- The inputs of a join of two plans. -/
def of (left right : Plan) (kind : JoinKind) (condition : Expr) : Planning JoinInputs := do
  let needs ← Converter.combine left.needs right.needs
  let condition ← condition.remap (joinedColumn left right)
  let parts ← JoinCondition.ofExpr condition left.width (isTimestamp left right)
  return ⟨left, right, kind, condition, parts, needs⟩

/-- The number of columns of the joined row. -/
def width (j : JoinInputs) : Nat := j.left.width + j.right.width

/-- The kind of join that a plan of this join has: left rows are kept or not. -/
def plannedKind (j : JoinInputs) : JoinKind := if j.kind = .left then .left else .inner

/-- The sort order of a joined row: the left one, then the right one. -/
def joinedSort (left right : SortOrder) (offset : Nat) : SortOrder :=
  left.join (right.shift offset)

/-- The key of a join of current values. The left key alone is the key if every
left row is kept. -/
def stateKey (j : JoinInputs) (left right : Plan) : Except Fault ColumnMap :=
  if j.plannedKind = .left then ColumnMap.of left.key.targets j.width
  else left.key.joinAt right.key j.left.width

/-- The plan of a join of current values. Times are lost. -/
def statePlan (j : JoinInputs) : Planning Plan := do
  let left ← j.left.withoutPending
  let right ← j.right.withoutPending
  let offset := j.left.width
  let key ← j.stateKey left right
  let select ← left.select.joinAt right.select offset
  let hint := JoinHint.cost left.kind right.kind j.parts.equalities.length
  let plan ← Plan.ofRel (.join left.rel right.rel j.plannedKind j.condition (some hint)) .state []
    j.needs
  return { plan with key, select, sort := joinedSort left.sort right.sort offset }

end JoinInputs

end StreamPlan
