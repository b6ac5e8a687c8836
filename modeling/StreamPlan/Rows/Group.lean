import StreamPlan.Query.Function
import StreamPlan.Rows.Sort

/-!
# Groups and aggregates of rows

* `groupRows`: rows by key, groups and members in order of appearance.
* `AggregateCall.valueOn`: the value of a call over the rows of a group.
* `runningValues`: the value of a call per row, over the rows of its partition
  up to the row in the window order.
-/

namespace StreamPlan

/-- The values of a row at the given columns. -/
def Row.at (row : Row) (columns : List Nat) : Except Fault Row := columns.mapM (itemAt row)

/-- Adds a member to the group of a key, which is opened at the end if need be.
Gives the members of that group and all groups. -/
def addToGroup {α : Type} (key : Row) (member : α) :
    List (Row × List α) → List α × List (Row × List α)
  | [] => ([member], [(key, [member])])
  | (k, members) :: groups =>
    if Value.sameRow k key then (members ++ [member], (k, members ++ [member]) :: groups)
    else
      let (found, rest) := addToGroup key member groups
      (found, (k, members) :: rest)

/-- The rows by the values of the key columns. -/
def groupRows (keys : List Nat) (rows : List Row) : Except Fault (List (Row × List Row)) :=
  rows.foldlM (fun groups row => do return (addToGroup (← Row.at row keys) row groups).2) []

/-- The first of every set of equal values. -/
def distinctValues (values : List Value) : List Value :=
  values.foldl (fun kept v => if kept.any (·.same v) then kept else kept ++ [v]) []

/-- The first of every set of equal rows. -/
def distinctRows (rows : List Row) : List Row :=
  rows.foldl (fun kept row => if kept.any (Value.sameRow · row) then kept else kept ++ [row]) []

namespace AggregateCall

/-- What a row contributes to a call: nothing if the row is filtered out or
the argument is null. -/
def contribution (call : AggregateCall) (row : Row) : Except Fault (Option Value) := do
  let counts ← match call.filter with
    | some f => do pure (← itemAt row f).isTrue
    | none => pure true
  if !counts then return none
  match call.args.head? with
  | none => return some (.int 1)
  | some a => do
    let v ← itemAt row a
    return if v.isNull then none else some v

/-- The sum of floats from the left. A sum of nothing is the negative zero. -/
def floatSum (values : List Value) : Float :=
  (values.filterMap Value.asFloat?).foldl (· + ·) (-0.0)

/-- The least value, the first of several. -/
def least : List Value → Value
  | [] => .null
  | v :: vs => vs.foldl (fun x y => if x.sortOrder y = .gt then y else x) v

/-- The greatest value, the last of several. -/
def greatest : List Value → Value
  | [] => .null
  | v :: vs => vs.foldl (fun x y => if x.sortOrder y = .gt then x else y) v

/-- The value of a function over the values that count. -/
def combine (function : AggregateFunction) (values : List Value) : Except Fault Value :=
  match function with
  | .count => return .int values.length
  | .sum =>
    if values.isEmpty then return .null
    else if values.any (fun v => v matches .float _) then return .float (floatSum values)
    else return .int (← Millis.total (values.filterMap Value.asInt?))
  | .min => return least values
  | .max => return greatest values
  | .avg =>
    if values.isEmpty then return .null
    else return .float (floatSum values / Float.ofNat values.length)

/-- The value of a call over rows. -/
def valueOn (call : AggregateCall) (rows : List Row) : Except Fault Value := do
  let values := (← rows.mapM call.contribution).filterMap id
  combine call.function (if call.distinct then distinctValues values else values)

end AggregateCall

/-- One row per group: the key, then the value of each call. Without keys
there is one group, even of no rows. -/
def aggregateRows (keys : List Nat) (calls : List AggregateCall) (rows : List Row) :
    Except Fault (List Row) := do
  let groups ← groupRows keys rows
  let groups := if groups.isEmpty && keys.isEmpty then [([], [])] else groups
  groups.mapM fun (key, members) => do return key ++ (← calls.mapM (·.valueOn members))

/-- Walks numbered rows in window order; `groups` holds the rows walked so far. -/
def runningFrom (call : AggregateCall) (partition : List Nat) (groups : List (Row × List Row)) :
    List (Row × Nat) → Except Fault (List (Nat × Value))
  | [] => return []
  | (row, i) :: rest => do
    let key ← Row.at row partition
    let (members, groups) := addToGroup key row groups
    let value ← call.valueOn members
    return (i, value) :: (← runningFrom call partition groups rest)

/-- The running value of a call at every row, in the order of the rows. -/
def runningValues (call : AggregateCall) (partition : List Nat) (order : SortOrder)
    (rows : List Row) : Except Fault (List Value) := do
  let sorted ← sortNumbered order rows
  let values ← runningFrom call partition [] sorted
  (List.range rows.length).mapM fun i =>
    match values.find? (·.1 == i) with
    | some (_, v) => return v
    | none => .error .indexOutOfBounds

end StreamPlan
