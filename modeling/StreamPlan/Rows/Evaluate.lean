import StreamPlan.Query.Rel
import StreamPlan.Rows.Expr
import StreamPlan.Rows.Group

/-!
# Rows of a relational tree

The rows of a tree over known rows of its relations. Inputs come before their
operator, left before right, and rows keep their order wherever an operator
does not say otherwise.

* A join goes through the left rows and, for each, through the right rows;
  right rows without a partner come last. Temporal and interval joins are
  joins on their condition.
* A union without duplicates keeps the first of equal rows.
* `evaluate`: the rows of a tree.
-/

namespace StreamPlan

/-- Known rows and the processing time. -/
structure Fixture where
  tables : List (RelationId × List Row)
  now : Int

namespace Fixture

/-- The rows of a relation. -/
def rowsOf (fixture : Fixture) (relation : RelationId) : Eval (List Row) :=
  match fixture.tables.lookup relation with
  | some rows => return rows
  | none => refuse (.missingTable relation)

end Fixture

/-- The rows on which a predicate is true. -/
def filterRows (now : Int) (predicate : Expr) (rows : List Row) : Eval (List Row) :=
  rows.filterM fun row => do return (← evalExpr now row predicate).isTrue

/-- The running values of an output that is a window aggregate. -/
def windowValues (rows : List Row) : Expr → Eval (Option (List Value))
  | .window aggregate partition order => do
    return some (← runningValues aggregate partition order rows)
  | _ => return none

/-- A projected row. The windows, one per output, are already computed. -/
def projectRow (now : Int) (row : Row) (position : Nat) :
    List (Output × Option (List Value)) → Eval Row
  | [] => return []
  | (output, window) :: rest => do
    let value ← match window with
      | some values => orFault (itemAt values position)
      | none => evalExpr now row output.expr
    return value :: (← projectRow now row position rest)

/-- The rows of a projection. -/
def projectRows (now : Int) (outputs : List Output) (rows : List Row) : Eval (List Row) := do
  let windows ← outputs.mapM fun output => do
    return (output, ← windowValues rows output.expr)
  rows.zipIdx.mapM fun (row, i) => projectRow now row i windows

/-- The nulls in the place of a missing row. -/
def padding (width : Nat) : Row := List.replicate width .null

/-- The joined rows of one left row, and for each right row whether it is a partner. -/
def partners (now : Int) (condition : Expr) (left : Row) (right : List Row) :
    Eval (List Row × List Bool) := do
  let matched ← right.mapM fun r => do return (← evalExpr now (left ++ r) condition).isTrue
  return ((right.zip matched).filterMap fun (r, m) => if m then some (left ++ r) else none, matched)

/-- The joined rows of all left rows. `used` tells which right rows have had a
partner so far. -/
def joinFrom (now : Int) (condition : Expr) (kind : JoinKind) (rightWidth : Nat)
    (right : List Row) : List Row → List Bool → Eval (List Row × List Bool)
  | [], used => return ([], used)
  | l :: ls, used => do
    let (rows, matched) ← partners now condition l right
    let rows := if rows.isEmpty && kind.keepsLeft then [l ++ padding rightWidth] else rows
    let (rest, used) ← joinFrom now condition kind rightWidth right ls
      (List.zipWith (· || ·) used matched)
    return (rows ++ rest, used)

/-- The rows of a join of inputs of the given widths. -/
def joinRows (now : Int) (kind : JoinKind) (condition : Expr) (leftWidth rightWidth : Nat)
    (left right : List Row) : Eval (List Row) := do
  let (rows, used) ←
    joinFrom now condition kind rightWidth right left (right.map fun _ => false)
  let lonely := (right.zip used).filterMap fun (r, u) =>
    if u then none else some (padding leftWidth ++ r)
  return rows ++ if kind.keepsRight then lonely else []

/-- The elements of a nested collection. -/
def elementsOf : Value → Eval (List Row)
  | .list rows => return rows
  | .null => return []
  | other => refuse (.notCollection other)

/-- A row once per element of its collection. -/
def unnestRow (column : Nat) (outer : Bool) (elementWidth : Nat) (row : Row) : Eval (List Row) := do
  match row[column]? with
  | none => refuse (.columnOutside column row.length)
  | some value =>
    let elements ← elementsOf value
    return if elements.isEmpty && outer then [row ++ padding elementWidth]
      else elements.map (row ++ ·)

/-- The first rows of each partition, at most `keep` of one. `seen` counts the
rows kept of the partitions met so far. -/
def firstRowsFrom (partition : List Nat) (keep : Nat) (seen : List (Row × List Unit)) :
    List Row → Except Fault (List Row)
  | [] => return []
  | row :: rows => do
    let (members, seen) := addToGroup (← Row.at row partition) () seen
    let rest ← firstRowsFrom partition keep seen rows
    return if members.length ≤ keep then row :: rest else rest

/-- The first rows of each partition. Without a limit every row is kept. -/
def firstRowsOf (partition : List Nat) (limit : Option Nat) (distinct : Bool) (rows : List Row) :
    Except Fault (List Row) :=
  match if distinct then some 1 else limit with
  | none => return rows
  | some keep => firstRowsFrom partition keep [] rows

/-- A range of rows: `offset` are skipped and at most `limit` kept. -/
def rangeOf (limit offset : Option Nat) (rows : List Row) : List Row :=
  let rest := rows.drop (offset.getD 0)
  match limit with
  | some n => rest.take n
  | none => rest

mutual

/-- The rows of a tree. -/
def evaluate (fixture : Fixture) : Rel → Eval (List Row)
  | .scan relation _ _ => fixture.rowsOf relation
  | .filter input predicate => do
    filterRows fixture.now predicate (← evaluate fixture input)
  | .project input outputs _ => do
    projectRows fixture.now outputs (← evaluate fixture input)
  | .join left right kind condition _ => do
    let l ← evaluate fixture left
    let r ← evaluate fixture right
    joinRows fixture.now kind condition left.width right.width l r
  | .aggregate input keys groupingSets calls _ => do
    if !groupingSets.isEmpty then refuse .groupingSets
    else aggregateRows keys calls (← evaluate fixture input)
  | .union inputs all => do
    let rows ← evaluateAll fixture inputs
    return if all then rows else distinctRows rows
  | .sort input order limit offset => do
    return rangeOf limit offset (← sortRows order (← evaluate fixture input))
  | .unnest input column outer element => do
    return (← (← evaluate fixture input).mapM (unnestRow column outer element.length)).flatten
  | .firstRows input partition limit distinct => do
    firstRowsOf partition limit distinct (← evaluate fixture input)

/-- The rows of several trees, one after another. -/
def evaluateAll (fixture : Fixture) : List Rel → Eval (List Row)
  | [] => return []
  | r :: rs => do
    let rows ← evaluate fixture r
    return rows ++ (← evaluateAll fixture rs)

end

end StreamPlan
