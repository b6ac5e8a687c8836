import StreamPlan.Columns.SortOrder
import StreamPlan.Sorting
import StreamPlan.Value

/-!
# Sorting rows

* `sortRows`: rows by a sort order. Faults where a comparison that is made
  reaches outside a row.
* `canonical`: rows by all their values, to compare results as multisets.
-/

namespace StreamPlan

/-- The order of two values in a direction. Null is reversed with the rest. -/
def Direction.compare (direction : Direction) (a b : Value) : Ordering :=
  match direction with
  | .ascending => a.sortOrder b
  | .descending => (a.sortOrder b).swap

/-- The order of two rows by the first column that tells them apart. -/
def compareRows (a b : Row) : SortOrder → Except Fault Ordering
  | [] => return .eq
  | key :: keys => do
    match key.direction.compare (← itemAt a key.column) (← itemAt b key.column) with
    | .eq => compareRows a b keys
    | other => return other

/-- Whether a row has to precede another by a sort order. -/
def precedes (order : SortOrder) (a b : Row) : Except Fault Bool := do
  return (← compareRows a b order) = .lt

/-- The rows by a sort order. -/
def sortRows (order : SortOrder) (rows : List Row) : Except Fault (List Row) :=
  Sorting.stable (precedes order) false rows

/-- The rows by a sort order, with their positions. -/
def sortNumbered (order : SortOrder) (rows : List Row) : Except Fault (List (Row × Nat)) :=
  Sorting.stable (fun a b => precedes order a.1 b.1) true rows.zipIdx

/-- The order of two rows by all their values, then by length. -/
def compareWhole : Row → Row → Ordering
  | [], [] => .eq
  | [], _ :: _ => .lt
  | _ :: _, [] => .gt
  | a :: as, b :: bs =>
    match a.sortOrder b with
    | .eq => compareWhole as bs
    | other => other

/-- The rows by all their values. -/
def canonical (rows : List Row) : Except Fault (List Row) :=
  Sorting.stable (fun a b => .ok (compareWhole a b = .lt)) false rows

end StreamPlan
