import StreamPlan.Arithmetic

/-!
# Sort orders

A sort order lists columns with a direction, the most significant first; the
empty list orders nothing.

* `SortOrder.remap`, `moved`, `shift`: the same order over other columns.
* `SortOrder.join`: one order, then what a second one adds to it.
-/

namespace StreamPlan

/-- A sort direction. -/
inductive Direction where
  | ascending
  | descending
  deriving DecidableEq, Repr

/-- A column and the direction it is sorted in. -/
structure SortKey where
  column : Nat
  direction : Direction
  deriving DecidableEq, Repr

/-- Columns to sort by, the most significant first. -/
abbrev SortOrder := List SortKey

namespace SortOrder

/-- The columns of a sort order. -/
def columns (order : SortOrder) : List Nat := order.map SortKey.column

/-- The same order with its columns replaced through `f`. -/
def remap (order : SortOrder) (f : Nat → Except Fault Nat) : Except Fault SortOrder :=
  order.mapM fun key => do return { key with column := ← f key.column }

/-- The same order with every column moved by `f`; a column without an image stays. -/
def moved (order : SortOrder) (f : Nat → Option Nat) : SortOrder :=
  order.map fun key => { key with column := (f key.column).getD key.column }

/-- The same order `offset` columns further right. -/
def shift (order : SortOrder) (offset : Nat) : SortOrder :=
  order.map fun key => { key with column := offset + key.column }

/-- Adds a key unless its column is sorted by already. -/
def extend (order : SortOrder) (key : SortKey) : SortOrder :=
  if order.columns.contains key.column then order else order ++ [key]

/-- The first order, then the columns of the second that the first leaves open. -/
def join (first second : SortOrder) : SortOrder := second.foldl extend first

/-- The order as `$0 ASC, $2 DESC`. -/
def display (order : SortOrder) : String :=
  Text.commas (order.map fun key =>
    Text.column key.column ++ match key.direction with
      | .ascending => " ASC"
      | .descending => " DESC")

end SortOrder

end StreamPlan
