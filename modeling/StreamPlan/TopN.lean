import StreamPlan.Query.Rel

/-!
# Deferred Top-N constraints

Deduplication, ranking and row limits are kept aside as long as possible. An
applied constraint is a sort, if it has an order, below the first rows of
each partition.

* `TopN.isEmpty`: the constraint that does nothing.
* `TopN.resultKind`: what the rows mean once the constraint applies.
* `TopN.onto`: a tree with the constraint applied.
-/

namespace StreamPlan

/-- A ranking, deduplication or limit that is not applied yet. -/
structure TopN where
  partition : List Nat
  /-- Whether one row per partition is kept. -/
  distinct : Bool
  order : SortOrder
  limit : Option Nat
  /-- What the rows mean that the constraint applies to. -/
  source : TableKind
  deriving DecidableEq, Repr

namespace TopN

/-- The constraint that does nothing. -/
def none : TopN := ⟨[], false, [], .none, .state⟩

/-- The latest row per key. -/
def latestPerKey (key : List Nat) (timestamp : Nat) : TopN :=
  ⟨key, false, [⟨timestamp, .descending⟩], some 1, .versioned⟩

/-- Whether the constraint does nothing. -/
def isEmpty (topN : TopN) : Bool := topN.partition.isEmpty && !topN.distinct && topN.limit.isNone

/-- Whether there are partition columns. -/
def hasPartition (topN : TopN) : Bool := !topN.partition.isEmpty

/-- Whether the constraint keeps one row per value of the first `keys` columns. -/
def isKeyDedup (topN : TopN) (keys : Nat) : Bool :=
  topN.limit == some 1 && topN.partition == List.range keys

/-- What the rows mean once the constraint applies. Current values stay
current values, the latest row per partition is a version, ranked rows are
current values, and a limit over all rows changes nothing. -/
def resultKind (topN : TopN) : TableKind :=
  if topN.source = .state then .state
  else if topN.distinct then .versioned
  else if topN.hasPartition then .state
  else topN.source

/-- The columns of the constraint, the partition's first. -/
def columns (topN : TopN) : List Nat := topN.partition ++ SortOrder.columns topN.order

/-- The same constraint with its columns replaced through `f`. -/
def remap (topN : TopN) (f : Nat → Except Fault Nat) : Except Fault TopN := do
  let partition ← topN.partition.mapM f
  let order ← topN.order.remap f
  return { topN with partition, order }

/-- A tree with the constraint applied. -/
def onto (topN : TopN) (input : Rel) : Rel :=
  if topN.isEmpty then input
  else
    let sorted := if topN.order.isEmpty then input else .sort input topN.order .none .none
    .firstRows sorted topN.partition topN.limit topN.distinct

/-- The constraint in messages. -/
def display (topN : TopN) : String :=
  if topN.isEmpty then "none"
  else "partition=" ++ Text.positions topN.partition ++ (if topN.distinct then " distinct" else "")
    ++ (if topN.order.isEmpty then "" else " order=[" ++ topN.order.display ++ "]")
    ++ match topN.limit with
      | some n => s!" limit={n}"
      | .none => ""

end TopN

end StreamPlan
