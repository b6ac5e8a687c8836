/-!
# Relations and what their rows mean

* `TableKind`: append-only events, current values, or versioned values.
* `RelationId`: a base table or a view of the catalog.
-/

namespace StreamPlan

/-- What the rows of a table mean. -/
inductive TableKind where
  /-- Append-only rows with event time. -/
  | stream
  /-- Current values. -/
  | state
  /-- Versioned values, which can be asked as of a point in time. -/
  | versioned
  deriving DecidableEq, Repr

namespace TableKind

/-- Whether rows carry event time. -/
def hasTimestamp : TableKind → Bool
  | .state => false
  | _ => true

/-- The kind in capitals. -/
def display : TableKind → String
  | .stream => "STREAM"
  | .state => "STATE"
  | .versioned => "TEMPORAL_STATE"

/-- The kind as one capitalised word. -/
def word : TableKind → String
  | .stream => "Stream"
  | .state => "State"
  | .versioned => "TemporalState"

end TableKind

/-- A relation of the catalog. -/
inductive RelationId where
  | base (id : Nat)
  | view (id : Nat)
  deriving DecidableEq, Repr

/-- The relation as `q#0` or `v#0`. -/
def RelationId.display : RelationId → String
  | .base id => s!"q#{id}"
  | .view id => s!"v#{id}"

end StreamPlan
