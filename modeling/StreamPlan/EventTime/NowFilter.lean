import StreamPlan.EventTime.Bound
import StreamPlan.Query.Rel

/-!
# Now-filters

A now-filter is the predicate `timestamp > now() - interval`, or with another
comparison, kept aside instead of being an operator, so that an aggregation
above it can turn it into a window.

* `NowFilter.ofBound?`: the now-filter that a time bound states.
* `NowFilter.merge?`: two now-filters in one.
* `NowFilter.widen`: a now-filter that keeps more.
* `NowFilter.expr`, `NowFilter.onto`: the predicate, and a tree filtered by it.
-/

namespace StreamPlan

/-- How a timestamp compares with the current time less an interval. -/
inductive NowComparison where
  | gt
  | ge
  | lt
  | le
  deriving DecidableEq, Repr

namespace NowComparison

/-- Whether rows from some time on are kept. -/
def isRecent : NowComparison → Bool
  | gt | ge => true
  | _ => false

/-- Whether the bound itself is left out. -/
def isStrict : NowComparison → Bool
  | gt | lt => true
  | _ => false

/-- The operator of a comparison. -/
def op : NowComparison → BinaryOp
  | gt => .gt
  | ge => .ge
  | lt => .lt
  | le => .le

end NowComparison

/-- The predicate `timestamp > now() - interval`, or with another comparison. -/
structure NowFilter where
  timestamp : Nat
  comparison : NowComparison
  interval : Int
  deriving DecidableEq, Repr

namespace NowFilter

/-- The now-filter that a bound between a column and the current time states.
An equality states none. -/
def ofBound? (bound : TimeBound) : Except Fault (Option NowFilter) :=
  match bound.comparison, bound.larger, bound.smaller with
  | .eq, _, _ => return none
  | .lt, .now, .column ts => return some ⟨ts, .gt, bound.millis⟩
  | .le, .now, .column ts => return some ⟨ts, .ge, bound.millis⟩
  | .lt, .column ts, .now => do return some ⟨ts, .lt, ← Millis.neg bound.millis⟩
  | .le, .column ts, .now => do return some ⟨ts, .le, ← Millis.neg bound.millis⟩
  | _, _, _ => return none

/-- Whether rows from some time on are kept. -/
def isRecent (filter : NowFilter) : Bool := filter.comparison.isRecent

/-- The tighter of two now-filters in one direction. Recent rows are kept by
the smaller interval, old rows by the larger, and a strict bound goes first. -/
def tighter (a b : NowFilter) : NowFilter :=
  if a.interval = b.interval then if a.comparison.isStrict then a else b
  else if a.interval < b.interval then if a.isRecent then a else b
  else if a.isRecent then b else a

/-- Both filters in one, if they are on one timestamp and in one direction. -/
def merge? (a b : NowFilter) : Option NowFilter :=
  if a.timestamp = b.timestamp ∧ a.isRecent = b.isRecent then some (a.tighter b) else none

/-- The filter on another column, if the timestamp has one. -/
def remap (filter : NowFilter) (f : Nat → Option Nat) : Option NowFilter :=
  (f filter.timestamp).map fun timestamp => { filter with timestamp }

/-- The filter with its bound moved by `millis` so that it keeps more. -/
def widen (filter : NowFilter) (millis : Int) : Except Fault NowFilter := do
  let interval ←
    if filter.isRecent then Millis.add filter.interval millis
    else Millis.sub filter.interval millis
  return { filter with interval }

/-- The predicate. -/
def expr (filter : NowFilter) : Expr :=
  .binary filter.comparison.op (.column filter.timestamp)
    (.binary .minus .now (.interval filter.interval))

/-- A tree with the filter on top. -/
def onto (filter : NowFilter) (input : Rel) : Rel := .filter input filter.expr

/-- The filter in messages. -/
def display (filter : NowFilter) : String := filter.expr.display

end NowFilter

end StreamPlan
