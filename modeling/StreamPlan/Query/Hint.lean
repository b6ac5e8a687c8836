import StreamPlan.Query.Function
import StreamPlan.Relation

/-!
# Hints on operators

A query may ask for a ranking (`RankingHint`). A converted plan tells the
engine which join or aggregation it is looking at (`JoinHint`,
`AggregateHint`), so nothing has to be worked out again.
-/

namespace StreamPlan

/-- What a ranking asks for. -/
inductive RankingKind where
  /-- The first rows of each partition. -/
  | topN
  /-- One row per distinct visible row. -/
  | selectDistinct
  /-- The latest row per key. -/
  | distinctOn
  deriving DecidableEq, Repr

/-- The ranking as one word. -/
def RankingKind.word : RankingKind → String
  | .topN => "TopN"
  | .selectDistinct => "SelectDistinct"
  | .distinctOn => "DistinctOn"

/-- A ranking over partitions, in columns of the projection's input. -/
structure RankingHint where
  kind : RankingKind
  partition : List Nat
  deriving DecidableEq, Repr

/-- The ranking as `DistinctOn[0]`. -/
def RankingHint.display (hint : RankingHint) : String :=
  hint.kind.word ++ Text.positions hint.partition

/-- How an engine runs a join. -/
inductive JoinHint where
  /-- Looking up the version of a row that is current for an event. The
  table's columns are positions of the table, not of the joined row. -/
  | temporal (streamTimestamp stateTimestamp : Nat) (stateKey : List Nat)
  /-- Joining two streams; the bounds are on right time less left time. -/
  | interval (leftTimestamp rightTimestamp : Nat) (lower upper : Int)
  /-- Joining two tables of current values. -/
  | cost (left right : TableKind) (equalities : Nat)
  deriving DecidableEq, Repr

namespace JoinHint

/-- Whether the hint is that of a join of current values. -/
def isCost : JoinHint → Bool
  | cost .. => true
  | _ => false

/-- The hint in explain trees. -/
def display : JoinHint → String
  | temporal stream state key =>
    "Temporal(" ++ Text.record "TemporalJoinHint" [
      ("stream_timestamp", toString stream),
      ("state_timestamp", toString state),
      ("state_primary_key", Text.positions key)] ++ ")"
  | interval left right lower upper =>
    "Interval(" ++ Text.record "IntervalJoinHint" [
      ("left_timestamp", toString left),
      ("right_timestamp", toString right),
      ("lower_bound_ms", toString lower),
      ("upper_bound_ms", toString upper)] ++ ")"
  | cost left right equalities =>
    "Cost(" ++ Text.record "JoinCostHint" [
      ("left_type", left.word),
      ("right_type", right.word),
      ("num_equalities", toString equalities)] ++ ")"

end JoinHint

/-- How an engine runs an aggregation over time. -/
inductive AggregateHint where
  /-- One group per instant. -/
  | instant (timestamp : Nat)
  /-- One group per bucket of the input timestamp. -/
  | tumble (timestamp inputTimestamp : Nat) (bucket : Bucket)
  /-- A window that moves on by one slide at a time. -/
  | sliding (timestamp : Nat) (window slide : Int)
  deriving DecidableEq, Repr

namespace AggregateHint

/-- The hint in explain trees. -/
def display : AggregateHint → String
  | instant timestamp =>
    "Tumble(" ++ Text.record "Instant" [("timestamp", toString timestamp)] ++ ")"
  | tumble timestamp inputTimestamp bucket =>
    "Tumble(" ++ Text.record "Function" [
      ("timestamp", toString timestamp),
      ("input_timestamp", toString inputTimestamp),
      ("width_ms", toString bucket.width),
      ("offset_ms", toString bucket.offset)] ++ ")"
  | sliding timestamp window slide =>
    "Sliding(" ++ Text.record "SlidingAggregationHint" [
      ("timestamp", toString timestamp),
      ("window_ms", toString window),
      ("slide_ms", toString slide)] ++ ")"

end AggregateHint

end StreamPlan
