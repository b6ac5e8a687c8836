import StreamPlan.Arithmetic
import StreamPlan.Schema
import StreamPlan.Stage.Capability

/-!
# Functions and time buckets

What matters about a function is how it relates to event time: it is the
current time, it sends a time to the end of its bucket, it keeps the time of
its argument, or none of these.

* `Bucket.endOf`: the last millisecond of the bucket of a time.
* `AggregateCall`: one aggregate function over columns of the input. A call
  without arguments counts rows.
-/

namespace StreamPlan

/-- A grid of time buckets of one width, shifted from the epoch. -/
structure Bucket where
  width : Int
  offset : Int
  deriving DecidableEq, Repr

namespace Bucket

/-- The grid of a width, aligned to the epoch. -/
def ofWidth (width : Int) : Bucket := ⟨width, 0⟩

/-- The last millisecond of the bucket that contains `time`. -/
def endOf (bucket : Bucket) (time : Int) : Except Fault Int := do
  let shifted ← Millis.sub time bucket.offset
  let cell ← Millis.cell shifted bucket.width
  let first ← Millis.add (← Millis.mul cell bucket.width) bucket.offset
  Millis.sub (← Millis.add first bucket.width) 1

end Bucket

/-- How a function relates to event time. -/
inductive TimeRole where
  /-- The current processing time. -/
  | now
  /-- The end of the argument's bucket. -/
  | bucket (bucket : Bucket)
  /-- A time that goes back to the argument's time. -/
  | preserving
  | none
  deriving DecidableEq, Repr

/-- A scalar function. -/
structure ScalarFunction where
  name : String
  role : TimeRole
  returnType : DataType
  /-- What a stage needs to evaluate the function. -/
  capability : Option Capability

namespace ScalarFunction

/-- The current time. -/
def now : ScalarFunction := ⟨"now", .now, .timestamp, some .nowFunction⟩

/-- A function to the end of a bucket. -/
def timeBucket (name : String) (bucket : Bucket) : ScalarFunction :=
  ⟨name, .bucket bucket, .timestamp, none⟩

/-- The end of the minute. -/
def endOfMinute : ScalarFunction := timeBucket "end_of_minute" (.ofWidth 60_000)

/-- The end of the hour. -/
def endOfHour : ScalarFunction := timeBucket "end_of_hour" (.ofWidth 3_600_000)

/-- The end of the day. -/
def endOfDay : ScalarFunction := timeBucket "end_of_day" (.ofWidth 86_400_000)

/-- A function to a time that goes back to its argument's. -/
def timePreserving (name : String) : ScalarFunction := ⟨name, .preserving, .timestamp, none⟩

/-- A function that has nothing to do with time. -/
def plain (name : String) (returnType : DataType) : ScalarFunction :=
  ⟨name, .none, returnType, none⟩

/-- Whether the function is the current time. -/
def isNow (f : ScalarFunction) : Bool := f.role = .now

/-- The grid of a bucket function. -/
def bucket? (f : ScalarFunction) : Option Bucket :=
  match f.role with
  | .bucket b => some b
  | _ => none

/-- Whether the output goes back to the argument's time. -/
def preservesTime (f : ScalarFunction) : Bool :=
  match f.role with
  | .bucket _ | .preserving => true
  | _ => false

end ScalarFunction

/-- An aggregate function. -/
inductive AggregateFunction where
  | count
  | sum
  | min
  | max
  | avg
  deriving DecidableEq, Repr

/-- The function in capitals. -/
def AggregateFunction.display : AggregateFunction → String
  | .count => "COUNT"
  | .sum => "SUM"
  | .min => "MIN"
  | .max => "MAX"
  | .avg => "AVG"

/-- An aggregate function over columns of the input. -/
structure AggregateCall where
  function : AggregateFunction
  args : List Nat
  /-- Whether equal values count once. -/
  distinct : Bool
  /-- A column that tells which rows count. -/
  filter : Option Nat
  /-- Whether the call orders its rows. -/
  ordered : Bool
  /-- The name of the output column. -/
  name : String
  /-- The type of the output column. -/
  dataType : DataType
  /-- What a stage needs to compute the call. -/
  capability : Option Capability

namespace AggregateCall

/-- A call without modifiers. -/
def of (function : AggregateFunction) (args : List Nat) (name : String) (dataType : DataType) :
    AggregateCall :=
  ⟨function, args, false, none, false, name, dataType, none⟩

/-- The number of rows. -/
def countRows (name : String) : AggregateCall := of .count [] name .int64

/-- The same call with its columns replaced through `f`: the arguments first, then
the filter. -/
def remap (call : AggregateCall) (f : Nat → Except Fault Nat) : Except Fault AggregateCall := do
  let args ← call.args.mapM f
  let filter ← call.filter.mapM f
  return { call with args, filter }

/-- The columns a call reads. -/
def columns (call : AggregateCall) : List Nat := call.args ++ call.filter.toList

/-- The output column. -/
def field (call : AggregateCall) : Field := ⟨call.name, call.dataType, true⟩

/-- The call as `SUM(DISTINCT $2)`. -/
def display (call : AggregateCall) : String :=
  call.function.display ++ "(" ++ (if call.distinct then "DISTINCT " else "")
    ++ (if call.args.isEmpty then "*" else Text.commas (call.args.map Text.column)) ++ ")"

end AggregateCall

end StreamPlan
