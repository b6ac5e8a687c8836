import StreamPlan.Decimal.Shortest
import StreamPlan.Schema

/-!
# Values of a row

A value is null, a truth value, a number, a text, a time, a length of time or
a nested collection of rows.

* `Value.same`: equality of values as grouping and duplicate removal see it.
  Values of different kinds differ, and a number that is no number differs
  from itself.
* `Value.compare?`: the comparison of the query language. Null compares with
  nothing, and integers, times and floats compare by number.
* `Value.sortOrder`: the order of sorting, with null last and incomparable
  values tied.
-/

namespace StreamPlan

/-- One value. A collection holds the rows of its elements. -/
inductive Value where
  | null
  | boolean (value : Bool)
  | int (value : Int)
  | float (value : Float)
  | text (value : String)
  /-- Milliseconds since the epoch. -/
  | timestamp (millis : Int)
  /-- A length of time in milliseconds. -/
  | interval (millis : Int)
  | list (rows : List (List Value))

instance : Inhabited Value := ⟨.null⟩

/-- Values by position. -/
abbrev Row := List Value

namespace Value

/-- Whether the value is null. -/
def isNull : Value → Bool
  | null => true
  | _ => false

/-- Whether the value is the truth value true. -/
def isTrue : Value → Bool
  | boolean b => b
  | _ => false

/-- The type of a value. Neither null nor a collection tells its type. -/
def dataType : Value → DataType
  | null => .null
  | boolean _ => .boolean
  | int _ => .int64
  | float _ => .float64
  | text _ => .utf8
  | timestamp _ => .timestamp
  | interval _ => .interval
  | list _ => .null

/-- The number of an integer, a time or a length of time. -/
def asInt? : Value → Option Int
  | int n | timestamp n | interval n => some n
  | _ => none

/-- The float nearest to a number. -/
def asFloat? : Value → Option Float
  | float x => some x
  | value => value.asInt?.map Float.ofInt

mutual

/-- Equality of two values. -/
def same : Value → Value → Bool
  | null, null => true
  | boolean a, boolean b => a == b
  | int a, int b => a == b
  | float a, float b => a == b
  | text a, text b => a == b
  | timestamp a, timestamp b => a == b
  | interval a, interval b => a == b
  | list a, list b => sameRows a b
  | _, _ => false

/-- Equality of two rows, position by position. -/
def sameRow : List Value → List Value → Bool
  | [], [] => true
  | a :: as, b :: bs => same a b && sameRow as bs
  | _, _ => false

/-- Equality of two lists of rows. -/
def sameRows : List (List Value) → List (List Value) → Bool
  | [], [] => true
  | a :: as, b :: bs => sameRow a b && sameRows as bs
  | _, _ => false

end

/-- Order of two floats, none if one is no number. -/
def compareFloats (a b : Float) : Option Ordering :=
  if a < b then some .lt else if a == b then some .eq else if b < a then some .gt else none

/-- Order of two texts by code points. -/
def compareTexts (a b : String) : Ordering :=
  if a < b then .lt else if a = b then .eq else .gt

/-- The comparison of the query language, none for null and for values that
do not compare. -/
def compare? : Value → Value → Option Ordering
  | null, _ | _, null => none
  | boolean a, boolean b => some (Ord.compare a b)
  | text a, text b => some (compareTexts a b)
  | float a, b => do compareFloats a (← b.asFloat?)
  | a, float b => do compareFloats (← a.asFloat?) b
  | a, b => do return Ord.compare (← a.asInt?) (← b.asInt?)

/-- The order of sorting: null last, values that do not compare tied. -/
def sortOrder (a b : Value) : Ordering :=
  match a.isNull, b.isNull with
  | true, true => .eq
  | true, false => .gt
  | false, true => .lt
  | false, false => (a.compare? b).getD .eq

/-- The text of a value. Quotes inside a text stay as they are, and a
collection shows its size. -/
def display : Value → String
  | null => "NULL"
  | boolean b => toString b
  | int n => toString n
  | float x => decimalText x
  | text s => "'" ++ s ++ "'"
  | timestamp n => s!"TIMESTAMP {n}"
  | interval n => s!"INTERVAL {n}ms"
  | list rows => s!"LIST[{rows.length}]"

end Value

end StreamPlan
