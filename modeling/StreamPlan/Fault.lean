import StreamPlan.Text

/-!
# Faults and refusals

A computation of this library ends in one of three ways.

* It succeeds.
* It is *refused*: the input is a legitimate question and the answer is no. A
  refusal carries the error type `ε` of the operation.
* It *faults*: the caller broke a contract (a position outside its row, a time
  that leaves 64 bits, a plan that contradicts itself). `Fault` lists every
  contract, so "never faults" is a statement about values.

`Checked ε α` is the type of all three. An operation that can only fault has
the type `Except Fault α`, which lifts into every `Checked ε`.
-/

namespace StreamPlan

/-- A broken contract. -/
inductive Fault where
  /-- A position outside a list. -/
  | indexOutOfBounds
  /-- A range that ends past its list. -/
  | sliceOutOfRange
  /-- A result that leaves 64 bits. -/
  | arithmeticOverflow
  /-- A list of more items than can be numbered. -/
  | tooManyItems
  /-- A bucket of width zero. -/
  | divisionByZero
  /-- An identity map of more columns than its relation has. -/
  | identityTooWide (columns width : Nat)
  /-- A map target that is not a column of the relation. -/
  | targetOutside (target width : Nat)
  /-- A position the map is not defined on. -/
  | sourceOutside (position sources : Nat)
  /-- A joined map placed over the columns already taken. -/
  | joinOverlap (offset width : Nat)
  /-- A candidate added after the timestamp was fixed. -/
  | candidateAfterFix (column : Nat)
  /-- A timestamp fixed on a column that is no candidate of the given event time. -/
  | notCandidate (column : Nat) (eventTime : String)
  /-- Two stages of one name in a pipeline. -/
  | duplicateStage (name : String)
  /-- Requirements of two stages put together. -/
  | mixedStages
  /-- A lineage level below a level that does not exist. -/
  | unknownLevel (level : Nat)
  /-- A base table without a root view. -/
  | noRootView (base : Nat)
  /-- A primary key that refers to another relation. -/
  | keyElsewhere
  /-- Visible columns that refer to another relation. -/
  | selectElsewhere
  /-- A state plan with event time. -/
  | stateWithTime (eventTime : String)
  /-- A state plan with a pending now-filter. -/
  | stateWithNowFilter
  /-- A timestamp candidate outside the plan. -/
  | timeOutside (eventTime : String) (width : Nat)
  /-- A pending now-filter on a column that is no candidate. -/
  | nowFilterOffCandidate (column : Nat)
  /-- A sort column outside the plan. -/
  | sortOutside (width : Nat)
  /-- A Top-N column outside the plan. -/
  | topNOutside (width : Nat)
  /-- A final plan whose key and visible columns leave a gap. -/
  | notContinuous (key select : List Nat)
  /-- A key column that a projection was to keep and did not. -/
  | lostColumn
  /-- An order that contradicts itself while items are sorted. -/
  | inconsistentOrder
  deriving DecidableEq, Repr

namespace Fault

/-- What a fault says. -/
def message : Fault → String
  | indexOutOfBounds => "index out of bounds"
  | sliceOutOfRange => "slice out of range"
  | arithmeticOverflow => "arithmetic overflow"
  | tooManyItems => "capacity overflow"
  | divisionByZero => "division by zero"
  | identityTooWide columns width =>
    s!"identity map of {columns} columns exceeds target length {width}"
  | targetOutside target width => s!"index map target {target} outside target length {width}"
  | sourceOutside position sources =>
    s!"index {position} outside index map of source length {sources}"
  | joinOverlap offset width => s!"join offset {offset} overlaps target length {width}"
  | candidateAfterFix column => s!"cannot add candidate ${column} to fixed timestamp"
  | notCandidate column eventTime =>
    s!"${column} is not a timestamp candidate of {eventTime}"
  | duplicateStage name => s!"duplicate stage '{name}'"
  | mixedStages => "cannot combine analyses of different stages"
  | unknownLevel level => s!"unknown lineage parent JoinTableId({level})"
  | noRootView base => s!"query table {base} has no root view"
  | keyElsewhere => "primary key map does not point into the plan"
  | selectElsewhere => "select map does not point into the plan"
  | stateWithTime eventTime => s!"state plan carries timestamp {eventTime}"
  | stateWithNowFilter => "state plan carries a now-filter"
  | timeOutside eventTime width => s!"timestamp {eventTime} outside plan of width {width}"
  | nowFilterOffCandidate column =>
    s!"now-filter on ${column} which is not a timestamp candidate"
  | sortOutside width => s!"sort order outside plan of width {width}"
  | topNOutside width => s!"top-n constraint outside plan of width {width}"
  | notContinuous key select =>
    "materialized plan is not continuous: pk=" ++ Text.positions key ++ " select="
      ++ Text.positions select
  | lostColumn => "internal error: entered unreachable code: key columns are kept"
  | inconsistentOrder =>
    "user-provided comparison function does not correctly implement a total order"

end Fault

/-- Why a computation did not succeed. -/
inductive Failure (ε : Type) where
  | refused (error : ε)
  | fault (fault : Fault)
  deriving DecidableEq, Repr

/-- A computation that succeeds, is refused with an `ε`, or faults. -/
abbrev Checked (ε : Type) (α : Type) := Except (Failure ε) α

/-- The refused computation. -/
def refuse {ε α : Type} (error : ε) : Checked ε α := .error (.refused error)

/-- The faulting computation. -/
def Fault.raise {ε α : Type} (fault : Fault) : Checked ε α := .error (.fault fault)

/-- A computation that can only fault, among those that can also be refused. -/
def orFault {ε α : Type} : Except Fault α → Checked ε α
  | .ok a => .ok a
  | .error f => .error (.fault f)

/-- An answer or an error of the operation, among the computations that can also fault. -/
def orRefuse {ε α : Type} : Except ε α → Checked ε α
  | .ok a => .ok a
  | .error e => .error (.refused e)

instance {ε : Type} : MonadLift (Except Fault) (Except (Failure ε)) where
  monadLift := orFault

/-- The same failure with another form of its error. -/
def Failure.map {ε δ : Type} (f : ε → δ) : Failure ε → Failure δ
  | .refused e => .refused (f e)
  | .fault x => .fault x

/-- The item at a position of a list. -/
def itemAt {α : Type} (items : List α) (position : Nat) : Except Fault α :=
  match items[position]? with
  | some a => .ok a
  | none => .error .indexOutOfBounds

end StreamPlan
