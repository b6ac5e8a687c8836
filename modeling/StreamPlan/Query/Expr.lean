import StreamPlan.Columns.Lists
import StreamPlan.Columns.SortOrder
import StreamPlan.Query.Function
import StreamPlan.Value

/-!
# Scalar expressions

Expressions over the columns of a row, by position.

* `Expr.conjuncts`: the conditions a conjunction consists of.
* `Expr.calls`: every function call, outermost first. A window aggregate is
  not entered: it has no function calls of its own.
* `Expr.columns`: every column referred to.
* `Expr.remap`: the same expression over other columns.
* `Expr.dataType`, `Expr.display`.
-/

namespace StreamPlan

/-- A binary operator. -/
inductive BinaryOp where
  | and
  | or
  | eq
  | ne
  | lt
  | le
  | gt
  | ge
  | plus
  | minus
  | times
  | divide
  deriving DecidableEq, Repr

namespace BinaryOp

/-- Whether the operator compares its operands. -/
def isComparison : BinaryOp → Bool
  | eq | ne | lt | le | gt | ge => true
  | _ => false

/-- Whether the operator combines truth values. -/
def isLogical : BinaryOp → Bool
  | and | or => true
  | _ => false

/-- The operator as it is written. -/
def symbol : BinaryOp → String
  | and => "AND"
  | or => "OR"
  | eq => "="
  | ne => "<>"
  | lt => "<"
  | le => "<="
  | gt => ">"
  | ge => ">="
  | plus => "+"
  | minus => "-"
  | times => "*"
  | divide => "/"

end BinaryOp

/-- A scalar expression. -/
inductive Expr where
  | column (position : Nat)
  | literal (value : Value)
  | binary (op : BinaryOp) (left right : Expr)
  | not (arg : Expr)
  | isNull (arg : Expr)
  | call (function : ScalarFunction) (args : List Expr)
  /-- An aggregate over the rows of the partition up to the current one. -/
  | window (aggregate : AggregateCall) (partition : List Nat) (order : SortOrder)

instance : Inhabited Expr := ⟨.literal .null⟩

namespace Expr

/-- The current time. -/
def now : Expr := .call .now []

/-- A length of time. -/
def interval (millis : Int) : Expr := .literal (.interval millis)

/-- The literal true. -/
def truth : Expr := .literal (.boolean true)

/-- Equality of two columns. -/
def equate (a b : Nat) : Expr := .binary .eq (.column a) (.column b)

/-- The conjunction of a list, from the left. No condition at all is true. -/
def all : List Expr → Expr
  | [] => truth
  | first :: rest => rest.foldl (.binary .and) first

/-- The position of a bare column. -/
def column? : Expr → Option Nat
  | .column i => some i
  | _ => none

/-- Whether the expression is the literal true. -/
def isTruth : Expr → Bool
  | .literal (.boolean true) => true
  | _ => false

/-- The conditions of a conjunction, left to right, without the literal true. -/
def conjuncts : Expr → List Expr
  | .binary .and left right => left.conjuncts ++ right.conjuncts
  | e => if e.isTruth then [] else [e]

mutual

/-- Every function call, outermost first and left to right. -/
def calls : Expr → List ScalarFunction
  | .column _ | .literal _ | .window .. => []
  | .binary _ left right => calls left ++ calls right
  | .not arg | .isNull arg => calls arg
  | .call function args => function :: callsOfAll args

/-- The function calls of a list of expressions. -/
def callsOfAll : List Expr → List ScalarFunction
  | [] => []
  | e :: es => calls e ++ callsOfAll es

end

/-- Whether the current time is asked for anywhere. -/
def containsNow (e : Expr) : Bool := e.calls.any (·.isNow)

mutual

/-- Every column referred to, in the order written. -/
def references : Expr → List Nat
  | .column i => [i]
  | .literal _ => []
  | .binary _ left right => references left ++ references right
  | .not arg | .isNull arg => references arg
  | .call _ args => referencesOfAll args
  | .window aggregate partition order => aggregate.columns ++ partition ++ order.columns

/-- The columns a list of expressions refers to. -/
def referencesOfAll : List Expr → List Nat
  | [] => []
  | e :: es => references e ++ referencesOfAll es

end

/-- The distinct columns referred to, ascending. -/
def columns (e : Expr) : List Nat := Ascending.ofList e.references

mutual

/-- The same expression with its columns replaced through `f`, left to right. -/
def remap (f : Nat → Except Fault Nat) : Expr → Except Fault Expr
  | .column i => do return .column (← f i)
  | .literal v => return .literal v
  | .binary op left right => do
    let left ← remap f left
    let right ← remap f right
    return .binary op left right
  | .not arg => do return .not (← remap f arg)
  | .isNull arg => do return .isNull (← remap f arg)
  | .call function args => do return .call function (← remapAll f args)
  | .window aggregate partition order => do
    let aggregate ← aggregate.remap f
    let partition ← partition.mapM f
    let order ← order.remap f
    return .window aggregate partition order

/-- A list of expressions with their columns replaced through `f`. -/
def remapAll (f : Nat → Except Fault Nat) : List Expr → Except Fault (List Expr)
  | [] => return []
  | e :: es => do
    let e ← remap f e
    let es ← remapAll f es
    return e :: es

end

/-- The type of an expression over a row type. A column outside it has no type. -/
def dataType (input : Fields) : Expr → DataType
  | .column i => (input[i]?.map Field.dataType).getD .null
  | .literal v => v.dataType
  | .binary op left _ =>
    if op.isComparison || op.isLogical then .boolean else left.dataType input
  | .not _ | .isNull _ => .boolean
  | .call function _ => function.returnType
  | .window aggregate _ _ => aggregate.dataType

mutual

/-- The expression as it is shown in explain trees. -/
def display : Expr → String
  | .column i => Text.column i
  | .literal v => v.display
  | .binary op left right =>
    "(" ++ display left ++ " " ++ op.symbol ++ " " ++ display right ++ ")"
  | .not arg => "NOT " ++ display arg
  | .isNull arg => display arg ++ " IS NULL"
  | .call function args => function.name ++ "(" ++ Text.commas (displayAll args) ++ ")"
  | .window aggregate partition order =>
    aggregate.display ++ " OVER (PARTITION BY " ++ Text.commas (partition.map Text.column)
      ++ " ORDER BY " ++ SortOrder.display order ++ ")"

/-- The texts of a list of expressions. -/
def displayAll : List Expr → List String
  | [] => []
  | e :: es => display e :: displayAll es

end

end Expr

end StreamPlan
