import StreamPlan.Query.Expr
import StreamPlan.Relation

/-!
# Expressions over a row

The value of an expression over one row at a processing time. Both operands
of an operator are evaluated, left before right.

* A comparison with null, or of values that do not compare, is null; a
  conjunction or disjunction is true or false, and null counts as false.
* Arithmetic with null is null, and so is a quotient of integers by zero.
  Integer arithmetic that leaves 64 bits is a fault.
* `evalExpr`: the value of an expression.
-/

namespace StreamPlan

/-- Why rows could not be computed. -/
inductive EvalError where
  /-- No rows are known for a scanned relation. -/
  | missingTable (relation : RelationId)
  /-- A function without a meaning of its own. -/
  | unknownFunction (name : String)
  /-- A column outside the row. -/
  | columnOutside (column width : Nat)
  /-- Operands that do not fit an arithmetic operator. -/
  | operands (left right : Value)
  /-- The negation of a value that is no truth value. -/
  | negation (value : Value)
  /-- A function of one argument with another number of them. -/
  | arguments (count : Nat)
  /-- An unnested value that is no collection. -/
  | notCollection (value : Value)
  /-- A window aggregate below the top of a projected expression. -/
  | nestedWindow
  /-- An aggregation with grouping sets. -/
  | groupingSets

namespace EvalError

/-- What an evaluation error says. -/
def message : EvalError → String
  | missingTable relation => "no rows registered for table " ++ relation.display
  | unknownFunction name => s!"function '{name}' cannot be evaluated"
  | columnOutside column width => s!"column ${column} outside row of width {width}"
  | operands left right => "type error: " ++ left.display ++ " and " ++ right.display
  | negation value => "type error: NOT " ++ value.display
  | arguments count => s!"type error: expected one argument, got {count}"
  | notCollection value => "type error: cannot unnest " ++ value.display
  | nestedWindow => "unsupported operator: window expression outside projection"
  | groupingSets => "unsupported operator: grouping sets"

end EvalError

/-- Computing rows: a result, an evaluation error, or a fault. -/
abbrev Eval (α : Type) := Checked EvalError α

namespace BinaryOp

/-- Whether a comparison holds of two values in a given order. -/
def holdsOf (op : BinaryOp) (order : Ordering) : Bool :=
  match op with
  | eq => order = .eq
  | ne => order ≠ .eq
  | lt => order = .lt
  | le => order ≠ .gt
  | gt => order = .gt
  | _ => order ≠ .lt

/-- Float arithmetic. -/
def onFloats (op : BinaryOp) (a b : Float) : Float :=
  match op with
  | plus => a + b
  | minus => a - b
  | times => a * b
  | _ => a / b

/-- Integer arithmetic, none for a quotient by zero. -/
def onInts (op : BinaryOp) (a b : Int) : Except Fault (Option Int) :=
  match op with
  | plus => some <$> Millis.add a b
  | minus => some <$> Millis.sub a b
  | times => some <$> Millis.mul a b
  | _ => if b = 0 then .ok none else some <$> Millis.quotient a b

/-- What a number means that was computed from two values: the distance of
two times, a time, a length of time or a plain number. -/
def resultOf (left right : Value) (n : Int) : Value :=
  match left, right with
  | .timestamp _, .timestamp _ => .interval n
  | .timestamp _, _ | _, .timestamp _ => .timestamp n
  | .interval _, .interval _ => .interval n
  | _, _ => .int n

/-- Whether a value is a float. -/
def isFloat : Value → Bool
  | .float _ => true
  | _ => false

/-- Arithmetic on two values. -/
def arithmetic (op : BinaryOp) (left right : Value) : Eval Value :=
  if left.isNull || right.isNull then return .null
  else if isFloat left || isFloat right then
    match left.asFloat?, right.asFloat? with
    | some a, some b => return .float (op.onFloats a b)
    | _, _ => refuse (.operands left right)
  else
    match left.asInt?, right.asInt? with
    | some a, some b => do
      match ← op.onInts a b with
      | some n => return resultOf left right n
      | none => return .null
    | _, _ => refuse (.operands left right)

/-- An operator applied to two values. -/
def apply (op : BinaryOp) (left right : Value) : Eval Value :=
  match op with
  | and => return .boolean (left.isTrue && right.isTrue)
  | or => return .boolean (left.isTrue || right.isTrue)
  | eq | ne | lt | le | gt | ge =>
    match left.compare? right with
    | none => return .null
    | some order => return .boolean (op.holdsOf order)
  | plus | minus | times | divide => op.arithmetic left right

end BinaryOp

/-- The negation of a truth value; null stays null. -/
def Value.negate : Value → Eval Value
  | .boolean b => return .boolean (!b)
  | .null => return .null
  | other => refuse (.negation other)

/-- A bucket function applied to a value: null unless the value is a number. -/
def Bucket.apply (bucket : Bucket) (value : Value) : Eval Value :=
  match value.asInt? with
  | some time => do return .timestamp (← bucket.endOf time)
  | none => return .null

mutual

/-- The value of an expression over a row at processing time `now`. -/
def evalExpr (now : Int) (row : Row) : Expr → Eval Value
  | .column i =>
    match row[i]? with
    | some v => return v
    | none => refuse (.columnOutside i row.length)
  | .literal v => return v
  | .binary op left right => do
    let l ← evalExpr now row left
    let r ← evalExpr now row right
    op.apply l r
  | .not arg => do (← evalExpr now row arg).negate
  | .isNull arg => do return .boolean (← evalExpr now row arg).isNull
  | .call function args =>
    match function.role with
    | .now => return .timestamp now
    | .bucket bucket => do bucket.apply (← evalOnly now row args)
    | .preserving => evalOnly now row args
    | .none => refuse (.unknownFunction function.name)
  | .window .. => refuse .nestedWindow

/-- The value of the only expression of a list. -/
def evalOnly (now : Int) (row : Row) : List Expr → Eval Value
  | [arg] => evalExpr now row arg
  | args => refuse (.arguments args.length)

end

end StreamPlan
