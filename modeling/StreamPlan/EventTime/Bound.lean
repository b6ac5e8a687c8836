import StreamPlan.Query.Expr

/-!
# Time bounds

Every comparison of two times, or of a time and the current time, has the
form `larger - smaller < millis`, with `≤` or `=` in place of `<`.

* `TimeBound.inverse`: the bound in the opposite direction.
* `TimeBound.expr`: the bound as an expression.
* `TimeBound.ofExpr?`: the bound that an expression states, if it states one.
-/

namespace StreamPlan

/-- One side of a time comparison. -/
inductive TimeOperand where
  | column (position : Nat)
  | now
  deriving DecidableEq, Repr

namespace TimeOperand

/-- The column, if the operand is one. -/
def column? : TimeOperand → Option Nat
  | column i => some i
  | now => none

/-- The operand as an expression. -/
def expr : TimeOperand → Expr
  | column i => .column i
  | now => .now

/-- The operand in messages. -/
def display : TimeOperand → String
  | column i => Text.column i
  | now => "now()"

/-- The operand over another column. -/
def remap (operand : TimeOperand) (f : Nat → Except Fault Nat) : Except Fault TimeOperand :=
  match operand with
  | column i => column <$> f i
  | now => .ok now

end TimeOperand

/-- How a time bound compares. -/
inductive BoundComparison where
  | lt
  | le
  | eq
  deriving DecidableEq, Repr

/-- The operator of a comparison. -/
def BoundComparison.op : BoundComparison → BinaryOp
  | lt => .lt
  | le => .le
  | eq => .eq

/-- The bound `larger - smaller < millis`, or with another comparison. -/
structure TimeBound where
  larger : TimeOperand
  smaller : TimeOperand
  comparison : BoundComparison
  millis : Int
  deriving DecidableEq, Repr

namespace TimeBound

/-- Whether the current time is one of the operands. -/
def hasNow (bound : TimeBound) : Bool := bound.larger = .now || bound.smaller = .now

/-- Whether the bound is an equality. -/
def isEquality (bound : TimeBound) : Bool := bound.comparison = .eq

/-- The columns of a bound, the larger operand's first. -/
def columns (bound : TimeBound) : List Nat :=
  bound.larger.column?.toList ++ bound.smaller.column?.toList

/-- The bound `smaller - larger ≤ millis`. -/
def inverse (bound : TimeBound) (millis : Int) : TimeBound :=
  ⟨bound.smaller, bound.larger, .le, millis⟩

/-- The bound over other columns. -/
def remap (bound : TimeBound) (f : Nat → Except Fault Nat) : Except Fault TimeBound := do
  let larger ← bound.larger.remap f
  let smaller ← bound.smaller.remap f
  return { bound with larger, smaller }

/-- The bound as `larger < smaller + interval`; a zero interval is left out. -/
def expr (bound : TimeBound) : Expr :=
  .binary bound.comparison.op bound.larger.expr
    (if bound.millis = 0 then bound.smaller.expr
      else .binary .plus bound.smaller.expr (.interval bound.millis))

/-- The bound in messages. -/
def display (bound : TimeBound) : String :=
  bound.larger.display ++ " " ++ bound.comparison.op.symbol ++ " " ++ bound.smaller.display
    ++ s!" + {bound.millis}ms"

/-- A time operand and the milliseconds added to it, if an expression is a
candidate column or the current time with lengths of time added and taken off. -/
def operand? (isCandidate : Nat → Bool) : Expr → Except Fault (Option (TimeOperand × Int))
  | .column i => return if isCandidate i then some (.column i, 0) else none
  | .call function _ => return if function.isNow then some (.now, 0) else none
  | .binary .plus left (.literal (.interval millis)) => do
    match ← operand? isCandidate left with
    | some (operand, inner) => return some (operand, ← Millis.add inner millis)
    | none => return none
  | .binary .minus left (.literal (.interval millis)) => do
    match ← operand? isCandidate left with
    | some (operand, inner) => return some (operand, ← Millis.add inner (← Millis.neg millis))
    | none => return none
  | _ => return none

/-- The bound stated by comparing `a + x` with `b + y`, if the operator bounds. -/
def compared (op : BinaryOp) (a : TimeOperand) (x : Int) (b : TimeOperand) (y : Int) :
    Except Fault (Option TimeBound) :=
  match op with
  | .lt => do return some ⟨a, b, .lt, ← Millis.sub y x⟩
  | .le => do return some ⟨a, b, .le, ← Millis.sub y x⟩
  | .gt => do return some ⟨b, a, .lt, ← Millis.sub x y⟩
  | .ge => do return some ⟨b, a, .le, ← Millis.sub x y⟩
  | .eq => do return some ⟨a, b, .eq, ← Millis.sub y x⟩
  | _ => return none

/-- The bound that an expression states: a comparison of two different time
operands, each with lengths of time added and taken off. -/
def ofExpr? (isCandidate : Nat → Bool) : Expr → Except Fault (Option TimeBound)
  | .binary op left right =>
    if !op.isComparison then return none
    else do
      match ← operand? isCandidate left with
      | none => return none
      | some (a, x) =>
        match ← operand? isCandidate right with
        | none => return none
        | some (b, y) => if a = b then return none else compared op a x b y
  | _ => return none

end TimeBound

end StreamPlan
