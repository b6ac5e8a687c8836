import StreamPlan.Fault

/-!
# Positions and milliseconds

Column positions are natural numbers below `2 ^ 64`, and times, intervals and
integers of a row are integers from `-2 ^ 63` to `2 ^ 63 - 1`. Every operation
here is the exact one followed by a range check, so a result is either exact
or a fault.
-/

namespace StreamPlan

namespace Position

/-- One past the largest position. -/
def limit : Nat := 0x10000000000000000

/-- A list of positions has fewer items than this. -/
def countLimit : Nat := 0x1000000000000000

/-- Faults if there cannot be a list of so many positions. -/
def checkCount (n : Nat) : Except Fault Unit :=
  if n < countLimit then .ok () else .error .tooManyItems

/-- A position, if it fits. -/
def checked (n : Nat) : Except Fault Nat :=
  if n < limit then .ok n else .error .arithmeticOverflow

/-- The exact sum. -/
def add (a b : Nat) : Except Fault Nat := checked (a + b)

end Position

namespace Millis

/-- The smallest 64-bit integer. -/
def least : Int := -0x8000000000000000

/-- The largest 64-bit integer. -/
def greatest : Int := 0x7fffffffffffffff

/-- Whether an integer fits in 64 bits. -/
def Fits (x : Int) : Prop := least ≤ x ∧ x ≤ greatest

instance (x : Int) : Decidable (Fits x) := inferInstanceAs (Decidable (_ ∧ _))

/-- An integer, if it fits. -/
def checked (x : Int) : Except Fault Int :=
  if Fits x then .ok x else .error .arithmeticOverflow

/-- The exact sum. -/
def add (x y : Int) : Except Fault Int := checked (x + y)

/-- The exact difference. -/
def sub (x y : Int) : Except Fault Int := checked (x - y)

/-- The exact product. -/
def mul (x y : Int) : Except Fault Int := checked (x * y)

/-- The exact negation. -/
def neg (x : Int) : Except Fault Int := checked (-x)

/-- The quotient toward zero. -/
def quotient (x y : Int) : Except Fault Int :=
  if y = 0 then .error .divisionByZero else checked (x.tdiv y)

/-- The quotient whose remainder is not negative. -/
def cell (x y : Int) : Except Fault Int :=
  if y = 0 then .error .divisionByZero else checked (x / y)

/-- The sum of a list, from the left. -/
def total (xs : List Int) : Except Fault Int := xs.foldlM add 0

theorem checked_eq_ok_iff {x y : Int} : checked x = .ok y ↔ Fits x ∧ y = x := by
  unfold checked
  split <;> simp_all [eq_comm]

end Millis

end StreamPlan
