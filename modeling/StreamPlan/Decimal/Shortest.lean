/-!
# Shortest decimals

The shortest decimal that reads back as a given binary number. A positive
number is `mantissa * 2 ^ exponent`; the reals that round to it form an
interval around it whose ends belong to it when the mantissa is even. For
1, 2, … digits the two points of that decimal grid beside the number are
tested in exact arithmetic. The first grid with a point in the interval wins,
of two points the nearer, and a tie goes up.

* `Binary`: a positive binary number; `Binary.ofFloat?` reads one from a float.
* `Binary.shortest`: its shortest decimal.
* `Decimal.positional`: a decimal in positional notation, never with an exponent.
* `Float.decimalText`: the text of any float.
-/

namespace StreamPlan

/-- The positive number `mantissa * 2 ^ exponent`. The flag says that the gap
below the number is half the gap above it. -/
structure Binary where
  mantissa : Nat
  exponent : Int
  narrowBelow : Bool
  deriving DecidableEq, Repr

/-- The number `digits * 10 ^ exponent`. -/
structure Decimal where
  digits : Nat
  exponent : Int
  deriving DecidableEq, Repr

namespace Decimal

/-- The number of decimal digits of a positive number. -/
def length (n : Nat) : Nat := (toString n).length

/-- Drops trailing zeros, at most `fuel` of them. -/
def trim : Nat → Decimal → Decimal
  | 0, d => d
  | fuel + 1, d =>
    if d.digits % 10 = 0 ∧ d.digits ≠ 0 then trim fuel ⟨d.digits / 10, d.exponent + 1⟩ else d

/-- Positional notation: all digits, a point only before a fraction, and a
zero before the point if nothing else stands there. -/
def positional (d : Decimal) : String :=
  let text := toString d.digits
  if 0 ≤ d.exponent then text ++ String.ofList (List.replicate d.exponent.toNat '0')
  else
    let places := (-d.exponent).toNat
    let padded := List.replicate (places + 1 - text.length) '0' ++ text.toList
    let whole := padded.length - places
    String.ofList (padded.take whole) ++ "." ++ String.ofList (padded.drop whole)

end Decimal

namespace Binary

/-- The numerator and denominator of `quarters / 4` units of the last place. -/
def scaled (b : Binary) (quarters : Nat) : Nat × Nat :=
  if 2 ≤ b.exponent then (quarters <<< (b.exponent - 2).toNat, 1)
  else (quarters, 1 <<< (2 - b.exponent).toNat)

/-- The exponent `k` with `10 ^ (k - 1) ≤ num / den < 10 ^ k`. -/
def magnitude (num den : Nat) : Int :=
  if den ≤ num then (Decimal.length (num / den) : Int)
  else 1 - (Decimal.length ((den + num - 1) / num - 1) : Int)

/-- Compares `count` steps of `10 ^ step` with the rational `num / den`. -/
def compareSteps (count : Nat) (step : Int) (num den : Nat) : Ordering :=
  if 0 ≤ step then compare (count * Nat.pow 10 step.toNat * den) num
  else compare (count * den) (num * Nat.pow 10 (-step).toNat)

/-- Whether `count` steps of `10 ^ step` round to the number. -/
def roundsTo (b : Binary) (count : Nat) (step : Int) : Bool :=
  let (low, den) := b.scaled (4 * b.mantissa - if b.narrowBelow then 1 else 2)
  let (high, _) := b.scaled (4 * b.mantissa + 2)
  let closed := b.mantissa % 2 = 0
  let below := compareSteps count step low den
  let above := compareSteps count step high den
  (below = .gt || (closed && below = .eq)) && (above = .lt || (closed && above = .eq))

/-- The point of the grid of `10 ^ step` that stands for the number, if one does. -/
def onGrid (b : Binary) (step : Int) : Option Decimal :=
  let (num, den) := b.scaled (4 * b.mantissa)
  let floor :=
    if 0 ≤ step then num / (den * Nat.pow 10 step.toNat)
    else num * Nat.pow 10 (-step).toNat / den
  let up : Decimal := ⟨floor + 1, step⟩
  match b.roundsTo floor step && floor != 0, b.roundsTo (floor + 1) step with
  | true, true =>
    -- twice the number against the middle of the two points
    if compareSteps (2 * floor + 1) step (2 * num) den = .gt then some ⟨floor, step⟩ else some up
  | true, false => some ⟨floor, step⟩
  | false, true => some up
  | false, false => none

/-- The first of the grids of `digits`, `digits + 1`, … digits that has a point
for the number; at most `fuel` grids are tried. -/
def firstGrid (b : Binary) (top : Int) : Nat → Nat → Decimal
  | 0, _ => ⟨b.mantissa, 0⟩
  | fuel + 1, digits =>
    match b.onGrid (top - digits) with
    | some d => d
    | none => firstGrid b top fuel (digits + 1)

/-- The shortest decimal that reads back as the number. Seventeen digits
always suffice for a 53-bit mantissa. -/
def shortest (b : Binary) : Decimal :=
  let (num, den) := b.scaled (4 * b.mantissa)
  (b.firstGrid (magnitude num den) 17 1).trim 17

/-- The positive binary number with the given exponent and fraction fields. -/
def ofFields (exponent fraction : Nat) : Binary :=
  if exponent = 0 then ⟨fraction, -1074, false⟩
  else ⟨0x10000000000000 + fraction, exponent - 1075, fraction = 0 ∧ 1 < exponent⟩

end Binary

/-- The shortest positional text of a float, with the words for the values
that are no numbers. -/
def decimalText (x : Float) : String :=
  let bits := x.toBits.toNat
  let sign := if bits >>> 63 = 1 then "-" else ""
  let exponent := (bits >>> 52) % 0x800
  let fraction := bits % 0x10000000000000
  if exponent = 0x7ff then if fraction = 0 then sign ++ "inf" else "NaN"
  else if exponent = 0 ∧ fraction = 0 then sign ++ "0"
  else sign ++ (Binary.ofFields exponent fraction).shortest.positional

end StreamPlan
