import StreamPlan.Arithmetic
import StreamPlan.Text.Toml.Quoted
import StreamPlan.Text.Toml.Table

/-!
# Numbers and moments of a TOML document

Integers are decimal with an optional sign, or hexadecimal, octal or binary
without; they fit in 64 bits. A float has a fraction or an exponent, or is one
of the words for the values that are no numbers, and must not round to
positive infinity. Single underscores may stand between digits.

A moment is a date, a time of day, or both with an optional offset.

* `Toml.number`, `Toml.moment`: the readers.
* `Toml.startsMoment`: which of the two a word is.
-/

namespace StreamPlan.Toml

/-- The digits behind a digit, without their underscores, and what follows. -/
def moreDigits (isDigit : Char → Bool) : List Char → Option (List Char × List Char)
  | '_' :: d :: rest =>
    if isDigit d then do
      let (digits, rest) ← moreDigits isDigit rest
      return (d :: digits, rest)
    else none
  | ['_'] => none
  | d :: rest =>
    if isDigit d then do
      let (digits, rest) ← moreDigits isDigit rest
      return (d :: digits, rest)
    else some ([], d :: rest)
  | [] => some ([], [])

/-- One digit or more, and what follows. -/
def someDigits (isDigit : Char → Bool) : List Char → Option (List Char × List Char)
  | d :: rest =>
    if isDigit d then do
      let (digits, rest) ← moreDigits isDigit rest
      return (d :: digits, rest)
    else none
  | [] => none

/-- The digits of a whole number, which has no leading zero. -/
def wholeDigits : List Char → Option (List Char × List Char)
  | '0' :: rest => some (['0'], rest)
  | cs => someDigits Char.isDigit cs

/-- Whether a minus sign comes first, and what follows a sign. -/
def sign : List Char → Bool × List Char
  | '-' :: rest => (true, rest)
  | '+' :: rest => (false, rest)
  | cs => (false, cs)

/-- An exponent, zero if there is none. -/
def exponent : List Char → Option (Int × List Char)
  | 'e' :: rest | 'E' :: rest => do
    let (negative, rest) := sign rest
    let (digits, rest) ← someDigits Char.isDigit rest
    let n : Int := digitsValue 10 digits
    return (if negative then -n else n, rest)
  | cs => some (0, cs)

/-- The least number that rounds to infinity: half a unit of the last place
above the largest float. -/
def infinityBound : Nat := 0x3fffffffffffff <<< 970

/-- Whether the number with these digits, times a power of ten, rounds to
infinity. The bound has 309 digits, so only numbers of as many are compared. -/
def isHuge (digits : List Char) (power : Int) : Bool :=
  let digits := digits.dropWhile (· = '0')
  let places : Int := digits.length + power
  if digits.isEmpty || places < 309 then false
  else if 309 < places then true
  else if 0 ≤ power then infinityBound ≤ digitsValue 10 digits * Nat.pow 10 power.toNat
  else infinityBound * Nat.pow 10 (-power).toNat ≤ digitsValue 10 digits

/-- A float, given its digits and what follows its fraction. -/
def floatFrom (negative : Bool) (whole fraction rest : List Char) :
    Option (Value × List Char) := do
  let (power, rest) ← exponent rest
  if !negative && isHuge (whole ++ fraction) (power - fraction.length) then none
  else some (.float, rest)

/-- An integer that fits in 64 bits. -/
def integer? (n : Int) : Option Value := if Millis.Fits n then some (.integer n) else none

/-- An integer of a base below 16, behind its mark. -/
def based (base : Nat) (cs : List Char) : Option (Value × List Char) := do
  let (digits, rest) ← someDigits (fun c => (hexDigit? c).any (· < base)) cs
  return (← integer? (digitsValue base digits), rest)

/-- A decimal number behind its sign. -/
def unsigned (negative : Bool) : List Char → Option (Value × List Char)
  | 'i' :: 'n' :: 'f' :: rest | 'n' :: 'a' :: 'n' :: rest => some (.float, rest)
  | cs => do
    let (whole, rest) ← wholeDigits cs
    match rest with
    | '.' :: rest =>
      let (fraction, rest) ← someDigits Char.isDigit rest
      floatFrom negative whole fraction rest
    | 'e' :: _ | 'E' :: _ => floatFrom negative whole [] rest
    | _ =>
      let n : Int := digitsValue 10 whole
      return (← integer? (if negative then -n else n), rest)

/-- A number. -/
def number : List Char → Option (Value × List Char)
  | '0' :: 'x' :: rest => based 16 rest
  | '0' :: 'o' :: rest => based 8 rest
  | '0' :: 'b' :: rest => based 2 rest
  | cs =>
    let (negative, rest) := sign cs
    unsigned negative rest

/-- A number of two digits within bounds. -/
def twoDigits (least greatest : Nat) : List Char → Option (Nat × List Char)
  | a :: b :: rest =>
    let n := digitsValue 10 [a, b]
    if a.isDigit && b.isDigit && least ≤ n && n ≤ greatest then some (n, rest) else none
  | _ => none

/-- What follows a given character. -/
def after (c : Char) : List Char → Option (List Char)
  | d :: rest => if d = c then some rest else none
  | [] => none

/-- A year of four digits and the dash behind it. -/
def yearDash : List Char → Option (Nat × List Char)
  | a :: b :: c :: d :: '-' :: rest =>
    if [a, b, c, d].all Char.isDigit then some (digitsValue 10 [a, b, c, d], rest) else none
  | _ => none

/-- An hour and the colon behind it. -/
def hourColon (cs : List Char) : Option (List Char) := do
  let (_, rest) ← twoDigits 0 23 cs
  after ':' rest

/-- Whether a year is a leap year. -/
def isLeapYear (year : Nat) : Bool := year % 4 = 0 && (year % 100 ≠ 0 || year % 400 = 0)

/-- The number of days of a month. -/
def daysOf (year month : Nat) : Nat :=
  if month = 2 then (if isLeapYear year then 29 else 28)
  else if month ∈ [4, 6, 9, 11] then 30
  else 31

/-- What follows a fraction of a second, if there is one. -/
def skipFraction : List Char → List Char
  | '.' :: d :: rest => if d.isDigit then rest.dropWhile Char.isDigit else '.' :: d :: rest
  | cs => cs

/-- What follows a time of day. A minute may have a leap second. -/
def timeOfDay (cs : List Char) : Option (List Char) := do
  let rest ← hourColon cs
  let (_, rest) ← twoDigits 0 59 rest
  let rest ← after ':' rest
  let (_, rest) ← twoDigits 0 60 rest
  return skipFraction rest

/-- What follows an offset, if there is one. -/
def skipOffset : List Char → Option (List Char)
  | 'Z' :: rest | 'z' :: rest => some rest
  | '+' :: rest | '-' :: rest => do
    let rest ← hourColon rest
    let (_, rest) ← twoDigits 0 59 rest
    return rest
  | cs => some cs

/-- What follows a date behind its year. -/
def monthAndDay (year : Nat) (cs : List Char) : Option (List Char) := do
  let (month, rest) ← twoDigits 1 12 cs
  let rest ← after '-' rest
  let (_, rest) ← twoDigits 1 (daysOf year month) rest
  return rest

/-- What follows the time of day behind a date, if there is one. -/
def skipTimeOfDay : List Char → Option (List Char)
  | c :: rest =>
    if (c = 'T' || c = 't' || c = ' ') && (hourColon rest).isSome then do
      skipOffset (← timeOfDay rest)
    else some (c :: rest)
  | [] => some []

/-- Whether a moment is meant. -/
def startsMoment (cs : List Char) : Bool := (yearDash cs).isSome || (hourColon cs).isSome

/-- A moment. -/
def moment (cs : List Char) : Option (Value × List Char) := do
  match yearDash cs with
  | some (year, rest) => return (.moment, ← skipTimeOfDay (← monthAndDay year rest))
  | none => return (.moment, ← timeOfDay cs)

end StreamPlan.Toml
