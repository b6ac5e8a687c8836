/-!
# Edit distance and suggestions

The edit distance of two texts is the least number of characters to insert,
delete or replace that turns one into the other; the case of ASCII letters
does not matter.

* `editDistance`: the distance, from one row of partial distances to the next.
* `closestMatch`: the candidate to suggest for a mistyped name.
-/

namespace StreamPlan

/-- The characters of a text, ASCII letters in lower case. -/
def foldedChars (s : String) : List Char := s.toList.map Char.toLower

/-- One row of distances from the row above it. `diagonal` is the distance
above and to the left of the next entry, `left` the one before it. -/
def nextRow (c : Char) (diagonal left : Nat) : List Char → List Nat → List Nat
  | d :: ds, above :: row =>
    let cost := min (min (diagonal + if c = d then 0 else 1) (above + 1)) (left + 1)
    cost :: nextRow c above cost ds row
  | _, _ => []

/-- The row after one more character of the first text. -/
def stepRow (b : List Char) (row : List Nat) (c : Char) : List Nat :=
  match row with
  | [] => []
  | first :: rest => (first + 1) :: nextRow c first (first + 1) b rest

/-- The distances of a text from all beginnings of `b`. -/
def distanceRow (a b : List Char) : List Nat :=
  a.foldl (stepRow b) (List.range (b.length + 1))

/-- The edit distance of two texts. -/
def editDistance (a b : String) : Nat :=
  ((distanceRow (foldedChars a) (foldedChars b)).getLast?).getD 0

/-- The first of the pairs with the least number. -/
def leastPair : List (String × Nat) → Option (String × Nat)
  | [] => none
  | p :: ps => some (ps.foldl (fun best q => if q.2 < best.2 then q else best) p)

/-- The candidate closest to a name, within `limit` edits. A candidate that
differs in case alone is no typing error. -/
def closestMatch (name : String) (candidates : List String) (limit : Nat) : Option String :=
  let distances := candidates.map fun c => (c, editDistance name c)
  (leastPair (distances.filter fun (_, d) => 0 < d && d ≤ limit)).map Prod.fst

/-- The question whether another name was meant. -/
def didYouMean (name : String) : String := s!"Did you mean '{name}'?"

/-- The suggestion for a mistyped table name. -/
def suggestTable (name : String) (available : List String) : Option String :=
  (closestMatch name available 2).map didYouMean

end StreamPlan
