import StreamPlan.Fault

/-!
# Stable sorting

A list has one stable arrangement by a consistent order, however it is
sorted. An inconsistent order, such as one in which values of different kinds
are tied, may give several, and a list may even turn out not to be sortable.
`Sorting.stable` says which is meant: up to 20 items are sorted by insertion,
and more by runs. `before` says whether one item has to precede another; a
comparison may fault.

* Insertion takes the items in order, and each goes behind every sorted item that it
  does not precede, counted from the end.
* A short list is cut into halves. Of each half the first few items are sorted by fixed
  comparisons and the others inserted; the halves are then merged from both ends at
  once. The two ends meet unless the order is inconsistent.
* A long list is read as a sequence of runs. A run that is long enough as it stands is
  kept, reversed if it descends; of the other items, so many at a time are left to be
  sorted later, or sorted at once if the sort is `eager`. Runs are merged with their
  neighbours in the order of a balanced tree of the positions where they meet. What was
  left to be sorted later is partitioned around pivots until its parts are short.

The definitions:

* `Sorting.insertion`: a list sorted by insertion.
* `Sorting.isRanked`: whether the order is consistent on a list that insertion
  has sorted. Then it is the one stable arrangement of its items.
* `Sorting.short`: a short list sorted, by fixed comparisons (`Sorting.four`,
  `Sorting.eight`) and merges from both ends (`Sorting.mergeEnds`).
* `Sorting.mergeRuns`: the runs of a list, merged.
* `Sorting.partitioned`: a list sorted by partitions.
* `Sorting.long`: a long list sorted.
* `Sorting.stable`: a list sorted.
-/

namespace StreamPlan.Sorting

section Insertion

variable {α : Type} (before : α → α → Except Fault Bool)

/-- Puts an item into a list that is sorted from last to first. -/
def insertFromEnd (x : α) : List α → Except Fault (List α)
  | [] => return [x]
  | y :: ys => do
    if ← before x y then return y :: (← insertFromEnd x ys) else return x :: y :: ys

/-- The items sorted by insertion behind a list that is sorted already. -/
def insertAll (sorted items : List α) : Except Fault (List α) := do
  let reversed ← items.foldlM (fun done x => insertFromEnd before x done) sorted.reverse
  return reversed.reverse

/-- The items sorted by insertion, equal ones in their order. -/
def insertion (items : List α) : Except Fault (List α) := insertAll before [] items

/-- Whether an item compares with the items behind it as their ranks do. An
item ranks above the one in front of it if that has to precede it; `above`
tells whether `last` ranks above `x`. -/
def ranksBelow (x last : α) (above : Bool) : List α → Except Fault Bool
  | [] => return true
  | y :: ys => do
    let above := above || (← before last y)
    if (← before x y) = above ∧ !(← before y x) then ranksBelow x y above ys else return false

/-- Whether all items compare as their ranks do. -/
def isRanked : List α → Except Fault Bool
  | [] => return true
  | x :: xs => do
    if ← ranksBelow before x x false xs then isRanked xs else return false

end Insertion

section Short

variable {α : Type} (before : α → α → Except Fault Bool)

/-- Four items sorted with five comparisons. -/
def four (a b c d : α) : Except Fault (List α) := do
  let (a, b) := if ← before b a then (b, a) else (a, b)
  let (c, d) := if ← before d c then (d, c) else (c, d)
  let second ← before c a
  let first ← before d b
  let least := if second then c else a
  let greatest := if first then b else d
  let left := if second then a else if first then c else b
  let right := if first then d else if second then b else c
  if ← before right left then return [least, right, left, greatest]
  else return [least, left, right, greatest]

/-- How far a merge from both ends has come: the items left of `left` and
`right` and those from `leftStop` and `rightStop` on are placed. -/
structure Ends where
  left : Nat
  right : Nat
  leftStop : Nat
  rightStop : Nat

/-- Places one item in front and one behind. `front` is held from last to
first. -/
def mergeStep (items : List α) (ends : Ends) (front back : List α) :
    Except Fault (Ends × List α × List α) := do
  let l ← itemAt items ends.left
  let r ← itemAt items ends.right
  let takeRight ← before r l
  let lastLeft ← itemAt items (ends.leftStop - 1)
  let lastRight ← itemAt items (ends.rightStop - 1)
  let takeLeft ← before lastRight lastLeft
  return ({
      left := if takeRight then ends.left else ends.left + 1
      right := if takeRight then ends.right + 1 else ends.right
      leftStop := if takeLeft then ends.leftStop - 1 else ends.leftStop
      rightStop := if takeLeft then ends.rightStop else ends.rightStop - 1 },
    (if takeRight then r else l) :: front, (if takeLeft then lastLeft else lastRight) :: back)

/-- Places items from both ends, a number of times, and the one that is left
of an odd number. Faults unless the ends meet. -/
def mergeFrom (items : List α) (odd : Bool) :
    Nat → Ends → List α → List α → Except Fault (List α)
  | 0, ends, front, back => do
    let useLeft := ends.left < ends.leftStop
    let middle ← if odd then
      (itemAt items (if useLeft then ends.left else ends.right)).map ([·])
      else pure []
    let left := if odd && useLeft then ends.left + 1 else ends.left
    let right := if odd && !useLeft then ends.right + 1 else ends.right
    if left = ends.leftStop ∧ right = ends.rightStop then return front.reverse ++ middle ++ back
    else .error .inconsistentOrder
  | steps + 1, ends, front, back => do
    let (ends, front, back) ← mergeStep before items ends front back
    mergeFrom items odd steps ends front back

/-- Merges the two sorted halves of a list; of an odd number of items the
second half has one more. -/
def mergeEnds (items : List α) : Except Fault (List α) :=
  let half := items.length / 2
  mergeFrom before items (items.length % 2 = 1) half ⟨0, half, half, items.length⟩ [] []

/-- Eight items sorted in two parts of four. -/
def eight (items : List α) : Except Fault (List α) :=
  match items with
  | [a, b, c, d, e, f, g, h] => do
    mergeEnds before ((← four before a b c d) ++ (← four before e f g h))
  | _ => insertion before items

/-- The first few items sorted by fixed comparisons, and the others inserted. -/
def half (first : Nat) (items : List α) : Except Fault (List α) :=
  if first = 8 then do insertAll before (← eight before (items.take 8)) (items.drop 8)
  else
    match items, first with
    | a :: b :: c :: d :: rest, 4 => do insertAll before (← four before a b c d) rest
    | _, _ => insertion before items

/-- A short list sorted. `narrow` items are cheap to move, so more of them
are sorted by fixed comparisons. -/
def short (narrow : Bool) (items : List α) : Except Fault (List α) := do
  let n := items.length
  if n < 2 then return items
  let first := if narrow && 16 ≤ n then 8 else if 8 ≤ n then 4 else 1
  let left ← half before first (items.take (n / 2))
  let right ← half before first (items.drop (n / 2))
  mergeEnds before (left ++ right)

end Short

section Runs

/-- Short lists have at most this many items. -/
def shortLimit : Nat := 32

/-- Some neighbouring items of a list. -/
structure Run (α : Type) where
  sorted : Bool
  items : List α

/-- The least number of items of a run that is kept as it stands. -/
def goodLength (n : Nat) : Nat :=
  if n ≤ 4096 then min (n - n / 2) 64
  else
    let shift := (1 + n.log2) / 2
    ((1 <<< shift) + (n >>> shift)) / 2

/-- The depth of the place where two runs meet in a balanced tree over `n`
positions, given where they start and end. -/
def meetingDepth (n start middle stop : Nat) : Nat :=
  let scale := ((1 <<< 62) + n - 1) / n
  let differing := (scale * (start + middle)) ^^^ (scale * (middle + stop))
  if differing = 0 then 64 else 63 - differing.log2

variable {α : Type} (before : α → α → Except Fault Bool)

/-- The number of items that go on as a run behind `last`: each precedes the
one in front of it, or none does. -/
def runAfter (descending : Bool) (last : α) : List α → Except Fault Nat
  | [] => return 0
  | x :: xs => do
    if (← before x last) = descending then return (← runAfter descending x xs) + 1
    else return 0

/-- The length of the run that a list starts with, and whether it descends. -/
def firstRun : List α → Except Fault (Nat × Bool)
  | x :: y :: rest => do
    let descending ← before y x
    return ((← runAfter before descending y rest) + 2, descending)
  | items => return (items.length, false)

/-- Merges sorted lists from the front; items of the left go first unless one
of the right has to precede. -/
def mergeUp : List α → List α → Except Fault (List α)
  | [], rs => return rs
  | ls, [] => return ls
  | l :: ls, r :: rs => do
    if ← before r l then return r :: (← mergeUp (l :: ls) rs)
    else return l :: (← mergeUp ls (r :: rs))

/-- Merges from the end two sorted lists that are held from last to first. -/
def mergeDown : List α → List α → Except Fault (List α)
  | [], rs => return rs
  | ls, [] => return ls
  | l :: ls, r :: rs => do
    if ← before r l then return l :: (← mergeDown ls (r :: rs))
    else return r :: (← mergeDown (l :: ls) rs)

/-- Merges sorted lists, from the side of the shorter one. -/
def merge (left right : List α) : Except Fault (List α) :=
  if left.length ≤ right.length then mergeUp before left right
  else (mergeDown before left.reverse right.reverse).map List.reverse

section Merging

-- `finish` sorts items that were left to be sorted later
variable (finish : List α → Except Fault (List α))

/-- The items of a run in order. -/
def Run.finished (run : Run α) : Except Fault (List α) :=
  if run.sorted then return run.items else finish run.items

/-- Merges neighbouring runs. Two that are both left for later stay so. -/
def Run.merge (left right : Run α) : Except Fault (Run α) := do
  if left.sorted || right.sorted then
    let l ← left.finished finish
    let r ← right.finished finish
    return ⟨true, ← Sorting.merge before l r⟩
  else return ⟨false, left.items ++ right.items⟩

/-- Merges the last run with those in front of it, nearest first, as long as
they meet it at `depth` or below. The first of all has nothing in front. -/
def collapse (depth : Nat) : List (Run α × Nat) → Run α → Except Fault (List (Run α × Nat) × Run α)
  | (left, d) :: next :: stack, last => do
    if depth ≤ d then collapse depth (next :: stack) (← left.merge before finish last)
    else return ((left, d) :: next :: stack, last)
  | stack, last => return (stack, last)

/-- The first run of the items still to be read, and the rest of them. -/
def nextRun (sortShort : List α → Except Fault (List α)) (eager : Bool) (good : Nat)
    (items : List α) : Except Fault (Run α × List α) := do
  let (found, descending) ← if good ≤ items.length then firstRun before items else pure (0, false)
  if 0 < found ∧ good ≤ found then
    let run := items.take found
    return (⟨true, if descending then run.reverse else run⟩, items.drop found)
  else if eager then
    return (⟨true, ← sortShort (items.take shortLimit)⟩, items.drop shortLimit)
  else return (⟨false, items.take good⟩, items.drop good)

/-- Reads and merges the runs of `items`, at most `fuel` of them, behind the
run `last`, which ends where they start. -/
def mergeFromRuns (sortShort : List α → Except Fault (List α)) (eager : Bool) (n : Nat) :
    Nat → List (Run α × Nat) → Run α → Nat → List α → Except Fault (Run α)
  | 0, _, last, _, _ => return last
  | _ + 1, stack, last, _, [] => do return (← collapse before finish 0 stack last).2
  | fuel + 1, stack, last, start, items => do
    let (run, rest) ← nextRun before sortShort eager (goodLength n) items
    let stop := start + run.items.length
    let depth := meetingDepth n (start - last.items.length) start stop
    let (stack, last) ← collapse before finish depth stack last
    mergeFromRuns sortShort eager n fuel ((last, depth) :: stack) run stop rest

/-- The runs of a list, merged. -/
def mergeRuns (sortShort : List α → Except Fault (List α)) (eager : Bool) (items : List α) :
    Except Fault (List α) := do
  let n := items.length
  let run ← mergeFromRuns before finish sortShort eager n (n + 2) [] ⟨true, []⟩ 0 items
  run.finished finish

end Merging

/-- The middle one of three items, given by their positions. -/
def median (items : List α) (a b c : Nat) : Except Fault Nat := do
  let x ← before (← itemAt items a) (← itemAt items b)
  let y ← before (← itemAt items a) (← itemAt items c)
  if x = y then
    let z ← before (← itemAt items b) (← itemAt items c)
    return if z = x then b else c
  else return a

/-- A middle item of three stretches of `n` items, from the middle items of
their parts if they are long. -/
def medianOf (items : List α) : Nat → Nat → Nat → Nat → Nat → Except Fault Nat
  | 0, a, b, c, _ => median before items a b c
  | fuel + 1, a, b, c, n =>
    if n * 8 < 64 then median before items a b c
    else do
      let part := n / 8
      let inner (first : Nat) : Except Fault Nat :=
        medianOf items fuel first (first + part * 4) (first + part * 7) part
      median before items (← inner a) (← inner b) (← inner c)

/-- The position of a pivot. -/
def pivot (items : List α) : Except Fault Nat :=
  let part := items.length / 8
  if items.length < 64 then median before items 0 (part * 4) (part * 7)
  else medianOf before items items.length 0 (part * 4) (part * 7) part

/-- The items that satisfy a test, and the others. For the pivot itself the
answer is given. -/
def split (test : α → Except Fault Bool) (position : Nat) (pivotFirst : Bool) (items : List α) :
    Except Fault (List α × List α) := do
  let marked ← items.zipIdx.mapM fun (x, i) => do
    return (x, ← if i = position then pure pivotFirst else test x)
  let (firsts, others) := marked.partition Prod.snd
  return (firsts.map Prod.fst, others.map Prod.fst)

/-- A list sorted by partitions, nested at most `limit` deep. Items that do
not precede the pivot of the list they come from, `ancestor`, are set apart
at once if the new pivot is no greater. -/
def partitioned (narrow : Bool) : Nat → Option α → List α → Except Fault (List α)
  | 0, _, items =>
    if items.length ≤ shortLimit then short before narrow items
    else mergeRuns before pure (short before narrow) true items
  | limit + 1, ancestor, items => do
    if items.length ≤ shortLimit then short before narrow items
    else
      let position ← pivot before items
      let p ← itemAt items position
      let equalToAncestor ← match ancestor with
        | some a => do pure !(← before a p)
        | none => pure false
      let (less, others) ← if equalToAncestor then pure ([], items)
        else split (fun x => before x p) position false items
      if less.isEmpty then
        let (equal, greater) ← split (fun x => do return !(← before p x)) position true items
        return equal ++ (← partitioned narrow limit none greater)
      else
        let right ← partitioned narrow limit (some p) others
        return (← partitioned narrow limit ancestor less) ++ right

/-- What was left to be sorted later, sorted by partitions. -/
def finishLater (narrow : Bool) (items : List α) : Except Fault (List α) :=
  partitioned before narrow (2 * (items.length ||| 1).log2) none items

/-- A long list sorted. Two short lists are sorted at once. -/
def long (narrow : Bool) (items : List α) : Except Fault (List α) :=
  mergeRuns before (finishLater before narrow) (short before narrow)
    (items.length ≤ 2 * shortLimit) items

end Runs

section Stable

variable {α : Type} (before : α → α → Except Fault Bool)

/-- The arrangement by insertion, if the order is consistent. -/
def consistent? (items : List α) : Option (List α) := do
  let sorted ← (insertion before items).toOption
  if (← (isRanked before sorted).toOption) then some sorted else none

/-- The items in order, equal ones as they stand. `narrow` items are no wider
than two words. -/
def stable (narrow : Bool) (items : List α) : Except Fault (List α) :=
  if items.length ≤ 20 then insertion before items
  else
    match consistent? before items with
    | some sorted => .ok sorted
    | none => long before narrow items

end Stable

end StreamPlan.Sorting
