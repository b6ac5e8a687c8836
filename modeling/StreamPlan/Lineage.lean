import StreamPlan.Arithmetic

/-!
# Lineage of unrolled entities

An unrolled entity is a flat row: the columns of the root, then those of each
level of nested collections. Its lineage says which columns belong to which
level. Two such rows that are joined on their keys can then be seen to be
parts of one entity.

* `Lineage.root`, `Lineage.addLevel`: unrolling level by level.
* `Lineage.locate?`: the level that owns a column.
* `Lineage.match?`: the levels of one row found among those of another.

The checked forms fault where a column leaves the range of positions.
-/

namespace StreamPlan

/-- How a level was reached. -/
inductive LevelJoin where
  /-- Parents without elements are dropped. -/
  | inner
  /-- Parents without elements are kept. -/
  | left
  deriving DecidableEq, Repr

/-- One level of an unrolled entity. Its columns are `offset, …, offset + width - 1`,
and its own key the first `keys` of them. -/
structure Level where
  /-- The view of the level. -/
  view : Nat
  parent : Option Nat
  join : LevelJoin
  offset : Nat
  width : Nat
  keys : Nat
  deriving DecidableEq, Repr

namespace Level

/-- The columns of the level's own key. -/
def ownKey (level : Level) : List Nat := List.range' level.offset level.keys

/-- Faults if the columns of the level's own key are no positions. -/
def checkKey (level : Level) : Except Fault Unit :=
  (Position.add level.offset level.keys).map fun _ => ()

/-- The columns of the level's own key, if these are positions. -/
def ownKeyChecked (level : Level) : Except Fault (List Nat) := do
  level.checkKey
  Position.checkCount level.keys
  return level.ownKey

/-- The column behind the level. -/
def stop (level : Level) : Nat := level.offset + level.width

/-- Whether a column lies in the level. -/
def owns (level : Level) (column : Nat) : Bool := level.offset ≤ column && column < level.stop

end Level

/-- The levels of an unrolled entity, every parent before its children. -/
abbrev Lineage := List Level

namespace Lineage

/-- The lineage of a root level. -/
def root (view offset width keys : Nat) : Lineage := [⟨view, none, .inner, offset, width, keys⟩]

/-- Adds a level below `parent`. -/
def addLevel (lineage : Lineage) (parent view : Nat) (join : LevelJoin)
    (offset width keys : Nat) : Except Fault Lineage :=
  if parent < lineage.length then
    .ok (lineage ++ [⟨view, some parent, join, offset, width, keys⟩])
  else .error (.unknownLevel parent)

/-- The level added last. -/
def leaf (lineage : Lineage) : Nat := lineage.length - 1

/-- The first level of a view. -/
def levelOf? (lineage : Lineage) (view : Nat) : Option Nat := lineage.findIdx? (·.view == view)

/-- The level that owns a column. -/
def locate? (lineage : Lineage) (column : Nat) : Option Nat := lineage.findIdx? (·.owns column)

/-- The level that owns a column, if every level before it ends at a position. -/
def locateChecked (lineage : Lineage) (column : Nat) : Except Fault (Option Nat) :=
  match lineage.find? fun level => level.owns column || Position.limit ≤ level.stop with
  | none => return none
  | some level => (Position.checked level.stop).map fun _ => lineage.locate? column

/-- The number of columns that the lineage covers. -/
def width (lineage : Lineage) : Except Fault Nat :=
  lineage.foldlM (fun width level => (Position.checked level.stop).map (max width)) 0

/-- The own keys of all levels, one after another. -/
def keys (lineage : Lineage) : List Nat := lineage.flatMap Level.ownKey

/-- Levels of a right row with the levels of a left row that they stand for. -/
abbrev Matching := List (Nat × Nat)

section Matching

variable {m : Type → Type} [Monad m] (check : Level → m Unit)

/-- Whether a column and as many behind it are equated with another and those
behind it. -/
def equated (equalities : List (Nat × Nat)) (left right : Nat) : Nat → Bool
  | 0 => true
  | n + 1 => equalities.contains (left, right) && equated equalities (left + 1) (right + 1) n

/-- The pairs of own key columns of a left and a right level. -/
def keyPairs (left right : Level) : List (Nat × Nat) :=
  (List.range (min left.keys right.keys)).map fun i => (left.offset + i, right.offset + i)

/-- Whether a left level can stand for a right one below the given parent: the
views and parents agree, and every pair of key columns is equated. -/
def standsFor (equalities : List (Nat × Nat)) (parent : Option Nat) (left right : Level) :
    m Bool := do
  if left.view = right.view ∧ left.parent = parent then
    check left
    check right
    return equated equalities left.offset right.offset (min left.keys right.keys)
  else return false

/-- The first of the left levels, counted from `position`, that is not taken
and can stand for a right level. -/
def standIn? (equalities : List (Nat × Nat)) (taken : List Nat) (parent : Option Nat)
    (right : Level) (position : Nat) : List Level → m (Option (Nat × Level))
  | [] => return none
  | left :: rest => do
    let fits ← if taken.contains position then pure false
      else standsFor check equalities parent left right
    if fits then return some (position, left)
    else standIn? equalities taken parent right (position + 1) rest

/-- What is known while levels are matched: the matching so far and the
equalities that it used. -/
structure MatchState where
  matching : Matching
  used : List (Nat × Nat)

/-- Where the match of a level has to stand: at the root, or below the match
of its parent. -/
def placeOf (matching : Matching) (right : Level) : Option (Option Nat) :=
  match right.parent with
  | none => some none
  | some p => (matching.lookup p).map some

/-- Matches one right level, given its position. A level whose parent has no
match stays without. -/
def matchLevel (left : Lineage) (equalities : List (Nat × Nat)) (state : MatchState)
    (right : Level × Nat) : m MatchState := do
  match placeOf state.matching right.1 with
  | none => return state
  | some parent =>
    match ← standIn? check equalities (state.matching.map Prod.snd) parent right.1 0 left with
    | none => return state
    | some (position, level) =>
      return ⟨state.matching ++ [(right.2, position)], state.used ++ keyPairs level right.1⟩

/-- The levels of `right` found among those of `left`, by the equalities of
left with right columns. Nothing unless the root is found and every equality
is used. -/
def matchWith (left right : Lineage) (equalities : List (Nat × Nat)) : m (Option Matching) := do
  let state ← right.zipIdx.foldlM (matchLevel check left equalities) ⟨[], []⟩
  let rootsFound := right.zipIdx.all fun (level, i) =>
    level.parent.isSome || (state.matching.lookup i).isSome
  return if rootsFound && equalities.all state.used.contains then some state.matching else none

end Matching

/-- The levels of `right` found among those of `left`. -/
def match? (left right : Lineage) (equalities : List (Nat × Nat)) : Option Matching :=
  Id.run (matchWith (fun _ => pure ()) left right equalities)

/-- The levels of `right` found among those of `left`, if every key that is
looked at consists of positions. -/
def matchChecked (left right : Lineage) (equalities : List (Nat × Nat)) :
    Except Fault (Option Matching) :=
  matchWith Level.checkKey left right equalities

end Lineage

end StreamPlan
