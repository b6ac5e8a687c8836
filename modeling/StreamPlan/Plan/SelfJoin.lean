import StreamPlan.Plan.Join

/-!
# Joins of an entity with itself

Two unrollings of one entity that are joined on their keys are one unrolling.
The left rows stay; levels that only the right row has are unrolled below
them. A left join needs every right level on the left, because an unrolled
level drops rows without elements.
-/

namespace StreamPlan.JoinInputs

/-- A left row while the right levels it lacks are unrolled. -/
structure Merged where
  rel : Rel
  lineage : Lineage
  matching : Lineage.Matching
  needs : Requirements
  /-- The keys of the levels unrolled here. -/
  added : List Nat

/-- Unrolls a right level that the left row lacks. Nothing if its parent has
no place in the left row or the level is no collection. -/
def mergeLevel (c : Converter) (state : Merged) (level : Level) (position : Nat) :
    Planning (Option Merged) := do
  match level.parent.bind fun p => state.matching.lookup p with
  | none => return none
  | some parent =>
    let view ← c.catalog.view level.view
    match view.place with
    | .root _ => return none
    | .child _ column =>
      let needs ← needing (state.needs.require .denormalize)
      let offset := state.rel.width
      let above ← orFault (itemAt state.lineage parent)
      let lineage ← Lineage.addLevel state.lineage parent level.view .inner offset
        view.levelFields.length view.ownKeys
      return some {
        rel := .unnest state.rel (above.offset + column) false view.levelFields
        lineage, needs
        matching := state.matching ++ [(position, state.lineage.length)]
        added := state.added ++ List.range' offset view.ownKeys }

/-- Unrolls the right levels that the left row lacks, in order. -/
def mergeLevels (c : Converter) (state : Merged) : List (Level × Nat) → Planning (Option Merged)
  | [] => return some state
  | (level, position) :: rest => do
    match ← mergeLevel c state level position with
    | none => return none
    | some state => mergeLevels c state rest

/-- The column of the merged row that stands for a column of the right row. -/
def mergedColumn (merged : Merged) (right : Lineage) (column : Nat) : Option Nat := do
  let position ← Lineage.locate? right column
  let level ← right[position]?
  let target ← merged.lineage[← merged.matching.lookup position]?
  return target.offset + column - level.offset

/-- Whether the inputs may be unrollings of one entity joined on keys alone. -/
def mayMerge (j : JoinInputs) : Bool :=
  !j.left.hasPending && !j.right.hasPending && j.parts.isEquiJoin

/-- The plan of a join whose levels are matched. -/
def mergedPlan (c : Converter) (j : JoinInputs) (left right : Lineage)
    (matching : Lineage.Matching) : Planning (Option Plan) := do
  let lacking := right.zipIdx.filter fun (_, i) => (matching.lookup i).isNone
  if j.kind = .left ∧ !lacking.isEmpty then return none
  else
    match ← mergeLevels c ⟨j.left.rel, left, matching, j.needs, []⟩ lacking with
    | none => return none
    | some merged =>
      let width := merged.rel.width
      match ← orFault (j.right.select.tryRemap width (mergedColumn merged right)) with
      | none => return none
      | some rightSelect =>
        let select ← j.left.select.extend rightSelect.targets width
        let key ← j.left.key.extend merged.added width
        return some { j.left with
          rel := merged.rel
          needs := merged.needs
          lineage := some merged.lineage
          select, key }

/-- The plan of two unrollings of one entity as one. Nothing if they are not. -/
def selfJoin? (c : Converter) (j : JoinInputs) : Planning (Option Plan) :=
  match j.left.lineage, j.right.lineage with
  | some left, some right =>
    if j.mayMerge then
      match Lineage.match? left right j.parts.equalities with
      | some matching => j.mergedPlan c left right matching
      | none => return none
    else return none
  | _, _ => return none

end StreamPlan.JoinInputs
