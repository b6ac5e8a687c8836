import StreamPlan.Plan.Converter

/-!
# Plans of unions

The branches of a union are aligned streams of one shape. Timestamp candidates
that all branches show in the same column are the candidates of the union. If
there are none, every branch shows its best candidate in a new column.
-/

namespace StreamPlan.Plan

/-- The name of the column that shows each branch's timestamp. -/
def unionTimestampName : String := "_timestamp"

/-- A branch: visible columns first, nothing pending, no order. -/
def asBranch (plan : Plan) (position : Nat) : Planning Plan := do
  let plan ← plan.withoutPending
  let plan ← align { plan with sort := [] }
  if plan.kind = .stream then return plan
  else refuse (.incompatibleUnion (.kind position plan.kind))

/-- Whether two branches have the same shape. -/
def sameShape (first branch : Plan) : Bool :=
  branch.width == first.width && branch.select.sources == first.select.sources
    && branch.key.targets == first.key.targets

/-- The first branch of another shape than the first one. -/
def shapeProblem? (first : Plan) (rest : List Plan) : Option UnionProblem :=
  (rest.zipIdx.find? fun (branch, _) => !sameShape first branch).map fun (branch, i) =>
    .shape (i + 1) branch.key.targets branch.width first.key.targets first.width

/-- The candidates that all branches show. -/
def commonTimes (first : Plan) (rest : List Plan) : List Nat :=
  first.time.columns.filter fun column =>
    column < first.select.sources && rest.all fun branch => branch.time.isCandidate column

/-- A branch with its best candidate in a new last column. -/
def exposeTime (width : Nat) (branch : Plan × Nat) : Planning Rel :=
  match branch.1.time.bestColumn? with
  | none => refuse (.incompatibleUnion (.noTimestamp branch.2))
  | some column => do
    let fields ← branch.1.rel.fields
    let kept ← orFault ((List.range width).mapM (Output.column · fields))
    let exposed ← Output.renamed column unionTimestampName fields
    return .project branch.1.rel (kept ++ [exposed]) none

/-- The trees of the branches, with the event time of their union. -/
def unionTrees (first : Plan) (rest : List Plan) : Planning (List Rel × EventTime) := do
  let common := commonTimes first rest
  if common.isEmpty then
    let rels ← (first :: rest).zipIdx.mapM (exposeTime first.width)
    return (rels, .single first.width .source)
  else return ((first :: rest).map Plan.rel, first.time.restrictTo common)

/-- The plan of a union of aligned branches. -/
def united (first : Plan) (rest : List Plan) : Planning Plan := do
  match shapeProblem? first rest with
  | some problem => refuse (.incompatibleUnion problem)
  | none =>
    let needs ← rest.foldlM (fun needs branch => Converter.combine needs branch.needs) first.needs
    let needs ← needing (needs.require .union)
    let (rels, time) ← unionTrees first rest
    let rel := Rel.union rels true
    let plan ← Plan.ofRel rel .stream first.key.targets needs
    let select ← ColumnMap.identityInto first.select.sources rel.width
    let rootKeys := first.rootKeys.filter fun n =>
      rest.all fun branch => branch.rootKeys == some n
    return { plan with time, select, rootKeys }

end StreamPlan.Plan
