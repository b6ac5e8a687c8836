import StreamPlan.Plan.Converter

/-!
# Plans of projections

A projection of bare columns leaves no operator: it changes which columns the
query sees, and renames columns in place. Any other projection is computed;
key, time and sort columns that it leaves out are kept behind its outputs.

* `Plan.picked?`: the plan of a projection of bare columns.
* `Plan.computed`: the plan of any other projection.
-/

namespace StreamPlan.Plan

/-- The columns of a projection of nothing but columns of its input. -/
def bareColumns (width : Nat) (outputs : List Output) : Option (List Nat) :=
  outputs.mapM fun output => output.expr.column?.filter (· < width)

/-- Gives a column a name. Nothing if it has another name already. -/
def addName (names : List (Nat × String)) (column : Nat) (name : String) :
    Option (List (Nat × String)) :=
  match names.lookup column with
  | none => some (names ++ [(column, name)])
  | some other => if other = name then some names else none

/-- The names that outputs give to the columns they show. Nothing if one
column is given two names. -/
def namesGiven (columns : List Nat) (outputs : List Output) : Option (List (Nat × String)) :=
  (columns.zip outputs).foldlM (fun names (column, output) =>
    addName names column output.field.name) []

/-- The names that differ from those the columns have. -/
def newNames (fields : Fields) (names : List (Nat × String)) :
    Except Fault (List (Nat × String)) :=
  names.filterM fun (column, name) => do return (← itemAt fields column).name ≠ name

/-- Renames columns of a tree without moving any. -/
def renameColumns (rel : Rel) (names : List (Nat × String)) : Except Fault Rel := do
  if names.isEmpty then return rel
  else
    let fields ← rel.fields
    let outputs ← (List.range fields.length).mapM fun column =>
      match names.lookup column with
      | some name => Output.renamed column name fields
      | none => Output.column column fields
    return .project rel outputs none

/-- The tree with its columns under the names that outputs give them. Nothing
if one column is given two names. -/
def renamed? (rel : Rel) (columns : List Nat) (outputs : List Output) :
    Except Fault (Option Rel) := do
  let fields ← rel.fields
  match namesGiven columns outputs with
  | none => return none
  | some names => do return some (← renameColumns rel (← newNames fields names))

/-- The plan of a projection of bare columns over a plan. Nothing if one
column is given two names. -/
def picked? (plan : Plan) (columns : List Nat) (outputs : List Output) :
    Except Fault (Option Plan) := do
  let targets ← columns.mapM plan.select.apply
  match ← renamed? plan.rel targets outputs with
  | none => return none
  | some rel => do return some { plan with rel, select := ← ColumnMap.of targets plan.width }

/-- An output that is computed from a timestamp candidate and keeps its time. -/
structure KeptTime where
  output : Nat
  input : Nat
  bucket : Option Bucket
  deriving DecidableEq, Repr

/-- The derivation of the output. -/
def KeptTime.derivation (kept : KeptTime) : Derivation :=
  if kept.bucket.isSome then .bucketed else .preserved

/-- The output at a position, if it keeps the time of a candidate. -/
def keptTime? (time : EventTime) (output : Expr × Nat) : Option KeptTime :=
  match output.1 with
  | .call function args =>
    if function.preservesTime then
      match args.head?.bind Expr.column? with
      | some input =>
        if time.isCandidate input then some ⟨output.2, input, function.bucket?⟩ else none
      | none => none
    else none
  | _ => none

/-- The outputs that keep the time of a candidate. -/
def keptTimes (time : EventTime) (exprs : List Expr) : List KeptTime :=
  exprs.zipIdx.filterMap (keptTime? time)

/-- The first output of each column that is an output by itself. -/
def shownColumns (exprs : List Expr) : List (Nat × Nat) :=
  exprs.zipIdx.filterMap fun (e, i) => e.column?.map fun column => (column, i)

/-- The kept time to which a fixed timestamp moves. -/
def movedTime? (time : EventTime) (kept : List KeptTime) : Option KeptTime :=
  if time.fixed then kept.find? fun k => time.bestColumn? == some k.input else none

/-- The plan without its now-filter, and the now-filter above a projection
that moves the timestamp. A bucket admits rows one width beyond the bound;
any other function leaves no bound, so the now-filter applies below. -/
def carryNowFilter (plan : Plan) (moved : Option KeptTime) :
    Planning (Plan × Option NowFilter) := do
  match moved, plan.nowFilter with
  | some kept, some filter =>
    match kept.bucket with
    | some bucket =>
      let filter ← NowFilter.widen { filter with timestamp := kept.output } bucket.width
      return ({ plan with nowFilter := none }, some filter)
    | none => return (← plan.withoutNowFilter, none)
  | _, pending => return ({ plan with nowFilter := none }, pending)

/-- The columns that a projection keeps behind its outputs: the key, the
timestamp candidates unless the timestamp moves, and the sort columns. -/
def hiddenColumns (plan : Plan) (moved : Option KeptTime) : List Nat :=
  plan.key.targets ++ (if moved.isNone then plan.time.columns else [])
    ++ SortOrder.columns plan.sort

/-- The columns to append so that every hidden column is among the outputs. -/
def missingColumns (shown : List (Nat × Nat)) (hidden : List Nat) : List Nat :=
  (Selection.append [] hidden).filter fun column => (shown.lookup column).isNone

/-- Where columns stand among `count` outputs and the columns appended to them. -/
def places (shown : List (Nat × Nat)) (missing : List Nat) (count : Nat) : List (Nat × Nat) :=
  shown ++ missing.zipIdx.map fun (column, i) => (column, count + i)

/-- The event time above a projection. -/
def projectedTime (time : EventTime) (moved : Option KeptTime) (kept : List KeptTime)
    (position : Nat → Option Nat) : Except Fault EventTime :=
  match moved with
  | some k => return .single k.output k.derivation
  | none =>
    let time := time.remap position
    if time.fixed then return time
    else time.addAll (kept.map fun k => (k.output, k.derivation))

/-- The plan of outputs over the tree of a plan. The columns that have to stay
and are no outputs are kept behind them. -/
def withOutputs (plan : Plan) (outputs : List Output) (kept : List KeptTime)
    (moved : Option KeptTime) (nowFilter : Option NowFilter) : Planning Plan := do
  let shown := shownColumns (outputs.map Output.expr)
  let fields ← plan.rel.fields
  let missing := missingColumns shown (plan.hiddenColumns moved)
  let appended ← orFault (missing.mapM (Output.column · fields))
  let position (column : Nat) : Option Nat := (places shown missing outputs.length).lookup column
  let time ← projectedTime plan.time moved kept position
  let width := outputs.length + missing.length
  let key ← movedKey plan.key width position
  let select ← ColumnMap.identityInto outputs.length width
  return { plan with
    rel := .project plan.rel (outputs ++ appended) none
    key, time, select
    nowFilter := if moved.isSome then nowFilter else nowFilter.bind (·.remap position)
    sort := SortOrder.moved plan.sort position
    lineage := none }

/-- The plan of a projection to outputs over the tree of a plan. -/
def projectedTo (plan : Plan) (outputs : List Output) : Planning Plan := do
  let kept := keptTimes plan.time (outputs.map Output.expr)
  let moved := movedTime? plan.time kept
  let (plan, nowFilter) ← plan.carryNowFilter moved
  plan.withOutputs outputs kept moved nowFilter

/-- The plan of a computed projection over a plan. -/
def computed (plan : Plan) (outputs : List Output) : Planning Plan := do
  let plan ← plan.withoutTopN
  let outputs ← orFault (outputs.mapM (·.remap plan.select.apply))
  let needs ← needing (plan.needs.requireExprs (outputs.map Output.expr))
  projectedTo { plan with needs } outputs

end StreamPlan.Plan
