import StreamPlan.Plan.Convert

/-!
# The stage of a query

A query is converted on every stage from the start stage on. The cheapest plan
wins, the earliest of several. A cost model gives every plan a number, which
only compares plans of one query.

* `CostModel.simple`: the cost of a plan.
* `StageTrial`: how the conversion on a stage ended.
* `findCheapest`: the winning plan with the stages that failed.
-/

namespace StreamPlan

/-- A cost for every plan. -/
abbrev CostModel := Plan → Nat

namespace CostModel

/-- Whether the root is a join of current values. -/
def isStateJoin : Rel → Bool
  | .join _ _ _ _ (some hint) => hint.isCost
  | _ => false

/-- Whether the root is work that a read stage repeats for every question. -/
def isReadWork : Rel → Bool
  | .firstRows .. | .sort .. | .unnest .. => true
  | _ => false

/-- What a plan costs beyond its operators: 10 per join of current values in a
stream engine, 5 per repeated operator and pending constraint elsewhere. -/
def penalty (plan : Plan) : Nat :=
  match plan.needs.stage.engine with
  | .stream => 10 * plan.rel.count isStateJoin
  | .database | .server =>
    5 * (plan.rel.count isReadWork + plan.nowFilter.isSome.toNat + (!plan.topN.isEmpty).toNat)

/-- The number of operators times the weight of the stage, and the penalty. -/
def simple : CostModel := fun plan => plan.rel.size * plan.needs.stage.weight + penalty plan

end CostModel

/-- A stage that cannot run a query. -/
structure StageFailure where
  stage : String
  error : PlanError
  deriving DecidableEq, Repr

/-- Why no stage was selected. -/
inductive SelectionError where
  /-- Every stage failed. -/
  | noViableStage (failures : List StageFailure)
  | emptyPipeline
  /-- The start stage is not in the pipeline. -/
  | unknownStage (name : String)
  deriving DecidableEq, Repr

/-- The winning plan. -/
structure SelectedPlan where
  plan : Plan
  stage : Stage
  cost : Nat
  /-- The stages that failed, in pipeline order. -/
  rejected : List StageFailure

/-- How the conversion on a stage ended. -/
inductive StageTrial where
  | planned (stage : Stage) (plan : Plan) (cost : Nat)
  | failed (failure : StageFailure)

/-- The conversion of a query on a stage. -/
def tryStage (catalog : Catalog) (pipeline : Pipeline) (settings : PlanSettings)
    (cost : CostModel) (query : Rel) (stage : Stage) : Except Fault StageTrial :=
  match Converter.convert ⟨catalog, pipeline, stage, settings⟩ query with
  | .ok plan => return .planned stage plan (cost plan)
  | .error (.refused error) => return .failed ⟨stage.name, error⟩
  | .error (.fault fault) => throw fault

/-- The winner so far against one more trial. A later plan wins if it is cheaper. -/
def StageTrial.better (best : Option (Stage × Plan × Nat)) :
    StageTrial → Option (Stage × Plan × Nat)
  | failed _ => best
  | planned stage plan cost =>
    match best with
    | none => some (stage, plan, cost)
    | some (_, _, least) => if cost < least then some (stage, plan, cost) else best

/-- The failure of a trial. -/
def StageTrial.failure? : StageTrial → Option StageFailure
  | failed failure => some failure
  | planned .. => none

/-- The stages to try. -/
def stagesToTry (pipeline : Pipeline) (settings : PlanSettings) :
    Except SelectionError (List Stage) :=
  if pipeline.stages.isEmpty then .error .emptyPipeline
  else
    match settings.startStage with
    | none => .ok pipeline.stages
    | some name =>
      match pipeline.position? name with
      | some position => .ok (pipeline.stages.drop position)
      | none => .error (.unknownStage name)

/-- The outcome of all trials. -/
def selectFrom (trials : List StageTrial) : Except SelectionError SelectedPlan :=
  let failures := trials.filterMap StageTrial.failure?
  match trials.foldl StageTrial.better none with
  | some (stage, plan, cost) => .ok ⟨plan, stage, cost, failures⟩
  | none => .error (.noViableStage failures)

/-- The cheapest plan of a query. -/
def findCheapest (query : Rel) (catalog : Catalog) (pipeline : Pipeline) (settings : PlanSettings)
    (cost : CostModel) : Checked SelectionError SelectedPlan := do
  let stages ← orRefuse (stagesToTry pipeline settings)
  let trials ← orFault (stages.mapM (tryStage catalog pipeline settings cost query))
  orRefuse (selectFrom trials)

end StreamPlan
