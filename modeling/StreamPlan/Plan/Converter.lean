import StreamPlan.Plan.Basic

/-!
# What a conversion works with

A query is converted for one stage of a pipeline, against a catalog and with
settings. `Converter.finish` is the last step of every operator: the plan must
be on its stage, a read stage leaves nothing pending, and the plan is checked.
-/

namespace StreamPlan

/-- How queries are converted. -/
structure PlanSettings where
  /-- Whether a plan may go on in another stage than the one it started in. -/
  allowStageChange : Bool
  /-- The number of slides in a sliding window. -/
  panes : Nat
  /-- The first stage to try. -/
  startStage : Option String
  deriving DecidableEq, Repr

namespace PlanSettings

/-- The settings unless others are given. -/
def default : PlanSettings := ⟨false, 50, none⟩

end PlanSettings

/-- The surroundings of a conversion. -/
structure Converter where
  catalog : Catalog
  pipeline : Pipeline
  stage : Stage
  settings : PlanSettings

namespace Converter

/-- Nothing is needed of the stage yet. -/
def start (c : Converter) : Requirements := .start c.stage

/-- The last step of every operator. -/
def finish (c : Converter) (plan : Plan) : Planning Plan := do
  let stage := plan.needs.stage
  if stage.name ≠ c.stage.name ∧ !c.settings.allowStageChange then
    refuse (.stageChange c.stage.name stage.name)
  else
    let plan ← if stage.isRead then plan.withoutPending else pure plan
    plan.check
    return plan

/-- The requirements of two inputs together, which must be on one stage. -/
def combine (left right : Requirements) : Planning Requirements :=
  if left.stage.name ≠ right.stage.name then
    refuse (.stageChange left.stage.name right.stage.name)
  else orFault (left.combine right)

end Converter

end StreamPlan
