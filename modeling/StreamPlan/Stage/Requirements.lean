import StreamPlan.Query.Expr
import StreamPlan.Stage.Pipeline

/-!
# Requirements of a plan

The capabilities a plan needs from its stage. They are recorded while the plan
is built, and recording one that the stage lacks fails.

* `Requirements.require`: records one capability.
* `Requirements.record`: records capabilities in order and stops at the first
  that is missing, so those before it stay recorded.
* `Requirements.combine`: the requirements of two inputs together.
-/

namespace StreamPlan

/-- A capability that a stage lacks. -/
structure MissingCapability where
  stage : String
  capability : Capability
  deriving DecidableEq, Repr

/-- What a missing capability says. -/
def MissingCapability.message (missing : MissingCapability) : String :=
  s!"stage '{missing.stage}' does not support " ++ missing.capability.display

/-- The capabilities a plan needs from its stage. -/
structure Requirements where
  stage : Stage
  required : CapabilitySet
  deriving DecidableEq, Repr

namespace Requirements

/-- Nothing is needed yet. -/
def start (stage : Stage) : Requirements := ⟨stage, []⟩

/-- Whether the stage has a capability. -/
def supports (r : Requirements) (cap : Capability) : Bool := r.stage.supports cap

/-- Records a capability. -/
def require (r : Requirements) (cap : Capability) : Except MissingCapability Requirements :=
  if r.supports cap then .ok { r with required := CapabilitySet.insert r.required cap }
  else .error ⟨r.stage.name, cap⟩

/-- Records capabilities up to the first that is missing. -/
def record (r : Requirements) : List Capability → Requirements × Option MissingCapability
  | [] => (r, none)
  | cap :: caps =>
    match r.require cap with
    | .ok r => r.record caps
    | .error missing => (r, some missing)

/-- A result without a missing capability. -/
def complete {α : Type} : α × Option MissingCapability → Except MissingCapability α
  | (a, none) => .ok a
  | (_, some missing) => .error missing

/-- The capabilities that the functions called in some expressions need. -/
def neededBy (exprs : List Expr) : List Capability :=
  CapabilitySet.ofList ((Expr.callsOfAll exprs).filterMap ScalarFunction.capability)

/-- The capabilities that an aggregation with some calls needs. -/
def neededByCalls (calls : List AggregateCall) : List Capability :=
  .aggregate :: calls.filterMap AggregateCall.capability

/-- Records capabilities. -/
def requireAll (r : Requirements) (caps : List Capability) :
    Except MissingCapability Requirements :=
  complete (r.record caps)

/-- Records what the functions called in some expressions need. -/
def requireExprs (r : Requirements) (exprs : List Expr) : Except MissingCapability Requirements :=
  r.requireAll (neededBy exprs)

/-- Records what an aggregation with some calls needs. -/
def requireCalls (r : Requirements) (calls : List AggregateCall) :
    Except MissingCapability Requirements :=
  r.requireAll (neededByCalls calls)

/-- The requirements of two inputs together. Faults if they are of two stages. -/
def combine (a b : Requirements) : Except Fault Requirements :=
  if a.stage.name = b.stage.name then .ok ⟨a.stage, CapabilitySet.union a.required b.required⟩
  else .error .mixedStages

end Requirements

end StreamPlan
