import StreamPlan.Fault
import StreamPlan.Stage.Capability

/-!
# Stages and pipelines

A pipeline is an ordered list of stages, such as a stream engine feeding a
database. Its stages have distinct names; `Pipeline.of` faults otherwise.

* `Stage.stream`, `Stage.database`, `Stage.server`: the stages of the profiles.
* `Pipeline.find?`, `Pipeline.position?`: a stage by its name.
-/

namespace StreamPlan

/-- The kind of engine behind a stage. -/
inductive Engine where
  | stream
  | database
  | server
  deriving DecidableEq, Repr

/-- The engine in messages. -/
def Engine.display : Engine → String
  | .stream => "stream"
  | .database => "database"
  | .server => "server"

/-- The engine in manifests. -/
def Engine.word : Engine → String
  | .stream => "Stream"
  | .database => "Database"
  | .server => "Server"

/-- When a stage computes its results. -/
inductive StageMode where
  /-- As its inputs arrive; the results are written. -/
  | write
  /-- When somebody asks. -/
  | read
  deriving DecidableEq, Repr

/-- A place where a plan can run. -/
structure Stage where
  name : String
  engine : Engine
  mode : StageMode
  capabilities : CapabilitySet
  /-- Cost of one operator here, relative to other stages. -/
  weight : Nat
  deriving DecidableEq, Repr

namespace Stage

/-- A stage without capabilities. -/
def bare (name : String) (engine : Engine) (mode : StageMode) : Stage :=
  ⟨name, engine, mode, [], 1⟩

/-- A stream engine, which can do everything and writes its results. -/
def stream (name : String) : Stage := ⟨name, .stream, .write, Capability.all, 1⟩

/-- A database asked on demand. -/
def database (name : String) : Stage :=
  ⟨name, .database, .read, .ofList [.aggregate, .nowFunction, .union, .sort], 4⟩

/-- A server that puts results together. -/
def server (name : String) : Stage := ⟨name, .server, .read, .ofList [.union, .sort], 8⟩

/-- The stage with more capabilities. -/
def granting (stage : Stage) (caps : List Capability) : Stage :=
  { stage with capabilities := CapabilitySet.union stage.capabilities caps }

/-- The stage without a capability. -/
def without (stage : Stage) (cap : Capability) : Stage :=
  { stage with capabilities := CapabilitySet.erase stage.capabilities cap }

/-- Whether a stage has a capability. -/
def supports (stage : Stage) (cap : Capability) : Bool := stage.capabilities.contains cap

/-- Whether results are written as they are computed. -/
def isWrite (stage : Stage) : Bool := stage.mode = .write

/-- Whether results are computed on demand. -/
def isRead (stage : Stage) : Bool := stage.mode = .read

/-- The stage as `stream (stream)`: its name and engine. -/
def display (stage : Stage) : String := stage.name ++ " (" ++ stage.engine.display ++ ")"

end Stage

/-- Stages in order, the earliest first. -/
structure Pipeline where
  stages : List Stage
  names_nodup : (stages.map Stage.name).Nodup
  deriving DecidableEq, Repr

namespace Pipeline

/-- The first name of a list that stands before it too. -/
def repeated? : List String → List String → Option String
  | _, [] => none
  | seen, name :: names => if name ∈ seen then some name else repeated? (name :: seen) names

/-- The pipeline of the given stages. Faults if two share a name. -/
def of (stages : List Stage) : Except Fault Pipeline :=
  if h : (stages.map Stage.name).Nodup then .ok ⟨stages, h⟩
  else .error (.duplicateStage ((repeated? [] (stages.map Stage.name)).getD ""))

/-- A stream engine feeding a database. -/
def streamAndDatabase : Pipeline := ⟨[.stream "stream", .database "database"], by decide⟩

/-- The stage of a name. -/
def find? (pipeline : Pipeline) (name : String) : Option Stage :=
  pipeline.stages.find? (·.name == name)

/-- The position of the stage of a name. -/
def position? (pipeline : Pipeline) (name : String) : Option Nat :=
  pipeline.stages.findIdx? (·.name == name)

end Pipeline

end StreamPlan
