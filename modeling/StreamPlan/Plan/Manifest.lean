import StreamPlan.Plan.Basic
import StreamPlan.Text.Json

/-!
# Manifests

A manifest is what an engine has to know about a plan: the stage, the meaning
of the rows, the columns, the capabilities in use, the hints and the tree.

* `Manifest.ofPlan`: the manifest of a plan.
* `Plan.materialize`: an aligned plan with its manifest.
* `Manifest.toJson`: the manifest as JSON.
-/

namespace StreamPlan

/-- One output column. -/
structure ManifestColumn where
  name : String
  dataType : String
  nullable : Bool
  /-- Whether the query sees the column. -/
  visible : Bool
  deriving DecidableEq, Repr

/-- A hint of an operator of a plan. -/
inductive ManifestHint where
  | join (hint : JoinHint)
  | aggregate (hint : AggregateHint)
  deriving DecidableEq, Repr

/-- What an engine has to know about a plan. -/
structure Manifest where
  stage : String
  engine : Engine
  kind : TableKind
  key : List Nat
  time : Option TimeCandidate
  columns : List ManifestColumn
  required : CapabilitySet
  /-- The hints of the tree, each operator before its inputs. -/
  hints : List ManifestHint
  explain : String
  deriving DecidableEq, Repr

namespace ManifestHint

/-- The hint on the root of a tree. -/
def ofRoot? : Rel → Option ManifestHint
  | .join _ _ _ _ (some hint) => some (.join hint)
  | .aggregate _ _ _ _ (some hint) => some (.aggregate hint)
  | _ => none

/-- A join hint as JSON, under its name. -/
def joinJson : JoinHint → Json
  | .temporal stream state key => .object [("Temporal", .object [
      ("stream_timestamp", .number stream),
      ("state_timestamp", .number state),
      ("state_primary_key", .numbers key)])]
  | .interval left right lower upper => .object [("Interval", .object [
      ("left_timestamp", .number left),
      ("right_timestamp", .number right),
      ("lower_bound_ms", .number lower),
      ("upper_bound_ms", .number upper)])]
  | .cost left right equalities => .object [("Cost", .object [
      ("left_type", .text left.word),
      ("right_type", .text right.word),
      ("num_equalities", .number equalities)])]

/-- An aggregation hint as JSON, under its names. -/
def aggregateJson : AggregateHint → Json
  | .instant timestamp => .object [("Tumble", .object [("Instant", .object [
      ("timestamp", .number timestamp)])])]
  | .tumble timestamp input bucket => .object [("Tumble", .object [("Function", .object [
      ("timestamp", .number timestamp),
      ("input_timestamp", .number input),
      ("width_ms", .number bucket.width),
      ("offset_ms", .number bucket.offset)])])]
  | .sliding timestamp window slide => .object [("Sliding", .object [
      ("timestamp", .number timestamp),
      ("window_ms", .number window),
      ("slide_ms", .number slide)])]

/-- A hint as JSON, with its operator. -/
def toJson : ManifestHint → Json
  | join hint => .object [("operator", .text "join"), ("hint", joinJson hint)]
  | aggregate hint => .object [("operator", .text "aggregate"), ("hint", aggregateJson hint)]

end ManifestHint

namespace Manifest

/-- The manifest of a plan. -/
def ofPlan (plan : Plan) : Except Fault Manifest := do
  let fields ← plan.rel.fields
  return {
    stage := plan.needs.stage.name
    engine := plan.needs.stage.engine
    kind := plan.kind
    key := plan.key.targets
    time := plan.time.best?
    columns := fields.zipIdx.map fun (field, i) =>
      ⟨field.name, field.dataType.display, field.nullable, plan.select.containsTarget i⟩
    required := plan.needs.required
    hints := plan.rel.preorder.filterMap ManifestHint.ofRoot?
    explain := plan.rel.explain }

/-- A timestamp as JSON. -/
def timeJson : Option TimeCandidate → Json
  | none => .null
  | some c => .object [
      ("index", .number c.column), ("kind", .text c.derivation.word), ("rank", .number c.rank)]

/-- A column as JSON. -/
def columnJson (column : ManifestColumn) : Json :=
  .object [
    ("name", .text column.name),
    ("data_type", .text column.dataType),
    ("nullable", .boolean column.nullable),
    ("visible", .boolean column.visible)]

/-- The manifest as JSON. -/
def toJson (m : Manifest) : Json :=
  .object [
    ("stage", .text m.stage),
    ("engine", .text m.engine.word),
    ("table_type", .text m.kind.word),
    ("primary_key", .numbers m.key),
    ("timestamp", timeJson m.time),
    ("columns", .list (m.columns.map columnJson)),
    ("required_capabilities", .list (m.required.map fun cap => .text cap.word)),
    ("hints", .list (m.hints.map ManifestHint.toJson)),
    ("explain", .text m.explain)]

end Manifest

/-- The plan as a final result: aligned, with key and visible columns in one
range, and its manifest. -/
def Plan.materialize (plan : Plan) : Planning (Plan × Manifest) := do
  let aligned ← plan.align
  Plan.expect aligned.isContinuous (.notContinuous aligned.key.targets aligned.select.targets)
  return (aligned, ← Manifest.ofPlan aligned)

end StreamPlan
