import StreamPlan.Catalog.Basic
import StreamPlan.Diagnostics.EditDistance
import StreamPlan.Plan.Cheapest

/-!
# Reports

Every error has a report: a stable code, a message and sometimes a hint. The
codes are grouped: 10xx operators, 11xx catalog, 20xx time and windows, 30xx
joins and unions, 40xx stages, 90xx internal.

* `PlanError.report`, `CatalogError.report`, `SelectionError.report`.
-/

namespace StreamPlan

/-- What a user is told about an error. -/
structure Report where
  code : String
  message : String
  hint : Option String
  deriving DecidableEq, Repr

/-- The report in one line. -/
def Report.display (report : Report) : String :=
  "[" ++ report.code ++ "] " ++ report.message ++ match report.hint with
    | some hint => " (hint: " ++ hint ++ ")"
    | none => ""

namespace PlanError

/-- The code of a planning error. -/
def code : PlanError → String
  | unsupported _ => "STR-1001"
  | unsupportedJoin _ => "STR-3003"
  | unsatisfiable .. => "STR-2001"
  | invalidWindow _ => "STR-2002"
  | invalidTemporalJoin _ => "STR-3001"
  | invalidIntervalJoin _ => "STR-3002"
  | incompatibleUnion _ => "STR-3004"
  | capability _ => "STR-4001"
  | stageChange .. => "STR-4002"

/-- The hint of a planning error. -/
def hint : PlanError → Option String
  | invalidTemporalJoin _ =>
    some "A temporal join equates every primary key column of the versioned table"
  | invalidIntervalJoin _ =>
    some "Bound the join with one lower and at most one upper time comparison"
  | stageChange .. => some "Enable allow_stage_change to let plans move between stages"
  | unsatisfiable .. => some "Combine time filters so they keep rows in one direction"
  | _ => none

/-- The report of a planning error. -/
def report (error : PlanError) : Report := ⟨error.code, error.message, error.hint⟩

end PlanError

namespace CatalogError

/-- The code of a catalog error. -/
def code : CatalogError → String
  | unknownTable .. => "STR-1100"
  | duplicateTable _ => "STR-1101"
  | notNested .. => "STR-1102"
  | unknownColumn .. => "STR-1102"
  | invalidKey .. => "STR-1103"

/-- The hint of a catalog error: a close name, or what can be nested. -/
def hint : CatalogError → Option String
  | unknownTable name available => suggestTable name available
  | unknownColumn _ column available => (closestMatch column available 2).map didYouMean
  | notNested .. => some "Only List<Struct> columns can be registered as nested tables"
  | _ => none

/-- The report of a catalog error. -/
def report (error : CatalogError) : Report := ⟨error.code, error.message, error.hint⟩

end CatalogError

/-- A failed stage in one line. -/
def StageFailure.display (failure : StageFailure) : String :=
  failure.stage ++ ": [" ++ failure.error.code ++ "] " ++ failure.error.message

namespace SelectionError

/-- The code of a selection error. -/
def code : SelectionError → String
  | noViableStage _ => "STR-4003"
  | _ => "STR-4004"

/-- What a selection error says. -/
def message : SelectionError → String
  | noViableStage failures =>
    "No stage can execute the query:\n"
      ++ "\n".intercalate (failures.map fun failure => "  " ++ failure.display)
  | emptyPipeline => "Execution pipeline has no stages"
  | unknownStage name => s!"Unknown start stage '{name}'"

/-- The report of a selection error. -/
def report (error : SelectionError) : Report := ⟨error.code, error.message, none⟩

end SelectionError

end StreamPlan
