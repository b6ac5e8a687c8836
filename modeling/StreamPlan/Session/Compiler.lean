import StreamPlan.Session.Config
import StreamPlan.Session.Publish

/-!
# Planning sessions

A compiler plans queries against a catalog. A compiled query becomes a table
that later queries scan. Every operation gives the next compiler or refuses,
in which case the compiler stays as it was.

* `Compiler.registerTable`, `registerNested`: relations by name.
* `Compiler.convertOn`, `plan`, `planResult`, `compile`: planning queries.
* `CompilerSpec.build`: a compiler with its first tables.
-/

namespace StreamPlan

/-- A planned query, published as a table. -/
structure CompiledQuery where
  name : String
  /-- The root view of the table. -/
  view : Nat
  stage : Stage
  cost : Nat
  table : BaseTable
  manifest : Manifest
  rejected : List StageFailure

/-- A planning session. -/
structure Compiler where
  catalog : Catalog
  pipeline : Pipeline
  config : Config
  cost : CostModel
  /-- The compiled queries by name. -/
  queries : List (String × CompiledQuery)

/-- Answers of a session: a result, a session error, or a fault. -/
abbrev Answer (α : Type) := Checked SessionError α

/-- The same computation with another form of its error. -/
def withError {ε δ α : Type} (f : ε → δ) : Checked ε α → Checked δ α
  | .ok a => .ok a
  | .error e => .error (e.map f)

namespace Compiler

/-- A session without relations. -/
def start (config : Config) (cost : CostModel) : Answer Compiler := do
  orRefuse config.validate
  return ⟨.empty, config.profile.pipeline, config, cost, []⟩

/-- Registers a base table under its own name. Gives its root view. -/
def registerTable (c : Compiler) (table : BaseTable) : Answer (Compiler × Nat) := do
  let (catalog, view) ← withError .catalog (orRefuse (c.catalog.addTable table table.name))
  return ({ c with catalog }, view)

/-- The view that a name stands for: a view itself, or the root view of a base table. -/
def viewNamed (c : Compiler) (name : String) : Answer Nat := do
  match ← withError .catalog (orRefuse (c.catalog.lookup name)) with
  | .view id => return id
  | .base id => orFault (c.catalog.rootView id)

/-- Registers the collection in a column of a view under `parent.column`.
Gives the child view. -/
def registerNested (c : Compiler) (parent column : String) (keys : Nat) :
    Answer (Compiler × Nat) := do
  let id ← c.viewNamed parent
  let (catalog, view) ←
    withError .catalog (c.catalog.addChild id column (parent ++ "." ++ column) keys)
  return ({ c with catalog }, view)

/-- A scan of the relation of a name. -/
def scan (c : Compiler) (name : String) : Answer Rel :=
  withError .catalog (c.catalog.scanNamed name)

/-- The plan of a query on a stage. -/
def convertOn (c : Compiler) (stage : String) (query : Rel) : Answer Plan :=
  match c.pipeline.find? stage with
  | none => refuse (.selection (.unknownStage stage))
  | some stage =>
    withError .plan (Converter.convert ⟨c.catalog, c.pipeline, stage, c.config.settings⟩ query)

/-- The cheapest plan of a query. -/
def plan (c : Compiler) (query : Rel) : Answer SelectedPlan :=
  withError .selection (findCheapest query c.catalog c.pipeline c.config.settings c.cost)

/-- The cheapest plan of a query as a final result. -/
def planResult (c : Compiler) (query : Rel) : Answer (Plan × Manifest) := do
  withError .plan (← c.plan query).plan.materialize

/-- Plans a query and publishes it as a table. -/
def compile (c : Compiler) (name : String) (query : Rel) : Answer (Compiler × CompiledQuery) := do
  if (c.queries.lookup name).isSome then refuse (.queryExists name)
  else
    let selected ← c.plan query
    let published ← orFault selected.plan.published
    let manifest ← orFault (Manifest.ofPlan published)
    let table ← orFault (published.toTable name selected.stage.name)
    let (next, view) ← c.registerTable table
    let compiled : CompiledQuery :=
      ⟨name, view, selected.stage, selected.cost, table, manifest, selected.rejected⟩
    return ({ next with queries := next.queries ++ [(name, compiled)] }, compiled)

/-- A compiled query by name. -/
def query (c : Compiler) (name : String) : Answer CompiledQuery :=
  match c.queries.lookup name with
  | some compiled => return compiled
  | none => refuse (.queryNotFound name)

/-- The names of the compiled queries, ascending. -/
def queryNames (c : Compiler) : List String := sortNames (c.queries.map Prod.fst)

/-- The session in one line. -/
def display (c : Compiler) : String :=
  Text.record "Compiler" [
    ("config", c.config.display),
    ("stages", toString c.pipeline.stages.length),
    ("tables", toString c.catalog.bases.length),
    ("queries", toString c.queries.length ++ ", ..")]

end Compiler

/-- What a session is built from. -/
structure CompilerSpec where
  config : Config
  tables : List BaseTable
  /-- Nested collections: the parent's name, the column, and the number of keys. -/
  nested : List (String × String × Nat)
  /-- A cost model in place of the simple one. -/
  cost : Option CostModel

namespace CompilerSpec

/-- The session with its tables and nested collections registered in order. -/
def build (spec : CompilerSpec) : Answer Compiler := do
  let c ← Compiler.start spec.config (spec.cost.getD CostModel.simple)
  let c ← spec.tables.foldlM (fun c table => Prod.fst <$> c.registerTable table) c
  spec.nested.foldlM (fun c (parent, column, keys) =>
    Prod.fst <$> c.registerNested parent column keys) c

/-- The specification in one line. -/
def display (spec : CompilerSpec) : String :=
  Text.record "CompilerBuilder" [
    ("config", spec.config.display),
    ("tables", toString spec.tables.length),
    ("nested", toString spec.nested.length),
    ("custom_cost_model", toString spec.cost.isSome)]

end CompilerSpec

end StreamPlan
