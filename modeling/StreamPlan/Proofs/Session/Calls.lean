import StreamPlan.Proofs.Catalog.Growth
import StreamPlan.Proofs.Plan.Cheapest
import StreamPlan.Proofs.Typing.Convert
import StreamPlan.Session.Compiler

/-!
# Sessions that calls lead to

Whichever call is made, a session stays as it was or has one more relation, and a compiled
query adds itself with its table.

* `Compiler.Call`, `Compiler.run`: the session after some calls. A call that
  fails leaves it as it was.
* `Compiler.compile_eq_ok`: what compiling a query does.
* `Compiler.Holds`: every base table of a session has a property, and published
  tables are base tables.
* `Compiler.Holds.run`: what registered and published tables have, **every table
  of a session that calls lead to** has.
* `Compiler.Call.name`, `Compiler.registers`: the name that a call registers, if it succeeds.
* `Compiler.Step`: all that a call can do, with what it has checked.
* `Compiler.step_after`: **every call is such a step.**
* `Compiler.run_keeps`: what every step keeps, calls keep one after another; so catalogs grow
  (`grows_run`).
-/

namespace StreamPlan

namespace Compiler

/-- A call that adds a relation to a session. -/
inductive Call where
  | registerTable (table : BaseTable)
  | registerNested (parent column : String) (keys : Nat)
  | compile (name : String) (query : Rel)

/-- The session that an answer comes with, or the one before it failed. -/
def settleOn {α : Type} (c : Compiler) : Answer (Compiler × α) → Compiler
  | .ok (next, _) => next
  | .error _ => c

/-- The session after a call. -/
def after (c : Compiler) : Call → Compiler
  | .registerTable table => c.settleOn (c.registerTable table)
  | .registerNested parent column keys => c.settleOn (c.registerNested parent column keys)
  | .compile name query => c.settleOn (c.compile name query)

/-- The session after calls, one after another. -/
def run (c : Compiler) (calls : List Call) : Compiler := calls.foldl after c

variable {c next : Compiler} {T : BaseTable → Prop}

theorem withError_eq_ok {ε δ α : Type} {f : ε → δ} {x : Checked ε α} {a : α} :
    withError f x = .ok a ↔ x = .ok a := by
  cases x <;> simp [withError]

theorem registerTable_eq_ok {table : BaseTable} {view : Nat} :
    c.registerTable table = .ok (next, view) ↔
      ∃ catalog, c.catalog.addTable table table.name = .ok (catalog, view) ∧
        next = { c with catalog } := by
  unfold registerTable
  simp only [bind_eq_ok, withError_eq_ok, orRefuse_eq_ok, pure_eq_ok, Prod.mk.injEq]
  constructor
  · rintro ⟨⟨catalog, view'⟩, hadd, rfl, rfl⟩
    exact ⟨catalog, hadd, rfl⟩
  · rintro ⟨catalog, hadd, rfl⟩
    exact ⟨(catalog, view), hadd, rfl, rfl⟩

theorem registerNested_eq_ok {parent column : String} {keys view : Nat}
    (h : c.registerNested parent column keys = .ok (next, view)) :
    ∃ id catalog, c.catalog.addChild id column (parent ++ "." ++ column) keys = .ok (catalog, view) ∧
      next = { c with catalog } := by
  unfold registerNested at h
  obtain ⟨id, -, h⟩ := bind_eq_ok.1 h
  obtain ⟨⟨catalog, view'⟩, hadd, h⟩ := bind_eq_ok.1 h
  cases h
  exact ⟨id, catalog, withError_eq_ok.1 hadd, rfl⟩

/-- The plan of a query is its plan on a stage of the session's pipeline. -/
theorem plan_eq_ok {query : Rel} {selected : SelectedPlan} (h : c.plan query = .ok selected) :
    selected.stage ∈ c.pipeline.stages ∧
      Converter.convert ⟨c.catalog, c.pipeline, selected.stage, c.config.settings⟩ query
        = .ok selected.plan :=
  planned_of_findCheapest (withError_eq_ok.1 h)

/-- **Compiling a query** publishes its plan and registers the table. -/
theorem compile_eq_ok {name : String} {query : Rel} {compiled : CompiledQuery}
    (h : c.compile name query = .ok (next, compiled)) :
    ∃ selected published mid,
      c.plan query = .ok selected ∧ selected.plan.published = .ok published ∧
      published.toTable name selected.stage.name = .ok compiled.table ∧
      c.registerTable compiled.table = .ok (mid, compiled.view) ∧
      next = { mid with queries := mid.queries ++ [(name, compiled)] } ∧
      compiled.stage = selected.stage ∧ Manifest.ofPlan published = .ok compiled.manifest := by
  unfold compile at h
  split at h
  · exact absurd h refuse_ne_ok
  · obtain ⟨selected, hselected, h⟩ := bind_eq_ok.1 h
    obtain ⟨published, hpublished, h⟩ := bind_eq_ok.1 h
    obtain ⟨manifest, hmanifest, h⟩ := bind_eq_ok.1 h
    obtain ⟨table, htable, h⟩ := bind_eq_ok.1 h
    obtain ⟨⟨mid, view⟩, hmid, h⟩ := bind_eq_ok.1 h
    cases h
    exact ⟨selected, published, mid, hselected, orFault_eq_ok.1 hpublished, orFault_eq_ok.1 htable,
      hmid, rfl, rfl, orFault_eq_ok.1 hmanifest⟩

theorem toTable_eq_ok {plan : Plan} {name stage : String} {table : BaseTable}
    (h : plan.toTable name stage = .ok table) :
    ∃ fields, plan.rel.fields = .ok fields ∧
      table = ⟨name, fields, plan.key.sources, plan.kind, plan.time, plan.pending, some stage⟩ := by
  unfold Plan.toTable at h
  obtain ⟨fields, hfields, h⟩ := bind_eq_ok.1 h
  cases h
  exact ⟨fields, hfields, rfl⟩

/-- Every base table of a session has a property, and a published one is a base
table. -/
structure Holds (T : BaseTable → Prop) (c : Compiler) : Prop where
  built : c.catalog.Built
  tables : ∀ table ∈ c.catalog.bases, T table
  queries : ∀ entry ∈ c.queries, entry.2.table ∈ c.catalog.bases

/-- A property of base tables that the table of a published plan has, given that
the tables before have it. -/
structure Publishes (T : BaseTable → Prop) : Prop where
  coherent : ∀ {table}, T table → table.time.Coherent
  table : ∀ {c : Compiler} {query name selected published stage table}, c.Holds T →
    c.plan query = .ok selected → selected.plan.published = .ok published →
    published.toTable name stage = .ok table → T table

/-- A session without relations. -/
theorem Holds.start {config : Config} {cost : CostModel}
    (h : Compiler.start config cost = .ok c) : c.Holds T := by
  unfold Compiler.start at h
  obtain ⟨_, -, h⟩ := bind_eq_ok.1 h
  cases h
  exact ⟨.empty, (fun table ht => by cases ht), (fun entry he => by cases he)⟩

/-- One more table. -/
theorem Holds.registerTable {table : BaseTable} {view : Nat} (hT : Publishes T) (h : c.Holds T)
    (ht : T table) (ho : c.registerTable table = .ok (next, view)) :
    next.Holds T ∧ table ∈ next.catalog.bases ∧ next.queries = c.queries := by
  obtain ⟨catalog, hadd, rfl⟩ := registerTable_eq_ok.1 ho
  obtain ⟨-, hbases, -⟩ := Catalog.addTable_eq_ok hadd
  refine ⟨⟨h.built.table (hT.coherent ht) hadd, fun t hmem => ?_, fun entry he => ?_⟩, ?_, rfl⟩
  · rw [hbases] at hmem
    rcases List.mem_append.1 hmem with hmem | hmem
    · exact h.tables t hmem
    · exact List.mem_singleton.1 hmem ▸ ht
  · rw [hbases]
    exact List.mem_append_left _ (h.queries entry he)
  · rw [hbases]
    exact List.mem_append_right _ List.mem_cons_self

/-- What holds of a session and of the one an answer comes with, holds after it. -/
theorem settleOn_keeps {α : Type} {I : Compiler → Prop} {answer : Answer (Compiler × α)} (h : I c)
    (ho : ∀ next a, answer = .ok (next, a) → I next) : I (c.settleOn answer) := by
  unfold settleOn
  split
  · exact ho _ _ rfl
  · exact h

/-- **What a call keeps.** -/
theorem Holds.after (hT : Publishes T) (h : c.Holds T) (call : Call)
    (ht : ∀ table, call = .registerTable table → T table) : (c.after call).Holds T := by
  cases call with
  | registerTable table =>
    exact settleOn_keeps h fun next view ho => (h.registerTable hT (ht table rfl) ho).1
  | registerNested parent column keys =>
    refine settleOn_keeps h fun next view ho => ?_
    obtain ⟨id, catalog, hadd, rfl⟩ := registerNested_eq_ok ho
    obtain ⟨_, _, _, _, -, -, -, -, -, hbases, -⟩ := Catalog.addChild_eq_ok hadd
    exact ⟨h.built.child hadd, hbases ▸ h.tables, hbases ▸ h.queries⟩
  | compile name query =>
    refine settleOn_keeps h fun next compiled ho => ?_
    obtain ⟨selected, published, mid, hselected, hpublished, htable, hmid, rfl, -⟩ := compile_eq_ok ho
    obtain ⟨hholds, hmem, hqueries⟩ :=
      h.registerTable hT (hT.table h hselected hpublished htable) hmid
    refine ⟨hholds.built, hholds.tables, fun entry he => ?_⟩
    rcases List.mem_append.1 he with he | he
    · exact hholds.queries entry he
    · rw [List.mem_singleton.1 he]
      exact hmem

/-- **What calls keep**, one after another. -/
theorem Holds.run (hT : Publishes T) {calls : List Call} (h : c.Holds T)
    (ht : ∀ table, .registerTable table ∈ calls → T table) : (c.run calls).Holds T := by
  induction calls generalizing c with
  | nil => exact h
  | cons call calls ih =>
    refine ih (h.after hT call ?_) fun table hmem => ht table (List.mem_cons_of_mem call hmem)
    rintro table rfl
    exact ht table List.mem_cons_self

end Compiler

end StreamPlan

namespace StreamPlan.Compiler

variable {c next : Compiler} {given : Option String}

/-- The name that a call is to register. -/
def Call.name : Call → String
  | .registerTable table => table.name
  | .registerNested parent column _ => parent ++ "." ++ column
  | .compile name _ => name

/-- The name that an answer has registered. -/
def nameOf {α : Type} (name : String) : Answer α → Option String
  | .ok _ => some name
  | .error _ => none

/-- The name that a call registers, if it succeeds. -/
def registers (c : Compiler) (call : Call) : Option String :=
  match call with
  | .registerTable table => nameOf call.name (c.registerTable table)
  | .registerNested parent column keys => nameOf call.name (c.registerNested parent column keys)
  | .compile name query => nameOf call.name (c.compile name query)

/-- The names that calls register, in order. -/
def registered (c : Compiler) : List Call → List String
  | [] => []
  | call :: calls => (c.registers call).toList ++ (c.after call).registered calls

/-- All that a call can do to a session, with the name that it registers. -/
inductive Step (c : Compiler) : Option String → Compiler → Prop
  | failed : Step c none c
  | table {table : BaseTable} {catalog : Catalog} {view : Nat} :
      c.catalog.addTable table table.name = .ok (catalog, view) →
      Step c (some table.name) { c with catalog }
  | child {parent keys view : Nat} {column name : String} {catalog : Catalog} :
      c.catalog.addChild parent column name keys = .ok (catalog, view) →
      Step c (some name) { c with catalog }
  | compiled {name : String} {compiled : CompiledQuery} {catalog : Catalog} :
      c.queries.lookup name = none → compiled.name = name → compiled.table.name = name →
      c.catalog.addTable compiled.table name = .ok (catalog, compiled.view) →
      Step c (some name) { c with catalog, queries := c.queries ++ [(name, compiled)] }

/-- What compiling a query checks and names. -/
theorem names_of_compile {name : String} {query : Rel} {compiled : CompiledQuery}
    (h : c.compile name query = .ok (next, compiled)) :
    c.queries.lookup name = none ∧ compiled.name = name ∧ compiled.table.name = name := by
  obtain ⟨_, _, _, -, -, htable, -⟩ := compile_eq_ok h
  obtain ⟨_, -, htable⟩ := toTable_eq_ok htable
  unfold compile at h
  split at h
  · exact absurd h refuse_ne_ok
  · rename_i hfree
    rw [Bool.not_eq_true, Option.isSome_eq_false_iff, Option.isNone_iff_eq_none] at hfree
    obtain ⟨_, -, h⟩ := bind_eq_ok.1 h
    obtain ⟨_, -, h⟩ := bind_eq_ok.1 h
    obtain ⟨_, -, h⟩ := bind_eq_ok.1 h
    obtain ⟨_, -, h⟩ := bind_eq_ok.1 h
    obtain ⟨⟨_, _⟩, -, h⟩ := bind_eq_ok.1 h
    cases h
    exact ⟨hfree, rfl, by rw [htable]⟩

/-- An answer that comes with the next session registers its name, another one nothing. -/
theorem step_of_answer {α : Type} {answer : Answer (Compiler × α)} {name : String}
    (h : ∀ next a, answer = .ok (next, a) → c.Step (some name) next) :
    c.Step (nameOf name answer) (c.settleOn answer) := by
  rcases answer with e | ⟨next, a⟩
  · exact .failed
  · exact h next a rfl

/-- **Every call is a step.** -/
theorem step_after (c : Compiler) (call : Call) : c.Step (c.registers call) (c.after call) := by
  cases call with
  | registerTable table =>
    refine step_of_answer fun next view ho => ?_
    obtain ⟨catalog, hadd, rfl⟩ := registerTable_eq_ok.1 ho
    exact .table hadd
  | registerNested parent column keys =>
    refine step_of_answer fun next view ho => ?_
    obtain ⟨id, catalog, hadd, rfl⟩ := registerNested_eq_ok ho
    exact .child hadd
  | compile name query =>
    refine step_of_answer fun next compiled ho => ?_
    obtain ⟨hfree, hname, htable⟩ := names_of_compile ho
    obtain ⟨_, _, mid, -, -, -, hmid, rfl, -⟩ := compile_eq_ok ho
    obtain ⟨catalog, hadd, rfl⟩ := registerTable_eq_ok.1 hmid
    exact .compiled hfree hname htable (htable ▸ hadd)

/-- **What every step keeps**, calls keep one after another. -/
theorem run_keeps {I : Compiler → Prop}
    (hstep : ∀ (c next : Compiler) (given : Option String), I c → c.Step given next → I next)
    (h : I c) (calls : List Call) : I (c.run calls) := by
  induction calls generalizing c with
  | nil => exact h
  | cons call calls ih => exact ih (hstep c _ _ h (c.step_after call))

theorem Step.grows (h : c.Step given next) : c.catalog.Grows next.catalog := by
  cases h with
  | failed => exact .refl _
  | table hadd => exact Catalog.grows_addTable hadd
  | child hadd => exact Catalog.grows_addChild hadd
  | compiled _ _ _ hadd => exact Catalog.grows_addTable hadd

/-- Calls add relations behind those of a session. -/
theorem grows_run (c : Compiler) (calls : List Call) : c.catalog.Grows (c.run calls).catalog :=
  run_keeps (I := fun next => c.catalog.Grows next.catalog) (fun _ _ _ h hstep => h.trans hstep.grows)
    (.refl _) calls

/-- Calls change neither the stages that a session plans for nor how it plans. -/
theorem run_config (c : Compiler) (calls : List Call) :
    (c.run calls).pipeline = c.pipeline ∧ (c.run calls).config = c.config ∧
      (c.run calls).cost = c.cost := by
  refine run_keeps (I := fun next => next.pipeline = c.pipeline ∧ next.config = c.config ∧
    next.cost = c.cost) ?_ ⟨rfl, rfl, rfl⟩ calls
  intro mid next given h hstep
  cases hstep <;> exact h

end StreamPlan.Compiler
