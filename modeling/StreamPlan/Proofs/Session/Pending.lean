import StreamPlan.Proofs.Answers.Pending
import StreamPlan.Proofs.Plan.Columns
import StreamPlan.Proofs.Session.Calls

/-!
# One pending constraint at a time

A now-filter and a ranking do not commute, and operators apply them in either
order. No plan has to choose: if no table is pulled up with both, no plan of a
query and no published table ever carries both.

* `Pending.Single`: not both a now-filter and a ranking.
* `Compiler.publishes_single`: publishing passes this on.
* `Compiler.never_both_pending`: **so every plan and every table of a session
  carries at most one of them**, whatever calls led to it.
-/

namespace StreamPlan

/-- Not both a now-filter and a ranking with an effect. -/
def Pending.Single (pending : Pending) : Prop :=
  pending.nowFilter = .none ∨ pending.topN.isEmpty = true

/-- A table with a proper event time that carries at most one of both. -/
def BaseTable.PullsOne (table : BaseTable) : Prop :=
  table.time.Coherent ∧ table.pending.Single

/-- No rows are known. -/
def Fixture.unknown : Fixture := ⟨[], 0⟩

theorem Fixture.unknown_fits (catalog : Catalog) : Fixture.unknown.Fits catalog :=
  ⟨(fun _ _ _ _ h => by cases h), (fun _ _ _ _ h => by cases h)⟩

/-- A published plan carries at most one of both if the plan does. -/
theorem Plan.PublishedAs.single {plan out : Plan} (h : plan.PublishedAs out)
    (hp : plan.pending.Single) : out.pending.Single := by
  rcases hp with hn | ht
  · left
    change out.nowFilter = none
    rw [h.nowFilter, show plan.nowFilter = none from hn]
    rfl
  · right
    exact h.isEmpty_topN.trans ht

namespace Compiler

variable {c : Compiler}

/-- The plan of a query carries at most one of both, if the tables do. -/
theorem single_of_convert (h : c.Holds BaseTable.PullsOne) {converter : Converter} {query : Rel}
    {plan : Plan} (hcatalog : converter.catalog = c.catalog)
    (hplan : converter.convert query = .ok plan) : plan.time.Coherent ∧ plan.pending.Single := by
  have hregular := (Converter.regular_of_convert (hcatalog ▸ h.built.linked)
    (Fixture.unknown_fits converter.catalog) hplan).2
  exact ⟨hregular.coherent, hregular.single (hcatalog ▸ fun table ht => (h.tables table ht).2)⟩

/-- What a query is published as carries at most one of both. -/
theorem single_of_published (h : c.Holds BaseTable.PullsOne) {query : Rel} {selected : SelectedPlan}
    {published : Plan} (hselected : c.plan query = .ok selected)
    (hpublished : selected.plan.published = .ok published) :
    published.time.Coherent ∧ published.pending.Single := by
  obtain ⟨-, hplan⟩ := plan_eq_ok hselected
  obtain ⟨hcoherent, hsingle⟩ := single_of_convert h rfl hplan
  have has := Plan.published_as (Converter.sound_of_convert hplan) hpublished
  refine ⟨?_, has.single hsingle⟩
  rcases has.timeCases with htime | htime
  · exact htime ▸ hcoherent
  · exact htime ▸ hcoherent.remap _

/-- **Publishing passes on** that tables carry at most one of both. -/
theorem publishes_single : Publishes BaseTable.PullsOne where
  coherent h := h.1
  table h hselected hpublished htable := by
    obtain ⟨fields, -, rfl⟩ := toTable_eq_ok htable
    exact single_of_published h hselected hpublished

/-- **No plan and no table of a session carries both** a pending now-filter and a
pending ranking, if no registered table does. -/
theorem never_both_pending {config : Config} {cost : CostModel} {calls : List Call}
    (hstart : Compiler.start config cost = .ok c)
    (hcalls : ∀ table, .registerTable table ∈ calls → table.PullsOne) :
    (∀ (converter : Converter) (query : Rel) (plan : Plan),
        converter.catalog = (c.run calls).catalog → converter.convert query = .ok plan →
        plan.pending.Single) ∧
      (∀ (query : Rel) (selected : SelectedPlan) (published : Plan),
        (c.run calls).plan query = .ok selected → selected.plan.published = .ok published →
        published.pending.Single) ∧
      (∀ table ∈ (c.run calls).catalog.bases, table.pending.Single) ∧
      ∀ entry ∈ (c.run calls).queries, entry.2.table.pending.Single := by
  have h := (Holds.start hstart).run publishes_single hcalls
  exact ⟨fun converter query plan hcatalog hplan => (single_of_convert h hcatalog hplan).2,
    fun query selected published hselected hpublished =>
      (single_of_published h hselected hpublished).2,
    fun table ht => (h.tables table ht).2,
    fun entry he => (h.tables _ (h.queries entry he)).2⟩

/-- A scan of the table of recent events in a session. -/
def recentEvents : Rel := .scan (.view 0) "events" Converter.eventsTable.fields

/-- The pulled-up now-filter of a table is still pending in the plan of a query
that was published, and there is no ranking beside it. -/
theorem recent_events_stay_single :
    ∃ c, Compiler.start .default .simple = .ok c ∧
      let session := c.run [.registerTable Converter.eventsTable, .compile "recent" recentEvents]
      ∃ plan, session.convertOn "stream" (.scan (.view 1) "recent" Converter.eventsTable.fields)
          = .ok plan ∧ plan.nowFilter = some ⟨1, .gt, 100⟩ ∧ plan.pending.Single := by
  have hcalls : ∀ table, Call.registerTable table
      ∈ [.registerTable Converter.eventsTable, .compile "recent" recentEvents] → table.PullsOne := by
    intro table ht
    simp only [List.mem_cons, List.not_mem_nil, or_false, Call.registerTable.injEq, reduceCtorEq] at ht
    rw [ht]
    exact ⟨EventTime.coherent_single 1 .source, .inr rfl⟩
  have hstart : Compiler.start .default .simple = .ok _ := rfl
  exact ⟨_, rfl, _, rfl, rfl, (never_both_pending hstart hcalls).1
    ⟨_, .streamAndDatabase, .stream "stream", .default⟩
    (.scan (.view 1) "recent" Converter.eventsTable.fields) _ rfl rfl⟩

end Compiler

end StreamPlan
