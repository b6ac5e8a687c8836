import StreamPlan.Proofs.Answers.Basic
import StreamPlan.Proofs.EventTime.Bucket

/-!
# Rows that pending constraints keep

* `NowFilter.keeps`, `Plan.keeps`: whether a now-filter, or what is pending of
  one, keeps a row.
* `NowFilter.keeps_widen`: a now-filter that moved to the end of a bucket.
* `Plan.rows_of_filteredRel`: an applied now-filter keeps these rows, in order.
* `Plan.filteredRel_of_withoutTopN`: where no ranking is pending beside a now-filter,
  applying the ranking first makes no difference.
* `Converter.overEvents`, `overPlainEvents`: a table with a pulled-up now-filter, and
  one without, for examples.
-/

namespace StreamPlan

variable {now : Int} {row above : Row} {fixture : Fixture} {catalog : Catalog}

namespace NowFilter

/-- Whether a now-filter keeps a row. -/
def keeps (now : Int) (filter : NowFilter) (row : Row) : Bool :=
  match row.timeAt filter.timestamp with
  | some t => filter.comparison.op.holdsOf (Ord.compare t (now - filter.interval))
  | none => false

theorem keeps_iff {filter : NowFilter} : filter.keeps now row = true ↔ filter.Holds now row := by
  have hop : filter.comparison.op.isComparison = true := by cases filter.comparison <;> rfl
  rw [keeps, Holds]
  cases row.timeAt filter.timestamp with
  | none => simp
  | some t => simp [BinaryOp.holdsOf_compare hop]

/-- The expression of a now-filter is true on the rows that the filter keeps. -/
theorem expr_means_keeps {filter : NowFilter} (h : row.Timed filter.timestamp) :
    Means (evalExpr now row filter.expr) (filter.keeps now row = true) :=
  (expr_means h).congr keeps_iff.symm

/-- A now-filter depends on its timestamp only. -/
theorem keeps_remap {filter : NowFilter} {j : Nat} {v : Value} (ha : above[j]? = some v)
    (hv : row[filter.timestamp]? = some v) :
    keeps now { filter with timestamp := j } above = filter.keeps now row := by
  rw [keeps, keeps, Row.timeAt, Row.timeAt, ha, hv]

theorem keeps_merge? {a b merged : NowFilter} (h : a.merge? b = some merged) :
    merged.keeps now row = (a.keeps now row && b.keeps now row) := by
  rw [Bool.eq_iff_iff, Bool.and_eq_true, keeps_iff, keeps_iff, keeps_iff]
  exact merge?_holds h

/-- A now-filter that moved to the end of a bucket keeps every row that it did. -/
theorem keeps_widen {filter wide : NowFilter} {output : Nat} {bucket : Bucket} {v u : Value}
    (hw : 0 < bucket.width)
    (hwide : widen { filter with timestamp := output } bucket.width = .ok wide)
    (hv : row[filter.timestamp]? = some v) (hu : bucket.apply v = .ok u) (ha : above[output]? = some u)
    (h : filter.keeps now row = true) : wide.keeps now above = true := by
  rw [keeps_iff] at h ⊢
  obtain ⟨t, ht, hop⟩ := h
  obtain rfl : v = .timestamp t := by
    rw [Row.timeAt, hv] at ht
    split at ht
    · rename_i heq
      cases heq
      cases ht
      rfl
    · cases ht
  obtain ⟨last, hlast, hu⟩ := bind_eq_ok.1 hu
  cases hu
  obtain ⟨hlow, hhigh⟩ := Bucket.endOf_bounds hw (lift_eq_ok.1 hlast)
  rw [holds_iff_holdsOf (by rw [timestamp_of_widen hwide]; exact ha)]
  exact (holdsOf_of_widen hlow hhigh hwide).1 hop

end NowFilter

namespace Plan

variable {plan out : Plan} {rows : List Row}

/-- Whether the pending now-filter keeps a row, if there is one. -/
def keeps (now : Int) (plan : Plan) (row : Row) : Bool :=
  plan.nowFilter.all fun filter => filter.keeps now row

theorem keeps_of_none (h : plan.nowFilter = none) : plan.keeps now row = true := by
  rw [keeps, h]
  rfl

theorem keeps_of_some {filter : NowFilter} (h : plan.nowFilter = some filter) :
    plan.keeps now row = filter.keeps now row := by
  rw [keeps, h]
  rfl

/-- The rows of a plan's tree have times where the pending now-filter looks. -/
def FiltersTimes (fixture : Fixture) (plan : Plan) : Prop :=
  ∀ f, plan.nowFilter = some f → ∀ rows, evaluate fixture plan.rel = .ok rows →
    ∀ row ∈ rows, row.Timed f.timestamp

theorem Regular.filtersTimes (h : plan.Regular catalog fixture)
    (hf : ∀ f, plan.nowFilter = some f → f.timestamp ∈ plan.time.columns) :
    plan.FiltersTimes fixture :=
  fun f hn rows hrows row hrow => h.timed rows hrows row hrow f.timestamp (hf f hn)

/-- **An applied now-filter** keeps the rows that it keeps, in order. -/
theorem rows_of_filteredRel (ht : plan.FiltersTimes fixture)
    (h : evaluate fixture plan.filteredRel = .ok rows) :
    ∃ below, evaluate fixture plan.rel = .ok below ∧ rows = below.filter (plan.keeps fixture.now) := by
  rw [filteredRel] at h
  cases hn : plan.nowFilter with
  | none =>
    rw [hn] at h
    refine ⟨rows, h, (List.filter_eq_self.2 fun row _ => keeps_of_none hn).symm⟩
  | some filter =>
    rw [hn] at h
    simp only [NowFilter.onto] at h
    rw [evaluate] at h
    obtain ⟨below, hbelow, h⟩ := bind_eq_ok.1 h
    refine ⟨below, hbelow, ?_⟩
    have hmeans : ∀ row ∈ below, Means (evalExpr fixture.now row filter.expr)
        (filter.keeps fixture.now row = true) := fun row hrow =>
      NowFilter.expr_means_keeps (ht filter hn below hbelow row hrow)
    rcases filterRows_means hmeans with h' | h'
    · rw [h'] at h
      cases h
    · rw [h'] at h
      cases h
      refine List.filter_congr fun row _ => ?_
      rw [keeps_of_some hn, Bool.decide_eq_true]

/-- Where a ranking applies first, a now-filter is not pending beside it. -/
theorem filteredRel_of_withoutTopN (hone : plan.nowFilter = none ∨ plan.topN.isEmpty = true)
    (h : plan.withoutTopN = .ok out) : out.filteredRel = plan.settledRel := by
  have hset := (withoutTopN_settled h).2.2
  rcases hone with hn | ht
  · rw [filteredRel, hset, hn, rel_of_withoutTopN h, settledRel, filteredRel, hn]
  · rcases withoutTopN_eq_ok h with ⟨-, rfl⟩ | ⟨_, hne, -⟩
    · exact (settledRel_eq_filteredRel ht).symm
    · rw [ht] at hne
      cases hne

/-- The rows of a plan's answer: a ranking applies to all rows of the tree, and the
now-filter keeps some. -/
theorem rows_of_settledRel (hs : plan.Sound) (hr : plan.Regular catalog fixture)
    (hone : plan.nowFilter = none ∨ plan.topN.isEmpty = true)
    (h : evaluate fixture plan.settledRel = .ok rows) :
    ∃ below, evaluate fixture (plan.topN.onto plan.rel) = .ok below ∧
      rows = below.filter (plan.keeps fixture.now) := by
  rcases hone with hn | ht
  · rw [settledRel, filteredRel, hn] at h
    exact ⟨rows, h, (List.filter_eq_self.2 fun row _ => keeps_of_none hn).symm⟩
  · rw [settledRel_eq_filteredRel ht] at h
    obtain ⟨below, hbelow, he⟩ := rows_of_filteredRel (hr.filtersTimes hs.nowFilter) h
    exact ⟨below, by rwa [TopN.onto, if_pos ht], he⟩

/-- An expression over visible columns has its value on what a row shows. -/
theorem Sound.sees (h : plan.Sound) (hrow : row.length = plan.width) :
    Expr.Sees plan.select.apply row (plan.shown row).visible := by
  intro i t ht
  have hlt : t < row.length := hrow ▸ h.apply_lt ht
  refine ⟨row[t], ?_, List.getElem?_eq_getElem hlt⟩
  rw [shown, Row.getElem?_pick (ColumnMap.apply_eq_ok.1 ht) hlt, List.getElem?_eq_getElem hlt]

end Plan

namespace Converter

/-- A table of timed events, the latest of which were pulled up. -/
def eventsTable : BaseTable where
  name := "events"
  fields := [⟨"id", .int64, false⟩, ⟨"at", .timestamp, true⟩]
  keys := 1
  kind := .stream
  time := .single 1 .source
  pending := ⟨some ⟨1, .gt, 100⟩, .none, []⟩
  stage := none

/-- The catalog of that table, on the stream stage. -/
def overEvents : Converter where
  catalog := ⟨[eventsTable], [⟨"events", .root 0, eventsTable.fields, 1, [0, 1], 0,
    eventsTable.fields⟩], [("events", .view 0), ("events", .base 0)]⟩
  pipeline := .streamAndDatabase
  stage := .stream "stream"
  settings := .default

/-- Events by number and time, asked for at 1000. -/
def eventsAt (events : List (Int × Int)) : Fixture where
  tables := [(.base 0, events.map fun event => [.int event.1, .timestamp event.2])]
  now := 1000

theorem overEvents_built : overEvents.catalog.Built :=
  @Catalog.Built.table .empty _ eventsTable "events" 0 .empty (EventTime.coherent_single 1 .source) rfl

theorem overEvents_pullsOne : overEvents.catalog.PullsOne := by
  intro table ht
  obtain rfl := List.mem_singleton.1 ht
  exact .inr rfl

theorem eventsAt_fits (events : List (Int × Int)) :
    (eventsAt events).Fits overEvents.catalog := by
  constructor
  · intro id table rows ht hrows row hrow
    obtain rfl : id = 0 := Nat.lt_one_iff.1 (List.getElem?_eq_some_iff.1 ht).1
    cases ht
    cases hrows
    obtain ⟨event, -, rfl⟩ := List.mem_map.1 hrow
    refine ⟨Row.fits_of_flat rfl (by decide), fun i hi => ?_⟩
    obtain rfl := List.mem_singleton.1 hi
    exact ⟨_, rfl, .inr ⟨event.2, rfl⟩⟩
  · intro id view rows _ hrows
    cases hrows

/-- The events of that table. -/
def scannedEvents : Rel := .scan (.base 0) "events" eventsTable.fields

/-- The same table with nothing pulled up, on a stage. -/
def overPlainEvents (stage : Stage) : Converter :=
  { overEvents with
    catalog := { overEvents.catalog with bases := [{ eventsTable with pending := .none }] }
    stage }

theorem overPlainEvents_built (stage : Stage) : (overPlainEvents stage).catalog.Built :=
  @Catalog.Built.table .empty _ { eventsTable with pending := .none } "events" 0 .empty
    (EventTime.coherent_single 1 .source) rfl

theorem plainEvents_fits (stage : Stage) (events : List (Int × Int)) :
    (eventsAt events).Fits (overPlainEvents stage).catalog := by
  refine ⟨fun id table rows ht hrows => ?_, fun id view rows _ hrows => by cases hrows⟩
  obtain rfl : id = 0 := Nat.lt_one_iff.1 (List.getElem?_eq_some_iff.1 ht).1
  cases ht
  exact (eventsAt_fits events).base 0 eventsTable rows rfl hrows

end Converter

end StreamPlan
