import StreamPlan.Plan.Filter
import StreamPlan.Proofs.Plan.Filter
import StreamPlan.Proofs.Plan.Ranking
import StreamPlan.Proofs.Typing.Row

/-!
# Plans with rows of their shape

* `Plan.Regular`: every row of a plan's tree has a value per column, with times
  in the timestamp columns.
* `Plan.Regular.narrow`: a plan of some of these rows is regular.
* `Plan.Regular.settle`, `filtered`, `sorted`, `ranked`: so are the plans of
  operators that only drop and reorder rows.
-/

namespace StreamPlan

/-- No table was pulled up with both a now-filter and a ranking. -/
def Catalog.PullsOne (catalog : Catalog) : Prop :=
  ∀ table ∈ catalog.bases, table.pending.nowFilter = none ∨ table.pending.topN.isEmpty = true

namespace Plan

variable {catalog : Catalog} {fixture : Fixture} {plan out : Plan}

/-- What the rows of a plan's tree hold, and what is pending: never a now-filter
along with a ranking, unless a table was pulled up with both. -/
structure Regular (catalog : Catalog) (fixture : Fixture) (plan : Plan) : Prop where
  shaped : plan.rel.Shaped fixture
  timed : ∀ rows, evaluate fixture plan.rel = .ok rows → ∀ row ∈ rows,
    ∀ i ∈ plan.time.columns, row.Timed i
  lineage : ∀ l, plan.lineage = some l → Unrolls catalog fixture plan.time.columns plan.rel l
  coherent : plan.time.Coherent
  single : catalog.PullsOne → plan.nowFilter = none ∨ plan.topN.isEmpty = true

end Plan

/-- Some of the rows of an unrolled entity. -/
theorem Unrolls.restrict {catalog : Catalog} {fixture : Fixture} {times fewer : List Nat}
    {rel out : Rel} {lineage : Lineage} (h : Unrolls catalog fixture times rel lineage)
    (hr : rel.Restricted out) (ht : ∀ i ∈ fewer, i ∈ times) :
    Unrolls catalog fixture fewer out lineage := by
  refine ⟨hr.width ▸ h.linked, hr.shaped h.shaped, ?_, ?_⟩
  · intro above ha row hrow i hi
    obtain ⟨rows, hrows, hsub⟩ := hr.mem h.shaped ha
    exact h.timed rows hrows row (hsub row hrow) i (ht i hi)
  · intro above ha row hrow
    obtain ⟨rows, hrows, hsub⟩ := hr.mem h.shaped ha
    exact h.levels rows hrows row (hsub row hrow)

namespace Plan

variable {catalog : Catalog} {fixture : Fixture} {plan out : Plan}

/-- **A plan of some of the rows**, with fewer timestamps, is as regular. -/
theorem Regular.narrow (h : plan.Regular catalog fixture) (hr : plan.rel.Restricted out.rel)
    (ht : ∀ i ∈ out.time.columns, i ∈ plan.time.columns) (hc : out.time.Coherent)
    (hl : out.lineage = none ∨ out.lineage = plan.lineage)
    (hs : catalog.PullsOne → out.nowFilter = none ∨ out.topN.isEmpty = true) :
    out.Regular catalog fixture := by
  refine ⟨hr.shaped h.shaped, ?_, ?_, hc, hs⟩
  · intro above ha row hrow i hi
    obtain ⟨rows, hrows, hsub⟩ := hr.mem h.shaped ha
    exact h.timed rows hrows row (hsub row hrow) i (ht i hi)
  · intro l hsome
    rcases hl with hl | hl
    · rw [hl] at hsome; cases hsome
    · exact (h.lineage l (hl ▸ hsome)).restrict hr ht

theorem restricted_onto (topN : TopN) (rel : Rel) : rel.Restricted (topN.onto rel) := by
  unfold TopN.onto
  split
  · exact .same
  · simp only
    split
    · exact Rel.Restricted.same.firstRows
    · exact Rel.Restricted.same.sort.firstRows

theorem withoutNowFilter_restricted (h : plan.withoutNowFilter = .ok out) :
    plan.rel.Restricted out.rel := by
  rcases withoutNowFilter_eq_ok h with ⟨-, rfl⟩ | ⟨f, needs, -, -, rfl⟩
  · exact .same
  · exact Rel.Restricted.same.filter

theorem withoutTopN_restricted (h : plan.withoutTopN = .ok out) : plan.rel.Restricted out.rel := by
  rcases withoutTopN_eq_ok h with ⟨-, rfl⟩ | ⟨needs, -, -, rfl⟩
  · exact .same
  · exact restricted_onto plan.topN plan.rel

theorem withoutPending_restricted (h : plan.withoutPending = .ok out) :
    plan.rel.Restricted out.rel := by
  obtain ⟨mid, h1, h2⟩ := withoutPending_eq_ok.1 h
  exact (withoutNowFilter_restricted h1).trans (withoutTopN_restricted h2)

/-- **A filter** keeps some rows of its input. -/
theorem filtered_restricted {predicate : Expr} (h : plan.filtered predicate = .ok out) :
    plan.rel.Restricted out.rel := by
  unfold filtered at h
  obtain ⟨base, hbase, h⟩ := bind_eq_ok.1 h
  obtain ⟨moved, -, h⟩ := bind_eq_ok.1 h
  obtain ⟨⟨next, remaining⟩, hnext, h⟩ := bind_eq_ok.1 h
  obtain ⟨time, nowFilter, rfl, -⟩ := extractNowFilters_shape hnext
  have hb := withoutTopN_restricted hbase
  simp only at h
  split at h
  · cases h
    exact hb
  · obtain ⟨needs, -, h⟩ := bind_eq_ok.1 h
    cases h
    exact hb.filter

/-- **A sort** keeps the rows that what is pending keeps. -/
theorem sorted_restricted {order : SortOrder} {limit : Option Nat}
    (h : plan.sorted order limit = .ok out) : plan.rel.Restricted out.rel := by
  unfold sorted at h
  obtain ⟨moved, -, h⟩ := bind_eq_ok.1 h
  rcases limit with _ | n
  · cases h
    exact .same
  · obtain ⟨base, hbase, h⟩ := bind_eq_ok.1 h
    obtain ⟨needs, -, h⟩ := bind_eq_ok.1 h
    cases h
    have hb := withoutPending_restricted hbase
    exact hb

/-- **A ranking** renames the columns of its input, with what was pending applied. -/
theorem ranked_restricted {hint : RankingHint} {columns : List Nat} {outputs : List Output}
    {order : SortOrder} {limit : Option Nat}
    (h : plan.ranked hint columns outputs order limit = .ok out) : plan.rel.Restricted out.rel := by
  obtain ⟨base, _, rel, ranking, key, _, _, hbase, -, hrenamed, -, -, -, rfl⟩ := ranked_eq_ok h
  refine (withoutPending_restricted hbase).trans ?_
  change base.rel.Restricted (withRanking { base with rel := rel, key := key } ranking).rel
  rw [(withRanking_shape { base with rel := rel, key := key } ranking).1]
  exact Rel.Restricted.same.renames (renamed?_renames hrenamed)

/-- Applying pending constraints keeps a plan regular. -/
theorem Regular.settled (h : plan.Regular catalog fixture) (hs : plan.Settled out)
    (hr : plan.rel.Restricted out.rel) : out.Regular catalog fixture := by
  refine h.narrow hr (fun i hi => hs.time ▸ hi) (hs.time ▸ h.coherent) (.inr hs.lineage) ?_
  intro hone
  rcases hs.nowFilter with hn | hn
  · exact .inl hn
  · rcases hs.topN with ht | ht
    · exact .inr (by rw [ht]; rfl)
    · rw [hn, ht]
      exact h.single hone

theorem Regular.withoutNowFilter (h : plan.Regular catalog fixture)
    (ho : plan.withoutNowFilter = .ok out) : out.Regular catalog fixture :=
  h.settled (withoutNowFilter_settled ho).1 (withoutNowFilter_restricted ho)

theorem Regular.withoutTopN (h : plan.Regular catalog fixture)
    (ho : plan.withoutTopN = .ok out) : out.Regular catalog fixture :=
  h.settled (withoutTopN_settled ho).1 (withoutTopN_restricted ho)

theorem Regular.settle (h : plan.Regular catalog fixture)
    (ho : plan.withoutPending = .ok out) : out.Regular catalog fixture :=
  h.settled (withoutPending_settled ho).1 (withoutPending_restricted ho)

/-- **The plan of a filter** is regular. -/
theorem Regular.filtered {predicate : Expr} (h : plan.Regular catalog fixture)
    (ho : plan.filtered predicate = .ok out) : out.Regular catalog fixture := by
  unfold Plan.filtered at ho
  obtain ⟨base, hbase, ho⟩ := bind_eq_ok.1 ho
  obtain ⟨moved, -, ho⟩ := bind_eq_ok.1 ho
  obtain ⟨⟨next, remaining⟩, hnext, ho⟩ := bind_eq_ok.1 ho
  have hb := h.withoutTopN hbase
  have hempty := (withoutTopN_settled hbase).2.1
  obtain ⟨time, nowFilter, rfl, hsub, hcoh⟩ := extractNowFilters_shape hnext
  simp only at ho
  split at ho
  · cases ho
    exact hb.narrow .same hsub (hcoh hb.coherent) (.inr rfl) fun _ => .inr hempty
  · obtain ⟨needs, -, ho⟩ := bind_eq_ok.1 ho
    cases ho
    exact hb.narrow Rel.Restricted.same.filter hsub (hcoh hb.coherent) (.inl rfl)
      fun _ => .inr hempty

/-- **The plan of a sort** is regular. -/
theorem Regular.sorted {order : SortOrder} {limit : Option Nat} (h : plan.Regular catalog fixture)
    (ho : plan.sorted order limit = .ok out) : out.Regular catalog fixture := by
  unfold Plan.sorted at ho
  obtain ⟨moved, -, ho⟩ := bind_eq_ok.1 ho
  rcases limit with _ | n
  · cases ho
    exact h.narrow .same (fun _ hi => hi) h.coherent (.inr rfl) h.single
  · obtain ⟨base, hbase, ho⟩ := bind_eq_ok.1 ho
    obtain ⟨needs, -, ho⟩ := bind_eq_ok.1 ho
    cases ho
    have hb := h.settle hbase
    have hnone := (withoutPending_settled hbase).2.1
    refine hb.narrow .same (fun i hi => ?_) ?_ (.inl rfl) fun _ => .inl hnone
    · simp only at hi
      split at hi
      · cases hi
      · exact hi
    · simp only
      split
      · exact EventTime.coherent_none
      · exact hb.coherent

/-- **The plan of a ranking** is regular. -/
theorem Regular.ranked {hint : RankingHint} {columns : List Nat} {outputs : List Output}
    {order : SortOrder} {limit : Option Nat} (h : plan.Regular catalog fixture)
    (ho : plan.ranked hint columns outputs order limit = .ok out) : out.Regular catalog fixture := by
  obtain ⟨base, targets, rel, ranking, key, time, select, hbase, -, hrenamed, hsub, hcoh, -, rfl⟩ :=
    ranked_eq_ok ho
  have hb := h.settle hbase
  have hnone := (withoutPending_settled hbase).2.1
  obtain ⟨hrel, htime, hnow, hlineage⟩ :=
    withRanking_shape { base with rel := rel, key := key } ranking
  have hr := renamed?_renames hrenamed
  refine hb.narrow ?_ hsub (hcoh hb.coherent) hlineage fun _ => .inl (hnow.trans hnone)
  change base.rel.Restricted (withRanking { base with rel := rel, key := key } ranking).rel
  rw [hrel]
  exact Rel.Restricted.same.renames hr

end Plan

end StreamPlan
