import StreamPlan.Proofs.EventTime.Exact
import StreamPlan.Proofs.Plan.Aggregate
import StreamPlan.Proofs.Plan.Filter
import StreamPlan.Proofs.Plan.Join
import StreamPlan.Proofs.Plan.Keeps
import StreamPlan.Proofs.Plan.Project
import StreamPlan.Proofs.Plan.Ranking
import StreamPlan.Proofs.Plan.Scan
import StreamPlan.Proofs.Plan.Union

/-!
# Intervals of pending now-filters

The interval of a pending now-filter was pulled up to a table or is a result of arithmetic that
fitted, so it is a number of 64 bits.

* `Plan.PendingFits`, `Catalog.PendingFits`: of a plan, and of the tables of a catalog.
* `Converter.pendingFits_of_convert`: of the plan of every query, if it is of the catalog.
-/

namespace StreamPlan

/-- The interval of the pending now-filter is a number of 64 bits. -/
def Plan.PendingFits (plan : Plan) : Prop :=
  ∀ filter, plan.nowFilter = some filter → Millis.Fits filter.interval

/-- The intervals of the now-filters pulled up to tables are numbers of 64 bits. -/
def Catalog.PendingFits (catalog : Catalog) : Prop :=
  ∀ table ∈ catalog.bases, ∀ filter, table.pending.nowFilter = some filter →
    Millis.Fits filter.interval

/-- A now-filter on another column has the same interval. -/
theorem NowFilter.interval_of_remap {filter out : NowFilter} {f : Nat → Option Nat}
    (h : filter.remap f = some out) : out.interval = filter.interval := by
  obtain ⟨_, -, rfl⟩ := Option.map_eq_some_iff.1 h
  rfl

/-- The tighter of two now-filters has one of the two intervals. -/
theorem NowFilter.interval_of_merge? {a b out : NowFilter} (h : a.merge? b = some out) :
    out.interval = a.interval ∨ out.interval = b.interval := by
  obtain ⟨-, -, rfl⟩ := merge?_eq_some h
  exact (tighter_eq a b).imp (congrArg interval) (congrArg interval)

namespace Plan

variable {plan out : Plan}

theorem pendingFits_of_none (h : plan.nowFilter = none) : plan.PendingFits := by
  intro filter hf
  rw [h] at hf
  cases hf

/-- A plan with the same now-filter, or with that now-filter on another column. -/
theorem PendingFits.of_bind {carried : Option NowFilter} {f : Nat → Option Nat}
    (h : ∀ filter, carried = some filter → Millis.Fits filter.interval)
    (ho : out.nowFilter = carried.bind (·.remap f)) : out.PendingFits := by
  intro filter hf
  rw [ho] at hf
  obtain ⟨below, hbelow, hremap⟩ := Option.bind_eq_some_iff.1 hf
  rw [NowFilter.interval_of_remap hremap]
  exact h below hbelow

/-- Applying pending constraints leaves the now-filter or nothing. -/
theorem PendingFits.settled (h : plan.PendingFits) (hs : plan.Settled out) : out.PendingFits := by
  rcases hs.nowFilter with hnone | hsame
  · exact pendingFits_of_none hnone
  · exact fun filter hf => h filter (hsame ▸ hf)

theorem PendingFits.addNowFilter {filter : NowFilter} (h : plan.PendingFits)
    (hf : Millis.Fits filter.interval) (ho : plan.addNowFilter filter = .ok out) :
    out.PendingFits := by
  obtain ⟨merged, time, hmerged, -, rfl⟩ := addNowFilter_eq_ok ho
  rintro _ ⟨⟩
  unfold mergedWith at hmerged
  split at hmerged
  · cases hmerged
    exact hf
  · rename_i pending hpending
    split at hmerged
    · rename_i hmerge
      cases hmerged
      rcases NowFilter.interval_of_merge? hmerge with he | he
      · exact he ▸ h pending hpending
      · exact he ▸ hf
    · cases hmerged

theorem PendingFits.extractNowFilters {conditions remaining : List Expr} :
    ∀ {plan : Plan}, plan.PendingFits → plan.extractNowFilters conditions = .ok (out, remaining) →
      out.PendingFits := by
  induction conditions generalizing remaining with
  | nil =>
    intro plan h ho
    cases ho
    exact h
  | cons condition conditions ih =>
    intro plan h ho
    unfold Plan.extractNowFilters at ho
    obtain ⟨stated, hstated, ho⟩ := bind_eq_ok.1 ho
    rcases stated with _ | filter
    · obtain ⟨⟨next, rest⟩, hnext, ho⟩ := bind_eq_ok.1 ho
      cases ho
      exact ih h hnext
    · obtain ⟨next, hnext, ho⟩ := bind_eq_ok.1 ho
      exact ih (h.addNowFilter (fits_of_statedNowFilter (lift_eq_ok.1 hstated)) hnext) ho

theorem PendingFits.filtered {predicate : Expr} (h : plan.PendingFits)
    (ho : plan.filtered predicate = .ok out) : out.PendingFits := by
  unfold Plan.filtered at ho
  obtain ⟨base, hbase, ho⟩ := bind_eq_ok.1 ho
  obtain ⟨moved, -, ho⟩ := bind_eq_ok.1 ho
  obtain ⟨⟨next, remaining⟩, hnext, ho⟩ := bind_eq_ok.1 ho
  have hpending := (h.settled (withoutTopN_settled hbase).1).extractNowFilters hnext
  simp only at ho
  split at ho
  · cases ho
    exact hpending
  · obtain ⟨needs, -, ho⟩ := bind_eq_ok.1 ho
    cases ho
    exact hpending

/-- A now-filter that is carried over a projection fits, widened or not. -/
theorem PendingFits.carries {moved : Option KeptTime} {below : Plan} {carried : Option NowFilter}
    (h : plan.PendingFits) (hc : plan.Carries moved below carried) :
    ∀ filter, carried = some filter → Millis.Fits filter.interval := by
  cases hc with
  | same => exact h
  | widened _ _ _ hwide =>
    rintro _ ⟨⟩
    obtain ⟨hfits, rfl⟩ := (NowFilter.widen_exactly ..).eq_ok_iff.1 hwide
    exact hfits _ List.mem_cons_self
  | applied => rintro _ ⟨⟩

theorem PendingFits.projected {bare : Option (List Nat)} {outputs : List Output}
    (h : plan.PendingFits) (ho : Converter.projected plan bare outputs = .ok out) :
    out.PendingFits := by
  have hcomputed : plan.computed outputs = .ok out → out.PendingFits := by
    intro ho
    obtain ⟨base, needs, moved, hbase, -, -, ho⟩ := computed_eq_ok ho
    obtain ⟨below, carried, hcarry, ho⟩ := projectedTo_eq_ok ho
    obtain ⟨_, _, _, _, -, -, -, -, rfl⟩ := withOutputs_eq_ok ho
    have happlied : base.PendingFits := h.settled (withoutTopN_settled hbase).1
    have hbelow : Plan.PendingFits { base with needs } := happlied
    have hcarried := hbelow.carries hcarry
    intro filter hf
    simp only at hf
    split at hf
    · exact hcarried filter hf
    · obtain ⟨g, hg, hremap⟩ := Option.bind_eq_some_iff.1 hf
      exact NowFilter.interval_of_remap hremap ▸ hcarried g hg
  unfold Converter.projected at ho
  split at ho
  · exact hcomputed ho
  · obtain ⟨picked, hpicked, ho⟩ := bind_eq_ok.1 ho
    rcases picked with _ | picked
    · exact hcomputed ho
    · cases ho
      obtain ⟨_, rel, _, -, -, -, rfl⟩ := picked?_eq_ok (lift_eq_ok.1 hpicked)
      exact h

theorem PendingFits.aggregated {c : Converter} {keys : List Nat} {calls : List AggregateCall}
    (h : plan.PendingFits) (ho : plan.aggregated c keys calls = .ok out) : out.PendingFits := by
  obtain ⟨base, needs, columns, moved, hbase, -, -, -, hout⟩ := aggregated_cases ho
  have hb : base.PendingFits := h.settled (withoutTopN_settled hbase).1
  cases hout with
  | timed _ hcarry =>
    refine PendingFits.of_bind (fun filter hf => ?_) rfl
    unfold carryOver at hcarry
    split at hcarry
    · cases hcarry
      cases hf
    · rename_i pending hpending
      split at hcarry
      · cases hcarry
        cases hf
        exact hb filter hpending
      · obtain ⟨next, -, hcarry⟩ := bind_eq_ok.1 hcarry
        cases hcarry
        cases hf
  | sliding _ _ hgrouped =>
    obtain ⟨_, _, rfl⟩ := groupedAs_eq_ok hgrouped
    exact pendingFits_of_none rfl
  | running hrun =>
    obtain ⟨_, _, _, _, _, _, _, -, -, -, -, -, rfl⟩ := running_eq_ok hrun
    exact pendingFits_of_none rfl
  | plain _ hgrouped =>
    obtain ⟨_, _, rfl⟩ := groupedAs_eq_ok hgrouped
    exact pendingFits_of_none rfl

theorem PendingFits.sorted {order : SortOrder} {limit : Option Nat} (h : plan.PendingFits)
    (ho : plan.sorted order limit = .ok out) : out.PendingFits := by
  unfold Plan.sorted at ho
  obtain ⟨moved, -, ho⟩ := bind_eq_ok.1 ho
  rcases limit with _ | n
  · cases ho
    exact h
  · obtain ⟨base, hbase, ho⟩ := bind_eq_ok.1 ho
    obtain ⟨needs, -, ho⟩ := bind_eq_ok.1 ho
    cases ho
    exact pendingFits_of_none (withoutPending_settled hbase).2.1

end Plan

namespace Converter

open Plan

variable {c : Converter} {plan out : Plan}

/-- A scan takes up what was pulled up to its table. -/
theorem pendingFits_of_scanPlan {relation : RelationId} (hc : c.catalog.PendingFits)
    (h : c.scanPlan relation = .ok out) : out.PendingFits := by
  have hopen : ∀ table ∈ c.catalog.bases, ∀ filter,
      (c.openConstraints table).nowFilter = some filter → Millis.Fits filter.interval := by
    intro table htable filter hf
    unfold openConstraints at hf
    simp only at hf
    split at hf
    · cases hf
    · exact hc table htable filter hf
  obtain ⟨table, hscan⟩ := scanPlan_cases h
  cases hscan with
  | base hbase => exact hopen table (List.mem_of_getElem? hbase)
  | root _ _ _ hbase =>
    exact PendingFits.of_bind (hopen table (List.mem_of_getElem? hbase)) rfl
  | nested => exact pendingFits_of_none rfl
  | unrolled _ _ _ hbase _ _ _ _ hstart =>
    have hfits := hopen table (List.mem_of_getElem? hbase)
    rcases belowLevels_eq_ok hstart with rfl | ⟨needs, base, happlied, rfl⟩
    · exact hfits
    · exact fun filter hf => hfits filter ((withoutTopN_settled happlied).2.2.symm.trans hf)

theorem pendingFits_of_joined {j : JoinInputs} (hl : j.left.PendingFits) (hr : j.right.PendingFits)
    (ho : c.joined j = .ok out) : out.PendingFits := by
  rcases joined_eq_ok ho with ho | ho | ho | ho
  · obtain ⟨_, _, _, -, -, -, -, hmerged⟩ := JoinInputs.selfJoin?_eq_ok (attempt_eq_ok ho)
    obtain ⟨_, _, _, _, -, -, -, -, -, rfl⟩ := JoinInputs.mergedPlan_eq_ok hmerged
    exact hl
  · obtain ⟨sides, hsides, ho⟩ := JoinInputs.temporalJoin?_eq_ok (attempt_eq_ok ho)
    obtain ⟨stream, _, _, hstream, -, -, -, -, hnow, -⟩ := JoinInputs.temporalPlan_eq_ok ho
    have hside := ((JoinInputs.temporalShape_eq_ok hsides).1.both hl hr).1
    have hready : stream.PendingFits := by
      rcases JoinInputs.readyStream_eq_ok hstream with ⟨-, rfl⟩ | hready
      · exact hside
      · exact hside.settled (withoutPending_settled hready).1
    exact fun filter hf => hready filter (hnow ▸ hf)
  · obtain ⟨window, -, ho⟩ := JoinInputs.intervalJoin?_eq_ok (attempt_eq_ok ho)
    obtain ⟨_, _, _, -, -, -, -, -, hnow, -⟩ := JoinInputs.intervalPlan_eq_ok ho
    exact pendingFits_of_none hnow
  · obtain ⟨_, _, _, -, -, -, -, -, hnow, -⟩ := JoinInputs.statePlan_eq_ok ho
    exact pendingFits_of_none hnow

/-- Every operator keeps it. -/
theorem keeps_pendingFits (hc : c.catalog.PendingFits) : c.Keeps PendingFits where
  scan ho := pendingFits_of_scanPlan hc ho
  filter _ h ho := h.filtered ho
  project _ h ho := h.projected ho
  rank _ _ ho := by
    obtain ⟨base, _, rel, ranking, key, _, _, hbase, -, -, -, -, -, rfl⟩ := ranked_eq_ok ho
    refine pendingFits_of_none ?_
    have hranked := (withRanking_shape { base with rel, key } ranking).2.2.1
    exact hranked.trans (withoutPending_settled hbase).2.1
  join _ _ hl hr hj ho := by
    obtain ⟨rfl, rfl, -⟩ := JoinInputs.of_eq_ok hj
    exact pendingFits_of_joined hl hr ho
  aggregate _ h ho := h.aggregated ho
  union _ _ ho := by
    obtain ⟨-, _, _, -, -, -, -, hnow⟩ := united_eq_ok ho
    exact pendingFits_of_none hnow
  sort _ h ho := h.sorted ho
  settle h ho := h.settled (withoutPending_settled ho).1

/-- **A pending interval is a number of 64 bits**, in the plan of every query. -/
theorem pendingFits_of_convert (hc : c.catalog.PendingFits) {q : Rel} (h : c.convert q = .ok plan) :
    plan.PendingFits := ((keeps_pendingFits hc).convert h).2

end Converter

end StreamPlan
