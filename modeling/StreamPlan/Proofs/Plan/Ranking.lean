import StreamPlan.Plan.Ranking
import StreamPlan.Proofs.Plan.Project

/-!
# What rankings are made of

* `Plan.withRanking_shape`, `withTimestamp_shape`: a ranking that is pending, and
  the timestamp that it fixes.
* `Plan.ranked_eq_ok`, `ranked_ranks`: the plan of a ranking, and what is pending in it.
-/

namespace StreamPlan.Plan

variable {plan out : Plan}

/-- A ranking adds a pending constraint and may lose the lineage. -/
theorem withRanking_shape (plan : Plan) (ranking : Ranking) :
    (plan.withRanking ranking).rel = plan.rel ∧ (plan.withRanking ranking).time = plan.time ∧
      (plan.withRanking ranking).nowFilter = plan.nowFilter ∧
      ((plan.withRanking ranking).lineage = none ∨
        (plan.withRanking ranking).lineage = plan.lineage) := by
  unfold withRanking
  split
  · exact ⟨rfl, rfl, rfl, .inr rfl⟩
  · exact ⟨rfl, rfl, rfl, .inl rfl⟩

/-- The timestamp of a ranking is a candidate. -/
theorem withTimestamp_shape {timestamp : Option Nat} (h : plan.withTimestamp timestamp = .ok out) :
    ∃ time, out = { plan with time } ∧ (∀ i ∈ time.columns, i ∈ plan.time.columns) ∧
      (plan.time.Coherent → time.Coherent) := by
  unfold withTimestamp at h
  split at h
  · cases h
    exact ⟨.none, rfl, by simp, fun _ => EventTime.coherent_none⟩
  · split at h
    · rename_i column
      obtain ⟨time, ht, h⟩ := bind_eq_ok.1 h
      cases h
      obtain ⟨hcolumns, -, hmem⟩ := EventTime.fix_columns ht
      refine ⟨time, rfl, fun i hi => ?_, fun _ => EventTime.coherent_of_fix ht⟩
      rw [hcolumns, List.mem_singleton] at hi
      exact hi ▸ hmem
    · cases h
      exact ⟨plan.time, rfl, fun _ hi => hi, id⟩

/-- **The plan of a ranking** shows columns of the plan below, maybe under other
names, with the ranking pending. -/
theorem ranked_eq_ok {hint : RankingHint} {columns : List Nat} {outputs : List Output}
    {order : SortOrder} {limit : Option Nat}
    (h : plan.ranked hint columns outputs order limit = .ok out) :
    ∃ base targets rel ranking key time select, plan.withoutPending = .ok base ∧
      columns.mapM base.select.apply = .ok targets ∧
      renamed? base.rel targets outputs = .ok (some rel) ∧
      (∀ i ∈ time.columns, i ∈ base.time.columns) ∧ (base.time.Coherent → time.Coherent) ∧
      select.targets = targets ∧
      out = { withRanking { base with rel, key } ranking with time, select } := by
  unfold ranked at h
  obtain ⟨base, hbase, h⟩ := bind_eq_ok.1 h
  obtain ⟨partition, -, h⟩ := bind_eq_ok.1 h
  obtain ⟨moved, -, h⟩ := bind_eq_ok.1 h
  obtain ⟨targets, htargets, h⟩ := bind_eq_ok.1 h
  split at h
  · cases h
  · rename_i ranking _
    obtain ⟨renamed, hrenamed, h⟩ := bind_eq_ok.1 h
    rcases renamed with _ | rel
    · cases h
    · obtain ⟨key, -, h⟩ := bind_eq_ok.1 h
      obtain ⟨timed, htimed, h⟩ := bind_eq_ok.1 h
      obtain ⟨select, hselect, h⟩ := bind_eq_ok.1 h
      cases h
      obtain ⟨time, rfl, hsub, hcoh⟩ := withTimestamp_shape (lift_eq_ok.1 htimed)
      have htime : (withRanking { base with rel, key } ranking).time = base.time :=
        (withRanking_shape _ _).2.1
      exact ⟨base, targets, rel, ranking, key, time, select, hbase, orFault_eq_ok.1 htargets,
        lift_eq_ok.1 hrenamed, htime ▸ hsub, htime ▸ hcoh,
        (ColumnMap.of_targets (lift_eq_ok.1 hselect)).1, rfl⟩

/-- A ranking by the latest row goes by a timestamp candidate alone. -/
theorem latestFirst_eq_some {order : SortOrder} {time : EventTime} {c : Nat}
    (h : latestFirst order time = some c) : order = [⟨c, .descending⟩] ∧ c ∈ time.columns := by
  unfold latestFirst at h
  split at h
  · split at h
    · rename_i hc
      cases h
      exact ⟨rfl, EventTime.isCandidate_iff.1 hc⟩
    · cases h
  · cases h

/-- **The ranking that becomes pending**, with the key and the event time that it gives. -/
theorem ranked_ranks {hint : RankingHint} {columns : List Nat} {outputs : List Output}
    {order : SortOrder} {limit : Option Nat}
    (h : plan.ranked hint columns outputs order limit = .ok out) :
    ∃ base partition moved visible ranking rel key timed select, plan.withoutPending = .ok base ∧
      hint.partition.mapM plan.select.apply = .ok partition ∧
      order.remap plan.select.apply = .ok moved ∧
      base.ranking hint.kind partition visible moved limit = .ok ranking ∧
      key.targets = ranking.key.getD base.key.targets ∧
      (withRanking { base with rel, key } ranking).withTimestamp ranking.timestamp = .ok timed ∧
      out = { timed with select } := by
  unfold ranked at h
  obtain ⟨base, hbase, h⟩ := bind_eq_ok.1 h
  obtain ⟨partition, hpartition, h⟩ := bind_eq_ok.1 h
  obtain ⟨moved, hmoved, h⟩ := bind_eq_ok.1 h
  obtain ⟨visible, -, h⟩ := bind_eq_ok.1 h
  rw [(withoutPending_settled hbase).1.select] at hpartition hmoved
  split at h
  · cases h
  · rename_i ranking hranking
    obtain ⟨renamed, -, h⟩ := bind_eq_ok.1 h
    rcases renamed with _ | rel
    · cases h
    · obtain ⟨key, hkey, h⟩ := bind_eq_ok.1 h
      obtain ⟨timed, htimed, h⟩ := bind_eq_ok.1 h
      obtain ⟨select, -, h⟩ := bind_eq_ok.1 h
      cases h
      refine ⟨base, partition, moved, visible, ranking, rel, key, timed, select, hbase,
        orFault_eq_ok.1 hpartition, lift_eq_ok.1 hmoved, hranking, ?_, lift_eq_ok.1 htimed, rfl⟩
      unfold rankedKey at hkey
      split at hkey
      · rename_i columns hcolumns
        rw [hcolumns, (ColumnMap.of_targets (lift_eq_ok.1 hkey)).1, Option.getD_some]
      · rename_i hnone
        cases hkey
        rw [hnone, Option.getD_none]

end StreamPlan.Plan
