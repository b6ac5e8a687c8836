import StreamPlan.Plan.Filter
import StreamPlan.Proofs.EventTime.Bound
import StreamPlan.Proofs.EventTime.Candidates
import StreamPlan.Proofs.Plan.Sound

/-!
# What filters are made of

* `Plan.addNowFilter_eq_ok`, `extractNowFilters_shape`: now-filters that are
  taken out of a condition change the event time and what is pending, and
  nothing else.
* `Plan.extractNowFilters_pending`: what is pending is on a candidate.
* `Plan.extractNowFilters_takes`: which conditions are taken out.
-/

namespace StreamPlan.Plan

variable {plan out : Plan}

/-- One more now-filter changes the event time and what is pending. -/
theorem addNowFilter_eq_ok {filter : NowFilter} (h : plan.addNowFilter filter = .ok out) :
    ∃ merged time, plan.mergedWith filter = .ok merged ∧ plan.time.fix filter.timestamp = .ok time ∧
      out = { plan with time, nowFilter := some merged } := by
  unfold addNowFilter at h
  obtain ⟨merged, hm, h⟩ := bind_eq_ok.1 h
  obtain ⟨time, ht, h⟩ := bind_eq_ok.1 h
  cases h
  exact ⟨merged, time, hm, lift_eq_ok.1 ht, rfl⟩

/-- Now-filters that are taken out change the event time and what is pending. -/
theorem extractNowFilters_shape {conditions remaining : List Expr} :
    ∀ {plan : Plan}, plan.extractNowFilters conditions = .ok (out, remaining) →
      ∃ time nowFilter, out = { plan with time, nowFilter } ∧
        (∀ i ∈ time.columns, i ∈ plan.time.columns) ∧ (plan.time.Coherent → time.Coherent) := by
  induction conditions generalizing remaining with
  | nil =>
    intro plan h
    cases h
    exact ⟨_, _, rfl, fun _ hi => hi, id⟩
  | cons condition conditions ih =>
    intro plan h
    unfold extractNowFilters at h
    obtain ⟨stated, -, h⟩ := bind_eq_ok.1 h
    rcases stated with _ | filter
    · obtain ⟨⟨next, rest⟩, hnext, h⟩ := bind_eq_ok.1 h
      cases h
      exact ih hnext
    · obtain ⟨next, hnext, h⟩ := bind_eq_ok.1 h
      obtain ⟨merged, fixed, -, hfix, rfl⟩ := addNowFilter_eq_ok hnext
      obtain ⟨time, nowFilter, rfl, hsub, hcoh⟩ := ih h
      obtain ⟨hcolumns, -, hmem⟩ := EventTime.fix_columns hfix
      refine ⟨time, nowFilter, rfl, fun i hi => ?_, fun _ => hcoh (EventTime.coherent_of_fix hfix)⟩
      have hi := hsub i hi
      rw [hcolumns, List.mem_singleton] at hi
      exact hi ▸ hmem

/-- A merged now-filter is on the timestamp of both. -/
theorem timestamp_of_mergedWith {filter merged : NowFilter}
    (h : plan.mergedWith filter = .ok merged) : merged.timestamp = filter.timestamp := by
  unfold mergedWith at h
  split at h
  · cases h
    rfl
  · rename_i pending hp
    split at h
    · rename_i both hboth
      cases h
      obtain ⟨hts, -, rfl⟩ := NowFilter.merge?_eq_some hboth
      rcases NowFilter.tighter_eq pending filter with ht | ht
      · rw [ht, hts]
      · rw [ht]
    · cases h

/-- A now-filter that is taken out is on the timestamp that it fixes. -/
theorem extractNowFilters_pending {conditions remaining : List Expr} :
    ∀ {plan : Plan}, (∀ f, plan.nowFilter = some f → f.timestamp ∈ plan.time.columns) →
      plan.extractNowFilters conditions = .ok (out, remaining) →
      ∀ f, out.nowFilter = some f → f.timestamp ∈ out.time.columns := by
  induction conditions generalizing remaining with
  | nil =>
    intro plan hp h
    cases h
    exact hp
  | cons condition conditions ih =>
    intro plan hp h
    unfold extractNowFilters at h
    obtain ⟨stated, -, h⟩ := bind_eq_ok.1 h
    rcases stated with _ | filter
    · obtain ⟨⟨next, rest⟩, hnext, h⟩ := bind_eq_ok.1 h
      cases h
      exact ih hp hnext
    · obtain ⟨next, hnext, h⟩ := bind_eq_ok.1 h
      obtain ⟨merged, time, hmerged, hfix, rfl⟩ := addNowFilter_eq_ok hnext
      refine ih ?_ h
      rintro f ⟨⟩
      rw [(EventTime.fix_columns hfix).1, timestamp_of_mergedWith hmerged]
      exact List.mem_singleton.2 rfl

/-- A now-filter over a candidate is one over more candidates. -/
theorem statedNowFilter_mono {fewer more : EventTime} {condition : Expr} {filter : NowFilter}
    (hm : ∀ i ∈ fewer.columns, i ∈ more.columns)
    (h : statedNowFilter fewer condition = .ok (some filter)) :
    statedNowFilter more condition = .ok (some filter) := by
  unfold statedNowFilter at h ⊢
  split at h
  · rename_i hnow
    rw [if_pos hnow]
    obtain ⟨bound, hbound, h⟩ := bind_eq_ok.1 h
    rcases bound with _ | bound
    · cases h
    · rw [TimeBound.ofExpr?_mono (fun i hi =>
        EventTime.isCandidate_iff.2 (hm i (EventTime.isCandidate_iff.1 hi))) hbound]
      exact h
  · cases h

/-- **A condition remains or is taken out as a now-filter**, which is then pending. -/
theorem extractNowFilters_takes {conditions remaining : List Expr} :
    ∀ {plan : Plan}, plan.extractNowFilters conditions = .ok (out, remaining) →
      (plan.nowFilter.isSome → out.nowFilter.isSome) ∧
        ∀ k ∈ conditions, k ∈ remaining ∨
          out.nowFilter.isSome ∧ ∃ f, statedNowFilter plan.time k = .ok (some f) := by
  induction conditions generalizing remaining with
  | nil =>
    intro plan h
    cases h
    exact ⟨id, by simp⟩
  | cons condition conditions ih =>
    intro plan h
    unfold extractNowFilters at h
    obtain ⟨stated, hstated, h⟩ := bind_eq_ok.1 h
    rcases stated with _ | filter
    · obtain ⟨⟨next, rest⟩, hnext, h⟩ := bind_eq_ok.1 h
      cases h
      obtain ⟨hpending, htaken⟩ := ih hnext
      exact ⟨hpending, List.forall_mem_cons.2
        ⟨.inl List.mem_cons_self, fun k hk => (htaken k hk).imp_left (List.mem_cons_of_mem _)⟩⟩
    · obtain ⟨next, hnext, h⟩ := bind_eq_ok.1 h
      obtain ⟨merged, time, -, hfix, rfl⟩ := addNowFilter_eq_ok hnext
      obtain ⟨hpending, htaken⟩ := ih h
      obtain ⟨hcolumns, -, hmem⟩ := EventTime.fix_columns hfix
      refine ⟨fun _ => hpending rfl, List.forall_mem_cons.2
        ⟨.inr ⟨hpending rfl, filter, lift_eq_ok.1 hstated⟩, fun k hk => ?_⟩⟩
      -- the first now-filter leaves one candidate of those before
      refine (htaken k hk).imp_right fun ⟨hout, f, hf⟩ => ⟨hout, f, statedNowFilter_mono ?_ hf⟩
      intro i hi
      rw [hcolumns, List.mem_singleton] at hi
      exact hi ▸ hmem

end StreamPlan.Plan
