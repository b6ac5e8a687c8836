import StreamPlan.Proofs.Answers.Materialized
import StreamPlan.Proofs.Answers.Pending
import StreamPlan.Proofs.Stage.Requirements

/-!
# Calls that cannot apply what is pending

A pending constraint needs a capability of the stage. A call that misses one gives
the plan as far as it came, and no constraint should be lost on the way.

* `Plan.Advances`: some of the pending constraints of a plan became operators, and
  nothing else changed but what is recorded.
* `Plan.Advances.pending_of_rel_eq`: no constraint becomes an operator unless the
  tree grows.
* `Plan.failed_inline`: **a call that misses the sorting loses nothing; one that
  misses the current time loses the now-filter**, which is neither pending nor applied.
-/

namespace StreamPlan

namespace Plan

variable {plan mid out : Plan} {missing : MissingCapability}

/-- The plans that come from a plan by recording capabilities of its stage and by
making pending constraints operators on top of its tree. -/
inductive Advances (plan : Plan) : Plan → Prop
  | refl : Advances plan plan
  | record {mid : Plan} {needs : Requirements} (h : Advances plan mid)
      (hneeds : mid.needs.Extends needs) : Advances plan { mid with needs }
  | filter {mid : Plan} {filter : NowFilter} (h : Advances plan mid)
      (hpending : mid.nowFilter = some filter) :
      Advances plan { mid with nowFilter := none, rel := filter.onto mid.rel }
  | rank {mid : Plan} (h : Advances plan mid) (hpending : mid.topN.isEmpty = false) :
      Advances plan { mid with topN := .none, rel := mid.topN.onto mid.rel }

namespace Advances

/-- Everything but the tree and what is pending stays, and the columns of the tree do. -/
theorem settled (h : plan.Advances out) : plan.Settled out := by
  induction h with
  | refl => exact .refl plan
  | record _ hneeds ih =>
    exact ih.trans ⟨rfl, rfl, rfl, rfl, hneeds.stage, rfl, rfl, rfl, rfl, rfl, .inr rfl, .inr rfl⟩
  | filter _ _ ih =>
    refine ih.trans ⟨rfl, rfl, rfl, rfl, rfl, rfl, rfl, rfl, ?_, ?_, .inl rfl, .inr rfl⟩
    · rw [NowFilter.onto, Rel.width]
    · rw [NowFilter.onto, Rel.fields]
  | rank _ _ ih =>
    exact ih.trans ⟨rfl, rfl, rfl, rfl, rfl, rfl, rfl, rfl, width_onto _ _, fields_onto _ _,
      .inr rfl, .inl rfl⟩

/-- An applied constraint stands on top of the tree. -/
theorem sizeOf_onto {topN : TopN} (h : topN.isEmpty = false) (rel : Rel) :
    sizeOf rel < sizeOf (topN.onto rel) := by
  rw [TopN.onto, if_neg (by rw [h]; rintro ⟨⟩)]
  simp only
  split <;> simp only [Rel.firstRows.sizeOf_spec, Rel.sort.sizeOf_spec] <;> omega

/-- The tree grows, or everything is pending that was. -/
theorem pending_or_grows (h : plan.Advances out) :
    out.rel = plan.rel ∧ out.nowFilter = plan.nowFilter ∧ out.topN = plan.topN ∨
      sizeOf plan.rel < sizeOf out.rel := by
  have hle : ∀ {mid : Plan}, (mid.rel = plan.rel ∧ mid.nowFilter = plan.nowFilter ∧
      mid.topN = plan.topN ∨ sizeOf plan.rel < sizeOf mid.rel) → sizeOf plan.rel ≤ sizeOf mid.rel := by
    rintro mid (⟨hrel, -, -⟩ | hlt)
    · exact hrel ▸ Nat.le_refl _
    · exact Nat.le_of_lt hlt
  induction h with
  | refl => exact .inl ⟨rfl, rfl, rfl⟩
  | record _ _ ih => exact ih
  | @filter mid filter _ _ ih =>
    have hgrows : sizeOf mid.rel < sizeOf (filter.onto mid.rel) := by
      rw [NowFilter.onto, Rel.filter.sizeOf_spec]
      omega
    exact .inr (Nat.lt_of_le_of_lt (hle ih) hgrows)
  | rank _ hpending ih => exact .inr (Nat.lt_of_le_of_lt (hle ih) (sizeOf_onto hpending _))

/-- **What is not pending any more is an operator**: where the tree is the same,
everything is still pending. -/
theorem pending_of_rel_eq (h : plan.Advances out) (hrel : out.rel = plan.rel) :
    out.nowFilter = plan.nowFilter ∧ out.topN = plan.topN := by
  rcases h.pending_or_grows with ⟨-, hpending⟩ | hgrows
  · exact hpending
  · rw [hrel] at hgrows
    exact absurd hgrows (Nat.lt_irrefl _)

end Advances

/-- An applied now-filter is an operator below the ranking. -/
theorem inlineNowFilter_advances (h : plan.inlineNowFilter.2 = none) :
    plan.Advances plan.inlineNowFilter.1 ∧
      plan.inlineNowFilter.1.settledRel = plan.settledRel := by
  unfold inlineNowFilter at h ⊢
  cases hn : plan.nowFilter with
  | none => exact ⟨.refl, rfl⟩
  | some filter =>
    simp only [hn] at h ⊢
    cases hreq : plan.needs.require .nowFunction with
    | error missing => rw [hreq] at h; cases h
    | ok needs =>
      refine ⟨(Advances.refl.record (Requirements.require_eq_ok hreq).1).filter hn, ?_⟩
      simp only [settledRel, filteredRel, hn]

/-- A plan whose now-filter cannot be applied is left without it. -/
theorem inlineNowFilter_loses (h : plan.inlineNowFilter.2 = some missing) :
    plan.Lacks missing ∧ missing.capability = .nowFunction ∧ plan.nowFilter ≠ none ∧
      plan.inlineNowFilter.1 = { plan with nowFilter := none } := by
  unfold inlineNowFilter at h ⊢
  cases hn : plan.nowFilter with
  | none => rw [hn] at h; cases h
  | some filter =>
    simp only [hn] at h ⊢
    cases hreq : plan.needs.require .nowFunction with
    | ok needs => rw [hreq] at h; cases h
    | error lacking =>
      rw [hreq] at h
      cases h
      obtain ⟨rfl, hno⟩ := require_eq_error hreq
      exact ⟨⟨rfl, hno, .inl ⟨rfl, by rw [hn]; rintro ⟨⟩⟩⟩, rfl, by rintro ⟨⟩, rfl⟩

/-- A plan whose ranking cannot be applied stays as it is. -/
theorem inlineTopN_leaves (h : plan.inlineTopN.2 = some missing) : plan.inlineTopN.1 = plan := by
  unfold inlineTopN at h ⊢
  split at h
  · cases h
  · rename_i hpending
    rw [if_neg hpending]
    cases hreq : plan.needs.require .sort with
    | ok needs => rw [hreq] at h; cases h
    | error _ => rfl

/-- What is applied first is the now-filter, and the ranking only after it. -/
theorem inlineAll_cases (plan : Plan) :
    plan.inlineNowFilter.2 = none ∧ plan.inlineAll = plan.inlineNowFilter.1.inlineTopN ∨
      plan.inlineNowFilter.2 ≠ none ∧ plan.inlineAll = plan.inlineNowFilter := by
  unfold inlineAll
  rcases plan.inlineNowFilter with ⟨mid, _ | missing⟩
  · exact .inl ⟨rfl, rfl⟩
  · exact .inr ⟨by rintro ⟨⟩, rfl⟩

/-- A capability that is missing for all that is pending is one that the plan lacks. -/
theorem lacks_of_inlineAll (h : plan.inlineAll.2 = some missing) : plan.Lacks missing := by
  have hfails : plan.withoutPending = .error (.refused (.capability missing)) := by
    rw [withoutPending, show plan.inlineAll = (plan.inlineAll.1, some missing) from h ▸ rfl]
    rfl
  obtain ⟨_, heq, hlacks⟩ := withoutPending_fails hfails
  cases heq
  exact hlacks

/-- A plan that lost its now-filter is none that its constraints advance to: the
filter is not pending, and the tree is the same. -/
theorem not_advances_of_lost (h : plan.nowFilter ≠ none) :
    ¬plan.Advances { plan with nowFilter := none } := fun hadvances =>
  h (hadvances.pending_of_rel_eq rfl).1.symm

/-- What a failed call leaves of a plan: everything, with every constraint pending or
an operator, if the sorting is missing; everything but the now-filter, if the current
time is. -/
def FailsWith (plan : Plan) (missing : MissingCapability) (out : Plan) : Prop :=
  missing.capability = .sort ∧ plan.Advances out ∧ out.settledRel = plan.settledRel ∨
    missing.capability = .nowFunction ∧ plan.nowFilter ≠ none ∧
      out = { plan with nowFilter := none } ∧ ¬plan.Advances out

theorem inlineNowFilter_failsWith (h : plan.inlineNowFilter.2 = some missing) :
    plan.FailsWith missing plan.inlineNowFilter.1 := by
  obtain ⟨-, hcapability, hsome, hlost⟩ := inlineNowFilter_loses h
  exact .inr ⟨hcapability, hsome, hlost, hlost ▸ not_advances_of_lost hsome⟩

theorem inlineAll_failsWith (h : plan.inlineAll.2 = some missing) :
    plan.FailsWith missing plan.inlineAll.1 := by
  rcases plan.inlineAll_cases with ⟨hfirst, hall⟩ | ⟨-, hall⟩
  · -- the now-filter is applied, and the ranking stays pending above it
    rw [hall] at h ⊢
    obtain ⟨hadvances, hsettled⟩ := inlineNowFilter_advances hfirst
    rw [inlineTopN_leaves h]
    exact .inl ⟨(inlineTopN_missing h).2, hadvances, hsettled⟩
  · rw [hall] at h ⊢
    exact inlineNowFilter_failsWith h

/-- **A call that cannot apply what is pending** misses a capability that the plan
lacks. If it is the sorting, every constraint is still pending or an operator, and the
tree with all of them applied is the same. If it is the current time, the now-filter
is lost. -/
theorem failed_inline {inline : Plan → Plan × Option MissingCapability}
    (hi : inline ∈ [inlineNowFilter, inlineTopN, inlineAll]) (h : (inline plan).2 = some missing) :
    plan.Lacks missing ∧ plan.FailsWith missing (inline plan).1 := by
  simp only [List.mem_cons, List.not_mem_nil, or_false] at hi
  obtain rfl | rfl | rfl := hi
  · exact ⟨(inlineNowFilter_loses h).1, inlineNowFilter_failsWith h⟩
  · obtain ⟨hlacks, hcapability⟩ := inlineTopN_missing h
    rw [inlineTopN_leaves h]
    exact ⟨hlacks, .inl ⟨hcapability, .refl, rfl⟩⟩
  · exact ⟨lacks_of_inlineAll h, inlineAll_failsWith h⟩

/-- Recent payloads of each event, latest first, on a stage that cannot sort. -/
def unsortedPayloads : Plan :=
  { payloads with
    needs := .start ((Stage.stream "stream").without .sort)
    topN := .latestPerKey [0] 1 }

/-- The now-filter of these payloads is applied, and their ranking stays pending. -/
theorem unsortedPayloads_fail :
    unsortedPayloads.inlineAll.1.nowFilter = none ∧
      unsortedPayloads.inlineAll.1.topN = .latestPerKey [0] 1 ∧
      unsortedPayloads.FailsWith ⟨"stream", .sort⟩ unsortedPayloads.inlineAll.1 :=
  ⟨rfl, rfl, (failed_inline (by simp) rfl).2⟩

end Plan

namespace Converter

/-- The table of recent events on a stage that does not know the current time. -/
def overTimelessEvents : Converter :=
  { overEvents with
    pipeline := ⟨[(Stage.stream "stream").without .nowFunction], by decide⟩
    stage := (Stage.stream "stream").without .nowFunction }

/-- Where the stage does not know the current time, the now-filter of a plan is gone
after a call that failed to apply it. -/
theorem recent_events_lose_their_filter :
    ∃ plan, overTimelessEvents.convert scannedEvents = .ok plan ∧
      plan.nowFilter = some ⟨1, .gt, 100⟩ ∧
      plan.inlineNowFilter.2 = some ⟨"stream", .nowFunction⟩ ∧
      plan.inlineNowFilter.1.nowFilter = none ∧ plan.inlineNowFilter.1.rel = plan.rel ∧
      ¬plan.Advances plan.inlineNowFilter.1 :=
  ⟨_, rfl, rfl, rfl, rfl, rfl, Plan.not_advances_of_lost (by rintro ⟨⟩)⟩

end Converter

end StreamPlan
