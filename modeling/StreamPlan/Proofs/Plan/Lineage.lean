import StreamPlan.Proofs.Plan.Aggregate
import StreamPlan.Proofs.Plan.Join
import StreamPlan.Proofs.Plan.Keeps
import StreamPlan.Proofs.Plan.Union
import StreamPlan.Proofs.Typing.Plan

/-!
# What becomes of a lineage

An operator over one input keeps the lineage of its input or loses it, and of the joins
only that of an entity with itself has one.

* `Plan.lineage_of_filtered`, `lineage_of_projected`, …: one lemma per operator.
* `Converter.lineage_of_joined`: a join that has a lineage is one of an entity with itself.
* `Converter.Traces`: a property of lineages and the trees they are about that scans and
  such joins have, and that is kept where rows are dropped.
* `Converter.Traces.keeps`: **then every plan with a lineage has it.**
-/

namespace StreamPlan

namespace Plan

variable {plan out : Plan}

theorem lineage_of_filtered {predicate : Expr} (ho : plan.filtered predicate = .ok out) :
    out.lineage = none ∨ out.lineage = plan.lineage := by
  unfold Plan.filtered at ho
  obtain ⟨base, hbase, ho⟩ := bind_eq_ok.1 ho
  obtain ⟨moved, -, ho⟩ := bind_eq_ok.1 ho
  obtain ⟨⟨next, remaining⟩, hnext, ho⟩ := bind_eq_ok.1 ho
  obtain ⟨time, nowFilter, rfl, -⟩ := extractNowFilters_shape hnext
  simp only at ho
  split at ho
  · cases ho
    exact .inr (withoutTopN_settled hbase).1.lineage
  · obtain ⟨needs, -, ho⟩ := bind_eq_ok.1 ho
    cases ho
    exact .inl rfl

theorem lineage_of_computed {outputs : List Output} (ho : plan.computed outputs = .ok out) :
    out.lineage = none := by
  unfold Plan.computed at ho
  obtain ⟨base, -, ho⟩ := bind_eq_ok.1 ho
  obtain ⟨moved, -, ho⟩ := bind_eq_ok.1 ho
  obtain ⟨needs, -, ho⟩ := bind_eq_ok.1 ho
  unfold Plan.projectedTo at ho
  obtain ⟨⟨below, carried⟩, -, ho⟩ := bind_eq_ok.1 ho
  obtain ⟨_, _, _, _, -, -, -, -, rfl⟩ := withOutputs_eq_ok ho
  rfl

/-- A projection that keeps the lineage changes names at most. -/
theorem lineage_of_projected {bare : Option (List Nat)} {outputs : List Output}
    (ho : Converter.projected plan bare outputs = .ok out) :
    out.lineage = none ∨ out.lineage = plan.lineage ∧ Renames plan.rel out.rel := by
  unfold Converter.projected at ho
  split at ho
  · exact .inl (lineage_of_computed ho)
  · obtain ⟨picked, hpicked, ho⟩ := bind_eq_ok.1 ho
    rcases picked with _ | picked
    · exact .inl (lineage_of_computed ho)
    · cases ho
      obtain ⟨_, rel, _, -, hr, -, rfl⟩ := picked?_eq_ok (lift_eq_ok.1 hpicked)
      exact .inr ⟨rfl, renamed?_renames hr⟩

theorem lineage_of_ranked {hint : RankingHint} {columns : List Nat} {outputs : List Output}
    {order : SortOrder} {limit : Option Nat}
    (ho : plan.ranked hint columns outputs order limit = .ok out) :
    out.lineage = none ∨ out.lineage = plan.lineage := by
  obtain ⟨base, _, rel, ranking, key, _, _, hbase, -, -, -, -, -, rfl⟩ := ranked_eq_ok ho
  refine (withRanking_shape { base with rel := rel, key := key } ranking).2.2.2.imp_right ?_
  exact fun hsame => hsame.trans (withoutPending_settled hbase).1.lineage

theorem lineage_of_sorted {order : SortOrder} {limit : Option Nat}
    (ho : plan.sorted order limit = .ok out) :
    out.lineage = none ∨ out.lineage = plan.lineage := by
  unfold Plan.sorted at ho
  obtain ⟨moved, -, ho⟩ := bind_eq_ok.1 ho
  rcases limit with _ | n
  · cases ho
    exact .inr rfl
  · obtain ⟨base, -, ho⟩ := bind_eq_ok.1 ho
    obtain ⟨needs, -, ho⟩ := bind_eq_ok.1 ho
    cases ho
    exact .inl rfl

end Plan

namespace Converter

variable {c : Converter} {plan out : Plan} {J : Lineage → Rel → Prop}

/-- **A join that has a lineage** is one of an entity with itself. -/
theorem lineage_of_joined {j : JoinInputs} (ho : c.joined j = .ok out) :
    out.lineage = none ∨ j.selfJoin? c = .ok (some out) := by
  rcases joined_eq_ok ho with h | h | h | h
  · exact .inr (attempt_eq_ok h)
  · obtain ⟨sides, -, hplan⟩ := JoinInputs.temporalJoin?_eq_ok (attempt_eq_ok h)
    obtain ⟨_, _, _, -, -, -, -, -, -, -, hlineage, -⟩ := JoinInputs.temporalPlan_eq_ok hplan
    exact .inl hlineage
  · obtain ⟨window, -, hplan⟩ := JoinInputs.intervalJoin?_eq_ok (attempt_eq_ok h)
    obtain ⟨_, _, _, -, -, -, -, -, -, -, hlineage, -⟩ := JoinInputs.intervalPlan_eq_ok hplan
    exact .inl hlineage
  · obtain ⟨_, _, _, -, -, -, -, -, -, -, hlineage, -⟩ := JoinInputs.statePlan_eq_ok h
    exact .inl hlineage

/-- A plan whose lineage has a property with the tree it is about. -/
def Traced (J : Lineage → Rel → Prop) (plan : Plan) : Prop :=
  ∀ l, plan.lineage = some l → J l plan.rel

theorem traced_of_none (h : plan.lineage = none) : Traced J plan := by
  intro l hl
  rw [h] at hl
  cases hl

theorem Traced.restricted (hJ : ∀ {l rel out}, J l rel → rel.Restricted out → J l out)
    (h : Traced J plan) (hr : plan.rel.Restricted out.rel)
    (hl : out.lineage = none ∨ out.lineage = plan.lineage) : Traced J out := by
  rcases hl with hnone | hsame
  · exact traced_of_none hnone
  · exact fun l hl => hJ (h l (hsame ▸ hl)) hr

/-- A property of lineages and trees that scans have, that fewer rows keep, and that goes
from two rows of an entity to the merged one. -/
structure Traces (c : Converter) (J : Lineage → Rel → Prop) : Prop where
  scan : ∀ {relation plan}, c.scanPlan relation = .ok plan → Traced J plan
  restrict : ∀ {l rel out}, J l rel → rel.Restricted out → J l out
  merge : ∀ {left right out kind condition j}, Traced J left → Traced J right →
    JoinInputs.of left right kind condition = .ok j → j.selfJoin? c = .ok (some out) → Traced J out

/-- **What scans and self-joins have**, every plan with a lineage has. -/
theorem Traces.keeps (h : c.Traces J) : c.Keeps (Traced J) where
  scan := h.scan
  filter _ hi ho :=
    hi.restricted h.restrict (Plan.filtered_restricted ho) (Plan.lineage_of_filtered ho)
  project _ hi ho := by
    rcases Plan.lineage_of_projected ho with hnone | ⟨hsame, hr⟩
    · exact traced_of_none hnone
    · exact hi.restricted h.restrict (Rel.Restricted.same.renames hr) (.inr hsame)
  rank _ hi ho := hi.restricted h.restrict (Plan.ranked_restricted ho) (Plan.lineage_of_ranked ho)
  join _ _ hl hr hj ho := by
    rcases lineage_of_joined ho with hnone | hself
    · exact traced_of_none hnone
    · exact h.merge hl hr hj hself
  aggregate _ _ ho := traced_of_none (Plan.lineage_of_aggregated ho)
  union _ _ ho := by
    obtain ⟨-, _, _, -, -, -, hlineage, -⟩ := Plan.united_eq_ok ho
    exact traced_of_none hlineage
  sort _ hi ho := hi.restricted h.restrict (Plan.sorted_restricted ho) (Plan.lineage_of_sorted ho)
  settle hi ho := hi.restricted h.restrict (Plan.withoutPending_restricted ho)
    (.inr (Plan.withoutPending_settled ho).1.lineage)

end Converter

end StreamPlan
