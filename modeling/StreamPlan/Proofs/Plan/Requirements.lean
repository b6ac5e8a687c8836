import StreamPlan.Plan.Convert
import StreamPlan.Proofs.Plan.Aggregate
import StreamPlan.Proofs.Plan.Columns
import StreamPlan.Proofs.Plan.Filter
import StreamPlan.Proofs.Plan.Ranking
import StreamPlan.Proofs.Plan.Union
import StreamPlan.Proofs.Stage.Requirements

/-!
# What the operators of a plan require

* `Rel.Adds`: a tree built on another one by operators that need some capabilities.
* `Plan.BuiltOn`: a plan whose tree is built on that of another plan, with what the
  further operators need recorded. Every operator over one input gives such a plan
  (`builtOn_filtered`, `builtOn_projected`, `aggregated_requires`, …).
* `Plan.pendingCapabilities`: what the pending constraints of a plan would need.
-/

namespace StreamPlan

/-- A tree built on another one by operators that need nothing but some capabilities. -/
def Rel.Adds (rel out : Rel) (caps : List Capability) : Prop :=
  ∀ op ∈ out.preorder, op ∈ rel.preorder ∨ ∀ cap ∈ op.capabilities, cap ∈ caps

namespace Rel.Adds

variable {rel mid out : Rel} {caps more : List Capability}

theorem refl (rel : Rel) (caps : List Capability) : rel.Adds rel caps := fun _ h => .inl h

theorem mono (h : rel.Adds out caps) (hc : ∀ cap ∈ caps, cap ∈ more) : rel.Adds out more :=
  fun op hop => (h op hop).imp_right fun hneeds cap hcap => hc cap (hneeds cap hcap)

theorem trans (h : rel.Adds mid caps) (h' : mid.Adds out caps) : rel.Adds out caps := by
  intro op hop
  rcases h' op hop with hop | hneeds
  · exact h op hop
  · exact .inr hneeds

/-- One more operator on top. -/
theorem root (h : rel.Adds mid caps) (hp : out.preorder = out :: mid.preorder)
    (hc : ∀ cap ∈ out.capabilities, cap ∈ caps) : rel.Adds out caps := by
  intro op hop
  rw [hp] at hop
  rcases List.mem_cons.1 hop with rfl | hop
  · exact .inr hc
  · exact h op hop

theorem project (h : rel.Adds mid caps) (outputs : List Output) (hint : Option RankingHint) :
    rel.Adds (.project mid outputs hint) caps :=
  h.root rfl (by rintro _ ⟨⟩)

/-- A ranking that is applied needs to sort. -/
theorem onto (topN : TopN) (rel : Rel) : rel.Adds (topN.onto rel) [.sort] := by
  unfold TopN.onto
  split
  · exact .refl _ _
  · simp only
    split
    · exact (refl rel _).root rfl fun _ h => h
    · have hsorted : rel.Adds (.sort rel topN.order none none) [.sort] :=
        (refl rel _).root rfl fun _ h => h
      exact hsorted.root rfl fun _ h => h

/-- A now-filter that is applied needs the current time. -/
theorem nowFilter (filter : NowFilter) (rel : Rel) :
    rel.Adds (filter.onto rel) [.nowFunction] :=
  (refl rel _).root rfl fun _ h => h

theorem renames (h : Plan.Renames rel out) : rel.Adds out caps := by
  cases h with
  | same => exact .refl _ _
  | project => exact (refl _ _).project _ _

end Rel.Adds

namespace Plan

variable {plan mid out : Plan}

/-- A plan whose tree is built on that of another plan. What it needs besides is recorded. -/
structure BuiltOn (plan out : Plan) : Prop where
  needs : plan.needs.Extends out.needs
  rel : plan.rel.Adds out.rel out.needs.required

theorem BuiltOn.refl (plan : Plan) : plan.BuiltOn plan := ⟨.refl _, .refl _ _⟩

theorem BuiltOn.trans (h : plan.BuiltOn mid) (h' : mid.BuiltOn out) : plan.BuiltOn out :=
  ⟨h.needs.trans h'.needs, (h.rel.mono h'.needs.mem).trans h'.rel⟩

/-- The capabilities that the pending constraints of a plan would need. -/
def pendingCapabilities (plan : Plan) : List Capability :=
  (if plan.nowFilter.isSome then [.nowFunction] else [])
    ++ if plan.topN.isEmpty then [] else [.sort]

theorem builtOn_withoutNowFilter (h : plan.withoutNowFilter = .ok out) : plan.BuiltOn out := by
  rcases withoutNowFilter_eq_ok h with ⟨-, rfl⟩ | ⟨f, needs, -, hr, rfl⟩
  · exact .refl _
  · obtain ⟨hneeds, hnow⟩ := Requirements.require_eq_ok hr
    exact ⟨hneeds, (Rel.Adds.nowFilter f plan.rel).mono (by simpa using hnow)⟩

theorem builtOn_withoutTopN (h : plan.withoutTopN = .ok out) : plan.BuiltOn out := by
  rcases withoutTopN_eq_ok h with ⟨-, rfl⟩ | ⟨needs, -, hr, rfl⟩
  · exact .refl _
  · obtain ⟨hneeds, hsort⟩ := Requirements.require_eq_ok hr
    exact ⟨hneeds, (Rel.Adds.onto plan.topN plan.rel).mono (by simpa using hsort)⟩

theorem builtOn_withoutPending (h : plan.withoutPending = .ok out) : plan.BuiltOn out := by
  obtain ⟨mid, hmid, hout⟩ := withoutPending_eq_ok.1 h
  exact (builtOn_withoutNowFilter hmid).trans (builtOn_withoutTopN hout)

/-- Applying what is pending adds operators that need no more than that. -/
theorem adds_withoutPending (h : plan.withoutPending = .ok out) :
    plan.rel.Adds out.rel plan.pendingCapabilities := by
  obtain ⟨mid, hmid, hout⟩ := withoutPending_eq_ok.1 h
  have htop : mid.topN = plan.topN := (withoutNowFilter_settled hmid).2.2
  refine (?_ : plan.rel.Adds mid.rel _).trans ?_
  · rcases withoutNowFilter_eq_ok hmid with ⟨-, rfl⟩ | ⟨f, needs, hf, -, rfl⟩
    · exact .refl _ _
    · refine (Rel.Adds.nowFilter f plan.rel).mono fun cap hcap => ?_
      rw [pendingCapabilities, hf]
      exact List.mem_append_left _ hcap
  · rcases withoutTopN_eq_ok hout with ⟨-, rfl⟩ | ⟨needs, hne, -, rfl⟩
    · exact .refl _ _
    · refine (Rel.Adds.onto mid.topN mid.rel).mono fun cap hcap => ?_
      rw [htop] at hne
      rw [pendingCapabilities, hne]
      exact List.mem_append_right _ hcap

/-- A plan without pending constraints would need nothing for them. -/
theorem pendingCapabilities_eq_nil (hn : plan.nowFilter = none) (ht : plan.topN.isEmpty = true) :
    plan.pendingCapabilities = [] := by
  rw [pendingCapabilities, hn, ht]
  rfl

/-- **A filter** needs what its conditions do, unless they are taken out. -/
theorem builtOn_filtered {predicate : Expr} (h : plan.filtered predicate = .ok out) :
    plan.BuiltOn out := by
  unfold filtered at h
  obtain ⟨base, hbase, h⟩ := bind_eq_ok.1 h
  obtain ⟨moved, -, h⟩ := bind_eq_ok.1 h
  obtain ⟨⟨next, remaining⟩, hnext, h⟩ := bind_eq_ok.1 h
  obtain ⟨time, nowFilter, rfl, -⟩ := extractNowFilters_shape hnext
  refine (builtOn_withoutTopN hbase).trans ?_
  simp only at h
  split at h
  · cases h
    exact ⟨.refl _, .refl _ _⟩
  · obtain ⟨needs, hneeds, h⟩ := bind_eq_ok.1 h
    cases h
    obtain ⟨hextends, hrequired⟩ := Requirements.requireExprs_eq_ok (needing_eq_ok.1 hneeds)
    refine ⟨hextends, (Rel.Adds.refl base.rel _).root rfl fun cap hcap => ?_⟩
    obtain ⟨e, he, hcap⟩ := Expr.mem_capabilities_all hcap
    exact hrequired e he cap hcap

theorem builtOn_projectedTo {outputs : List Output} (h : plan.projectedTo outputs = .ok out) :
    plan.BuiltOn out := by
  obtain ⟨below, carried, hcarry, h⟩ := projectedTo_eq_ok h
  obtain ⟨_, _, _, _, -, -, -, -, rfl⟩ := withOutputs_eq_ok h
  have hbelow : plan.BuiltOn below := by
    cases hcarry with
    | applied _ _ _ hb => exact builtOn_withoutNowFilter hb
    | _ => exact ⟨.refl _, .refl _ _⟩
  exact ⟨hbelow.needs, hbelow.rel.project _ _⟩

/-- **Computed outputs** need what the functions in them do. -/
theorem builtOn_computed {outputs : List Output} (h : plan.computed outputs = .ok out) :
    plan.BuiltOn out := by
  obtain ⟨base, needs, moved, hbase, -, hneeds, h⟩ := computed_eq_ok h
  obtain ⟨hextends, -⟩ := Requirements.requireExprs_eq_ok hneeds
  have hrecorded : BuiltOn base { base with needs } := ⟨hextends, .refl _ _⟩
  exact (builtOn_withoutTopN hbase).trans (hrecorded.trans (builtOn_projectedTo h))

/-- **A projection**, whether its outputs are computed or only picked. -/
theorem builtOn_projected {bare : Option (List Nat)} {outputs : List Output}
    (h : Converter.projected plan bare outputs = .ok out) : plan.BuiltOn out := by
  unfold Converter.projected at h
  split at h
  · exact builtOn_computed h
  · obtain ⟨picked, hpicked, h⟩ := bind_eq_ok.1 h
    rcases picked with _ | picked
    · exact builtOn_computed h
    · cases h
      obtain ⟨_, rel, _, -, hr, -, rfl⟩ := picked?_eq_ok (lift_eq_ok.1 hpicked)
      exact ⟨.refl _, .renames (renamed?_renames hr)⟩

/-- **A ranking** needs nothing while it is pending. -/
theorem builtOn_ranked {hint : RankingHint} {columns : List Nat} {outputs : List Output}
    {order : SortOrder} {limit : Option Nat}
    (h : plan.ranked hint columns outputs order limit = .ok out) : plan.BuiltOn out := by
  obtain ⟨base, _, rel, ranking, _, _, _, hbase, -, hrenamed, -, -, -, rfl⟩ := ranked_eq_ok h
  refine (builtOn_withoutPending hbase).trans ?_
  have hr := renamed?_renames hrenamed
  unfold withRanking
  split <;> exact ⟨.refl _, .renames hr⟩

/-- **A sort** is recorded where it has a limit. -/
theorem builtOn_sorted {order : SortOrder} {limit : Option Nat}
    (h : plan.sorted order limit = .ok out) : plan.BuiltOn out := by
  unfold sorted at h
  obtain ⟨moved, -, h⟩ := bind_eq_ok.1 h
  rcases limit with _ | n
  · cases h
    exact ⟨.refl _, .refl _ _⟩
  · obtain ⟨base, hbase, h⟩ := bind_eq_ok.1 h
    obtain ⟨needs, hneeds, h⟩ := bind_eq_ok.1 h
    cases h
    obtain ⟨hextends, -⟩ := Requirements.require_eq_ok (needing_eq_ok.1 hneeds)
    have hbelow := builtOn_withoutPending hbase
    exact ⟨hbelow.needs.trans hextends, hbelow.rel.mono hextends.mem⟩

theorem builtOn_align (h : plan.align = .ok out) : plan.BuiltOn out := by
  unfold align at h
  obtain ⟨base, hbase, h⟩ := bind_eq_ok.1 h
  refine (builtOn_withoutPending hbase).trans ?_
  simp only at h
  split at h
  · cases h
    exact .refl _
  · obtain ⟨_, _, _, -, -, -, rfl⟩ := keepColumns_eq_ok (lift_eq_ok.1 h)
    exact ⟨.refl _, (Rel.Adds.refl _ _).project _ _⟩

theorem builtOn_asBranch {position : Nat} (h : plan.asBranch position = .ok out) :
    plan.BuiltOn out := by
  unfold asBranch at h
  obtain ⟨base, hbase, h⟩ := bind_eq_ok.1 h
  obtain ⟨aligned, haligned, h⟩ := bind_eq_ok.1 h
  have ha := builtOn_align haligned
  split at h
  · cases h
    exact (builtOn_withoutPending hbase).trans ⟨ha.needs, ha.rel⟩
  · cases h

section Aggregations

variable {keys : List Nat} {calls : List AggregateCall}

/-- A grouped tree on top of a plan that requires to aggregate. -/
theorem builtOn_groupedAs {kind : TableKind} {layout : GroupLayout} {hint : Option AggregateHint}
    (h : plan.groupedAs kind layout calls hint = .ok out) (ha : .aggregate ∈ plan.needs.required) :
    plan.BuiltOn out := by
  obtain ⟨key, select, rfl⟩ := groupedAs_eq_ok h
  exact ⟨.refl _, (Rel.Adds.refl _ _).root rfl
    (by simpa [bare, Rel.capabilities] using ha)⟩

theorem builtOn_carryOver {timestamp : Nat} {below : Plan} {carried : Option NowFilter}
    (h : plan.carryOver timestamp = .ok (below, carried)) : plan.BuiltOn below := by
  rcases carryOver_eq_ok h with rfl | h
  · exact ⟨.refl _, .refl _ _⟩
  · exact builtOn_withoutNowFilter h

/-- One more capability is recorded. -/
theorem builtOn_require {cap : Capability} {needs : Requirements}
    (h : plan.needs.require cap = .ok needs) : plan.BuiltOn { plan with needs } :=
  ⟨(Requirements.require_eq_ok h).1, .refl _ _⟩

theorem builtOn_running (h : plan.running keys calls = .ok out) : plan.BuiltOn out := by
  obtain ⟨_, _, _, _, _, _, _, hneeds, hbelow, -, -, -, rfl⟩ := running_eq_ok h
  refine ((builtOn_require hneeds).trans (builtOn_withoutNowFilter hbelow)).trans ?_
  exact ⟨.refl _, (Rel.Adds.refl _ _).project _ _⟩

/-- A plan that requires to aggregate is built on by its aggregations. -/
theorem Aggregated.builtOn (h : plan.Aggregated keys calls out)
    (ha : .aggregate ∈ plan.needs.required) : plan.BuiltOn out := by
  cases h with
  | timed hneeds hcarry _ _ hgrouped =>
    have hbelow := (builtOn_require hneeds).trans (builtOn_carryOver hcarry)
    have hout := hbelow.trans (builtOn_groupedAs hgrouped (hbelow.needs.mem _ ha))
    exact ⟨hout.needs, hout.rel⟩
  | sliding hneeds _ hgrouped =>
    have hbelow := builtOn_require hneeds
    have hout := hbelow.trans (builtOn_groupedAs hgrouped (hbelow.needs.mem _ ha))
    exact ⟨hout.needs, hout.rel⟩
  | running hrun => exact builtOn_running hrun
  | plain hbelow hgrouped =>
    have hbelow := builtOn_withoutPending hbelow
    exact hbelow.trans (builtOn_groupedAs hgrouped (hbelow.needs.mem _ ha))

/-- **An aggregation** needs to be one, and what its calls need. -/
theorem aggregated_requires {c : Converter} (h : plan.aggregated c keys calls = .ok out) :
    plan.BuiltOn out ∧
      ∀ call ∈ calls, ∀ cap, call.capability = some cap → cap ∈ out.needs.required := by
  obtain ⟨base, needs, _, moved, hbase, -, hmoved, hneeds, hout⟩ := aggregated_cases h
  obtain ⟨hextends, haggregate, hcalls⟩ := Requirements.requireCalls_eq_ok hneeds
  have hrecorded : base.BuiltOn { base with sort := [], needs } := ⟨hextends, .refl _ _⟩
  have hbuilt := hout.builtOn haggregate
  refine ⟨(builtOn_withoutTopN hbase).trans (hrecorded.trans hbuilt), fun call hcall cap hcap => ?_⟩
  obtain ⟨call', hcall', hremap⟩ := exists_of_mem_left (mapM_eq_ok.1 hmoved) hcall
  exact hbuilt.needs.mem cap
    (hcalls call' hcall' cap ((AggregateCall.capability_remap hremap).trans hcap))

end Aggregations

end Plan

end StreamPlan
