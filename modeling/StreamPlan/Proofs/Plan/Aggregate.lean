import StreamPlan.Plan.Aggregate
import StreamPlan.Proofs.Columns.Position
import StreamPlan.Proofs.Plan.Sound

/-!
# What aggregations are made of

* `GroupLayout.of_key_lt`, `GroupLayout.of_select_lt`: a layout is about outputs of the
  aggregation.
* `Plan.groupedAs_eq_ok`, `groupedAs_columns`: the plan of a grouped tree. There always is
  one (`groupedAs_bare`).
* `Plan.leadingTime_mem`: the timestamp of an aggregation is a candidate.
* `Plan.Aggregated`, `aggregated_cases`: which aggregation a plan gets, with
  `running_eq_ok` for running aggregates.
* `Plan.lineage_of_aggregated`: no aggregation keeps a lineage.
-/

namespace StreamPlan

namespace Ascending

theorem ofList_ofList (xs : List Nat) : ofList (ofList xs) = ofList xs :=
  eq_of_mem_iff (pairwise_ofList _) (pairwise_ofList _) fun c => by rw [mem_ofList]

end Ascending

namespace Plan

namespace GroupLayout

variable {keys hidden : List Nat} {calls : Nat}

theorem mem_of_keys {c : Nat} : c ∈ (GroupLayout.of keys hidden calls).keys ↔ c ∈ keys ∨ c ∈ hidden := by
  rw [show (GroupLayout.of keys hidden calls).keys = Ascending.ofList (keys ++ hidden) from rfl,
    Ascending.mem_ofList, List.mem_append]

theorem length_of_key : (GroupLayout.of keys hidden calls).key.length = keys.length := by
  simp [GroupLayout.of]

theorem length_of_select :
    (GroupLayout.of keys hidden calls).select.length = keys.length + calls := by
  simp [GroupLayout.of]

theorem of_key_lt : ∀ i ∈ (GroupLayout.of keys hidden calls).key,
    i < (GroupLayout.of keys hidden calls).keys.length := by
  intro i hi
  obtain ⟨c, hc, rfl⟩ := List.mem_map.1 hi
  exact List.idxOf_lt_length_of_mem (Ascending.mem_ofList.2 (List.mem_append_left _ hc))

theorem of_select_lt : ∀ i ∈ (GroupLayout.of keys hidden calls).select,
    i < (GroupLayout.of keys hidden calls).keys.length + calls := by
  intro i hi
  rcases List.mem_append.1 hi with hi | hi
  · exact Nat.lt_of_lt_of_le (of_key_lt i hi) (Nat.le_add_right _ _)
  · exact (List.mem_range'_1.1 hi).2

/-- A grouping column has a position among the outputs. -/
theorem position?_of_mem {c : Nat} (h : c ∈ keys ∨ c ∈ hidden) :
    ∃ p, (GroupLayout.of keys hidden calls).position? c = some p ∧
      p < (GroupLayout.of keys hidden calls).keys.length :=
  Ascending.position?_of_mem (mem_of_keys.2 h)

end GroupLayout

variable {plan out : Plan}

theorem groupedRel_eq (input : Rel) (keys : List Nat) (calls : List AggregateCall)
    (hint : Option AggregateHint) :
    groupedRel input keys calls hint = .aggregate input (Ascending.ofList keys) [] calls hint := by
  cases hint <;> rfl

/-- **The plan of a grouped tree**, with the columns of a layout. -/
theorem groupedAs_eq_ok {kind : TableKind} {layout : GroupLayout} {calls : List AggregateCall}
    {hint : Option AggregateHint} (h : plan.groupedAs kind layout calls hint = .ok out) :
    ∃ key select, out = { bare (.aggregate plan.rel (Ascending.ofList layout.keys) [] calls hint) kind
      key plan.needs with select } := by
  unfold groupedAs at h
  simp only [groupedRel_eq] at h
  obtain ⟨grouped, hgrouped, h⟩ := bind_eq_ok.1 h
  obtain ⟨select, -, h⟩ := bind_eq_ok.1 h
  cases h
  obtain ⟨key, -, rfl⟩ := ofRel_eq_ok.1 hgrouped
  exact ⟨key, select, rfl⟩

/-- The columns of a grouped tree are where its layout says. -/
theorem groupedAs_columns {kind : TableKind} {layout : GroupLayout} {calls : List AggregateCall}
    {hint : Option AggregateHint} (h : plan.groupedAs kind layout calls hint = .ok out) :
    out.key.targets = layout.key ∧ out.select.targets = layout.select := by
  obtain ⟨grouped, hgrouped, h⟩ := bind_eq_ok.1 h
  obtain ⟨select, hselect, h⟩ := bind_eq_ok.1 h
  cases h
  obtain ⟨key, hkey, rfl⟩ := ofRel_eq_ok.1 hgrouped
  exact ⟨(ColumnMap.of_targets hkey).1, (ColumnMap.of_targets hselect).1⟩

/-- **A grouped tree always gives a plan**: its layout is about its outputs. -/
theorem groupedAs_bare (plan : Plan) (kind : TableKind) (keys hidden : List Nat)
    (calls : List AggregateCall) (hint : Option AggregateHint) :
    Gives (plan.groupedAs kind (.of keys hidden calls.length) calls hint) fun out =>
      ∃ rel key select, out = { bare rel kind key plan.needs with select } ∧
        rel = .aggregate plan.rel (GroupLayout.of keys hidden calls.length).keys [] calls hint ∧
        rel.width = (GroupLayout.of keys hidden calls.length).keys.length + calls.length ∧
        key.width = rel.width ∧ select.width = rel.width ∧
        key.targets = (GroupLayout.of keys hidden calls.length).key ∧
        select.targets = (GroupLayout.of keys hidden calls.length).select := by
  have hkey := @GroupLayout.of_key_lt keys hidden calls.length
  have hselect := @GroupLayout.of_select_lt keys hidden calls.length
  have hsorted : Ascending.ofList (GroupLayout.of keys hidden calls.length).keys
      = (GroupLayout.of keys hidden calls.length).keys := Ascending.ofList_ofList _
  generalize GroupLayout.of keys hidden calls.length = layout at hkey hselect hsorted ⊢
  unfold groupedAs
  simp only [groupedRel_eq, hsorted]
  generalize hrel : Rel.aggregate plan.rel layout.keys [] calls hint = rel
  have hwidth : rel.width = layout.keys.length + calls.length := by rw [← hrel, Rel.width]
  obtain ⟨key, hkeys, hkt, hkw⟩ := ColumnMap.of_gives (w := rel.width) fun i hi =>
    hwidth ▸ Nat.lt_of_lt_of_le (hkey i hi) (Nat.le_add_right _ _)
  obtain ⟨select, hselects, hst, hsw⟩ := ColumnMap.of_gives hselect
  rw [ofRel_eq_ok.2 ⟨key, hkeys, rfl⟩, ok_bind, hselects, ok_bind]
  exact .ok ⟨rel, key, select, rfl, rfl, hwidth, hkw, hsw.trans hwidth.symm, hkt, hst⟩

/-- The plan below an aggregation has its now-filter applied or carried over. -/
theorem carryOver_eq_ok {timestamp : Nat} {below : Plan} {carried : Option NowFilter}
    (h : plan.carryOver timestamp = .ok (below, carried)) :
    below = { plan with nowFilter := none } ∨ plan.withoutNowFilter = .ok below := by
  unfold carryOver at h
  split at h
  · rename_i hn
    cases h
    exact .inl (by rw [← hn])
  · split at h
    · cases h
      exact .inl rfl
    · obtain ⟨next, hnext, h⟩ := bind_eq_ok.1 h
      cases h
      exact .inr hnext

/-- The timestamp that the query does not group by is a candidate. -/
theorem leadingTime_mem (h : plan.Sound) (ht : plan.time.hasCandidates = true) :
    plan.leadingTime ∈ plan.time.columns := by
  unfold leadingTime
  cases hf : plan.nowFilter with
  | some f => exact h.nowFilter f hf
  | none =>
    obtain ⟨c, hc⟩ := EventTime.bestColumn?_isSome ht
    rw [hc]
    exact EventTime.bestColumn?_mem hc

/-- Only rows with event time are grouped by a root key. -/
theorem hasCandidates_of_groupsByRootKey {stage : Stage} {keys : List Nat}
    (h : plan.groupsByRootKey stage keys = true) : plan.time.hasCandidates = true := by
  unfold groupsByRootKey at h
  split at h
  · cases h
  · simp only [Bool.and_eq_true] at h
    exact h.1.1.1.2

/-- The plan that is aggregated has no order, and records what is needed. -/
theorem Sound.unsorted (h : plan.Sound) (needs : Requirements) :
    Sound { plan with sort := [], needs } :=
  ⟨h.key, h.select, h.stateTime, h.stateNowFilter, h.time, h.nowFilter,
    (fun i hi => by cases hi), h.topN⟩

/-- What an aggregation gives over a plan with its ranking applied. -/
inductive Aggregated (plan : Plan) (keys : List Nat) (calls : List AggregateCall) : Plan → Prop
  /-- Groups of a timestamp each: a tumbling window, or the instants of a root key.
  A now-filter on that timestamp goes on above it. -/
  | timed {cap : Capability} {needs : Requirements} {timestamp : Nat} {hidden : List Nat}
      {below grouped : Plan} {carried : Option NowFilter} {kind : TableKind} {hint : AggregateHint}
      {time : EventTime} {rootKeys : Option Nat} :
      plan.needs.require cap = .ok needs →
      carryOver { plan with needs } timestamp = .ok (below, carried) →
      timestamp ∈ keys ∨ timestamp ∈ hidden →
      (∀ t ∈ hidden, t = plan.leadingTime ∧ plan.time.hasCandidates = true) →
      below.groupedAs kind (.of keys hidden calls.length) calls (some hint) = .ok grouped →
      Aggregated plan keys calls { grouped with
        time
        nowFilter := carried.bind (·.remap (GroupLayout.of keys hidden calls.length).position?)
        rootKeys }
  /-- A sliding window in place of the now-filter, of which the latest row per key counts. -/
  | sliding {cap : Capability} {needs : Requirements} {filter : NowFilter} {slide : Int}
      {grouped : Plan} {timestamp : Nat} :
      plan.needs.require cap = .ok needs → plan.nowFilter = some filter →
      groupedAs { plan with needs } .versioned (.of keys [filter.timestamp] calls.length) calls
        (some (.sliding filter.timestamp filter.interval slide)) = .ok grouped →
      Aggregated plan keys calls { grouped with
        time := .single timestamp .bucketed
        topN := .latestPerKey (GroupLayout.of keys [filter.timestamp] calls.length).key timestamp }
  /-- A running aggregate per row. -/
  | running {out : Plan} : plan.running keys calls = .ok out → Aggregated plan keys calls out
  /-- Current values. -/
  | plain {below out : Plan} : plan.withoutPending = .ok below →
      below.groupedAs .state (.of keys [] calls.length) calls none = .ok out →
      Aggregated plan keys calls out

variable {c : Converter} {keys : List Nat} {calls : List AggregateCall}

theorem aggregated_of_streamAggregate? (h : Plan.streamAggregate? c plan keys calls = .ok (some out)) :
    plan.Aggregated keys calls out := by
  unfold streamAggregate? at h
  -- a tumbling window, a sliding one, or groups by the root key
  split at h
  · rename_i timestamp hts
    obtain ⟨found, h, he⟩ := map_eq_ok.1 h
    cases he
    unfold tumbling at h
    obtain ⟨needs, hneeds, h⟩ := bind_eq_ok.1 h
    obtain ⟨⟨below, carried⟩, hcarry, h⟩ := bind_eq_ok.1 h
    obtain ⟨grouped, hgrouped, h⟩ := bind_eq_ok.1 h
    cases h
    have hmem : timestamp ∈ keys.filter plan.time.isCandidate := hts ▸ List.mem_cons_self
    exact .timed (needing_eq_ok.1 hneeds) hcarry (.inl (List.mem_of_mem_filter hmem)) nofun
      (lift_eq_ok.1 hgrouped)
  · split at h
    · rename_i filter hfilter
      obtain ⟨found, h, he⟩ := map_eq_ok.1 h
      cases he
      unfold Plan.sliding at h
      obtain ⟨slide, -, h⟩ := bind_eq_ok.1 h
      obtain ⟨needs, hneeds, h⟩ := bind_eq_ok.1 h
      obtain ⟨grouped, hgrouped, h⟩ := bind_eq_ok.1 h
      cases h
      exact .sliding (needing_eq_ok.1 hneeds) (Option.filter_eq_some_iff.1 hfilter).1
        (lift_eq_ok.1 hgrouped)
    · split at h
      · rename_i hroot
        obtain ⟨found, h, he⟩ := map_eq_ok.1 h
        cases he
        unfold byRootKey at h
        obtain ⟨needs, hneeds, h⟩ := bind_eq_ok.1 h
        obtain ⟨⟨below, carried⟩, hcarry, h⟩ := bind_eq_ok.1 h
        obtain ⟨grouped, hgrouped, h⟩ := bind_eq_ok.1 h
        cases h
        refine .timed (needing_eq_ok.1 hneeds) hcarry (.inr List.mem_cons_self) (fun t ht => ?_)
          (lift_eq_ok.1 hgrouped)
        exact ⟨List.mem_singleton.1 ht, hasCandidates_of_groupsByRootKey hroot⟩
      · cases h
  · cases h

/-- **The plan of an aggregation** is one of those, over the keys and calls as the
tree has them. -/
theorem aggregated_cases (h : plan.aggregated c keys calls = .ok out) :
    ∃ base needs movedKeys moved, plan.withoutTopN = .ok base ∧
      keys.mapM plan.select.apply = .ok movedKeys ∧
      calls.mapM (·.remap plan.select.apply) = .ok moved ∧
      base.needs.requireCalls moved = .ok needs ∧
      Aggregated { base with sort := [], needs } movedKeys moved out := by
  unfold aggregated at h
  obtain ⟨base, hbase, h⟩ := bind_eq_ok.1 h
  obtain ⟨movedKeys, hkeys, h⟩ := bind_eq_ok.1 h
  obtain ⟨moved, hmoved, h⟩ := bind_eq_ok.1 h
  obtain ⟨needs, hneeds, h⟩ := bind_eq_ok.1 h
  obtain ⟨o, hspecial, h⟩ := bind_eq_ok.1 h
  have hselect : base.select = plan.select := (withoutTopN_settled hbase).1.select
  refine ⟨base, needs, movedKeys, moved, hbase, hselect ▸ orFault_eq_ok.1 hkeys,
    hselect ▸ orFault_eq_ok.1 hmoved, needing_eq_ok.1 hneeds, ?_⟩
  rcases o with _ | found
  · simp only at h
    split at h
    · exact .running h
    · unfold Plan.plain at h
      obtain ⟨below, hbelow, h⟩ := bind_eq_ok.1 h
      exact .plain hbelow (lift_eq_ok.1 h)
  · cases h
    unfold special? at hspecial
    split at hspecial
    · exact aggregated_of_streamAggregate? hspecial
    · cases hspecial

/-- **The plan of a running aggregate** shows the keys and the windows, with the
timestamp between them. -/
theorem running_eq_ok (h : plan.running keys calls = .ok out) :
    ∃ needs below fields shown key select time, plan.needs.require .windowAggregate = .ok needs ∧
      withoutNowFilter { plan with needs } = .ok below ∧ below.rel.fields = .ok fields ∧
      (keys ++ [plan.leadingTime]).mapM (Output.column · fields) = .ok shown ∧
      select.targets = List.range keys.length ++ List.range' (keys.length + 1) calls.length ∧
      out = { bare (.project below.rel (shown ++ calls.map fun call =>
        Output.named (.window call keys [⟨plan.leadingTime, .ascending⟩]) call.name fields) none)
          .versioned key below.needs with select, time } := by
  unfold running at h
  obtain ⟨needs, hneeds, h⟩ := bind_eq_ok.1 h
  obtain ⟨below, hbelow, h⟩ := bind_eq_ok.1 h
  obtain ⟨fields, hfields, h⟩ := bind_eq_ok.1 h
  obtain ⟨shown, hshown, h⟩ := bind_eq_ok.1 h
  obtain ⟨windowed, hwindowed, h⟩ := bind_eq_ok.1 h
  obtain ⟨select, hselect, h⟩ := bind_eq_ok.1 h
  cases h
  obtain ⟨key, -, rfl⟩ := ofRel_eq_ok.1 (lift_eq_ok.1 hwindowed)
  exact ⟨needs, below, fields, shown, key, select, _, needing_eq_ok.1 hneeds, hbelow,
    lift_eq_ok.1 hfields, orFault_eq_ok.1 hshown, (ColumnMap.of_targets (lift_eq_ok.1 hselect)).1, rfl⟩

/-- **An aggregation** loses the lineage. -/
theorem lineage_of_aggregated (h : plan.aggregated c keys calls = .ok out) : out.lineage = none := by
  obtain ⟨_, _, _, _, -, -, -, -, hout⟩ := aggregated_cases h
  cases hout with
  | timed _ _ _ _ hgrouped | sliding _ _ hgrouped | plain _ hgrouped =>
    obtain ⟨_, _, rfl⟩ := groupedAs_eq_ok hgrouped
    rfl
  | running hrun =>
    obtain ⟨_, _, _, _, _, _, _, -, -, -, -, -, rfl⟩ := running_eq_ok hrun
    rfl

end Plan

end StreamPlan
