import StreamPlan.Proofs.Plan.Aggregate
import StreamPlan.Proofs.Typing.Project

/-!
# Aggregations of regular plans

* `Plan.Regular.grouped`: a grouped tree, whose timestamps are keys that were
  timestamps.
* `Plan.Regular.aggregated`: the plan of an aggregation of a regular plan is
  regular, whichever aggregation is chosen.
-/

namespace StreamPlan.Plan

variable {catalog : Catalog} {fixture : Fixture} {plan out : Plan}

/-- **A grouped tree** over a regular plan. -/
theorem Regular.grouped {keys : List Nat} {calls : List AggregateCall} {hint : Option AggregateHint}
    (h : plan.Regular catalog fixture) (hrel : out.rel = .aggregate plan.rel keys [] calls hint)
    (ht : ∀ i ∈ out.time.columns, ∃ c ∈ plan.time.columns, keys[i]? = some c)
    (hl : out.lineage = none) (hc : out.time.Coherent)
    (hs : catalog.PullsOne → out.nowFilter = none ∨ out.topN.isEmpty = true) :
    out.Regular catalog fixture := by
  have hrows : ∀ above, evaluate fixture out.rel = .ok above → ∃ rows,
      evaluate fixture plan.rel = .ok rows ∧ aggregateRows keys calls rows = .ok above := by
    intro above ha
    rw [hrel, evaluate] at ha
    simp only [List.isEmpty_nil, Bool.not_true, Bool.false_eq_true, if_false] at ha
    obtain ⟨rows, hrows, ha⟩ := bind_eq_ok.1 ha
    exact ⟨rows, hrows, lift_eq_ok.1 ha⟩
  refine ⟨?_, ?_, ?_, hc, hs⟩
  · intro above ha row hr
    obtain ⟨rows, -, hagg⟩ := hrows above ha
    obtain ⟨key, values, rfl, hk, hv, -⟩ := mem_of_aggregateRows hagg hr
    rw [List.length_append, hk, hv, hrel, Rel.width]
  · intro above ha row hr i hi
    obtain ⟨rows, hbelow, hagg⟩ := hrows above ha
    obtain ⟨key, values, rfl, -, -, hbase⟩ := mem_of_aggregateRows hagg hr
    -- the timestamp is a key, and a group has the cell of one of its rows there
    obtain ⟨c, hc, hki⟩ := ht i hi
    obtain ⟨base, hmem, hat⟩ := hbase (by rintro rfl; cases hki)
    obtain ⟨v, hv, hcell⟩ := getElem?_of_mapM_eq_ok hat hki
    obtain ⟨w, hw, htime⟩ := h.timed rows hbelow base hmem c hc
    obtain rfl : w = v := Option.some.inj (hw.symm.trans (itemAt_eq_ok.1 hcell))
    exact ⟨w, Catalog.getElem?_append_some hv, htime⟩
  · intro l hsome
    rw [hl] at hsome
    cases hsome

/-- The plan below an aggregation is regular and has the same timestamps. -/
theorem Regular.carryOver {timestamp : Nat} {below : Plan} {carried : Option NowFilter}
    (h : plan.Regular catalog fixture) (ho : plan.carryOver timestamp = .ok (below, carried)) :
    below.Regular catalog fixture ∧ below.time = plan.time := by
  rcases carryOver_eq_ok ho with rfl | hb
  · exact ⟨h.narrow .same (fun _ hi => hi) h.coherent (.inr rfl) fun _ => .inl rfl, rfl⟩
  · exact ⟨h.withoutNowFilter hb, (withoutNowFilter_settled hb).1.time⟩

theorem Regular.withNeeds (h : plan.Regular catalog fixture) (needs : Requirements) :
    Regular catalog fixture { plan with needs } :=
  h.narrow .same (fun _ hi => hi) h.coherent (.inr rfl) h.single

/-- A grouped tree with one timestamp, which is the key that a timestamp becomes. -/
theorem Regular.groupedBy {keys hidden : List Nat} {calls : List AggregateCall}
    {hint : Option AggregateHint} {timestamp : Nat} {d : Derivation}
    (h : plan.Regular catalog fixture) (hmem : timestamp ∈ keys ∨ timestamp ∈ hidden)
    (ht : timestamp ∈ plan.time.columns)
    (hrel : out.rel = .aggregate plan.rel
      (Ascending.ofList (GroupLayout.of keys hidden calls.length).keys) [] calls hint)
    (htime : out.time = .single
      (((GroupLayout.of keys hidden calls.length).position? timestamp).getD 0) d)
    (hl : out.lineage = none)
    (hs : catalog.PullsOne → out.nowFilter = none ∨ out.topN.isEmpty = true) :
    out.Regular catalog fixture := by
  obtain ⟨p, hp, -⟩ := @GroupLayout.position?_of_mem keys hidden calls.length timestamp hmem
  refine h.grouped hrel (fun i hi => ⟨timestamp, ht, ?_⟩) hl (htime ▸ EventTime.coherent_single _ _) hs
  rw [htime, hp, Option.getD_some, EventTime.columns_single, List.mem_singleton] at hi
  rw [hi, show (GroupLayout.of keys hidden calls.length).keys = Ascending.ofList (keys ++ hidden)
    from rfl, Ascending.ofList_ofList]
  exact Ascending.find_position? hp

section Choices

variable (h : plan.Regular catalog fixture)
include h

theorem Regular.tumbling {keys : List Nat} {calls : List AggregateCall} {timestamp : Nat}
    (hk : timestamp ∈ keys) (ht : timestamp ∈ plan.time.columns)
    (ho : plan.tumbling keys calls timestamp = .ok out) : out.Regular catalog fixture := by
  unfold Plan.tumbling at ho
  obtain ⟨needs, -, ho⟩ := bind_eq_ok.1 ho
  obtain ⟨⟨below, carried⟩, hcarry, ho⟩ := bind_eq_ok.1 ho
  obtain ⟨grouped, hgrouped, ho⟩ := bind_eq_ok.1 ho
  cases ho
  obtain ⟨hb, htime⟩ := (h.withNeeds needs).carryOver hcarry
  obtain ⟨key, select, rfl⟩ := groupedAs_eq_ok (lift_eq_ok.1 hgrouped)
  exact hb.groupedBy (.inl hk) (htime.symm ▸ ht) rfl rfl rfl fun _ => .inr rfl

theorem Regular.sliding (hsound : plan.Sound) {keys : List Nat} {calls : List AggregateCall}
    {filter : NowFilter} {panes : Nat} (hf : plan.nowFilter = some filter)
    (ho : plan.sliding keys calls filter panes = .ok out) : out.Regular catalog fixture := by
  unfold Plan.sliding at ho
  obtain ⟨slide, -, ho⟩ := bind_eq_ok.1 ho
  obtain ⟨needs, -, ho⟩ := bind_eq_ok.1 ho
  obtain ⟨grouped, hgrouped, ho⟩ := bind_eq_ok.1 ho
  cases ho
  obtain ⟨key, select, rfl⟩ := groupedAs_eq_ok (lift_eq_ok.1 hgrouped)
  exact (h.withNeeds needs).groupedBy (.inr List.mem_cons_self) (hsound.nowFilter filter hf) rfl rfl
    rfl fun _ => .inl rfl

theorem Regular.byRootKey (hsound : plan.Sound) (ht : plan.time.hasCandidates = true)
    {keys : List Nat} {calls : List AggregateCall} (ho : plan.byRootKey keys calls = .ok out) :
    out.Regular catalog fixture := by
  unfold Plan.byRootKey at ho
  obtain ⟨needs, -, ho⟩ := bind_eq_ok.1 ho
  obtain ⟨⟨below, carried⟩, hcarry, ho⟩ := bind_eq_ok.1 ho
  obtain ⟨grouped, hgrouped, ho⟩ := bind_eq_ok.1 ho
  cases ho
  obtain ⟨hb, htime⟩ := (h.withNeeds needs).carryOver hcarry
  obtain ⟨key, select, rfl⟩ := groupedAs_eq_ok (lift_eq_ok.1 hgrouped)
  refine hb.groupedBy (.inr List.mem_cons_self) ?_ rfl rfl rfl fun _ => .inr rfl
  rw [htime]
  exact (leadingTime_mem hsound ht : plan.leadingTime ∈ plan.time.columns)

theorem Regular.running (hsound : plan.Sound) (ht : plan.time.hasCandidates = true)
    {keys : List Nat} {calls : List AggregateCall} (ho : plan.running keys calls = .ok out) :
    out.Regular catalog fixture := by
  unfold Plan.running at ho
  obtain ⟨needs, -, ho⟩ := bind_eq_ok.1 ho
  obtain ⟨below, hbelow, ho⟩ := bind_eq_ok.1 ho
  obtain ⟨fields, -, ho⟩ := bind_eq_ok.1 ho
  obtain ⟨shown, hshown, ho⟩ := bind_eq_ok.1 ho
  obtain ⟨windowed, hwindowed, ho⟩ := bind_eq_ok.1 ho
  obtain ⟨select, -, ho⟩ := bind_eq_ok.1 ho
  cases ho
  have hb := (h.withNeeds needs).withoutNowFilter hbelow
  have htime := (withoutNowFilter_settled hbelow).1.time
  obtain ⟨key, -, rfl⟩ := ofRel_eq_ok.1 (lift_eq_ok.1 hwindowed)
  have hshown := orFault_eq_ok.1 hshown
  refine hb.project rfl (fun i hi => ?_) rfl (EventTime.coherent_single _ _) fun _ => .inl rfl
  obtain rfl : i = keys.length := List.mem_singleton.1 hi
  -- the timestamp is shown right behind the keys
  obtain ⟨o, ho, hcolumn⟩ := getElem?_of_mapM_eq_ok hshown
    (show (keys ++ [_])[keys.length]? = some _ from List.getElem?_concat_length)
  refine ⟨o, Catalog.getElem?_append_some ho, ?_⟩
  rw [Output.expr_of_column hcolumn, htime]
  exact .column (leadingTime_mem hsound ht : plan.leadingTime ∈ plan.time.columns)

theorem Regular.plain {keys : List Nat} {calls : List AggregateCall}
    (ho : plan.plain keys calls = .ok out) : out.Regular catalog fixture := by
  unfold Plan.plain at ho
  obtain ⟨below, hbelow, ho⟩ := bind_eq_ok.1 ho
  obtain ⟨key, select, rfl⟩ := groupedAs_eq_ok (lift_eq_ok.1 ho)
  exact (h.settle hbelow).grouped rfl (by rintro i hi; cases hi) rfl EventTime.coherent_none
    fun _ => .inl rfl

theorem Regular.streamAggregate? {c : Converter} (hsound : plan.Sound) {keys : List Nat}
    {calls : List AggregateCall} (ho : Plan.streamAggregate? c plan keys calls = .ok (some out)) :
    out.Regular catalog fixture := by
  unfold Plan.streamAggregate? at ho
  split at ho
  · rename_i timestamp hts
    obtain ⟨found, hfound, ho⟩ := map_eq_ok.1 ho
    cases ho
    have hmem : timestamp ∈ keys.filter plan.time.isCandidate := hts ▸ List.mem_cons_self
    obtain ⟨hk, hcandidate⟩ := List.mem_filter.1 hmem
    exact h.tumbling hk (EventTime.isCandidate_iff.1 hcandidate) hfound
  · split at ho
    · rename_i filter hf
      obtain ⟨found, hfound, ho⟩ := map_eq_ok.1 ho
      cases ho
      exact h.sliding hsound (Option.filter_eq_some_iff.1 hf).1 hfound
    · split at ho
      · rename_i hroot
        obtain ⟨found, hfound, ho⟩ := map_eq_ok.1 ho
        cases ho
        exact h.byRootKey hsound (hasCandidates_of_groupsByRootKey hroot) hfound
      · cases ho
  · cases ho

/-- **The plan of an aggregation** is regular. -/
theorem Regular.aggregated {c : Converter} (hsound : plan.Sound) {keys : List Nat}
    {calls : List AggregateCall} (ho : plan.aggregated c keys calls = .ok out) :
    out.Regular catalog fixture := by
  unfold Plan.aggregated at ho
  obtain ⟨base, hbase, ho⟩ := bind_eq_ok.1 ho
  obtain ⟨moved, -, ho⟩ := bind_eq_ok.1 ho
  obtain ⟨movedCalls, -, ho⟩ := bind_eq_ok.1 ho
  obtain ⟨needs, -, ho⟩ := bind_eq_ok.1 ho
  obtain ⟨o, hspecial, ho⟩ := bind_eq_ok.1 ho
  have hb := h.withoutTopN hbase
  have hs := (withoutTopN_settled hbase).1.sound hsound
  have hinput : Regular catalog fixture { base with sort := [], needs } :=
    hb.narrow .same (fun _ hi => hi) hb.coherent (.inr rfl) hb.single
  have hinputSound := hs.unsorted needs
  rcases o with _ | found
  · simp only at ho
    split at ho
    · rename_i hmay
      unfold mayRun at hmay
      simp only [Bool.and_eq_true] at hmay
      exact hinput.running hinputSound hmay.1.1.2 ho
    · exact hinput.plain ho
  · cases ho
    unfold special? at hspecial
    split at hspecial
    · exact hinput.streamAggregate? hinputSound hspecial
    · cases hspecial

end Choices

end StreamPlan.Plan
