import StreamPlan.Proofs.Plan.Keeps
import StreamPlan.Proofs.Plan.Requirements
import StreamPlan.Proofs.Plan.Join
import StreamPlan.Proofs.Plan.Scan

/-!
# Rankings that keep the latest row of a key

A pending ranking that keeps one row per key is the latest row per key if the query
ranks by time wherever it keeps the first row. Sliding windows and deduplications do
so by themselves.

* `Plan.KeepsLatest`: one row per key is the latest one.
* `Converter.RanksLatest`: where a query keeps the first row, that is the latest one,
  or a row of a plan with a key.
* `Converter.follows_keepsLatest`: **the plans of such a query keep the latest row of
  a key**, if its tables do.
-/

namespace StreamPlan

/-- The latest row comes first, by a timestamp candidate. -/
def TopN.ByLatest (topN : TopN) (time : EventTime) : Prop :=
  ∃ t ∈ time.columns, topN.order = [⟨t, .descending⟩]

/-- One row per partition of as many columns as the key has. -/
def TopN.KeepsOne (topN : TopN) (keys : Nat) : Prop :=
  topN.limit = some 1 ∧ topN.partition.length = keys

/-- If one row per key is kept, it is the latest one. -/
def Plan.KeepsLatest (plan : Plan) : Prop :=
  plan.topN.KeepsOne plan.key.sources → plan.topN.ByLatest plan.time

/-- The same of what a table leaves open. Current values have no time. -/
def BaseTable.KeepsLatest (table : BaseTable) : Prop :=
  table.pending.topN.KeepsOne table.keys → table.pending.topN.ByLatest (Converter.timeOf table)

/-- An operator that keeps the first row of each partition of its input. -/
inductive Rel.KeepsFirst (input : Rel) : List Nat → SortOrder → Rel → Prop
  | sort {order : SortOrder} {offset : Option Nat} :
      KeepsFirst input [] order (.sort input order (some 1) offset)
  | ranking {partition : List Nat} {order : SortOrder} {outputs : List Output} :
      KeepsFirst input partition order
        (.project (.sort input order (some 1) none) outputs (some ⟨.topN, partition⟩))

/-- Where a query keeps the first row, that is the latest one. The first of all rows
may be any, unless the plan has no key. -/
def Converter.RanksLatest (c : Converter) (q : Rel) : Prop :=
  ∀ op ∈ q.preorder, ∀ input partition order, input.KeepsFirst partition order op →
    ∀ plan moved, c.convert input = .ok plan → order.remap plan.select.apply = .ok moved →
      partition = [] ∧ plan.key.sources ≠ 0 ∨ (Plan.latestFirst moved plan.time).isSome = true

/-- An input of such a query is one. -/
theorem Converter.RanksLatest.below {c : Converter} {q input : Rel} (h : c.RanksLatest q)
    (hi : input ∈ q.inputs) : c.RanksLatest input :=
  fun op hop => h op (Rel.preorder_of_inputs hi op hop)

namespace Plan

variable {plan out : Plan}

/-- A ranking that does nothing keeps all rows. -/
theorem keepsLatest_of_isEmpty (h : plan.topN.isEmpty = true) : plan.KeepsLatest := by
  intro hone
  simp [TopN.isEmpty, hone.1] at h

theorem byLatest_of_latestFirst {order : SortOrder} {time : EventTime} {topN : TopN}
    (h : (latestFirst order time).isSome = true) (ho : topN.order = order) : topN.ByLatest time := by
  obtain ⟨t, ht⟩ := Option.isSome_iff_exists.1 h
  obtain ⟨rfl, hmem⟩ := latestFirst_eq_some ht
  exact ⟨t, hmem, ho⟩

/-- A plan with a timestamp has no current values. -/
theorem Sound.kind_of_latestFirst {order : SortOrder} (hs : plan.Sound)
    (h : (latestFirst order plan.time).isSome = true) : plan.kind ≠ .state := by
  obtain ⟨t, ht⟩ := Option.isSome_iff_exists.1 h
  intro hstate
  have hmem := (latestFirst_eq_some ht).2
  rw [hs.stateTime hstate] at hmem
  cases hmem

/-- **The first row of all** is the latest one if the rows are sorted so, and not one
per key if there is a key. -/
theorem keepsLatest_of_sorted {order : SortOrder} {limit : Option Nat} (hs : plan.Sound)
    (hk : plan.KeepsLatest)
    (hlatest : ∀ moved, limit = some 1 → order.remap plan.select.apply = .ok moved →
      plan.key.sources ≠ 0 ∨ (latestFirst moved plan.time).isSome = true)
    (h : plan.sorted order limit = .ok out) : out.KeepsLatest := by
  unfold sorted at h
  obtain ⟨moved, hmoved, h⟩ := bind_eq_ok.1 h
  rcases limit with _ | n
  · cases h
    exact hk
  · obtain ⟨base, hbase, h⟩ := bind_eq_ok.1 h
    obtain ⟨needs, -, h⟩ := bind_eq_ok.1 h
    cases h
    obtain ⟨hset, -, -⟩ := withoutPending_settled hbase
    rintro ⟨hone, hpartition⟩
    cases hone
    rcases hlatest moved rfl (lift_eq_ok.1 hmoved) with hkeys | hfirst
    · exact absurd (hset.key ▸ hpartition.symm) hkeys
    · have hkind : (TopN.mk [] false moved (some 1) base.kind).resultKind ≠ .state := by
        simp [TopN.resultKind, TopN.hasPartition, hset.kind, hs.kind_of_latestFirst hfirst]
      have htime : (TopN.mk [] false moved (some 1) base.kind).ByLatest plan.time :=
        byLatest_of_latestFirst hfirst rfl
      simpa only [if_neg hkind, hset.time] using htime

/-- A ranking that fixes the timestamp that it goes by. -/
theorem byLatest_of_fixed {ranking : Ranking} {timed : Plan} {t : Nat}
    (hstate : ranking.constraint.resultKind ≠ .state) (hne : ranking.constraint.isEmpty = false)
    (horder : ranking.constraint.order = [⟨t, .descending⟩])
    (ht : ranking.timestamp = some t)
    (h : (plan.withRanking ranking).withTimestamp ranking.timestamp = .ok timed) :
    timed.topN.ByLatest timed.time := by
  unfold withRanking at h
  rw [if_neg (by rw [hne]; exact Bool.false_ne_true), ht] at h
  unfold withTimestamp at h
  rw [if_neg hstate] at h
  obtain ⟨time, hfix, h⟩ := bind_eq_ok.1 h
  cases h
  refine ⟨t, ?_, horder⟩
  rw [(EventTime.fix_columns hfix).1]
  exact List.mem_cons_self

/-- What is pending above a ranking that has an effect, and the kind and time with it. -/
theorem withTimestamp_withRanking {ranking : Ranking} {timed : Plan}
    (hne : ranking.constraint.isEmpty = false)
    (h : (plan.withRanking ranking).withTimestamp ranking.timestamp = .ok timed) :
    timed.topN = ranking.constraint ∧ timed.key = plan.key ∧
      (ranking.constraint.resultKind ≠ .state → ranking.timestamp = none →
        timed.time = plan.time) := by
  unfold withRanking at h
  rw [if_neg (by rw [hne]; exact Bool.false_ne_true)] at h
  obtain ⟨time, rfl, -⟩ := withTimestamp_shape h
  refine ⟨rfl, rfl, fun hkind hnone => ?_⟩
  rw [hnone, withTimestamp, if_neg hkind] at h
  exact (congrArg Plan.time (Except.ok.inj h)).symm

/-- The first row of each partition is the latest one if the rows are sorted so. -/
theorem byLatest_of_rankingTopN {partition : List Nat} {order : SortOrder} {timed : Plan}
    (hkind : plan.kind ≠ .state) (hfirst : (latestFirst order plan.time).isSome = true)
    (h : (plan.withRanking (plan.rankingTopN partition order (some 1))).withTimestamp
      (plan.rankingTopN partition order (some 1)).timestamp = .ok timed) :
    timed.topN.ByLatest timed.time := by
  obtain ⟨t, ht⟩ := Option.isSome_iff_exists.1 hfirst
  obtain ⟨horder, -⟩ := latestFirst_eq_some ht
  have hne : (plan.rankingTopN partition order (some 1)).constraint.isEmpty = false := by
    simp [rankingTopN, TopN.isEmpty]
  cases partition with
  | nil =>
    have hresult : (plan.rankingTopN [] order (some 1)).constraint.resultKind ≠ .state := by
      simp [rankingTopN, TopN.resultKind, TopN.hasPartition, hkind]
    obtain ⟨htopN, -, htime⟩ := withTimestamp_withRanking hne h
    rw [htopN, htime hresult rfl]
    exact byLatest_of_latestFirst hfirst rfl
  | cons c rest =>
    have hlatest : (plan.rankingTopN (c :: rest) order (some 1)).timestamp = some t := by
      simp [rankingTopN, hkind, ht]
    refine byLatest_of_fixed ?_ hne horder hlatest h
    simp [rankingTopN, TopN.resultKind, hkind, ht]

/-- **A ranking** keeps the latest row of a key, if it does so where it keeps the first row. -/
theorem keepsLatest_of_ranked {hint : RankingHint} {columns : List Nat} {outputs : List Output}
    {order : SortOrder} {limit : Option Nat} (hs : plan.Sound)
    (hlatest : ∀ moved, hint.kind = .topN → limit = some 1 →
      order.remap plan.select.apply = .ok moved →
      hint.partition = [] ∧ plan.key.sources ≠ 0 ∨ (latestFirst moved plan.time).isSome = true)
    (h : plan.ranked hint columns outputs order limit = .ok out) : out.KeepsLatest := by
  obtain ⟨base, partition, moved, visible, ranking, rel, key, timed, select, hbase, hpartition,
    hmoved, hranking, hkey, htimed, rfl⟩ := ranked_ranks h
  obtain ⟨hset, -, hidle⟩ := withoutPending_settled hbase
  have hsb := hset.sound hs
  -- a ranking that does nothing leaves none
  by_cases hempty : ranking.constraint.isEmpty = true
  · refine keepsLatest_of_isEmpty ?_
    unfold withRanking at htimed
    rw [if_pos hempty] at htimed
    obtain ⟨time, rfl, -⟩ := withTimestamp_shape htimed
    exact hidle
  · rw [Bool.not_eq_true] at hempty
    obtain ⟨htopN, hkeyed, htime⟩ := withTimestamp_withRanking hempty htimed
    rintro ⟨hone, hlength⟩
    change timed.topN.limit = some 1 at hone
    change timed.topN.partition.length = timed.key.sources at hlength
    change timed.topN.ByLatest timed.time
    rw [htopN] at hone hlength
    cases hkind : hint.kind with
    | topN =>
      rw [hkind] at hranking
      obtain rfl := Except.ok.inj hranking
      obtain rfl : limit = some 1 := hone
      rcases hlatest moved hkind rfl hmoved with ⟨hno, hkeys⟩ | hfirst
      -- without a partition the key has no columns
      · rw [hno] at hpartition
        cases hpartition
        have hsame : key.targets = plan.key.targets := hset.key ▸ hkey
        have hkeyed : timed.key = key := hkeyed
        have hnone : 0 = key.sources := hkeyed ▸ hlength
        exact absurd ((congrArg List.length hsame).symm.trans hnone.symm) hkeys
      · rw [← hset.time] at hfirst
        have hkindKeyed : ({ base with rel, key } : Plan).kind ≠ .state := hsb.kind_of_latestFirst hfirst
        exact byLatest_of_rankingTopN hkindKeyed hfirst htimed
    | selectDistinct =>
      rw [hkind] at hranking
      obtain rfl := Except.ok.inj hranking
      cases hone
    | distinctOn =>
      rw [hkind] at hranking
      change base.rankingDistinctOn partition moved = .ok ranking at hranking
      unfold rankingDistinctOn at hranking
      split at hranking
      · cases hranking
      · split at hranking
        · cases hranking
        · rename_i hstream
          split at hranking
          · cases hranking
          · rename_i latest hfirst
            cases hranking
            rw [not_not] at hstream
            exact byLatest_of_fixed (by simp [TopN.resultKind, hstream]) hempty
              (latestFirst_eq_some hfirst).1 rfl htimed

/-- **A filter** applies what is pending but a now-filter. -/
theorem isEmpty_topN_of_filtered {predicate : Expr} (h : plan.filtered predicate = .ok out) :
    out.topN.isEmpty = true := by
  unfold filtered at h
  obtain ⟨base, hbase, h⟩ := bind_eq_ok.1 h
  obtain ⟨moved, -, h⟩ := bind_eq_ok.1 h
  obtain ⟨⟨next, remaining⟩, hnext, h⟩ := bind_eq_ok.1 h
  obtain ⟨time, nowFilter, rfl, -⟩ := extractNowFilters_shape hnext
  simp only at h
  split at h
  · cases h
    exact (withoutTopN_settled hbase).2.1
  · obtain ⟨needs, -, h⟩ := bind_eq_ok.1 h
    cases h
    exact (withoutTopN_settled hbase).2.1

/-- **Computed outputs** are over a plan with its ranking applied. -/
theorem isEmpty_topN_of_computed {outputs : List Output} (h : plan.computed outputs = .ok out) :
    out.topN.isEmpty = true := by
  obtain ⟨base, needs, moved, hbase, -, -, h⟩ := computed_eq_ok h
  obtain ⟨below, carried, hcarries, h⟩ := projectedTo_eq_ok h
  obtain ⟨_, _, _, _, -, -, -, -, rfl⟩ := withOutputs_eq_ok h
  have hsame : below.topN = base.topN := hcarries.settled.2.1
  exact hsame ▸ (withoutTopN_settled hbase).2.1

/-- **A projection** of columns keeps the key and the event time. -/
theorem keepsLatest_of_projected {bare : Option (List Nat)} {outputs : List Output}
    (hk : plan.KeepsLatest) (h : Converter.projected plan bare outputs = .ok out) :
    out.KeepsLatest := by
  unfold Converter.projected at h
  split at h
  · exact keepsLatest_of_isEmpty (isEmpty_topN_of_computed h)
  · obtain ⟨picked, hpicked, h⟩ := bind_eq_ok.1 h
    rcases picked with _ | picked
    · exact keepsLatest_of_isEmpty (isEmpty_topN_of_computed h)
    · cases h
      obtain ⟨_, _, _, -, -, -, rfl⟩ := picked?_eq_ok (lift_eq_ok.1 hpicked)
      exact hk

/-- **An aggregation** has nothing pending, or is a sliding window. -/
theorem keepsLatest_of_aggregated {c : Converter} {keys : List Nat} {calls : List AggregateCall}
    (h : plan.aggregated c keys calls = .ok out) : out.KeepsLatest := by
  obtain ⟨_, _, _, _, -, -, -, -, hout⟩ := aggregated_cases h
  cases hout with
  | timed _ _ _ _ hgrouped =>
    obtain ⟨_, _, rfl⟩ := groupedAs_eq_ok hgrouped
    exact keepsLatest_of_isEmpty rfl
  | @sliding _ _ _ _ _ timestamp _ _ hgrouped =>
    exact fun _ => ⟨timestamp, List.mem_cons_self, rfl⟩
  | plain _ hgrouped =>
    obtain ⟨_, _, rfl⟩ := groupedAs_eq_ok hgrouped
    exact keepsLatest_of_isEmpty rfl
  | running hrun =>
    obtain ⟨_, _, _, _, _, _, _, -, -, -, -, -, rfl⟩ := running_eq_ok hrun
    exact keepsLatest_of_isEmpty rfl

end Plan

namespace Converter

variable {c : Converter} {table : BaseTable} {plan out : Plan}

/-- **A join** has no ranking pending. -/
theorem isEmpty_topN_of_joined {j : JoinInputs} (h : c.joined j = .ok out) :
    out.topN.isEmpty = true := by
  rcases joined_eq_ok h with hself | htemporal | hinterval | hstate
  · obtain ⟨_, _, _, -, -, hmerges, -, hmerged⟩ := JoinInputs.selfJoin?_eq_ok (attempt_eq_ok hself)
    obtain ⟨_, _, _, _, -, -, -, -, -, rfl⟩ := JoinInputs.mergedPlan_eq_ok hmerged
    exact (JoinInputs.settled_of_mayMerge hmerges).1.2
  · obtain ⟨_, -, hplan⟩ := JoinInputs.temporalJoin?_eq_ok (attempt_eq_ok htemporal)
    obtain ⟨_, _, _, -, -, -, -, -, -, htopN, -⟩ := JoinInputs.temporalPlan_eq_ok hplan
    rw [htopN]
    rfl
  · obtain ⟨_, -, hplan⟩ := JoinInputs.intervalJoin?_eq_ok (attempt_eq_ok hinterval)
    obtain ⟨_, _, _, -, -, -, -, -, -, htopN, -⟩ := JoinInputs.intervalPlan_eq_ok hplan
    rw [htopN]
    rfl
  · obtain ⟨_, _, _, -, -, -, -, -, -, htopN, -⟩ := JoinInputs.statePlan_eq_ok hstate
    rw [htopN]
    rfl

/-- What is left of a table's ranking on a stage is the ranking, or nothing. -/
theorem openConstraints_topN (c : Converter) (table : BaseTable) :
    (c.openConstraints table).topN = TopN.none ∨
      (c.openConstraints table).topN = table.pending.topN := by
  unfold openConstraints
  simp only
  split
  · exact .inl rfl
  · exact .inr rfl

/-- A ranking over other columns goes by the same timestamp if that has a new column. -/
theorem byLatest_remap {pending : Pending} {time : EventTime} {f : Nat → Option Nat}
    (h : pending.topN.ByLatest time) (hone : (pending.remap f).topN.limit = some 1) :
    (pending.remap f).topN.ByLatest (time.remap f) := by
  obtain ⟨t, ht, horder⟩ := h
  rw [Pending.remap] at hone ⊢
  simp only at hone ⊢
  split at hone
  · rename_i hkept
    rw [if_pos hkept]
    have hmem : t ∈ pending.topN.columns :=
      List.mem_append_right _ (by rw [horder]; exact List.mem_cons_self)
    obtain ⟨t', ht'⟩ := Option.isSome_iff_exists.1 (List.all_eq_true.1 hkept t hmem)
    refine ⟨t', ?_, ?_⟩
    · rw [EventTime.columns_remap]
      exact List.mem_filterMap.2 ⟨t, ht, ht'⟩
    · simp [horder, SortOrder.moved, ht']
  · cases hone

theorem keepsOne_remap {pending : Pending} {f : Nat → Option Nat} {keys : Nat}
    (h : (pending.remap f).topN.KeepsOne keys) : pending.topN.KeepsOne keys := by
  obtain ⟨hone, hlength⟩ := h
  rw [Pending.remap] at hone hlength
  simp only at hone hlength
  split at hone
  · rename_i hkept
    rw [if_pos hkept, List.length_map] at hlength
    exact ⟨hone, hlength⟩
  · cases hone

/-- A ranking applies before levels are unrolled. -/
theorem belowLevels_cases {start : Plan} {path : List Nat} (h : belowLevels start path = .ok out) :
    path.length ≤ 1 ∧ out = start ∨ out.topN.isEmpty = true := by
  unfold belowLevels at h
  split at h
  · rename_i hshort
    exact .inl ⟨hshort, (Except.ok.inj h).symm⟩
  · obtain ⟨needs, -, h⟩ := bind_eq_ok.1 h
    obtain ⟨base, hbase, h⟩ := bind_eq_ok.1 h
    cases h
    exact .inr (Plan.withoutTopN_settled hbase).2.1

/-- A scan with a ranking pending has as many key columns as its table. The ranking and
the event time are the table's, maybe over the columns of a root view. -/
theorem ScansAs.ranking {relation : RelationId} (hl : c.catalog.Linked)
    (h : c.ScansAs relation table out) :
    out.topN.isEmpty = true ∨ out.key.sources = table.keys ∧ table ∈ c.catalog.bases ∧
      (out.topN = (c.openConstraints table).topN ∧ out.time = timeOf table ∨
        ∃ f, out.topN = ((c.openConstraints table).remap f).topN ∧
          out.time = (timeOf table).remap f) := by
  have hsources : ∀ {key : ColumnMap} {n width : Nat}, ColumnMap.of (List.range n) width = .ok key →
      key.sources = n := fun hkey => by
    rw [ColumnMap.sources, (ColumnMap.of_targets hkey).1, List.length_range]
  cases h with
  | base ht _ hkey =>
    exact .inr ⟨hsources hkey, List.mem_of_getElem? ht, .inl ⟨rfl, rfl⟩⟩
  | nested => exact .inl rfl
  | @root id baseId view _ _ key _ _ hview hbase ht hroot _ hkey =>
    refine .inr ⟨(hsources hkey).trans ?_, List.mem_of_getElem? ht, .inr ⟨_, rfl, rfl⟩⟩
    unfold View.isRoot at hroot
    split at hroot
    · rename_i b hplace
      obtain ⟨found, hfound, hof⟩ := (hl.view id view hview).root b hplace
      obtain rfl := Except.ok.inj ((Catalog.baseOf_of_root hview hplace).symm.trans hbase)
      obtain rfl : table = found := Option.some.inj (ht.symm.trans hfound)
      rw [View.keys, hof.ancestorKeys, hof.ownKeys, Nat.zero_add]
    · cases hroot
  | @unrolled id baseId rootId path view root _ needs empty key _ start unrolled _ hview hbase ht hpath
      hrootId hroot _ hstart hunrolled hkey =>
    rcases belowLevels_cases hstart with ⟨hshort, rfl⟩ | hempty
    · refine .inr ⟨?_, List.mem_of_getElem? ht, .inl ⟨rfl, rfl⟩⟩
      -- the way to the view ends at its root
      obtain ⟨b, hb, top, rest, above, found, hway, htop, -, hfound, hof, -⟩ :=
        hl.baseOf (List.getElem?_eq_some_iff.1 hview).1
      obtain rfl : b = baseId := Except.ok.inj (hb.symm.trans hbase)
      obtain rfl : table = found := Option.some.inj (ht.symm.trans hfound)
      obtain rfl := Except.ok.inj (hway.symm.trans hpath)
      obtain rfl : top = rootId := Option.some.inj hrootId
      obtain rfl : above = root := Option.some.inj (htop.symm.trans hroot)
      cases rest with
      | nil =>
        cases hunrolled
        change key.targets.length = table.keys
        rw [(ColumnMap.of_targets hkey).1, ← hof.ownKeys]
        simp [Lineage.root, Lineage.keys, Level.ownKey]
      | cons _ _ => simp at hshort
    · exact .inl hempty

/-- **A scan** keeps the latest row of a key if its table does. -/
theorem keepsLatest_of_scan {relation : RelationId} (hl : c.catalog.Linked)
    (htables : ∀ table ∈ c.catalog.bases, table.KeepsLatest)
    (h : c.ScansAs relation table out) : out.KeepsLatest := by
  rcases h.ranking hl with hempty | ⟨hkeys, hmem, htopN⟩
  · exact Plan.keepsLatest_of_isEmpty hempty
  · have hopen : (c.openConstraints table).topN.KeepsOne table.keys →
        (c.openConstraints table).topN.ByLatest (timeOf table) := by
      intro hone
      rcases c.openConstraints_topN table with he | he
      · rw [he] at hone
        cases hone.1
      · rw [he] at hone ⊢
        exact htables table hmem hone
    intro hone
    rw [hkeys] at hone
    rcases htopN with ⟨htopN, htime⟩ | ⟨f, htopN, htime⟩
    · rw [htopN] at hone
      rw [htopN, htime]
      exact hopen hone
    · rw [htopN] at hone
      rw [htopN, htime]
      exact byLatest_remap (hopen (keepsOne_remap hone)) hone.1

/-- **The plan of a query** that ranks the latest row first, over tables that keep the
latest row of a key, keeps the latest row of a key. -/
theorem follows_keepsLatest (hl : c.catalog.Linked)
    (htables : ∀ table ∈ c.catalog.bases, table.KeepsLatest) :
    c.Follows fun q plan => c.RanksLatest q → plan.KeepsLatest where
  scan h _ := by
    obtain ⟨table, hscan⟩ := scanPlan_cases h
    exact keepsLatest_of_scan hl htables hscan
  filter _ ho _ := Plan.keepsLatest_of_isEmpty (Plan.isEmpty_topN_of_filtered ho)
  project hi _ ho hq := Plan.keepsLatest_of_projected (hi.holds (hq.below List.mem_cons_self)) ho
  rank {q input plan out columns outputs hint order limit} hranks hi _ ho hq := by
    refine Plan.keepsLatest_of_ranked hi.sound (fun moved hkind hlimit hmoved => ?_) ho
    cases hranks with
    | bare => cases hlimit
    | sorted =>
      obtain ⟨kind, partition⟩ := hint
      cases hkind
      cases hlimit
      exact hq _ (Rel.self_mem_preorder _) _ _ _ .ranking _ _ hi.convert hmoved
  join _ _ _ ho _ := Plan.keepsLatest_of_isEmpty (isEmpty_topN_of_joined ho)
  aggregate _ ho _ := Plan.keepsLatest_of_aggregated ho
  single hp hq := hp (hq.below List.mem_cons_self)
  union _ _ ho _ := Plan.keepsLatest_of_isEmpty (Plan.united_columns ho).2.1
  sort {input plan out order limit offset} hi ho hq := by
    refine Plan.keepsLatest_of_sorted hi.sound (hi.holds (hq.below List.mem_cons_self))
      (fun moved hlimit hmoved => ?_) ho
    cases hlimit
    exact (hq _ (Rel.self_mem_preorder _) _ _ _ .sort _ _ hi.convert hmoved).imp_left And.right
  settle _ ho _ := Plan.keepsLatest_of_isEmpty (Plan.withoutPending_settled ho).2.2

end Converter

end StreamPlan
