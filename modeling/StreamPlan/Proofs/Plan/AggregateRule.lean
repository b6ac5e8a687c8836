import Mathlib.Data.List.Nodup
import Mathlib.Data.List.Perm.Subperm
import StreamPlan.Proofs.Plan.Aggregate

/-!
# The rule for an aggregation

* `Plan.aggregateRule?`: which plan an aggregation gets. It is planned by that rule and
  refused without one (`aggregated_eq`).
* `AggregateRule.kind`: what its rows mean (`kind_of_aggregatedBy`).
* `Plan.RepeatsTime`, `RepeatsRootKey`: repeats among the columns that change the rule
  (`aggregateRule?_unrepeated`). Repeats behind the root key do not (`not_repeatsRootKey`).
-/

namespace StreamPlan

/-- The plans of an aggregation. -/
inductive AggregateRule where
  | tumbling (timestamp : Nat)
  | sliding (filter : NowFilter)
  | byRootKey
  | running
  | plain

/-- What the rows of an aggregation by a rule mean. -/
def AggregateRule.kind : AggregateRule → TableKind
  | tumbling _ | byRootKey => .stream
  | sliding _ | running => .versioned
  | plain => .state

namespace Plan

variable {plan out : Plan} {c : Converter} {keys columns : List Nat} {calls : List AggregateCall}

/-- The plan that an aggregation by columns of a plan gets, if it gets one. -/
def aggregateRule? (c : Converter) (plan : Plan) (columns : List Nat) : Option AggregateRule :=
  let others := if plan.mayRun c.stage then .running else .plain
  if plan.kind = .stream then
    match columns.filter plan.time.isCandidate with
    | [timestamp] => some (.tumbling timestamp)
    | [] =>
      match plan.nowFilter.filter fun f => f.isRecent && c.stage.isWrite with
      | some filter => some (.sliding filter)
      | none => some (if plan.groupsByRootKey c.stage columns then .byRootKey else others)
    | _ => none
  else some others

/-- The aggregation of a plan by a rule. -/
def aggregatedBy (c : Converter) (plan : Plan) (columns : List Nat) (calls : List AggregateCall) :
    AggregateRule → Planning Plan
  | .tumbling timestamp => plan.tumbling columns calls timestamp
  | .sliding filter => plan.sliding columns calls filter c.settings.panes
  | .byRootKey => plan.byRootKey columns calls
  | .running => plan.running columns calls
  | .plain => plan.plain columns calls

/-- **The kind of an aggregation** is that of its rule. -/
theorem kind_of_aggregatedBy {rule : AggregateRule}
    (h : plan.aggregatedBy c columns calls rule = .ok out) : out.kind = rule.kind := by
  cases rule with
  | tumbling timestamp =>
    change plan.tumbling columns calls timestamp = .ok out at h
    unfold tumbling at h
    obtain ⟨_, -, h⟩ := bind_eq_ok.1 h
    obtain ⟨_, -, h⟩ := bind_eq_ok.1 h
    obtain ⟨grouped, hgrouped, h⟩ := bind_eq_ok.1 h
    cases h
    obtain ⟨_, _, rfl⟩ := groupedAs_eq_ok (lift_eq_ok.1 hgrouped)
    rfl
  | sliding filter =>
    change plan.sliding columns calls filter _ = .ok out at h
    unfold sliding at h
    obtain ⟨_, -, h⟩ := bind_eq_ok.1 h
    obtain ⟨_, -, h⟩ := bind_eq_ok.1 h
    obtain ⟨grouped, hgrouped, h⟩ := bind_eq_ok.1 h
    cases h
    obtain ⟨_, _, rfl⟩ := groupedAs_eq_ok (lift_eq_ok.1 hgrouped)
    rfl
  | byRootKey =>
    change plan.byRootKey columns calls = .ok out at h
    unfold byRootKey at h
    obtain ⟨_, -, h⟩ := bind_eq_ok.1 h
    obtain ⟨_, -, h⟩ := bind_eq_ok.1 h
    obtain ⟨grouped, hgrouped, h⟩ := bind_eq_ok.1 h
    cases h
    obtain ⟨_, _, rfl⟩ := groupedAs_eq_ok (lift_eq_ok.1 hgrouped)
    rfl
  | running =>
    obtain ⟨_, _, _, _, _, _, _, -, -, -, -, -, rfl⟩ := running_eq_ok h
    rfl
  | plain =>
    change plan.plain columns calls = .ok out at h
    unfold plain at h
    obtain ⟨_, -, h⟩ := bind_eq_ok.1 h
    obtain ⟨_, _, rfl⟩ := groupedAs_eq_ok (lift_eq_ok.1 h)
    rfl

/-- The rule depends on neither the requirements nor the order that was asked for. -/
theorem aggregateRule?_settled {base : Plan} (h : plan.Settled base)
    (hn : base.nowFilter = plan.nowFilter) (needs : Requirements) :
    aggregateRule? c { base with sort := [], needs } columns = plan.aggregateRule? c columns := by
  simp only [aggregateRule?, mayRun, groupsByRootKey, h.kind, h.time, h.key, h.rootKeys, hn]
  rfl

/-- An aggregation of columns is the one by the rule for them, and refused without a rule. -/
theorem special?_rule (c : Converter) (plan : Plan) (columns : List Nat) (calls : List AggregateCall) :
    (do
      match ← plan.special? c columns calls with
      | some grouped => return grouped
      | none => if plan.mayRun c.stage then plan.running columns calls else plan.plain columns calls)
      = match plan.aggregateRule? c columns with
        | some rule => plan.aggregatedBy c columns calls rule
        | none => refuse (.invalidWindow
            (.severalTimestamps (columns.filter plan.time.isCandidate))) := by
  have hothers : (if plan.mayRun c.stage then plan.running columns calls else plan.plain columns calls)
      = plan.aggregatedBy c columns calls (if plan.mayRun c.stage then .running else .plain) := by
    split <;> rfl
  unfold special? streamAggregate? aggregateRule?
  by_cases hkind : plan.kind = .stream
  · rw [if_pos hkind, if_pos hkind]
    -- by the timestamps among the columns, then by the now-filter
    generalize columns.filter plan.time.isCandidate = times
    rcases times with _ | ⟨timestamp, _ | ⟨other, rest⟩⟩
    · cases plan.nowFilter.filter fun f => f.isRecent && c.stage.isWrite with
      | some filter =>
        simp only [map_eq_pure_bind, bind_assoc, pure_bind, bind_pure]
        rfl
      | none =>
        by_cases hroot : plan.groupsByRootKey c.stage columns = true
        · simp only [if_pos hroot, map_eq_pure_bind, bind_assoc, pure_bind, bind_pure]
          rfl
        · simp only [if_neg hroot, pure_bind]
          exact hothers
    · simp only [map_eq_pure_bind, bind_assoc, pure_bind, bind_pure]
      rfl
    · rfl
  · rw [if_neg hkind, if_neg hkind, pure_bind]
    exact hothers

/-- **Every aggregation is planned by the rule for it**, once a ranking of its input is applied. -/
theorem aggregated_eq (c : Converter) (plan : Plan) (keys : List Nat) (calls : List AggregateCall) :
    plan.aggregated c keys calls = (do
      let base ← plan.withoutTopN
      let columns ← orFault (keys.mapM base.select.apply)
      let moved ← orFault (calls.mapM (·.remap base.select.apply))
      let needs ← needing (base.needs.requireCalls moved)
      match aggregateRule? c { base with sort := [], needs } columns with
      | some rule => aggregatedBy c { base with sort := [], needs } columns moved rule
      | none => refuse (.invalidWindow (.severalTimestamps (columns.filter base.time.isCandidate)))) := by
  unfold aggregated
  refine bind_congr fun base => bind_congr fun columns => bind_congr fun moved => bind_congr fun needs => ?_
  exact special?_rule c { base with sort := [], needs } columns moved

/-- What gives the plan of an aggregation. -/
theorem aggregated_eq_ok (h : plan.aggregated c keys calls = .ok out) :
    ∃ base needs columns moved rule, plan.withoutTopN = .ok base ∧
      keys.mapM plan.select.apply = .ok columns ∧
      calls.mapM (·.remap plan.select.apply) = .ok moved ∧
      plan.aggregateRule? c columns = some rule ∧
      aggregatedBy c { base with sort := [], needs } columns moved rule = .ok out := by
  rw [aggregated_eq] at h
  obtain ⟨base, hbase, h⟩ := bind_eq_ok.1 h
  obtain ⟨columns, hcolumns, h⟩ := bind_eq_ok.1 h
  obtain ⟨moved, hmoved, h⟩ := bind_eq_ok.1 h
  obtain ⟨needs, -, h⟩ := bind_eq_ok.1 h
  obtain ⟨hset, -, hnow⟩ := withoutTopN_settled hbase
  rw [hset.select] at hcolumns hmoved
  rw [aggregateRule?_settled hset hnow] at h
  cases hrule : plan.aggregateRule? c columns with
  | none =>
    rw [hrule] at h
    exact absurd h refuse_ne_ok
  | some rule =>
    rw [hrule] at h
    exact ⟨base, needs, columns, moved, rule, hbase, orFault_eq_ok.1 hcolumns,
      orFault_eq_ok.1 hmoved, hrule, h⟩

/-- The rule for the tumbling window of a timestamp is for grouping by it. -/
theorem mem_of_tumbling {timestamp : Nat}
    (h : plan.aggregateRule? c columns = some (.tumbling timestamp)) : timestamp ∈ columns := by
  have hothers : (if plan.mayRun c.stage then AggregateRule.running else .plain)
      ≠ .tumbling timestamp := by split <;> simp
  unfold aggregateRule? at h
  simp only at h
  split at h
  · split at h
    · rename_i hone
      cases h
      exact (List.mem_filter.1 (hone ▸ List.mem_singleton_self timestamp)).1
    · split at h
      · cases h
      · split at h
        · cases h
        · exact absurd (Option.some.inj h) hothers
    · cases h
  · exact absurd (Option.some.inj h) hothers

end Plan

namespace Selection

variable {columns : List Nat}

theorem mem_unrepeated {c : Nat} : c ∈ append [] columns ↔ c ∈ columns := by
  rw [mem_append, List.mem_nil_iff, false_or]

/-- The first columns stand first without repeats, too, if none of them repeats. -/
theorem take_unrepeated {n : Nat} (h : (columns.take n).Nodup) (hn : n ≤ columns.length) :
    (append [] columns).take n = columns.take n := by
  have hfront : append [] (columns.take n) = columns.take n := append_of_fresh h (by simp)
  obtain ⟨added, hadded, -⟩ := append_eq (columns.take n) (columns.drop n)
  have hsplit : append [] columns = columns.take n ++ added := by
    rw [← hadded, ← hfront, ← append_append, List.take_append_drop]
  rw [hsplit, List.take_left' (by rw [List.length_take, Nat.min_eq_left hn])]

theorem length_unrepeated_le : (append [] columns).length ≤ columns.length :=
  ((nodup_append List.nodup_nil : List.Nodup (append [] columns)).subperm fun _ hc =>
    mem_unrepeated.1 hc).length_le

end Selection

namespace Plan

variable {plan : Plan} {c : Converter} {columns : List Nat}

/-- A stream is grouped by one timestamp, which is written more than once. -/
def RepeatsTime (plan : Plan) (columns : List Nat) : Prop :=
  plan.kind = .stream ∧ ∃ timestamp, plan.time.isCandidate timestamp = true ∧
    (∀ col ∈ columns, plan.time.isCandidate col = true → col = timestamp) ∧
    1 < columns.count timestamp

/-- A stream is grouped without a timestamp and not by a sliding window, and the columns
begin with its root key as they are written, or without repeats, but not both. -/
def RepeatsRootKey (c : Converter) (plan : Plan) (columns : List Nat) : Prop :=
  plan.kind = .stream ∧ (∀ col ∈ columns, plan.time.isCandidate col = false) ∧
    (plan.nowFilter.filter fun f => f.isRecent && c.stage.isWrite) = none ∧
    plan.groupsByRootKey c.stage columns ≠ plan.groupsByRootKey c.stage (Selection.append [] columns)

/-- Repeats behind the root key make no difference to it. -/
theorem not_repeatsRootKey (h : ∀ n, plan.rootKeys = some n → (columns.take n).Nodup) :
    ¬plan.RepeatsRootKey c columns := by
  rintro ⟨-, -, -, hdiffers⟩
  refine hdiffers ?_
  unfold groupsByRootKey
  split
  · rfl
  · rename_i n hn
    by_cases hle : n ≤ columns.length
    · have htake := Selection.take_unrepeated (h n hn) hle
      have hle' : n ≤ (Selection.append [] columns).length := by
        rw [← Nat.min_eq_left hle, ← List.length_take, ← htake]
        exact List.length_take_le' _ _
      rw [htake, decide_eq_true hle, decide_eq_true hle']
    · have hle' : ¬n ≤ (Selection.append [] columns).length := fun hle' =>
        hle (Nat.le_trans hle' Selection.length_unrepeated_le)
      rw [decide_eq_false hle, decide_eq_false hle']
      simp

/-- One timestamp that repeats is the only one without repeats, and not the only one with them. -/
theorem repeatsTime_iff (hkind : plan.kind = .stream) :
    plan.RepeatsTime columns ↔ ∃ timestamp,
      (Selection.append [] columns).filter plan.time.isCandidate = [timestamp] ∧
        1 < (columns.filter plan.time.isCandidate).length := by
  have hnodup : ((Selection.append [] columns).filter plan.time.isCandidate).Nodup :=
    (Selection.nodup_append List.nodup_nil).filter _
  have hmem : ∀ col, col ∈ (Selection.append [] columns).filter plan.time.isCandidate ↔
      col ∈ columns ∧ plan.time.isCandidate col = true := fun col => by
    rw [List.mem_filter, Selection.mem_unrepeated]
  constructor
  · rintro ⟨-, timestamp, htime, honly, hcount⟩
    have hin : timestamp ∈ columns := List.count_pos_iff.1 (Nat.lt_trans Nat.zero_lt_one hcount)
    refine ⟨timestamp, ?_, ?_⟩
    · refine List.perm_singleton.1 ((List.perm_ext_iff_of_nodup hnodup (List.nodup_singleton _)).2
        fun col => ?_)
      rw [hmem, List.mem_singleton]
      exact ⟨fun ⟨hcol, ht⟩ => honly col hcol ht, fun heq => heq ▸ ⟨hin, htime⟩⟩
    · refine Nat.lt_of_lt_of_le hcount ?_
      rw [← List.count_filter htime]
      exact List.count_le_length
  · rintro ⟨timestamp, hone, hmany⟩
    have honly : ∀ col, col ∈ columns ∧ plan.time.isCandidate col = true ↔ col = timestamp := fun col => by
      rw [← hmem, hone, List.mem_singleton]
    obtain ⟨-, htime⟩ := (honly timestamp).2 rfl
    refine ⟨hkind, timestamp, htime, fun col hcol ht => (honly col).1 ⟨hcol, ht⟩, ?_⟩
    rw [← List.count_filter htime, List.count_eq_length.2 fun col hcol =>
      ((honly col).1 (List.mem_filter.1 hcol)).symm]
    exact hmany

/-- **Repeats change the rule** if they are of the only timestamp or of the root key. -/
theorem aggregateRule?_unrepeated :
    plan.aggregateRule? c columns = plan.aggregateRule? c (Selection.append [] columns) ↔
      ¬plan.RepeatsTime columns ∧ ¬plan.RepeatsRootKey c columns := by
  by_cases hkind : plan.kind = .stream
  · have hmem : ∀ col, col ∈ (Selection.append [] columns).filter plan.time.isCandidate ↔
        col ∈ columns.filter plan.time.isCandidate := fun col => by
      rw [List.mem_filter, List.mem_filter, Selection.mem_unrepeated]
    have hnodup : ((Selection.append [] columns).filter plan.time.isCandidate).Nodup :=
      (Selection.nodup_append List.nodup_nil).filter _
    have hnone : (∀ col ∈ columns, plan.time.isCandidate col = false) ↔
        columns.filter plan.time.isCandidate = [] := by simp
    rw [repeatsTime_iff hkind, RepeatsRootKey, hnone, aggregateRule?, aggregateRule?]
    simp only [hkind, true_and]
    generalize (Selection.append [] columns).filter plan.time.isCandidate = once at hmem hnodup ⊢
    generalize columns.filter plan.time.isCandidate = times at hmem ⊢
    -- by the timestamps without repeats, then by those with repeats
    rcases once with _ | ⟨timestamp, _ | ⟨other, rest⟩⟩
    · obtain rfl : times = [] := List.eq_nil_iff_forall_not_mem.2 fun col hcol => by
        cases (hmem col).2 hcol
      cases plan.nowFilter.filter fun f => f.isRecent && c.stage.isWrite with
      | some filter => simp
      | none =>
        have hothers : (if plan.mayRun c.stage then AggregateRule.running else .plain)
            ≠ .byRootKey := by split <;> simp
        cases plan.groupsByRootKey c.stage columns <;>
          cases plan.groupsByRootKey c.stage (Selection.append [] columns) <;>
          simp [hothers, hothers.symm]
    · have hin : timestamp ∈ times := (hmem timestamp).1 List.mem_cons_self
      rcases times with _ | ⟨first, _ | ⟨second, more⟩⟩
      · cases hin
      · obtain rfl := List.mem_singleton.1 hin
        simp
      · simp
    · -- two timestamps are two with repeats, too
      have htwo : timestamp ≠ other := fun heq =>
        (List.nodup_cons.1 hnodup).1 (heq ▸ List.mem_cons_self)
      have hfirst : timestamp ∈ times := (hmem timestamp).1 List.mem_cons_self
      have hsecond : other ∈ times := (hmem other).1 (List.mem_cons_of_mem _ List.mem_cons_self)
      rcases times with _ | ⟨first, _ | ⟨second, more⟩⟩
      · cases hfirst
      · exact absurd ((List.mem_singleton.1 hfirst).trans (List.mem_singleton.1 hsecond).symm) htwo
      · simp
  · have hrules : plan.aggregateRule? c columns
        = plan.aggregateRule? c (Selection.append [] columns) := by
      simp only [aggregateRule?, if_neg hkind]
    exact ⟨fun _ => ⟨fun h => hkind h.1, fun h => hkind h.1⟩, fun _ => hrules⟩

/-- A timestamp that repeats is refused. -/
theorem RepeatsTime.rule (h : plan.RepeatsTime columns) : plan.aggregateRule? c columns = none := by
  obtain ⟨timestamp, -, hmany⟩ := (repeatsTime_iff h.1).1 h
  rw [aggregateRule?, h.1]
  generalize columns.filter plan.time.isCandidate = times at hmany ⊢
  rcases times with _ | ⟨first, _ | ⟨second, more⟩⟩
  · cases hmany
  · exact absurd hmany (Nat.lt_irrefl 1)
  · rfl

/-- Repeats of the root key change what the rows mean. -/
theorem RepeatsRootKey.kinds (h : plan.RepeatsRootKey c columns) {rule once : AggregateRule}
    (hrule : plan.aggregateRule? c columns = some rule)
    (honce : plan.aggregateRule? c (Selection.append [] columns) = some once) :
    rule.kind ≠ once.kind := by
  obtain ⟨hkind, htimes, hfilter, hdiffers⟩ := h
  have hnone : columns.filter plan.time.isCandidate = [] := by simpa using htimes
  have hnone' : (Selection.append [] columns).filter plan.time.isCandidate = [] := by
    simpa [Selection.mem_unrepeated] using htimes
  rw [aggregateRule?, hkind, hnone, hfilter] at hrule
  rw [aggregateRule?, hkind, hnone', hfilter] at honce
  cases hrule
  cases honce
  cases hroot : plan.groupsByRootKey c.stage columns <;>
    cases honce : plan.groupsByRootKey c.stage (Selection.append [] columns) <;>
    cases plan.mayRun c.stage
  all_goals first | exact absurd (hroot.trans honce.symm) hdiffers | simp [AggregateRule.kind]

end Plan

end StreamPlan
