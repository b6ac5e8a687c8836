import StreamPlan.Proofs.Answers.JoinCondition
import StreamPlan.Proofs.Answers.Pending
import StreamPlan.Proofs.Rows.Join
import StreamPlan.Proofs.Typing.Convert

/-!
# Answers of joins

The rows that a planned join has are those of a nested loop over the answers of
its inputs, with the condition as it is written.

* `JoinInputs.rule`: the rule that the plan of a join comes from.
* `JoinInputs.PairsInOrder`, `PairsSwapped`: a planned join of the input rows, with
  the sides as they are written or swapped. The join of current values and a join
  within a bounded time keep the sides, a join by time may swap them.
* `Converter.join_joins_answers`: **the answer of a join** is the nested loop over the
  answers of its inputs, up to the order of its rows.
* `Converter.far_hour_is_not_joined`: times that are 999 years apart before they
  are moved to the end of a bucket are not joined after.
-/

namespace StreamPlan

/-- The rules that the plan of a join may come from. -/
inductive JoinRule where
  /-- Both inputs are unrollings of one entity. -/
  | entity
  /-- A stream with the versions of a table. -/
  | temporal
  /-- Two streams within a bounded time. -/
  | interval
  /-- Current values. -/
  | current
  deriving DecidableEq

/-- Whether a rule gives a plan. -/
def givesPlan (attempted : Planning (Option Plan)) : Bool :=
  match attempted with
  | .ok (some _) => true
  | _ => false

theorem givesPlan_of_ok {attempted : Planning (Option Plan)} {o : Option Plan}
    (h : attempted = .ok o) : givesPlan attempted = o.isSome := by
  rw [h]
  cases o <;> rfl

/-- The rule that the plan of a join comes from: the first that gives one. -/
def JoinInputs.rule (c : Converter) (j : JoinInputs) : JoinRule :=
  if givesPlan (Converter.attempt j [.auto, .inner, .left] (j.selfJoin? c)) then .entity
  else if givesPlan (Converter.attempt j [.auto, .temporal, .left] j.temporalJoin?) then .temporal
  else if givesPlan (Converter.attempt j [.auto, .inner, .interval, .left] j.intervalJoin?) then
    .interval
  else .current

/-- **The plan of a join** comes from its rule. -/
theorem Converter.joined_by_rule {c : Converter} {j : JoinInputs} {out : Plan}
    (h : c.joined j = .ok out) :
    match j.rule c with
    | .entity => j.selfJoin? c = .ok (some out)
    | .temporal => j.temporalJoin? = .ok (some out)
    | .interval => j.intervalJoin? = .ok (some out)
    | .current => j.statePlan = .ok out := by
  unfold joined at h
  obtain ⟨o, hself, h⟩ := bind_eq_ok.1 h
  rw [JoinInputs.rule, givesPlan_of_ok hself]
  rcases o with _ | plan
  · obtain ⟨o, htemporal, h⟩ := bind_eq_ok.1 h
    rw [givesPlan_of_ok htemporal]
    rcases o with _ | plan
    · obtain ⟨o, hinterval, h⟩ := bind_eq_ok.1 h
      rw [givesPlan_of_ok hinterval]
      rcases o with _ | plan
      · exact h
      · cases h
        exact attempt_eq_ok hinterval
    · cases h
      exact attempt_eq_ok htemporal
  · cases h
    exact attempt_eq_ok hself

/-- An expression over other columns is true where the expression over what they
show is. -/
theorem trueOn_remap {now : Int} {f : Nat → Except Fault Nat} {row seen : Row} {e e' : Expr}
    (h : Expr.Sees f row seen) (he : e.remap f = .ok e') :
    trueOn now e' row = trueOn now e seen := by
  rw [trueOn, trueOn, evalExpr_remap h he]

namespace Plan

variable {plan out : Plan} {catalog : Catalog} {fixture : Fixture} {rows : List Row}

/-- The rows of a plan with nothing pending: of its width, with times in its timestamps. -/
structure HasRows (plan : Plan) (fixture : Fixture) (rows : List Row) : Prop where
  evaluates : evaluate fixture plan.settledRel = .ok rows
  shaped : ∀ row ∈ rows, row.length = plan.width
  timed : ∀ row ∈ rows, ∀ i ∈ plan.time.columns, row.Timed i

theorem Regular.hasRows (h : plan.Regular catalog fixture)
    (hrows : evaluate fixture plan.settledRel = .ok rows) : plan.HasRows fixture rows := by
  obtain ⟨below, hbelow, hsub⟩ := plan.settledRel_restricted.mem h.shaped hrows
  exact ⟨hrows, fun row hrow => h.shaped below hbelow row (hsub row hrow),
    fun row hrow => h.timed below hbelow row (hsub row hrow)⟩

/-- The times that a row shows at the timestamps of its plan. -/
def shownTimes (plan : Plan) (visible : Row) : List Int :=
  plan.select.targets.zipIdx.filterMap fun (c, i) =>
    if plan.time.isCandidate c then visible.timeAt i else none

theorem mem_shownTimes {visible : Row} {i c : Nat} {t : Int} (hc : plan.select.apply i = .ok c)
    (hcandidate : plan.time.isCandidate c = true) (ht : visible.timeAt i = some t) :
    t ∈ plan.shownTimes visible := by
  refine List.mem_filterMap.2
    ⟨(c, i), List.mem_zipIdx_iff_getElem?.2 (ColumnMap.apply_eq_ok.1 hc), ?_⟩
  simp only
  rw [if_pos hcandidate, ht]

/-- A row shows the time of a candidate that the query sees. -/
theorem shownTime_of_column {row : Row} {i c : Nat} {t : Int} (hs : plan.Sound)
    (hrow : row.length = plan.width) (hc : plan.select.apply i = .ok c)
    (hcandidate : plan.time.isCandidate c = true) (ht : row.timeAt c = some t) :
    t ∈ plan.shownTimes (plan.shown row).visible := by
  refine mem_shownTimes hc hcandidate ?_
  obtain ⟨v, hshown, hrow⟩ := hs.sees hrow i c hc
  rw [Row.timeAt, hshown]
  rwa [Row.timeAt, hrow] at ht

end Plan

/-- No rows of two plans show times that are more than 999 years apart. -/
def Plan.NearTimes (left right : Plan) (lefts rights : List AnsweredRow) : Prop :=
  ∀ l ∈ lefts, ∀ r ∈ rights, ∀ s ∈ left.shownTimes l.visible, ∀ t ∈ right.shownTimes r.visible,
    s - t ≤ unboundedMillis ∧ t - s ≤ unboundedMillis

namespace JoinInputs

variable {c : Converter} {fixture : Fixture} {now : Int} {j : JoinInputs} {left right out : Plan}
  {kind : JoinKind} {condition : Expr} {l r : Row} {ls rs above : List Row}

/-- The condition of a join sees on a pair what the rows show. -/
theorem sees_of_pair (hsl : left.Sound) (hsr : right.Sound) (hl : l.length = left.width)
    (hr : r.length = right.width) :
    Expr.Sees (joinedColumn left right) (l ++ r)
      ((left.shown l).visible ++ (right.shown r).visible) := by
  intro i t ht
  have hwidth : (left.shown l).visible.length = left.select.sources := by
    rw [Plan.visible_shown, Row.length_pick]
    rfl
  unfold joinedColumn at ht
  split at ht
  · rename_i hi
    obtain ⟨v, hv, hrow⟩ := hsl.sees hl i t ht
    exact ⟨v, Catalog.getElem?_append_some hv, Catalog.getElem?_append_some hrow⟩
  · rename_i hi
    obtain ⟨u, hu, ht⟩ := bind_eq_ok.1 ht
    cases ht
    obtain ⟨v, hv, hrow⟩ := hsr.sees hr _ u hu
    refine ⟨v, ?_, ?_⟩
    · rw [List.getElem?_append_right (by omega), hwidth, hv]
    · rw [← hl, List.getElem?_append_right (Nat.le_add_right _ _), Nat.add_sub_cancel_left, hrow]

/-- A pair has times where its rows have them. -/
theorem timed_of_pair (hl : l.length = left.width) (htl : ∀ i ∈ left.time.columns, l.Timed i)
    (htr : ∀ i ∈ right.time.columns, r.Timed i) :
    ∀ i, isTimestamp left right i = true → (l ++ r).Timed i := by
  intro i hi
  unfold isTimestamp at hi
  split at hi
  · exact (htl i (EventTime.isCandidate_iff.1 hi)).append_left r
  · have hr := (htr _ (EventTime.isCandidate_iff.1 hi)).append_right l
    rwa [hl, Nat.add_sub_cancel' (by omega)] at hr

/-- The times that a written bound compares are shown by the rows of a pair. -/
theorem within_of_pair (hj : of left right kind condition = .ok j) (hsl : left.Sound)
    (hsr : right.Sound) (hl : l.length = left.width) (hr : r.length = right.width)
    (hnear : ∀ s ∈ left.shownTimes (left.shown l).visible,
      ∀ t ∈ right.shownTimes (right.shown r).visible,
        s - t ≤ unboundedMillis ∧ t - s ≤ unboundedMillis) :
    ∀ b ∈ j.parts.timeBounds, b.Within now (l ++ r) unboundedMillis := by
  obtain ⟨-, -, -, hmoved, hparts⟩ := of_eq_ok hj
  intro b hb
  obtain ⟨hcross, k, hk, hbound⟩ : JoinCondition.crosses left.width b = true ∧
      ∃ k ∈ j.condition.conjuncts, TimeBound.ofExpr? (isTimestamp left right) k = .ok (some b) := by
    rcases (JoinCondition.adds_of_ofExpr hparts).timeBounds b hb with hb | hb
    · cases hb
    · exact hb
  obtain ⟨before, hbefore⟩ := Expr.conjunct_of_remap hmoved hk
  have hleft : ∀ a ∈ b.columns, a < left.width → ∀ s, (l ++ r).timeAt a = some s →
      s ∈ left.shownTimes (left.shown l).visible := by
    intro a ha hlt s hs
    obtain ⟨i, hi⟩ := TimeBound.ofExpr?_of_remap hbefore hbound a ha
    have hcandidate := TimeBound.candidate_of_ofExpr? hbound a ha
    rw [isTimestamp, if_pos hlt] at hcandidate
    rw [Row.timeAt, List.getElem?_append_left (hl ▸ hlt)] at hs
    unfold joinedColumn at hi
    split at hi
    · exact Plan.shownTime_of_column hsl hl hi hcandidate hs
    · obtain ⟨u, -, hi⟩ := bind_eq_ok.1 hi
      cases hi
      omega
  have hright : ∀ a ∈ b.columns, ¬a < left.width → ∀ t, (l ++ r).timeAt a = some t →
      t ∈ right.shownTimes (right.shown r).visible := by
    intro a ha hge t ht
    obtain ⟨i, hi⟩ := TimeBound.ofExpr?_of_remap hbefore hbound a ha
    have hcandidate := TimeBound.candidate_of_ofExpr? hbound a ha
    rw [isTimestamp, if_neg hge] at hcandidate
    rw [Row.timeAt, List.getElem?_append_right (by omega), hl] at ht
    unfold joinedColumn at hi
    split at hi
    · exact absurd (hsl.apply_lt hi) hge
    · obtain ⟨u, hu, hi⟩ := bind_eq_ok.1 hi
      cases hi
      rw [Nat.add_sub_cancel_left] at hcandidate ht
      exact Plan.shownTime_of_column hsr hr hu hcandidate ht
  -- a bound that crosses has a column on each side
  obtain ⟨larger, smaller, comparison, millis⟩ := b
  cases larger with
  | now => cases smaller <;> cases hcross
  | column a =>
    cases smaller with
    | now => cases hcross
    | column a' =>
      have hcross : decide (a < left.width) ≠ decide (a' < left.width) := bne_iff_ne.1 hcross
      intro s t hs ht
      by_cases ha : a < left.width
      · have ha' : ¬a' < left.width := by simpa [ha] using hcross
        exact (hnear s (hleft a (by simp [TimeBound.columns, TimeOperand.column?]) ha s hs) t
          (hright a' (by simp [TimeBound.columns, TimeOperand.column?]) ha' t ht)).2
      · have ha' : a' < left.width := by simpa [ha] using hcross
        exact (hnear t (hleft a' (by simp [TimeBound.columns, TimeOperand.column?]) ha' t ht) s
          (hright a (by simp [TimeBound.columns, TimeOperand.column?]) ha s hs)).1

/-- A planned join of the rows of its inputs, with the sides as they are written. -/
structure PairsInOrder (now : Int) (j : JoinInputs) (out : Plan) (ls rs above : List Row) : Prop where
  select : out.select.targets
    = j.left.select.targets ++ j.right.select.targets.map (j.left.width + ·)
  rows : ∃ rebuilt, (∀ l ∈ ls, ∀ r ∈ rs, Replaces now j.condition (l ++ r) rebuilt (l ++ r)) ∧
    above = ls.flatMap (joinedWith now j.plannedKind rebuilt j.right.width rs)

/-- A planned join of the rows of its inputs, with the sides swapped. Left rows
without a partner are not kept. -/
structure PairsSwapped (now : Int) (j : JoinInputs) (out : Plan) (ls rs above : List Row) : Prop where
  kind : j.plannedKind = .inner
  select : out.select.targets
    = j.left.select.targets.map (j.right.width + ·) ++ j.right.select.targets
  rows : ∃ rebuilt, (∀ l ∈ ls, ∀ r ∈ rs, Replaces now j.condition (l ++ r) rebuilt (r ++ l)) ∧
    above = rs.flatMap (joinedWith now .inner rebuilt j.left.width ls)

/-- The visible columns of a join of the settled inputs. -/
theorem select_of_settled {l r : Plan} (hleft : j.left.withoutPending = .ok l)
    (hright : j.right.withoutPending = .ok r)
    (hselect : l.select.joinAt r.select j.left.width = .ok out.select) :
    out.select.targets
      = j.left.select.targets ++ j.right.select.targets.map (j.left.width + ·) := by
  rw [(ColumnMap.joinAt_targets hselect).1, (Plan.withoutPending_settled hleft).1.select,
    (Plan.withoutPending_settled hright).1.select]

section Rules

variable (hl : j.left.HasRows fixture ls) (hr : j.right.HasRows fixture rs)
include hl hr

/-- The rows of a join of the settled inputs. -/
theorem rows_of_settled_join {l r : Plan} {rebuilt : Expr} {hint : Option JoinHint}
    (hleft : j.left.withoutPending = .ok l) (hright : j.right.withoutPending = .ok r)
    (hrel : out.rel = .join l.rel r.rel j.plannedKind rebuilt hint) (hnow : out.nowFilter = none)
    (htop : out.topN = .none) (habove : evaluate fixture out.settledRel = .ok above) :
    (∀ l ∈ ls, ∀ r ∈ rs, ∃ v, evalExpr fixture.now (l ++ r) rebuilt = .ok v) ∧
      above = ls.flatMap (joinedWith fixture.now j.plannedKind rebuilt j.right.width rs) := by
  rw [Plan.settledRel_eq_rel hnow (by rw [htop]; rfl), hrel, evaluate,
    Plan.rel_of_withoutPending hleft, Plan.rel_of_withoutPending hright, hl.evaluates, hr.evaluates] at habove
  have hrows := (joinRows_eq_ok j.keepsRight_plannedKind).1 habove
  have hwidth : j.right.settledRel.width = j.right.width := by
    rw [← Plan.rel_of_withoutPending hright]
    exact (Plan.withoutPending_settled hright).1.width
  rwa [hwidth] at hrows

/-- **The join of current values** keeps the sides and the condition. -/
theorem statePlan_pairs (h : j.statePlan = .ok out)
    (habove : evaluate fixture out.settledRel = .ok above) :
    PairsInOrder fixture.now j out ls rs above := by
  obtain ⟨_, _, _, hleft, hright, hselect, hrel, -, hnow, htop, -⟩ := statePlan_eq_ok h
  obtain ⟨hok, hrows⟩ := rows_of_settled_join hl hr hleft hright hrel hnow htop habove
  exact ⟨select_of_settled hleft hright hselect, j.condition,
    fun l hl r hr => replaces_self (hok l hl r hr), hrows⟩

/-- **A join within a bounded time** keeps the sides. Its condition says what the
written one says of rows with near times. -/
theorem intervalPlan_pairs (hj : of left right kind condition = .ok j) (hsl : left.Sound)
    (hsr : right.Sound) (hwritten : j.parts.timeBounds ≠ [])
    (hnear : left.NearTimes right (ls.map left.shown) (rs.map right.shown))
    (h : j.intervalJoin? = .ok (some out)) (habove : evaluate fixture out.settledRel = .ok above) :
    PairsInOrder fixture.now j out ls rs above := by
  obtain ⟨window, hwindow, h⟩ := intervalJoin?_eq_ok h
  obtain ⟨_, _, _, hleft, hright, -, hselect, hrel, hnow, htop, -⟩ := intervalPlan_eq_ok h
  obtain ⟨hok, hrows⟩ := rows_of_settled_join hl hr hleft hright hrel hnow htop habove
  refine ⟨select_of_settled hleft hright hselect, window.condition j,
    fun l hlmem r hrmem => ?_, hrows⟩
  obtain ⟨rfl, rfl, -, -, hparts⟩ := of_eq_ok hj
  have hlen := hl.shaped l hlmem
  exact window.replaces hparts (bounds_of_closedWindow hwritten hwindow)
    (timed_of_pair hlen (hl.timed l hlmem) (hr.timed r hrmem))
    (within_of_pair hj hsl hsr hlen (hr.shaped r hrmem)
      (hnear _ (List.mem_map_of_mem hlmem) _ (List.mem_map_of_mem hrmem)))
    (hok l hlmem r hrmem)

end Rules

/-- The rows of a stream with nothing pending are rows of the stream as it is joined:
those that its now-filter keeps. -/
theorem rows_of_readyStream {stream ready : Plan} {ss below : List Row} {catalog : Catalog}
    (hs : stream.Sound) (hr : stream.Regular catalog fixture)
    (h : readyStream stream = .ok ready) (hss : evaluate fixture stream.settledRel = .ok ss)
    (hbelow : evaluate fixture ready.rel = .ok below) :
    ss = below.filter (ready.keeps fixture.now) := by
  rcases readyStream_eq_ok h with ⟨hempty, rfl⟩ | hsettle
  · rw [Plan.settledRel_eq_filteredRel hempty] at hss
    obtain ⟨below', hbelow', rfl⟩ :=
      Plan.rows_of_filteredRel (hr.filtersTimes hs.nowFilter) hss
    rw [Except.ok.inj (hbelow.symm.trans hbelow')]
  · rw [Plan.rel_of_withoutPending hsettle] at hbelow
    have hnone := (Plan.withoutPending_settled hsettle).2.1
    rw [← Except.ok.inj (hss.symm.trans hbelow)]
    exact (List.filter_eq_self.2 fun row _ => Plan.keeps_of_none hnone).symm

/-- The rows of a join of a stream with a table. A now-filter that stays pending above
the join keeps the pairs of the rows that it keeps. -/
theorem rows_of_stream_join {stream table ready settled : Plan} {ss ts : List Row}
    {catalog : Catalog} {rebuilt : Expr} {hint : Option JoinHint} (hk : kind.keepsRight = false)
    (hs : stream.Sound) (hr : stream.Regular catalog fixture) (hready : readyStream stream = .ok ready)
    (hsettled : table.withoutPending = .ok settled)
    (hrel : out.rel = .join ready.rel settled.rel kind rebuilt hint)
    (hnow : out.nowFilter = ready.nowFilter) (htop : out.topN = .none)
    (hss : evaluate fixture stream.settledRel = .ok ss)
    (hts : evaluate fixture table.settledRel = .ok ts)
    (habove : evaluate fixture out.settledRel = .ok above) :
    (∀ s ∈ ss, ∀ t ∈ ts, ∃ v, evalExpr fixture.now (s ++ t) rebuilt = .ok v) ∧
      above = ss.flatMap (joinedWith fixture.now kind rebuilt table.width ts) := by
  have hreadySound := (readyStream_settled hready).sound hs
  have hreadyRegular := hr.ready hready
  have hjoined : ∀ mid, evaluate fixture out.rel = .ok mid → ∃ below,
      evaluate fixture ready.rel = .ok below ∧
        (∀ s ∈ below, ∀ t ∈ ts, ∃ v, evalExpr fixture.now (s ++ t) rebuilt = .ok v) ∧
        mid = below.flatMap (joinedWith fixture.now kind rebuilt table.width ts) := by
    intro mid hmid
    rw [hrel, evaluate, Plan.rel_of_withoutPending hsettled, hts] at hmid
    obtain ⟨below, hbelow, hmid⟩ := bind_eq_ok.1 hmid
    have hrows := (joinRows_eq_ok hk).1 hmid
    have hwidth : table.settledRel.width = table.width := by
      rw [← Plan.rel_of_withoutPending hsettled]
      exact (Plan.withoutPending_settled hsettled).1.width
    rw [hwidth] at hrows
    exact ⟨below, hbelow, hrows⟩
  rw [Plan.settledRel_eq_filteredRel (by rw [htop]; rfl)] at habove
  have htimes : out.FiltersTimes fixture := by
    intro f hf rows hrows row hrow
    obtain ⟨below, hbelow, -, rfl⟩ := hjoined rows hrows
    obtain ⟨s, hsmem, hrow⟩ := List.mem_flatMap.1 hrow
    obtain ⟨rest, rfl⟩ := front_of_joinedWith hrow
    exact (hreadyRegular.timed below hbelow s hsmem _
      (hreadySound.nowFilter f (hnow ▸ hf))).append_left rest
  obtain ⟨mid, hmid, rfl⟩ := Plan.rows_of_filteredRel htimes habove
  obtain ⟨below, hbelow, hok, rfl⟩ := hjoined mid hmid
  obtain rfl := rows_of_readyStream hs hr hready hss hbelow
  refine ⟨fun s hsmem => hok s (List.mem_filter.1 hsmem).1, ?_⟩
  -- the now-filter looks at columns of the stream, which come first
  refine filter_flatMap_of_left fun s hsmem row hrow => ?_
  obtain ⟨rest, rfl⟩ := front_of_joinedWith hrow
  rw [Plan.keeps, Plan.keeps, hnow]
  cases hf : ready.nowFilter with
  | none => rfl
  | some f =>
    obtain ⟨v, hv, -⟩ := hreadyRegular.timed below hbelow s hsmem _ (hreadySound.nowFilter f hf)
    exact NowFilter.keeps_remap (Catalog.getElem?_append_some hv) hv

/-- A joined column is a column of the pair. -/
theorem joinedColumn_lt (hsl : left.Sound) (hsr : right.Sound) {i t : Nat}
    (h : joinedColumn left right i = .ok t) : t < left.width + right.width := by
  unfold joinedColumn at h
  split at h
  · have := hsl.apply_lt h
    omega
  · obtain ⟨u, hu, h⟩ := bind_eq_ok.1 h
    cases h
    have := hsr.apply_lt hu
    omega

/-- The right column of an equality is a column of the right input. -/
theorem equality_inside (hj : of left right kind condition = .ok j) (hsl : left.Sound)
    (hsr : right.Sound) : ∀ p ∈ j.parts.equalities, p.2 < right.width := by
  obtain ⟨-, -, -, hmoved, hparts⟩ := of_eq_ok hj
  intro p hp
  rcases (JoinCondition.adds_of_ofExpr hparts).equalities p hp with hp | ⟨k, hk, he⟩
  · cases hp
  · obtain ⟨before, hbefore⟩ := Expr.conjunct_of_remap hmoved hk
    obtain ⟨i, hi⟩ : ∃ i, joinedColumn left right i = .ok (p.2 + left.width) := by
      rcases (JoinCondition.equality?_eq_some he).2 with rfl | rfl
      · exact (Expr.columns_of_remap_equate hbefore).2
      · exact (Expr.columns_of_remap_equate hbefore).1
    have := joinedColumn_lt hsl hsr hi
    omega

/-- The equalities of a join by time are of columns of the stream and of the table. -/
theorem TemporalSides.Of.inside {sides : TemporalSides} (h : sides.Of j)
    (hj : of left right kind condition = .ok j) (hsl : left.Sound) (hsr : right.Sound) :
    ∀ p ∈ sides.equalities, p.1 < sides.stream.width ∧ p.2 < sides.table.width := by
  have hright := equality_inside hj hsl hsr
  obtain ⟨rfl, rfl, -, -, hparts⟩ := of_eq_ok hj
  have hleft := JoinCondition.left_of_equality hparts
  rcases h.roles with ⟨-, hs, ht, he⟩ | ⟨-, -, hs, ht, he⟩
  · rw [hs, ht, he]
    exact fun p hp => ⟨hleft p hp, hright p hp⟩
  · rw [hs, ht, he]
    exact List.forall_mem_map.2 fun p hp => ⟨hright p hp, hleft p hp⟩

/-- The visible columns of a join by time are in the written order. -/
theorem temporalSelect_eq_ok {swapped : Bool} {stream table ready settled : Plan}
    {select : ColumnMap} (h : j.temporalSelect swapped ready settled = .ok select)
    (hready : stream.Settled ready) (hsettled : table.Settled settled) :
    select.targets = if swapped then
        table.select.targets.map (stream.width + ·) ++ stream.select.targets
      else stream.select.targets ++ table.select.targets.map (stream.width + ·) := by
  have hwidth : ready.width = stream.width := hready.width
  cases swapped with
  | false =>
    rw [(ColumnMap.joinAt_targets h).1, hready.select, hsettled.select, hwidth]
    rfl
  | true =>
    rw [(ColumnMap.of_targets h).1, hready.select, hsettled.select, hwidth]
    simp only [Nat.add_comm, if_true]

/-- Inputs that can be joined by time are joined on equalities only. -/
theorem isEquiJoin_of_temporalShape {sides : TemporalSides} (h : j.temporalProblem? sides = none) :
    j.parts.isEquiJoin = true := by
  unfold temporalProblem? at h
  split at h
  · cases h
  · split at h
    · cases h
    · rename_i hequi
      simpa using hequi

/-- **A join by time** keeps the sides, or swaps them if the stream is the right input. -/
theorem temporalPlan_pairs {catalog : Catalog} (hj : of left right kind condition = .ok j)
    (hsl : left.Sound) (hsr : right.Sound) (hrl : left.Regular catalog fixture)
    (hrr : right.Regular catalog fixture) (hl : left.HasRows fixture ls)
    (hr : right.HasRows fixture rs) (h : j.temporalJoin? = .ok (some out))
    (habove : evaluate fixture out.settledRel = .ok above) :
    PairsInOrder fixture.now j out ls rs above ∨ PairsSwapped fixture.now j out ls rs above := by
  obtain ⟨rfl, rfl, -, -, hparts⟩ := of_eq_ok hj
  obtain ⟨sides, hshape, h⟩ := temporalJoin?_eq_ok h
  obtain ⟨hof, hproblem⟩ := temporalShape_eq_ok hshape
  have hequi := isEquiJoin_of_temporalShape hproblem
  obtain ⟨ready, settled, hint, hready, hsettled, -, hselect, hrel, hnow, htop, -⟩ :=
    temporalPlan_eq_ok h
  have hrs := readyStream_settled hready
  have hts := (Plan.withoutPending_settled hsettled).1
  -- the stream is the left input, or it is the right one of an inner join
  rcases hof.roles with ⟨hswapped, hstream, htable, hequalities⟩ |
    ⟨hswapped, hkind, hstream, htable, hequalities⟩
  · rw [hstream] at hready hrs
    rw [htable] at hsettled hts
    obtain ⟨hok, hrows⟩ := rows_of_stream_join j.keepsRight_plannedKind hsl hrl hready hsettled hrel
      hnow htop hl.evaluates hr.evaluates habove
    refine .inl ⟨?_, _, fun l hlmem r hrmem => ?_, hrows⟩
    · rw [hswapped] at hselect
      exact temporalSelect_eq_ok hselect hrs hts
    · have hrow := timed_of_pair (hl.shaped l hlmem) (hl.timed l hlmem) (hr.timed r hrmem)
      have hwidth : ready.width = j.left.width := hrs.width
      rw [hwidth] at hok ⊢
      exact TemporalSides.replaces hparts hequi hequalities hrow (hok l hlmem r hrmem)
  · rw [hstream] at hready hrs
    rw [htable] at hsettled hts
    have hinner : j.plannedKind = .inner := if_neg hkind
    rw [hinner] at hrel
    obtain ⟨hok, hrows⟩ := rows_of_stream_join rfl hsr hrr hready hsettled hrel hnow htop
      hr.evaluates hl.evaluates habove
    have hwidth : ready.width = j.right.width := hrs.width
    refine .inr ⟨hinner, ?_, _, fun l hlmem r hrmem => ?_, hrows⟩
    · rw [hswapped] at hselect
      exact temporalSelect_eq_ok hselect hrs hts
    · have hll := hl.shaped l hlmem
      have hlr := hr.shaped r hrmem
      have hrow := timed_of_pair hll (hl.timed l hlmem) (hr.timed r hrmem)
      rw [hwidth, ← hlr] at hok ⊢
      rw [← hll] at hparts
      refine TemporalSides.replaces_swapped hparts hequi hequalities ?_ hrow (hok r hrmem l hlmem)
      rw [hlr]
      exact equality_inside hj hsl hsr

/-- What a pair shows of its left row comes first. -/
theorem pick_in_order (hsl : left.Sound) (hl : l.length = left.width) (rest : Row) :
    (l ++ rest).pick (left.select.targets ++ right.select.targets.map (left.width + ·))
      = (left.shown l).visible ++ rest.pick right.select.targets := by
  rw [Row.pick, List.map_append]
  refine congrArg₂ (· ++ ·) (Row.pick_left rest fun c hc => hl ▸ hsl.select_lt c hc) ?_
  rw [← hl]
  exact Row.pick_right l rest _

/-- So it does where the right row stands in front. -/
theorem pick_swapped (hsr : right.Sound) (hr : r.length = right.width) :
    (r ++ l).pick (left.select.targets.map (right.width + ·) ++ right.select.targets)
      = (left.shown l).visible ++ (right.shown r).visible := by
  rw [Row.pick, List.map_append]
  refine congrArg₂ (· ++ ·) ?_ (Row.pick_left l fun c hc => hr ▸ hsr.select_lt c hc)
  rw [← hr]
  exact Row.pick_right r l _

section Loops

variable (hj : of left right kind condition = .ok j) (hsl : left.Sound) (hsr : right.Sound)
  (hl : left.HasRows fixture ls) (hr : right.HasRows fixture rs)
include hj hsl hsr hl hr

/-- A condition that replaces that of the join on all pairs is as true as the written
one on what the rows show, unless the written one leaves 64 bits. -/
theorem pairs_agree {rebuilt : Expr} {pair : Row → Row → Row}
    (h : ∀ l ∈ ls, ∀ r ∈ rs, Replaces now j.condition (l ++ r) rebuilt (pair l r)) :
    (∃ l ∈ ls, ∃ r ∈ rs,
        Overflows (evalExpr now ((left.shown l).visible ++ (right.shown r).visible) condition)) ∨
      ∀ l ∈ ls, ∀ r ∈ rs,
        (∃ v, evalExpr now ((left.shown l).visible ++ (right.shown r).visible) condition = .ok v) ∧
          trueOn now condition ((left.shown l).visible ++ (right.shown r).visible)
            = trueOn now rebuilt (pair l r) := by
  obtain ⟨-, -, -, hmoved, -⟩ := of_eq_ok hj
  by_cases hover : ∃ l ∈ ls, ∃ r ∈ rs,
      Overflows (evalExpr now ((left.shown l).visible ++ (right.shown r).visible) condition)
  · exact .inl hover
  · refine .inr fun l hlmem r hrmem => ?_
    have hsees := sees_of_pair hsl hsr (hl.shaped l hlmem) (hr.shaped r hrmem)
    have hreplaces := h l hlmem r hrmem
    rw [Replaces, trueOn_remap hsees hmoved, evalExpr_remap hsees hmoved] at hreplaces
    exact hreplaces.resolve_left fun he => hover ⟨l, hlmem, r, hrmem, he⟩

/-- **A planned join that keeps the sides** has the rows of the nested loop, in order. -/
theorem PairsInOrder.reference (h : PairsInOrder now j out ls rs above) :
    (∃ l ∈ ls, ∃ r ∈ rs,
        Overflows (evalExpr now ((left.shown l).visible ++ (right.shown r).visible) condition)) ∨
      joinRows now j.plannedKind condition left.select.sources right.select.sources
          (ls.map fun row => (left.shown row).visible) (rs.map fun row => (right.shown row).visible)
        = .ok (above.map fun row => (out.shown row).visible) := by
  obtain ⟨rebuilt, hreplaces, habove⟩ := h.rows
  have hselect := h.select
  refine (pairs_agree hj hsl hsr hl hr hreplaces).imp_right fun hagree => ?_
  obtain ⟨rfl, rfl, -⟩ := of_eq_ok hj
  refine (joinRows_eq_ok j.keepsRight_plannedKind).2 ⟨?_, ?_⟩
  · simp only [List.forall_mem_map]
    exact fun l hlmem r hrmem => (hagree l hlmem r hrmem).1
  · rw [habove]
    have hfront : ∀ l ∈ ls, ∀ rest : Row, (out.shown (l ++ rest)).visible
        = (j.left.shown l).visible ++ rest.pick j.right.select.targets := fun l hlmem rest => by
      rw [Plan.visible_shown, hselect, pick_in_order hsl (hl.shaped l hlmem)]
    refine flatMap_joinedWith_map (fun l hlmem r _ => hfront l hlmem r) (fun l hlmem => ?_)
      fun l hlmem r hrmem => (hagree l hlmem r hrmem).2
    rw [hfront l hlmem, Row.pick_padding]
    rfl

/-- **A planned join that swaps the sides** has the rows of the nested loop. -/
theorem PairsSwapped.reference (h : PairsSwapped now j out ls rs above) :
    (∃ l ∈ ls, ∃ r ∈ rs,
        Overflows (evalExpr now ((left.shown l).visible ++ (right.shown r).visible) condition)) ∨
      ∃ reference, joinRows now j.plannedKind condition left.select.sources right.select.sources
          (ls.map fun row => (left.shown row).visible) (rs.map fun row => (right.shown row).visible)
        = .ok reference ∧ (above.map fun row => (out.shown row).visible).Perm reference := by
  obtain ⟨rebuilt, hreplaces, habove⟩ := h.rows
  have hselect := h.select
  refine (pairs_agree hj hsl hsr hl hr hreplaces).imp_right fun hagree => ?_
  obtain ⟨rfl, rfl, -⟩ := of_eq_ok hj
  refine ⟨_, (joinRows_eq_ok j.keepsRight_plannedKind).2 ⟨?_, rfl⟩, ?_⟩
  · simp only [List.forall_mem_map]
    exact fun l hlmem r hrmem => (hagree l hlmem r hrmem).1
  · rw [habove, h.kind]
    refine flatMap_joinedWith_swap (fun l _ r hrmem => ?_)
      fun l hlmem r hrmem => (hagree l hlmem r hrmem).2
    rw [Plan.visible_shown, hselect, pick_swapped hsr (hr.shaped r hrmem)]

end Loops

end JoinInputs

namespace Converter

variable {c : Converter} {fixture : Fixture} {q p : Rel} {left right : Plan} {kind : JoinKind}
  {condition : Expr} {hint : Option JoinHint} {j : JoinInputs}
  {lefts rights joined : List AnsweredRow}

/-- **The answer of a join** by time, within written time bounds or of current values
is, up to the order of its rows, the nested loop over the answers of its inputs on the
condition as it is written, unless that leaves 64 bits on a pair. Left rows without a
partner are kept if the query asks for it, and the columns are in the written order.

A side of a window that has no bound is bounded by 999 years, so the times that the
inputs show must not be further apart. -/
theorem join_joins_answers (hb : c.catalog.Built) (hf : fixture.Fits c.catalog)
    (hleft : c.convert q = .ok left) (hright : c.convert p = .ok right)
    (hj : JoinInputs.of left right kind condition = .ok j) (hrule : j.rule c ≠ .entity)
    (hwritten : j.rule c = .interval → j.parts.timeBounds ≠ [])
    (hnear : j.rule c = .interval → left.NearTimes right lefts rights)
    (hlefts : c.Answers fixture q lefts) (hrights : c.Answers fixture p rights)
    (hjoined : c.Answers fixture (.join q p kind condition hint) joined) :
    (∃ l ∈ lefts, ∃ r ∈ rights,
        Overflows (evalExpr fixture.now (l.visible ++ r.visible) condition)) ∨
      ∃ reference, joinRows fixture.now (if kind = .left then .left else .inner) condition
          left.select.sources right.select.sources (lefts.map AnsweredRow.visible)
          (rights.map AnsweredRow.visible) = .ok reference ∧
        (joined.map AnsweredRow.visible).Perm reference := by
  obtain ⟨left', ls, hleft', hls, rfl⟩ := answer_settled hlefts
  obtain rfl : left' = left := Except.ok.inj (hleft'.symm.trans hleft)
  obtain ⟨right', rs, hright', hrs, rfl⟩ := answer_settled hrights
  obtain rfl : right' = right := Except.ok.inj (hright'.symm.trans hright)
  obtain ⟨final, above, hfinal, habove, rfl⟩ := answer_settled hjoined
  rw [convert, hleft, hright] at hfinal
  obtain ⟨_, -, hfinal⟩ := bind_eq_ok.1 hfinal
  rw [ok_bind, ok_bind, hj, ok_bind] at hfinal
  obtain ⟨out, hout, hfinal⟩ := bind_eq_ok.1 hfinal
  obtain ⟨hsettled, hshown⟩ := finish_answers hfinal
  rw [hsettled] at habove
  rw [hshown]
  obtain ⟨hsl, hrl⟩ := regular_of_convert hb.linked hf hleft
  obtain ⟨hsr, hrr⟩ := regular_of_convert hb.linked hf hright
  have hl := hrl.hasRows hls
  have hr := hrr.hasRows hrs
  have hkind : j.plannedKind = if kind = .left then .left else .inner := by
    rw [JoinInputs.plannedKind, (JoinInputs.of_eq_ok hj).2.2.1]
  -- every rule joins the rows of both inputs; only a join by time may swap them
  have hpairs : j.PairsInOrder fixture.now out ls rs above ∨
      j.PairsSwapped fixture.now out ls rs above := by
    have hplanned := joined_by_rule hout
    have hsides := JoinInputs.of_eq_ok hj
    cases hr' : j.rule c with
    | entity => exact absurd hr' hrule
    | temporal =>
      rw [hr'] at hplanned
      exact JoinInputs.temporalPlan_pairs hj hsl hsr hrl hrr hl hr hplanned habove
    | interval =>
      rw [hr'] at hplanned
      refine .inl (JoinInputs.intervalPlan_pairs ?_ ?_ hj hsl hsr (hwritten hr') (hnear hr')
        hplanned habove)
      · rwa [hsides.1]
      · rwa [hsides.2.1]
    | current =>
      rw [hr'] at hplanned
      refine .inl (JoinInputs.statePlan_pairs ?_ ?_ hplanned habove)
      · rwa [hsides.1]
      · rwa [hsides.2.1]
  have hover : (∃ l ∈ ls, ∃ r ∈ rs, Overflows
        (evalExpr fixture.now ((left'.shown l).visible ++ (right'.shown r).visible) condition)) →
      ∃ l ∈ ls.map left'.shown, ∃ r ∈ rs.map right'.shown,
        Overflows (evalExpr fixture.now (l.visible ++ r.visible) condition) := by
    rintro ⟨l, hlmem, r, hrmem, h⟩
    exact ⟨_, List.mem_map_of_mem hlmem, _, List.mem_map_of_mem hrmem, h⟩
  rw [List.map_map, List.map_map, List.map_map, ← hkind]
  rcases hpairs with hpairs | hpairs
  · exact (hpairs.reference hj hsl hsr hl hr).imp hover fun h => ⟨_, h, .refl _⟩
  · exact (hpairs.reference hj hsl hsr hl hr).imp_left hover

/-- The first event was before the second. -/
def before : Expr := .binary .lt (.column 1) (.column 3)

/-- Of three events the pulled-up now-filter of both sides keeps two. The one that
no event follows is kept beside nulls. -/
theorem earlier_event_is_joined :
    let events := eventsAt [(1, 990), (2, 950), (3, 800)]
    let answer := [⟨[.int 1, .timestamp 990], [.int 1]⟩, ⟨[.int 2, .timestamp 950], [.int 2]⟩]
    let rows := [[.int 1, .timestamp 990, .null, .null],
      [.int 2, .timestamp 950, .int 1, .timestamp 990]]
    overEvents.Answers events scannedEvents answer ∧
      ∃ joined, overEvents.Answers events (.join scannedEvents scannedEvents .left before none) joined ∧
        joined.map AnsweredRow.visible = rows ∧
        ((∃ l ∈ answer, ∃ r ∈ answer,
            Overflows (evalExpr events.now (l.visible ++ r.visible) before)) ∨
          ∃ reference, joinRows events.now .left before 2 2 (answer.map AnsweredRow.visible)
              (answer.map AnsweredRow.visible) = .ok reference ∧ rows.Perm reference) := by
  intro events answer rows
  have hanswer : overEvents.Answers events scannedEvents answer := ⟨_, _, _, rfl, rfl, rfl⟩
  have hjoined : overEvents.Answers events (.join scannedEvents scannedEvents .left before none)
      (rows.map fun row => ⟨row, row.take 1 ++ (row.drop 2).take 1⟩) := ⟨_, _, _, rfl, rfl, rfl⟩
  obtain ⟨plan, j, hplan, hj, hrule, hwritten, hnear, hsources⟩ : ∃ plan j,
      overEvents.convert scannedEvents = .ok plan ∧ JoinInputs.of plan plan .left before = .ok j ∧
        j.rule overEvents = .interval ∧ j.parts.timeBounds ≠ [] ∧
        plan.NearTimes plan answer answer ∧ plan.select.sources = 2 :=
    ⟨_, _, rfl, rfl, rfl, by decide, by unfold Plan.NearTimes; decide, rfl⟩
  have hreference := join_joins_answers overEvents_built (eventsAt_fits _) hplan hplan hj
    (by rw [hrule]; decide) (fun _ => hwritten) (fun _ => hnear) hanswer hanswer hjoined
  rw [hsources] at hreference
  exact ⟨hanswer, _, hjoined, rfl, hreference⟩

/-- The events with the ends of their hours for times. -/
def endsOfHours : Rel :=
  .project scannedEvents [⟨.column 0, ⟨"id", .int64, false⟩⟩,
    ⟨.call .endOfHour [.column 1], ⟨"at", .timestamp, true⟩⟩] none

/-- The first time is not after the second. -/
def notAfter : Expr := .binary .le (.column 1) (.column 3)

/-- Two times are 999 years apart. Moved to the end of its hour one of them is further
away, and the bound of the open side excludes the pair. -/
theorem far_hour_is_not_joined :
    let converter := overPlainEvents (.stream "stream")
    let times := [(1, 0), (2, unboundedMillis)]
    let answer := [⟨[.int 1, .timestamp 0], [.int 1]⟩,
      ⟨[.int 2, .timestamp unboundedMillis], [.int 2]⟩]
    let hours := [⟨[.int 1, .timestamp 3599999], [.int 1]⟩,
      ⟨[.int 2, .timestamp (unboundedMillis + 3599999)], [.int 2]⟩]
    converter.catalog.Built ∧ (eventsAt times).Fits converter.catalog ∧
      (∀ s ∈ times, ∀ t ∈ times, s.2 - t.2 ≤ unboundedMillis) ∧
      (∃ left right j, converter.convert scannedEvents = .ok left ∧
        converter.convert endsOfHours = .ok right ∧
        JoinInputs.of left right .inner notAfter = .ok j ∧ j.rule converter = .interval ∧
        j.parts.timeBounds ≠ []) ∧
      converter.Answers (eventsAt times) scannedEvents answer ∧
      converter.Answers (eventsAt times) endsOfHours hours ∧
      ∃ joined reference,
        converter.Answers (eventsAt times) (.join scannedEvents endsOfHours .inner notAfter none)
          joined ∧
        joinRows (eventsAt times).now .inner notAfter 2 2 (answer.map AnsweredRow.visible)
          (hours.map AnsweredRow.visible) = .ok reference ∧
        ¬(joined.map AnsweredRow.visible).Perm reference := by
  intro converter times answer hours
  refine ⟨overPlainEvents_built _, plainEvents_fits _ _, by decide,
    ⟨_, _, _, rfl, rfl, rfl, rfl, by decide⟩, ⟨_, _, _, rfl, rfl, rfl⟩, ⟨_, _, _, rfl, rfl, rfl⟩,
    [⟨[.int 1, .timestamp 0, .int 1, .timestamp 3599999], [.int 1, .int 1]⟩,
      ⟨[.int 2, .timestamp unboundedMillis, .int 2, .timestamp (unboundedMillis + 3599999)],
        [.int 2, .int 2]⟩], _, ⟨_, _, _, rfl, rfl, rfl⟩, rfl, fun h => ?_⟩
  exact absurd h.length_eq (by decide)

end Converter

end StreamPlan
