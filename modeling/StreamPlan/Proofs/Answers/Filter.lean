import StreamPlan.Proofs.Answers.Pending

/-!
# Answers of filters

A filter splits its predicate: comparisons of a timestamp with the current time
become part of the pending now-filter, the other conditions an operator below it.

* `Plan.Extracted`: on a row, the conditions say together with the now-filter
  that was pending what the remaining ones say with the new now-filter
  (`extracted_of_eq_ok`).
* `Converter.filter_restricts_answer`: **the answer of a filter** is the answer
  of its input restricted to the rows on which the predicate is true.
-/

namespace StreamPlan

variable {now : Int} {row : Row}

/-- The evaluation leaves 64 bits. -/
def Overflows (x : Eval Value) : Prop := x = .error (.fault .arithmeticOverflow)

theorem not_overflows {x : Eval Value} {v : Value} (h : x = .ok v) : ¬Overflows x := by
  intro he
  rw [Overflows, h] at he
  cases he

/-- A condition that means something overflows or has a value. -/
theorem Means.settled {x : Eval Value} {p : Prop} (h : Means x p) : Overflows x ∨ ∃ v, x = .ok v :=
  h.imp_right fun ⟨v, hv, _⟩ => ⟨v, hv⟩

/-- **A predicate is true when all its conditions are**, if they have values. -/
theorem evalExpr_conjuncts {e : Expr}
    (h : ∀ k ∈ e.conjuncts, Overflows (evalExpr now row k) ∨ ∃ v, evalExpr now row k = .ok v) :
    Overflows (evalExpr now row e) ∨ (∀ k ∈ e.conjuncts, ∃ v, evalExpr now row k = .ok v) ∧
      ∃ v, evalExpr now row e = .ok v ∧ v.isTrue = e.conjuncts.all (trueOn now · row) := by
  have hmeans := means_of_conjuncts (P := fun k => trueOn now k row = true) e fun k hk =>
    (h k hk).imp_right fun ⟨v, hv⟩ => ⟨v, hv, by rw [trueOn_of_ok hv]⟩
  rcases hmeans with he | ⟨v, hv, htrue⟩
  · exact .inl he
  · refine .inr ⟨conjuncts_of_evalExpr e hv, v, hv, ?_⟩
    rw [Bool.eq_iff_iff, htrue, List.all_eq_true]

namespace Plan

variable {plan out : Plan} {catalog : Catalog} {fixture : Fixture}

/-- The now-filter that a condition states keeps the rows on which it is true. -/
theorem statedNowFilter_means {time : EventTime} {condition : Expr} {filter : NowFilter}
    (h : statedNowFilter time condition = .ok (some filter)) (ht : ∀ i ∈ time.columns, row.Timed i) :
    Means (evalExpr now row condition) (filter.keeps now row = true) := by
  unfold statedNowFilter at h
  split at h
  · obtain ⟨bound, hbound, h⟩ := bind_eq_ok.1 h
    rcases bound with _ | bound
    · cases h
    · have hmeans : Means (evalExpr now row condition) (bound.Holds now row) :=
        TimeBound.ofExpr?_means (fun i hi => ht i (EventTime.isCandidate_iff.1 hi)) hbound
      exact hmeans.congr ((NowFilter.ofBound?_holds h).symm.trans NowFilter.keeps_iff.symm)
  · cases h

/-- A merged now-filter keeps the rows that both keep. -/
theorem keeps_mergedWith {filter merged : NowFilter} (h : plan.mergedWith filter = .ok merged) :
    merged.keeps now row = (plan.keeps now row && filter.keeps now row) := by
  unfold mergedWith at h
  split at h
  · rename_i hn
    cases h
    rw [keeps_of_none hn, Bool.true_and]
  · rename_i pending hp
    split at h
    · rename_i both hboth
      cases h
      rw [keeps_of_some hp, NowFilter.keeps_merge? hboth]
    · cases h

/-- What extracting now-filters from conditions does on a row. -/
structure Extracted (now : Int) (row : Row) (plan out : Plan) (conditions remaining : List Expr) :
    Prop where
  /-- A condition that does not remain says something about times. -/
  stated : ∀ k ∈ conditions, k ∈ remaining ∨
    Overflows (evalExpr now row k) ∨ ∃ v, evalExpr now row k = .ok v
  /-- No condition is lost or weakened. -/
  exact : (∀ k ∈ conditions, ∃ v, evalExpr now row k = .ok v) →
    (conditions.all (trueOn now · row) && plan.keeps now row)
      = (remaining.all (trueOn now · row) && out.keeps now row)
  /-- The now-filter that was pending still applies. -/
  pending : out.keeps now row = true → plan.keeps now row = true

/-- **Extracting now-filters** loses and weakens nothing. -/
theorem extracted_of_eq_ok {conditions remaining : List Expr} :
    ∀ {plan : Plan}, (∀ i ∈ plan.time.columns, row.Timed i) →
      plan.extractNowFilters conditions = .ok (out, remaining) →
      Extracted now row plan out conditions remaining := by
  induction conditions generalizing remaining with
  | nil =>
    intro plan _ h
    cases h
    exact ⟨by simp, fun _ => rfl, id⟩
  | cons condition conditions ih =>
    intro plan ht h
    unfold extractNowFilters at h
    obtain ⟨stated, hstated, h⟩ := bind_eq_ok.1 h
    -- the condition stays, or the now-filter it states joins the pending one and fixes the time
    rcases stated with _ | filter
    · obtain ⟨⟨next, rest⟩, hnext, h⟩ := bind_eq_ok.1 h
      cases h
      obtain ⟨hrest, hexact, hpending⟩ := ih ht hnext
      refine ⟨fun k hk => ?_, fun hc => ?_, hpending⟩
      · rcases List.mem_cons.1 hk with rfl | hk
        · exact .inl List.mem_cons_self
        · exact (hrest k hk).imp_left (List.mem_cons_of_mem condition)
      · obtain ⟨-, hc⟩ := List.forall_mem_cons.1 hc
        rw [List.all_cons, List.all_cons, Bool.and_assoc, Bool.and_assoc, hexact hc]
    · obtain ⟨next, hnext, h⟩ := bind_eq_ok.1 h
      have hmeans : Means (evalExpr now row condition) (filter.keeps now row = true) :=
        statedNowFilter_means (lift_eq_ok.1 hstated) ht
      obtain ⟨merged, time, hmerged, hfix, rfl⟩ := addNowFilter_eq_ok hnext
      obtain ⟨hcolumns, -, hmem⟩ := EventTime.fix_columns hfix
      have ht' : ∀ i ∈ time.columns, row.Timed i := by
        intro i hi
        rw [hcolumns, List.mem_singleton] at hi
        exact hi ▸ ht _ hmem
      have hkeeps : keeps now { plan with time, nowFilter := some merged } row
          = (plan.keeps now row && filter.keeps now row) :=
        (keeps_of_some rfl).trans (keeps_mergedWith hmerged)
      obtain ⟨hrest, hexact, hpending⟩ := ih ht' h
      refine ⟨fun k hk => ?_, fun hc => ?_, fun hout => ?_⟩
      · rcases List.mem_cons.1 hk with rfl | hk
        · exact .inr hmeans.settled
        · exact hrest k hk
      · obtain ⟨⟨v, hv⟩, hc⟩ := List.forall_mem_cons.1 hc
        have hcondition : trueOn now condition row = filter.keeps now row := by
          rw [trueOn_of_ok hv, Bool.eq_iff_iff, hmeans.of_ok hv]
        rw [← hexact hc, hkeeps, List.all_cons, hcondition]
        cases filter.keeps now row <;> cases plan.keeps now row <;> simp
      · have hboth := hpending hout
        rw [hkeeps, Bool.and_eq_true] at hboth
        exact hboth.1

/-- The rows above an operator of the remaining conditions, if there are any. -/
theorem rows_of_remaining {remaining : List Expr} {rel : Rel} {above : List Row}
    (h : evaluate fixture (if remaining.isEmpty then rel else .filter rel (.all remaining))
      = .ok above) :
    ∃ rows, evaluate fixture rel = .ok rows ∧
      (∀ row ∈ rows, ∀ k ∈ remaining, ∃ v, evalExpr fixture.now row k = .ok v) ∧
      above = rows.filter fun row => remaining.all (trueOn fixture.now · row) := by
  split at h
  · rename_i hempty
    rw [List.isEmpty_iff.1 hempty]
    exact ⟨above, h, by simp, (List.filter_eq_self.2 fun _ _ => rfl).symm⟩
  · rw [evaluate] at h
    obtain ⟨rows, hrows, h⟩ := bind_eq_ok.1 h
    obtain ⟨hall, rfl⟩ := filterRows_eq_ok.1 h
    refine ⟨rows, hrows, fun row hr => ?_, List.filter_congr fun row _ => ?_⟩
    · obtain ⟨v, hv⟩ := hall row hr
      exact (evalExpr_all hv).1
    · rw [Bool.eq_iff_iff, trueOn_all, List.all_eq_true]

/-- A filter takes now-filters out of its predicate and leaves an operator for
the other conditions. It shows what its input does, and has its key. -/
theorem filtered_eq_ok {predicate : Expr} (h : plan.filtered predicate = .ok out) :
    ∃ base moved next remaining, plan.withoutTopN = .ok base ∧
      predicate.remap plan.select.apply = .ok moved ∧
      base.extractNowFilters moved.conjuncts = .ok (next, remaining) ∧
      out.rel = (if remaining.isEmpty then base.rel else .filter base.rel (.all remaining)) ∧
      out.nowFilter = next.nowFilter ∧ out.time = next.time ∧ out.topN.isEmpty = true ∧
      out.shown = plan.shown ∧ out.key = plan.key ∧
      (out.lineage = none ∨ out.lineage = plan.lineage) := by
  unfold filtered at h
  obtain ⟨base, hbase, h⟩ := bind_eq_ok.1 h
  obtain ⟨moved, hmoved, h⟩ := bind_eq_ok.1 h
  obtain ⟨⟨next, remaining⟩, hnext, h⟩ := bind_eq_ok.1 h
  obtain ⟨hset, hempty, -⟩ := withoutTopN_settled hbase
  rw [hset.select] at hmoved
  refine ⟨base, moved, next, remaining, hbase, lift_eq_ok.1 hmoved, hnext, ?_⟩
  obtain ⟨time, nowFilter, rfl, -⟩ := extractNowFilters_shape hnext
  rw [← shown_settled hset]
  simp only at h
  split at h
  · rename_i hno
    cases h
    exact ⟨(if_pos hno).symm, rfl, rfl, hempty, rfl, hset.key, .inr hset.lineage⟩
  · rename_i hsome
    obtain ⟨needs, -, h⟩ := bind_eq_ok.1 h
    cases h
    exact ⟨(if_neg hsome).symm, rfl, rfl, hempty, rfl, hset.key, .inl rfl⟩

/-- The rows of the plan of a filter are rows of its input: those on which the
predicate is true, if it overflows on none. -/
theorem filtered_rows {predicate : Expr} {rows above : List Row} (hs : plan.Sound)
    (hr : plan.Regular catalog fixture) (hone : plan.nowFilter = none ∨ plan.topN.isEmpty = true)
    (ho : plan.filtered predicate = .ok out) (hrows : evaluate fixture plan.settledRel = .ok rows)
    (habove : evaluate fixture out.settledRel = .ok above) :
    (∃ row ∈ rows, Overflows (evalExpr fixture.now (plan.shown row).visible predicate)) ∨
      (∀ row ∈ rows, ∃ v, evalExpr fixture.now (plan.shown row).visible predicate = .ok v) ∧
        above = rows.filter fun row => trueOn fixture.now predicate (plan.shown row).visible := by
  obtain ⟨base, moved, next, remaining, hbase, hmoved, hnext, hrel, hnow, htime, hempty, -⟩ :=
    filtered_eq_ok ho
  have hset := (withoutTopN_settled hbase).1
  have hsb := hset.sound hs
  have hrb := hr.withoutTopN hbase
  have hpending := extractNowFilters_pending hsb.nowFilter hnext
  -- both trees, down to the rows that they share
  rw [← filteredRel_of_withoutTopN hone hbase] at hrows
  rw [settledRel_eq_filteredRel hempty] at habove
  obtain ⟨below, hbelow, rfl⟩ := rows_of_filteredRel (hrb.filtersTimes hsb.nowFilter) hrows
  obtain ⟨mid, hmid, rfl⟩ := rows_of_filteredRel
    ((hr.filtered ho).filtersTimes (by rw [hnow, htime]; exact hpending)) habove
  rw [hrel] at hmid
  obtain ⟨below', hbelow', hremaining, rfl⟩ := rows_of_remaining hmid
  obtain rfl : below' = below := Except.ok.inj (hbelow'.symm.trans hbelow)
  have hout : ∀ row, out.keeps fixture.now row = next.keeps fixture.now row := fun row => by
    rw [keeps, keeps, hnow]
  have hextracted : ∀ row ∈ below', Extracted fixture.now row base next moved.conjuncts remaining :=
    fun row hrow => extracted_of_eq_ok (hrb.timed _ hbelow row hrow) hnext
  have hvisible : ∀ row ∈ below', evalExpr fixture.now row moved
      = evalExpr fixture.now (plan.shown row).visible predicate := fun row hrow =>
    evalExpr_remap (hs.sees ((hrb.shaped _ hbelow row hrow).trans hset.width)) hmoved
  by_cases hover : ∃ row ∈ below'.filter (base.keeps fixture.now),
      Overflows (evalExpr fixture.now (plan.shown row).visible predicate)
  · exact .inl hover
  · have hvalue : ∀ row ∈ below', base.keeps fixture.now row = true →
        (∀ k ∈ moved.conjuncts, ∃ v, evalExpr fixture.now row k = .ok v) ∧
          ∃ v, evalExpr fixture.now (plan.shown row).visible predicate = .ok v ∧
            v.isTrue = moved.conjuncts.all (trueOn fixture.now · row) := by
      intro row hrow hkeeps
      have hstated := evalExpr_conjuncts (e := moved) fun k hk =>
        ((hextracted row hrow).stated k hk).elim (fun hmem => .inr (hremaining row hrow k hmem)) id
      rw [hvisible row hrow] at hstated
      rcases hstated with he | hok
      · exact absurd ⟨row, List.mem_filter.2 ⟨hrow, hkeeps⟩, he⟩ hover
      · exact hok
    refine .inr ⟨fun row hrow => ?_, ?_⟩
    · obtain ⟨hmem, hkeeps⟩ := List.mem_filter.1 hrow
      obtain ⟨-, v, hv, -⟩ := hvalue row hmem hkeeps
      exact ⟨v, hv⟩
    · rw [List.filter_filter, List.filter_filter]
      refine List.filter_congr fun row hrow => ?_
      rw [hout]
      cases hkeeps : base.keeps fixture.now row with
      | false =>
        have hnone : next.keeps fixture.now row = false := by
          rw [← Bool.not_eq_true]
          exact fun h => by rw [(hextracted row hrow).pending h] at hkeeps; cases hkeeps
        rw [hnone, Bool.and_false, Bool.false_and]
      | true =>
        obtain ⟨hok, v, hv, htrue⟩ := hvalue row hrow hkeeps
        have hexact := (hextracted row hrow).exact hok
        rw [hkeeps, Bool.and_true] at hexact
        rw [trueOn_of_ok hv, htrue, hexact, Bool.and_true, Bool.and_comm]

end Plan

namespace Converter

variable {c : Converter} {fixture : Fixture} {q : Rel} {predicate : Expr}
  {answer filtered : List AnsweredRow}

/-- **The answer of a filter** is the answer of its input restricted, in order,
to the rows on which the predicate is true, unless the predicate overflows on
one of them: whatever becomes a now-filter, is merged with a pending one or is
left for later, and with a ranking of the input applied first. -/
theorem filter_restricts_answer (hb : c.catalog.Built) (hone : c.catalog.PullsOne)
    (hf : fixture.Fits c.catalog) (hanswer : c.Answers fixture q answer)
    (hfiltered : c.Answers fixture (.filter q predicate) filtered) :
    (∃ row ∈ answer, Overflows (evalExpr fixture.now row.visible predicate)) ∨
      (∀ row ∈ answer, ∃ v, evalExpr fixture.now row.visible predicate = .ok v) ∧
        filtered = answer.filter fun row => trueOn fixture.now predicate row.visible := by
  obtain ⟨plan, rows, hplan, hrows, rfl⟩ := answer_settled hanswer
  obtain ⟨final, above, hfinal, habove, rfl⟩ := answer_settled hfiltered
  rw [convert] at hfinal
  obtain ⟨input, hinput, hfinal⟩ := bind_eq_ok.1 hfinal
  obtain rfl : input = plan := Except.ok.inj (hinput.symm.trans hplan)
  obtain ⟨out, hout, hfinal⟩ := bind_eq_ok.1 hfinal
  obtain ⟨hs, hr⟩ := regular_of_convert hb.linked hf hplan
  obtain ⟨hsettled, hshown⟩ := finish_answers hfinal
  rw [hsettled] at habove
  obtain ⟨_, _, _, _, -, -, -, -, -, -, -, hselect, -⟩ := Plan.filtered_eq_ok hout
  rw [hshown, hselect]
  rcases Plan.filtered_rows hs hr (hr.single hone) hout hrows habove with ⟨row, hrow, hover⟩ | ⟨hok, he⟩
  · exact .inl ⟨_, List.mem_map_of_mem hrow, hover⟩
  · refine .inr ⟨List.forall_mem_map.2 hok, ?_⟩
    rw [he, List.filter_map]
    rfl

/-- An event of the last fifty milliseconds, but not the first one. -/
def isLate : Expr :=
  .binary .and (.binary .gt (.column 1) (.binary .minus .now (.interval 50)))
    (.binary .gt (.column 0) (.literal (.int 1)))

/-- Of four events the pulled-up now-filter keeps three; the predicate is true
of one of them. -/
theorem filter_keeps_late_event :
    let events := eventsAt [(1, 990), (2, 960), (3, 930), (4, 800)]
    let answer := [⟨[.int 1, .timestamp 990], [.int 1]⟩, ⟨[.int 2, .timestamp 960], [.int 2]⟩,
      ⟨[.int 3, .timestamp 930], [.int 3]⟩]
    overEvents.Answers events scannedEvents answer ∧
      overEvents.Answers events (.filter scannedEvents isLate) [⟨[.int 2, .timestamp 960], [.int 2]⟩] ∧
      ((∃ row ∈ answer, Overflows (evalExpr events.now row.visible isLate)) ∨
        (∀ row ∈ answer, ∃ v, evalExpr events.now row.visible isLate = .ok v) ∧
          [⟨[.int 2, .timestamp 960], [.int 2]⟩]
            = answer.filter fun row => trueOn events.now isLate row.visible) := by
  intro events answer
  have hall : overEvents.Answers events scannedEvents answer := ⟨_, _, _, rfl, rfl, rfl⟩
  have hlate : overEvents.Answers events (.filter scannedEvents isLate)
      [⟨[.int 2, .timestamp 960], [.int 2]⟩] := ⟨_, _, _, rfl, rfl, rfl⟩
  exact ⟨hall, hlate, filter_restricts_answer overEvents_built overEvents_pullsOne
    (eventsAt_fits _) hall hlate⟩

end Converter

end StreamPlan
